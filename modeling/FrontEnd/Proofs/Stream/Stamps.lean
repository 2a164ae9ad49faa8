import FrontEnd.Proofs.Stream.Lexemes

/-!
# What a token takes of the stamps

Where only one pattern can start, one match is made for a token. It takes a stamp, one for each
character of the lexeme, and one for the character behind it, where the pattern cannot be read on.
So the stamps that are left can be counted from token to token, **up to the match that has none**.

- `TokenTable.TriesOnly.wins`: how far the lexeme of the only pattern goes;
- `Workspace.Spent`: so many stamps are taken, and a state was not met by then;
- `TokenTable.Cuts.of_wins`, `TokenTable.Cuts.of_lost`: the token that is taken off, and its stamps;
- `TokenTable.Cuts.of_spent`: **what a token takes of the stamps**.
-/

namespace FrontEnd

/-- A text that is accepted from a state is read by the states. -/
theorem Automaton.reads_of_acceptsFrom {a : Automaton} {s : Nat} {text : List Char} {d : Char}
    (h : AcceptsFrom a.states s text) (hd : d ∈ text) : a.reads d = true := by
  obtain ⟨n, hr⟩ := h
  induction hr with
  | accept => cases hd
  | read hstate hc hrest ih =>
    rcases List.mem_cons.1 hd with rfl | hd
    · exact reads_of_state hstate hc
    · exact ih hd
  | left hstate hrest ih => exact ih hd
  | right hstate hrest ih => exact ih hd

namespace TokenTable

variable {t : TokenTable} {w w' : Workspace} {cur cur' : Cursor} {token : Token}
  {ts later : List Token} {c d : Char} {n k : Fin 65536} {a : Automaton} {u v rest : List Char}

/-! ## The lexeme of the only pattern -/

/-- Where one pattern is tried, a rule accepts what the pattern accepts. -/
theorem TriesOnly.takes_iff (h : t.TriesOnly c n a) (ht : t.Indexed) :
    t.Takes k (c :: v) ↔ k = n ∧ a.Accepts (c :: v) := by
  constructor
  · rintro ⟨⟨name, form, trivia⟩, hrule, hmem⟩
    cases form with
    | literal lexeme =>
      have hlexeme : c :: v = lexeme := hmem
      exact absurd ⟨_, hrule, congrArg (LexemeForm.code? ∘ .literal) hlexeme.symm⟩ (h.unwritten k)
    | pattern automaton =>
      obtain ⟨p, hp, rfl, -⟩ := ht.sound _ _ hrule
      have haccepts : (Automaton.ofPattern p).Accepts (c :: v) := hmem
      have hstart := Automaton.canStartWith_of_mem hp ((Automaton.accepts_ofPattern hp).1 haccepts)
      have htried := tried?_eq_some_iff.2 ⟨_, hrule, rfl, hstart⟩
      obtain rfl : k = n := Decidable.byContradiction fun hne => by
        rw [h.only k hne] at htried
        cases htried
      exact ⟨rfl, Option.some.inj (htried.symm.trans h.tried) ▸ haccepts⟩
  · rintro ⟨rfl, haccepts⟩
    obtain ⟨rule, hrule, hform, -⟩ := tried?_eq_some_iff.1 h.tried
    refine ⟨rule, hrule, ?_⟩
    dsimp only
    rw [hform]
    exact haccepts

/-- The lexeme of the only pattern goes up to a character that the pattern does not read. -/
theorem TriesOnly.wins (h : t.TriesOnly c n a) (ht : t.Indexed) (hu : a.Accepts (c :: v))
    (hrest : ∀ d ∈ rest.head?, a.reads d = false) : t.Wins (c :: v ++ rest) (c :: v) n where
  first := List.prefix_append ..
  takes := (h.takes_iff ht).2 ⟨rfl, hu⟩
  best k x hx htakes := by
    obtain ⟨x, rfl, -⟩ := (List.prefix_cons_iff.1 hx).resolve_left (htakes.ne_nil ht)
    obtain ⟨rfl, haccepts⟩ := (h.takes_iff ht).1 htakes
    rcases List.prefix_or_prefix_of_prefix hx (List.prefix_append (c :: v) rest) with hle | ⟨y, hy⟩
    · rcases hle.length_le.lt_or_eq with hlt | heq
      · exact .inl hlt
      · exact .inr ⟨hle.eq_of_length heq, le_rfl⟩
    cases y with
    | nil => exact .inr ⟨by rw [← hy, List.append_nil], le_rfl⟩
    | cons d y =>
      obtain ⟨rest', hrest'⟩ := (List.prefix_append_right_inj (c :: v)).1 (hy ▸ hx)
      have hd := hrest d (by rw [← hrest']; rfl)
      rw [Automaton.reads_of_acceptsFrom haccepts (by rw [← hy]; simp)] at hd
      cases hd

/-! ## The token at the front -/

/-- Behind a character that belongs to no rule the text goes on. -/
theorem rest_of_unknown (ht : t.Indexed) (h : t.tokenAt? w cur = some token)
    (hid : token.id = .unknown) (hcur : cur.rest = c :: rest) :
    (cur.advanceBy (Text.size token.text.toList)).rest = rest := by
  obtain ⟨⟨later, hfirst⟩, -, hclass⟩ := tokenAt?_spec ht h
  rcases hclass with ⟨-, d, hd⟩ | ⟨n, hn, -⟩
  · rw [hd, String.toList_ofList] at hfirst ⊢
    obtain ⟨rfl, rfl⟩ := List.cons.inj (hfirst.trans hcur)
    exact Cursor.rest_advanceBy hcur
  · cases hid.symm.trans hn

/-- Where no rule accepts anything nothing is found. -/
theorem longestMatch_of_refuses (ht : t.Indexed) (h : t.Refuses u) (w : Workspace) :
    (t.longestMatch w u).1 = none := by
  refine Option.eq_none_iff_forall_ne_some.2 fun m hm => ?_
  obtain ⟨v, hv, htakes, -⟩ := takes_longestMatch ht hm
  exact h m.rule v hv htakes

/-- Where nothing is found a character is taken off. -/
theorem id_of_lost (hlost : (t.longestMatch w cur.rest).1 = none)
    (h : t.tokenAt? w cur = some token) : token.id = .unknown := by
  unfold tokenAt? at h
  split at h
  · cases h
  · next c rest hrest =>
    rw [← hrest, hlost] at h
    cases h
    rfl

namespace Cuts

/-- There are stamps enough for some tokens if there are for the first, and then for the others. -/
theorem lasts_cons (ht : t.Indexed) (h : t.Cuts w cur (token :: ts) cur') :
    w.Lasts (t.jobsIn (token :: ts)) ↔
      w.Lasts (t.jobs cur.rest) ∧ (w.after (t.jobs cur.rest)).Lasts (t.jobsIn ts) := by
  rw [jobsIn, (h.tiles ht).joined_eq, Workspace.lasts_append]

/-- With stamps enough for it the winning lexeme is taken off. -/
theorem of_wins (ht : t.Indexed) (hw : w.Dated) (hlasts : w.Lasts (t.jobs cur.rest))
    (hcur : cur.rest = u ++ rest) (hwins : t.Wins (u ++ rest) u n) (h : t.Cuts w cur ts cur') :
    ∃ token later left, ts = token :: later ∧ token.lexeme = ⟨.kind n, String.ofList u⟩ ∧
      left.rest = rest ∧ t.Cuts (w.after (t.jobs cur.rest)) left later cur' := by
  cases h with
  | done hnone =>
    have hnil := hcur.symm.trans (tokenAt?_eq_none_iff.1 hnone)
    exact absurd (List.append_eq_nil_iff.1 hnil).1 (hwins.ne_nil ht)
  | @token _ _ _ token later htaken hlater =>
    have hmunches := munches_tokenAt? ht hw hlasts htaken
    rw [hcur] at hmunches
    have hlexeme := hmunches.lexeme_unique (.wins hwins : t.Munches _ ⟨_, _, cur.position⟩)
    have htext : token.text = String.ofList u := congrArg Lexeme.text hlexeme
    refine ⟨token, later, _, rfl, hlexeme, ?_, workspace_longestMatch t w cur.rest ▸ hlater⟩
    rw [htext, String.toList_ofList]
    exact Cursor.rest_advanceBy hcur

/-- Where nothing is found, a character that belongs to no rule is taken off. -/
theorem of_lost (ht : t.Indexed) (hlost : (t.longestMatch w cur.rest).1 = none)
    (hcur : cur.rest = c :: rest) (h : t.Cuts w cur ts cur') :
    ∃ token later left, ts = token :: later ∧ token.id = .unknown ∧ left.rest = rest ∧
      t.Cuts (w.after (t.jobs cur.rest)) left later cur' := by
  cases h with
  | done hnone => cases hcur.symm.trans (tokenAt?_eq_none_iff.1 hnone)
  | token htaken hlater =>
    have hid := id_of_lost hlost htaken
    exact ⟨_, _, _, rfl, hid, rest_of_unknown ht htaken hid hcur,
      workspace_longestMatch t w cur.rest ▸ hlater⟩

end Cuts

end TokenTable

/-- Characters that belong to no rule are not left out. -/
theorem Lexer.countP_unknown {t : TokenTable} (ht : t.Indexed) (mode : TriviaMode)
    (text : List Char) : (tokenize t mode text).1.toList.countP (·.id = .unknown)
      = (tokenize t .keep text).1.toList.countP (·.id = .unknown) := by
  rw [(cuts_tokenize ht mode text).2, List.countP_filter]
  refine List.countP_congr fun token _ => ?_
  rw [Bool.and_eq_true, and_iff_left_of_imp]
  intro hid
  rw [TokenTable.shows_eq_true_iff, of_decide_eq_true hid]
  exact fun htrivia => Bool.false_ne_true htrivia.1

/-! ## Counting stamps -/

/-- So many stamps are taken, and by then the state was not met. -/
structure Workspace.Spent (w : Workspace) (z m : Nat) : Prop where
  dated : w.Dated
  stamp : w.stamp.toNat = m
  unmet : w.Unmet z

theorem Workspace.spent_ofSize (n z : Nat) : (ofSize n).Spent z 0 :=
  ⟨dated_ofSize n, rfl, unmet_ofSize n z⟩

section

variable {t : TokenTable} {w : Workspace} {cur cur' : Cursor} {ts : List Token} {c d : Char}
  {n : Fin 65536} {a : Automaton} {v rest : List Char} {z m : Nat} (ht : t.Indexed)
  (hsorted : t.patterns.toList.Pairwise (· < ·)) (hone : t.TriesOnly c n a)

include ht hsorted hone

/-- The only match takes a stamp, and one for each character that it looks at. -/
theorem Workspace.Spent.after (hw : w.Spent z m) (hfork : ∀ l r, a.states[z]? ≠ some (.fork l r))
    (havoids : a.Avoids z (c :: rest)) (hroom : m + 1 < Workspace.counterMax)
    (hlooked : m + 1 + a.looked (c :: rest) ≤ Workspace.counterMax) :
    w.Lasts (t.jobs (c :: rest)) ∧
      (w.after (t.jobs (c :: rest))).Spent z (m + 1 + a.looked (c :: rest)) := by
  have hbehind := Workspace.stampBehind_of_lt hroom (a.looked (c :: rest))
  have hfits : a.Fits w (c :: rest) := by
    rw [hw.dated.fits_iff, hw.stamp, hbehind]
    exact hlooked
  rw [hone.jobs_eq ht hsorted]
  refine ⟨⟨hfits, trivial⟩, (hw.dated.looks_eq hfits).2.2, ?_,
    Automaton.unmet_longestMatch hw.unmet hfork havoids⟩
  exact (hw.dated.stamp_longestMatch hfits).trans (by rw [hw.stamp, hbehind])

namespace TokenTable.Cuts

/-- The lexeme of the only pattern is taken off, and its characters and three stamps more. -/
theorem of_spent (hw : w.Spent z m) (hsize : a.states.size ≤ z) (hu : a.Accepts (c :: v))
    (hd : a.reads d = false) (hroom : m + v.length + 3 ≤ Workspace.counterMax)
    (hcur : cur.rest = c :: v ++ d :: rest) (h : t.Cuts w cur ts cur') :
    ∃ token later left w', ts = token :: later ∧ left.rest = d :: rest ∧
      w'.Spent z (m + v.length + 3) ∧ t.Cuts w' left later cur' ∧
      (w'.Lasts (t.jobsIn later) → w.Lasts (t.jobsIn ts)) := by
  have hlooked : a.looked (c :: v ++ d :: rest) = v.length + 2 :=
    Automaton.looked_of_unread (v := []) (by rw [List.length_cons]; omega)
      (by rwa [List.append_nil]) hd
  have hnone : a.states[z]? = none := Array.getElem?_eq_none hsize
  have havoids : a.Avoids z (c :: (v ++ d :: rest)) := .inl hsize
  have hbehind : m + 1 + a.looked (c :: v ++ d :: rest) = m + v.length + 3 := by omega
  obtain ⟨hlasts, hspent⟩ := hw.after ht hsorted hone (by rw [hnone]; exact nofun) havoids
    (by omega) (hbehind.trans_le hroom)
  rw [← List.cons_append, hbehind] at hspent
  rw [← List.cons_append, ← hcur] at hlasts
  have hwins : t.Wins (c :: v ++ d :: rest) (c :: v) n :=
    hone.wins ht hu fun e he => Option.some.inj he ▸ hd
  obtain ⟨token, later, left, rfl, -, hleft, hcuts⟩ := h.of_wins ht hw.dated hlasts hcur hwins
  refine ⟨token, later, left, _, rfl, hleft, hcur ▸ hspent, hcuts, fun hlater => ?_⟩
  exact (h.lasts_cons ht).2 ⟨hlasts, hlater⟩

/-- At the end of a text there are stamps enough for the last lexeme if there are as many as it has
characters, and one more. -/
theorem lasts_last (hw : w.Dated) (hu : a.Accepts (c :: v))
    (hroom : w.stamp.toNat + v.length + 2 ≤ Workspace.counterMax) (hcur : cur.rest = c :: v)
    (h : t.Cuts w cur ts cur') : w.Lasts (t.jobsIn ts) := by
  have hlasts : w.Lasts (t.jobs cur.rest) := by
    rw [hcur, hone.jobs_eq ht hsorted]
    refine hw.lasts_of_sum ?_
    rw [List.map_singleton, List.sum_singleton, List.length_cons]
    omega
  have hwins : t.Wins (c :: v ++ []) (c :: v) n := hone.wins ht hu nofun
  obtain ⟨token, later, left, rfl, -, hleft, hcuts⟩ :=
    h.of_wins ht hw hlasts (hcur.trans (List.append_nil _).symm) hwins
  have hlater : later = [] := by
    cases hcuts with
    | done => rfl
    | token htaken =>
      cases (tokenAt?_eq_none_iff.2 hleft).symm.trans htaken
  exact (h.lasts_cons ht).2 ⟨hlasts, hlater ▸ trivial⟩

end TokenTable.Cuts

/-- For a text that is one lexeme there are stamps enough if it is not too long. -/
theorem Lexer.lasts_single (hu : a.Accepts (c :: v))
    (hroom : v.length + 2 ≤ Workspace.counterMax) : Lasts t (c :: v) := by
  refine (cuts_tokenize ht .keep (c :: v)).1.lasts_last ht hsorted hone (Workspace.dated_ofSize _)
    hu ?_ rfl
  rwa [(Workspace.spent_ofSize t.maxStates 0).stamp, Nat.zero_add]

end

end FrontEnd
