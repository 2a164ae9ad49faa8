import FrontEnd.Proofs.Stream.Tokens
import FrontEnd.Proofs.Token.Matches

/-!
# The lexemes of a text

A text is divided into lexemes from the front: the winning lexeme is taken off, or a character that
no rule accepts. Only the table decides what they are, **not what the lexer did before**. A lexer
takes off what it finds, and that is the winning lexeme as long as there are stamps enough.

- `TokenTable.Wins`: the winning lexeme at the start of a text;
- `TokenTable.Lexes`, `TokenTable.Divides`: the lexemes of a text, and the tokens;
- `TokenTable.Cuts`: the tokens that a lexer takes off, whether they win or not;
- `Lexer.cuts_tokens`: **a lexer makes these tokens, and only hides the trivia**;
- `Lexer.Lasts`: there are stamps enough for the matches that are made for a text;
- `Lexer.lexes_tokenize`: if there are, the tokens of a text are its lexemes.
-/

namespace FrontEnd

namespace Token

theorem eq_of_lexeme {a b : Token} (hlexeme : a.lexeme = b.lexeme)
    (hplace : a.position = b.position) : a = b := by
  obtain ⟨id, text, place⟩ := a
  obtain ⟨id', text', place'⟩ := b
  obtain ⟨rfl, rfl⟩ := Lexeme.mk.inj hlexeme
  exact congrArg (Token.mk id text) hplace

/-- The texts of the tokens, one after the other. -/
def joined (ts : List Token) : List Char := ts.flatMap fun token => token.text.toList

end Token

namespace TokenTable

variable {t : TokenTable} {text u v rest : List Char} {n n' : Fin 65536} {w : Workspace}
  {mode : TriviaMode} {ls ls' : List Lexeme} {c : Char}

/-- Rule number `n` accepts the text. -/
def Takes (t : TokenTable) (n : Fin 65536) (u : List Char) : Prop :=
  t.HasRule n fun rule => u ∈ rule.form.language

/-- The first part `u` of the text is the lexeme at its start, by rule number `n`: what else is
accepted at the start is shorter, or it is `u` by a later rule. -/
structure Wins (t : TokenTable) (text u : List Char) (n : Fin 65536) : Prop where
  first : u <+: text
  takes : t.Takes n u
  best : ∀ n' v, v <+: text → t.Takes n' v → v.length < u.length ∨ v = u ∧ n ≤ n'

/-- No rule accepts a first part of the text. -/
def Refuses (t : TokenTable) (text : List Char) : Prop := ∀ n v, v <+: text → ¬ t.Takes n v

/-- There is one winning lexeme. -/
theorem Wins.unique (h : t.Wins text u n) (h' : t.Wins text v n') : u = v ∧ n = n' := by
  rcases h.best n' v h'.first h'.takes with hlt | ⟨rfl, hle⟩
  · rcases h'.best n u h.first h.takes with hlt' | ⟨rfl, -⟩
    · omega
    · omega
  · rcases h'.best n v h.first h.takes with hlt' | ⟨-, hle'⟩
    · omega
    · exact ⟨rfl, Fin.le_antisymm hle hle'⟩

/-- The winning lexeme wins by itself. -/
theorem Wins.alone (h : t.Wins text u n) : t.Wins u u n :=
  ⟨List.prefix_refl u, h.takes, fun n' v hv => h.best n' v (hv.trans h.first)⟩

theorem Wins.not_refuses (h : t.Wins text u n) : ¬ t.Refuses text :=
  fun hr => hr n u h.first h.takes

/-- A rule that accepts a first part of the text offers one that is at least as long. -/
theorem Takes.exists_offered (h : t.Takes n v) (hv : v <+: text) (ht : t.Indexed) :
    ∃ u m, u <+: text ∧ v.length ≤ u.length ∧ t.Offered text m ∧ m.rule = n ∧
      m.length = Text.size u := by
  obtain ⟨rule, hrule, hmem⟩ := h
  obtain ⟨u, hu, hle⟩ := exists_isLongest hv hmem
  have hne : u ≠ [] := fun hnil => (ht.sound _ _ hrule).nil_not_mem (hnil ▸ hu.mem)
  exact ⟨u, ⟨n, Text.size u, rule.trivia, Text.size_pos hne⟩, hu.first, hle,
    ⟨u, ⟨rule, hrule, hu, rfl⟩, rfl⟩, rfl, rfl⟩

/-- The match that is found is the winning lexeme, if there are stamps enough. -/
theorem wins_longestMatch (ht : t.Indexed) (hw : w.Dated) (hlasts : w.Lasts (t.jobs text)) :
    match (t.longestMatch w text).1 with
    | none => t.Refuses text
    | some m => ∃ u, t.Wins text u m.rule ∧ m.length = Text.size u := by
  have hbest := best_longestMatch ht hw hlasts
  match hfound : (t.longestMatch w text).1 with
  | none =>
    rw [hfound] at hbest
    intro n v hv htakes
    obtain ⟨u, m, -, -, hm, -⟩ := htakes.exists_offered hv ht
    exact hbest m hm
  | some m =>
    rw [hfound] at hbest
    obtain ⟨⟨u, ⟨rule, hrule, hu, -⟩, hlength⟩, hbeats⟩ := hbest
    refine ⟨u, ⟨hu.first, ⟨rule, hrule, hu.mem⟩, fun n' v hv htakes => ?_⟩, hlength⟩
    · obtain ⟨u', m', hu', hle, hm', rfl, hlength'⟩ := htakes.exists_offered hv ht
      rcases hbeats m' hm' with hlt | ⟨heq, hrule'⟩
      · rw [hlength, hlength'] at hlt
        exact .inl (hle.trans_lt (Text.length_lt_of_size_lt hu' hu.first hlt))
      · rw [hlength, hlength'] at heq
        obtain rfl := Text.eq_of_size_eq hu' hu.first heq
        rcases hle.lt_or_eq with hlt | heq'
        · exact .inl hlt
        · exact .inr ⟨(List.prefix_of_prefix_length_le hv hu' hle).eq_of_length heq', hrule'⟩

/-- Whatever became of the stamps, a match is a first part of the text that its rule accepts. -/
theorem takes_longestMatch (ht : t.Indexed) {m : LexemeMatch}
    (h : (t.longestMatch w text).1 = some m) :
    ∃ u, u <+: text ∧ t.Takes m.rule u ∧ m.length = Text.size u ∧
      m.trivia = t.isTrivia (.kind m.rule) := by
  obtain ⟨u, hu, ⟨rule, hrule, hmem, htrivia⟩, hlength⟩ := backed_longestMatch ht w text m h
  refine ⟨u, hu, ⟨rule, hrule, hmem⟩, hlength, ?_⟩
  rw [htrivia, isTrivia, rule?, hrule]
  rfl

theorem Takes.ne_nil (h : t.Takes n u) (ht : t.Indexed) : u ≠ [] := by
  obtain ⟨rule, hrule, hmem⟩ := h
  exact fun hnil => (ht.sound _ _ hrule).nil_not_mem (hnil ▸ hmem)

theorem Wins.ne_nil (h : t.Wins text u n) (ht : t.Indexed) : u ≠ [] := h.takes.ne_nil ht

/-! ## Lexemes -/

/-- The lexeme `u` of rule number `n`, unless trivia are left out. -/
def kept (t : TokenTable) (mode : TriviaMode) (u : List Char) (n : Fin 65536) : List Lexeme :=
  if t.isTrivia (.kind n) = true ∧ mode = .skip then [] else [⟨.kind n, String.ofList u⟩]

theorem kept_of_shown (h : t.isTrivia (.kind n) = false) :
    t.kept mode u n = [⟨.kind n, String.ofList u⟩] :=
  if_neg fun hskip => Bool.false_ne_true (h.symm.trans hskip.1)

/-- The lexemes of a text. -/
inductive Lexes (t : TokenTable) (mode : TriviaMode) : List Char → List Lexeme → Prop where
  | nil : Lexes t mode [] []
  | unknown {c : Char} {rest : List Char} {ls : List Lexeme} (h : t.Refuses (c :: rest))
    (hrest : Lexes t mode rest ls) :
    Lexes t mode (c :: rest) (⟨.unknown, String.ofList [c]⟩ :: ls)
  | wins {text u rest : List Char} {n : Fin 65536} {ls : List Lexeme} (h : t.Wins text u n)
    (htext : text = u ++ rest) (hrest : Lexes t mode rest ls) :
    Lexes t mode text (t.kept mode u n ++ ls)

namespace Lexes

theorem of_nil (h : t.Lexes mode [] ls) (ht : t.Indexed) : ls = [] := by
  cases h with
  | nil => rfl
  | wins h htext hrest => exact absurd (List.append_eq_nil_iff.1 htext.symm).1 (h.ne_nil ht)

theorem of_refuses (h : t.Lexes mode (c :: rest) ls) (hr : t.Refuses (c :: rest)) :
    ∃ ls', t.Lexes mode rest ls' ∧ ls = ⟨.unknown, String.ofList [c]⟩ :: ls' := by
  cases h with
  | unknown _ hrest => exact ⟨_, hrest, rfl⟩
  | wins h htext hrest => exact absurd hr h.not_refuses

theorem of_wins (h : t.Lexes mode (u ++ rest) ls) (hw : t.Wins (u ++ rest) u n) (ht : t.Indexed) :
    ∃ ls', t.Lexes mode rest ls' ∧ ls = t.kept mode u n ++ ls' := by
  generalize htext : u ++ rest = text at h hw
  cases h with
  | nil => exact absurd (List.append_eq_nil_iff.1 htext).1 (hw.ne_nil ht)
  | unknown hr => exact absurd hr hw.not_refuses
  | @wins _ u' rest' n' ls' h htext' hrest =>
    obtain ⟨rfl, rfl⟩ := h.unique hw
    rw [htext'] at htext
    obtain rfl := List.append_cancel_left htext
    exact ⟨ls', hrest, rfl⟩

/-- A lexeme is a character that belongs to none, or a rule accepts it. -/
theorem takes_of_mem (h : t.Lexes mode text ls) {l : Lexeme} (hl : l ∈ ls) :
    l.id = .unknown ∨ ∃ n, l.id = .kind n ∧ t.Takes n l.text.toList := by
  induction h with
  | nil => cases hl
  | unknown _ _ ih =>
    rcases List.mem_cons.1 hl with rfl | hl
    · exact .inl rfl
    · exact ih hl
  | @wins _ u _ n _ hwins _ _ ih =>
    rcases List.mem_append.1 hl with hl | hl
    · unfold kept at hl
      split at hl
      · cases hl
      · obtain rfl := List.mem_singleton.1 hl
        exact .inr ⟨n, rfl, by simpa using hwins.takes⟩
    · exact ih hl

/-- A text has one list of lexemes. -/
theorem unique (ht : t.Indexed) (h : t.Lexes mode text ls) (h' : t.Lexes mode text ls') :
    ls = ls' := by
  induction h generalizing ls' with
  | nil => exact (h'.of_nil ht).symm
  | unknown hr hrest ih =>
    obtain ⟨ls'', hrest', rfl⟩ := h'.of_refuses hr
    rw [ih hrest']
  | wins hw htext hrest ih =>
    subst htext
    obtain ⟨ls'', hrest', rfl⟩ := h'.of_wins hw ht
    rw [ih hrest']

end Lexes

/-! ## Tokens with their places -/

/-- The token stands at the start of the text: it is the winning lexeme, or a character when no rule
accepts anything. -/
inductive Munches (t : TokenTable) (text : List Char) : Token → Prop where
  | wins {u : List Char} {n : Fin 65536} {place : Position} (h : t.Wins text u n) :
    Munches t text ⟨.kind n, String.ofList u, place⟩
  | unknown {c : Char} {rest : List Char} {place : Position} (htext : text = c :: rest)
    (h : t.Refuses text) : Munches t text ⟨.unknown, String.ofList [c], place⟩

/-- The text of the cursor is divided into the tokens, trivia among them, and behind them the cursor
is at its end. -/
inductive Divides (t : TokenTable) : Cursor → List Token → Cursor → Prop where
  | done {c : Cursor} (h : c.rest = []) : Divides t c [] c
  | token {c c' : Cursor} {token : Token} {ts : List Token} (h : t.Munches c.rest token)
    (hplace : token.position = c.position)
    (hrest : Divides t (c.advanceBy (Text.size token.text.toList)) ts c') :
    Divides t c (token :: ts) c'

/-- Where no rule is for trivia no token is one. -/
theorem isTrivia_eq_false (h : ∀ rule ∈ t.rules.toList, rule.trivia = false) (id : TokenId) :
    t.isTrivia id = false := by
  cases id with
  | kind n =>
    rw [isTrivia, rule?]
    cases hrule : t.rules[n.val]? with
    | none => rfl
    | some rule => exact h rule (Array.mem_toList_iff.2 (Array.mem_of_getElem? hrule))
  | _ => rfl

/-- Is the token made in this mode? -/
def shows (t : TokenTable) (mode : TriviaMode) (token : Token) : Bool :=
  !(t.isTrivia token.id && mode == .skip)

theorem shows_eq_false_iff {token : Token} :
    t.shows mode token = false ↔ t.isTrivia token.id = true ∧ mode = .skip := by
  simp [shows]

@[simp] theorem shows_keep (t : TokenTable) (token : Token) : t.shows .keep token = true := by
  simp [shows]

theorem shows_eq_true_iff {token : Token} :
    t.shows mode token = true ↔ ¬ (t.isTrivia token.id = true ∧ mode = .skip) := by
  rw [← shows_eq_false_iff, Bool.not_eq_false]

namespace Munches

variable {token token' : Token}

/-- The token is a first part of the text. -/
theorem first (h : t.Munches text token) : token.text.toList <+: text := by
  cases h with
  | wins h => simpa using h.first
  | unknown htext h => simp [htext]

theorem ne_nil (h : t.Munches text token) (ht : t.Indexed) : token.text.toList ≠ [] := by
  cases h with
  | wins h => simpa using h.ne_nil ht
  | unknown htext h => simp

/-- There is one token at the start of a text. -/
theorem lexeme_unique (h : t.Munches text token) (h' : t.Munches text token') :
    token.lexeme = token'.lexeme := by
  cases h with
  | wins h =>
    cases h' with
    | wins h' =>
      obtain ⟨rfl, rfl⟩ := h.unique h'
      rfl
    | unknown _ h' => exact absurd h' h.not_refuses
  | unknown htext h =>
    cases h' with
    | wins h' => exact absurd h h'.not_refuses
    | unknown htext' _ =>
      obtain ⟨rfl, -⟩ := List.cons.inj (htext.symm.trans htext')
      rfl

end Munches

/-! ## Texts in pieces -/

/-- The tokens stand one behind the other and make up the text of the cursor. -/
inductive Tiles : Cursor → List Token → Cursor → Prop where
  | done {c : Cursor} (h : c.rest = []) : Tiles c [] c
  | token {c c' : Cursor} {token : Token} {ts : List Token} (h : token.text.toList <+: c.rest)
    (hplace : token.position = c.position)
    (hrest : Tiles (c.advanceBy (Text.size token.text.toList)) ts c') : Tiles c (token :: ts) c'

/-- Behind the first token the text goes on. -/
theorem exists_rest {token : Token} {cur : Cursor} (h : token.text.toList <+: cur.rest) : ∃ rest,
    cur.rest = token.text.toList ++ rest ∧
      (cur.advanceBy (Text.size token.text.toList)).rest = rest := by
  obtain ⟨rest, heq⟩ := h
  exact ⟨rest, heq.symm, Cursor.rest_advanceBy heq.symm⟩

namespace Tiles

variable {cur cur' : Cursor} {token : Token} {ts before later : List Token}

theorem joined_eq (h : Tiles cur ts cur') : Token.joined ts = cur.rest := by
  induction h with
  | done h => exact h.symm
  | token h hplace hrest ih =>
    obtain ⟨rest, heq, hleft⟩ := exists_rest h
    rw [Token.joined, List.flatMap_cons, ← Token.joined, ih, hleft, heq]

/-- A token stands where the texts of the tokens before it end. -/
theorem place_eq (h : Tiles cur ts cur') (hts : ts = before ++ token :: later) :
    token.position = (cur.advanceBy (Text.size (Token.joined before))).position := by
  induction h generalizing before with
  | done => cases before <;> cases hts
  | @token cur _ first ts h hplace hrest ih =>
    cases before with
    | nil =>
      obtain ⟨rfl, rfl⟩ := List.cons.inj hts
      rw [Token.joined, List.flatMap_nil, Text.size_nil, Cursor.advanceBy_zero]
      exact hplace
    | cons b before =>
      obtain ⟨rfl, hlater⟩ := List.cons.inj hts
      obtain ⟨rest, heq, -⟩ := exists_rest h
      rw [ih hlater, Cursor.advanceBy_append heq, ← Text.size_append]
      rfl

end Tiles

namespace Divides

variable {cur cur' cur'' : Cursor} {token : Token} {ts ts' before later : List Token}

theorem tiles (h : t.Divides cur ts cur') : Tiles cur ts cur' := by
  induction h with
  | done h => exact .done h
  | token h hplace _ ih => exact .token h.first hplace ih

/-- A token is the one at the start of what is left. -/
theorem munches (h : t.Divides cur ts cur') (hts : ts = before ++ token :: later) :
    t.Munches (Token.joined (token :: later)) token := by
  induction h generalizing before with
  | done => cases before <;> cases hts
  | @token cur _ first ts hmunches hplace hrest ih =>
    cases before with
    | nil =>
      obtain ⟨rfl, rfl⟩ := List.cons.inj hts
      rwa [(Divides.token hmunches hplace hrest).tiles.joined_eq]
    | cons b before => exact ih (List.cons.inj hts).2

/-- A text is divided in one way. -/
theorem unique (ht : t.Indexed) (h : t.Divides cur ts cur') (h' : t.Divides cur ts' cur'') :
    ts = ts' ∧ cur' = cur'' := by
  induction h generalizing ts' with
  | done h =>
    cases h' with
    | done => exact ⟨rfl, rfl⟩
    | token hmunches => exact absurd (List.prefix_nil.1 (h ▸ hmunches.first)) (hmunches.ne_nil ht)
  | @token cur _ token ts h hplace hrest ih =>
    cases h' with
    | done hnil => exact absurd (List.prefix_nil.1 (hnil ▸ h.first)) (h.ne_nil ht)
    | @token _ _ token' ts' hmunches hplace' hrest' =>
      have heq : token = token' := Token.eq_of_lexeme (h.lexeme_unique hmunches)
        (hplace.trans hplace'.symm)
      subst heq
      obtain ⟨rfl, rfl⟩ := ih hrest'
      exact ⟨rfl, rfl⟩

/-- What is shown of the tokens are the lexemes of the text. -/
theorem lexes (h : t.Divides cur ts cur') (mode : TriviaMode) :
    t.Lexes mode cur.rest ((ts.filter (t.shows mode)).map Token.lexeme) := by
  -- Token by token: one that is shown becomes a lexeme, and trivia that are left out become none.
  induction h with
  | done h =>
    rw [h]
    exact .nil
  | @token cur cur' token ts h hplace hrest ih =>
    obtain ⟨rest, heq, hleft⟩ := exists_rest h.first
    rw [hleft] at ih
    cases h with
    | @wins u n place h =>
      have hkept : (([⟨.kind n, String.ofList u, place⟩] : List Token).filter (t.shows mode)).map
          Token.lexeme = t.kept mode u n := by
        by_cases hskip : t.isTrivia (.kind n) = true ∧ mode = .skip
        · rw [kept, if_pos hskip, List.filter_cons_of_neg]
          · rfl
          · rw [shows_eq_false_iff.2 hskip]
            exact Bool.false_ne_true
        · rw [kept, if_neg hskip, List.filter_cons_of_pos (shows_eq_true_iff.2 hskip)]
          rfl
      rw [← List.singleton_append, List.filter_append, List.map_append, hkept]
      exact .wins h (by simpa using heq) ih
    | @unknown c rest' place htext h =>
      have hshows : t.shows mode ⟨.unknown, String.ofList [c], place⟩ = true := rfl
      rw [List.filter_cons_of_pos hshows, List.map_cons]
      have hsame : rest = rest' := by
        rw [htext] at heq
        simpa using heq.symm
      subst hsame
      rw [htext] at h ⊢
      exact .unknown h ih

end Divides

/-! ## What a lexer takes off -/

/-- The token that a lexer takes off: what it finds, or a character. -/
def tokenAt? (t : TokenTable) (w : Workspace) (cur : Cursor) : Option Token :=
  match cur.rest with
  | [] => none
  | c :: rest =>
    match (t.longestMatch w (c :: rest)).1 with
    | none => some ⟨.unknown, String.ofList [c], cur.position⟩
    | some m => some ⟨m.id, String.ofList (Text.take m.length (c :: rest)), cur.position⟩

/-- The tokens that a lexer takes off, trivia among them, from a workspace and a cursor on up to the
end of the text. -/
inductive Cuts (t : TokenTable) : Workspace → Cursor → List Token → Cursor → Prop where
  | done {w : Workspace} {c : Cursor} (h : t.tokenAt? w c = none) : Cuts t w c [] c
  | token {w : Workspace} {c c' : Cursor} {token : Token} {ts : List Token}
    (h : t.tokenAt? w c = some token)
    (hrest : Cuts t (t.longestMatch w c.rest).2 (c.advanceBy (Text.size token.text.toList)) ts c') :
    Cuts t w c (token :: ts) c'

/-- The token is a character that belongs to no rule, or a lexeme of its rule. -/
def Classes (t : TokenTable) (token : Token) : Prop :=
  (token.id = .unknown ∧ ∃ c, token.text = String.ofList [c]) ∨
    ∃ n, token.id = .kind n ∧ t.Takes n token.text.toList

theorem Classes.ne_nil {token : Token} (h : t.Classes token) (ht : t.Indexed) :
    token.text.toList ≠ [] := by
  rcases h with ⟨-, c, hc⟩ | ⟨n, -, htakes⟩
  · simp [hc]
  · exact htakes.ne_nil ht

theorem tokenAt?_eq_none_iff {cur : Cursor} : t.tokenAt? w cur = none ↔ cur.rest = [] := by
  unfold tokenAt?
  split
  · next hnil => exact iff_of_true rfl hnil
  · next hcons =>
    refine iff_of_false ?_ (by simp [hcons])
    split <;> exact Option.some_ne_none _

/-- What is taken off is a first part of the text. -/
theorem tokenAt?_spec (ht : t.Indexed) {cur : Cursor} {token : Token}
    (h : t.tokenAt? w cur = some token) : token.text.toList <+: cur.rest ∧
      token.position = cur.position ∧ t.Classes token := by
  unfold tokenAt? at h
  split at h
  · cases h
  · next c rest hrest =>
    rw [hrest]
    split at h
    · obtain rfl := Option.some.inj h
      exact ⟨by simp, rfl, .inl ⟨rfl, c, rfl⟩⟩
    · next m hm =>
      obtain rfl := Option.some.inj h
      obtain ⟨u, ⟨v, huv⟩, htakes, hlength, -⟩ := takes_longestMatch ht hm
      have htake : Text.take m.length (c :: rest) = u := by rw [hlength, ← huv, Text.take_append]
      dsimp only
      rw [htake, String.toList_ofList]
      exact ⟨⟨v, huv⟩, rfl, .inr ⟨m.rule, rfl, by rwa [String.toList_ofList]⟩⟩

/-- With stamps enough, what is taken off is the winning lexeme. -/
theorem munches_tokenAt? (ht : t.Indexed) (hw : w.Dated) {cur : Cursor} {token : Token}
    (hlasts : w.Lasts (t.jobs cur.rest)) (h : t.tokenAt? w cur = some token) :
    t.Munches cur.rest token := by
  have hwins := wins_longestMatch ht hw hlasts
  unfold tokenAt? at h
  split at h
  · cases h
  · next c rest hrest =>
    rw [hrest] at hwins ⊢
    split at h
    · next hm =>
      obtain rfl := Option.some.inj h
      rw [hm] at hwins
      exact .unknown rfl hwins
    · next m hm =>
      obtain rfl := Option.some.inj h
      rw [hm] at hwins
      obtain ⟨u, hu, hlength⟩ := hwins
      obtain ⟨v, huv⟩ := hu.first
      have htake : Text.take m.length (c :: rest) = u := by rw [hlength, ← huv, Text.take_append]
      rw [htake]
      exact .wins hu

/-- The matches that are made for tokens: at the start of each, with all of the text behind it. -/
def jobsIn (t : TokenTable) : List Token → List (Automaton × List Char)
  | [] => []
  | token :: ts => t.jobs (Token.joined (token :: ts)) ++ t.jobsIn ts

theorem sum_jobsIn_le (t : TokenTable) (ts : List Token) :
    ((t.jobsIn ts).map fun job => job.2.length + 1).sum
      ≤ ts.length * (t.patterns.size * ((Token.joined ts).length + 1)) := by
  induction ts with
  | nil => exact Nat.zero_le _
  | cons token ts ih =>
    have hjoined : (Token.joined ts).length ≤ (Token.joined (token :: ts)).length := by
      rw [Token.joined, Token.joined, List.flatMap_cons, List.length_append]
      exact Nat.le_add_left ..
    have hlater := ih.trans (Nat.mul_le_mul_left ts.length
      (Nat.mul_le_mul_left t.patterns.size (Nat.succ_le_succ hjoined)))
    have hfirst := t.sum_jobs_le (Token.joined (token :: ts))
    rw [jobsIn, List.map_append, List.sum_append, List.length_cons, Nat.succ_mul, Nat.add_comm]
    exact Nat.add_le_add hlater hfirst

theorem jobsIn_eq_nil (h : t.patterns = #[]) (ts : List Token) : t.jobsIn ts = [] := by
  induction ts with
  | nil => rfl
  | cons token ts ih => rw [jobsIn, jobs_eq_nil h, ih, List.nil_append]

namespace Cuts

variable {cur cur' cur'' : Cursor} {token : Token} {ts ts' : List Token}

theorem tiles (ht : t.Indexed) (h : t.Cuts w cur ts cur') : Tiles cur ts cur' := by
  induction h with
  | done h => exact .done (tokenAt?_eq_none_iff.1 h)
  | token h _ ih =>
    obtain ⟨hfirst, hplace, -⟩ := tokenAt?_spec ht h
    exact .token hfirst hplace ih

theorem classes (ht : t.Indexed) (h : t.Cuts w cur ts cur') : ∀ token ∈ ts, t.Classes token := by
  induction h with
  | done => exact nofun
  | token h _ ih => exact List.forall_mem_cons.2 ⟨(tokenAt?_spec ht h).2.2, ih⟩

theorem unique (h : t.Cuts w cur ts cur') (h' : t.Cuts w cur ts' cur'') :
    ts = ts' ∧ cur' = cur'' := by
  induction h generalizing ts' with
  | done h =>
    cases h' with
    | done => exact ⟨rfl, rfl⟩
    | token hsome => cases h.symm.trans hsome
  | token h hrest ih =>
    cases h' with
    | done hnone => cases h.symm.trans hnone
    | token hsome hrest' =>
      obtain rfl := Option.some.inj (h.symm.trans hsome)
      obtain ⟨rfl, rfl⟩ := ih hrest'
      exact ⟨rfl, rfl⟩

/-- With stamps enough, the tokens are those that the text is divided into. -/
theorem divides (ht : t.Indexed) (hw : w.Dated) (hlasts : w.Lasts (t.jobsIn ts))
    (h : t.Cuts w cur ts cur') : t.Divides cur ts cur' := by
  induction h with
  | done h => exact .done (tokenAt?_eq_none_iff.1 h)
  | @token w cur _ token ts h hrest ih =>
    have hjoined := (Cuts.token h hrest).tiles ht |>.joined_eq
    rw [jobsIn, hjoined] at hlasts
    obtain ⟨hhere, hlater⟩ := Workspace.lasts_append.1 hlasts
    have hdated := hw.after hhere
    rw [← workspace_longestMatch] at hlater hdated
    exact .token (munches_tokenAt? ht hw hhere h) (tokenAt?_spec ht h).2.1 (ih hdated hlater)

end Cuts

end TokenTable

namespace Lexer

variable {t : TokenTable}

/-- A lexer takes a token off its text, and makes it unless it is left out. -/
structure Munch (l : Lexer) (token : Token) (l' : Lexer) : Prop where
  taken : l.table.tokenAt? l.workspace l.cursor = some token
  cursor : l'.cursor = l.cursor.advanceBy (Text.size token.text.toList)
  workspace : l'.workspace = (l.table.longestMatch l.workspace l.cursor.rest).2
  table : l'.table = l.table
  mode : l'.mode = l.mode
  shown : l.table.shows l.mode token = true → l.next = (some token, l')
  hidden : l.table.shows l.mode token = false → l.next = l'.next

/-- Before the end of its text a lexer takes a token. -/
theorem exists_munch (l : Lexer) (ht : l.table.Indexed) (hne : l.cursor.rest ≠ []) :
    ∃ token l', Munch l token l' := by
  obtain ⟨c, rest, hrest⟩ := List.exists_cons_of_ne_nil hne
  rcases hm : l.table.longestMatch l.workspace (c :: rest) with ⟨_ | m, w⟩
  · refine ⟨⟨.unknown, String.ofList [c], l.position⟩, l.reject c w, ?_, ?_, ?_, rfl, rfl,
      fun _ => next_unknown hrest hm, nofun⟩
    · rw [TokenTable.tokenAt?, hrest]
      dsimp only
      rw [hm]
      rfl
    · rw [String.toList_ofList]
      show l.cursor.advance = _
      simpa using Cursor.advance_eq hrest
    · rw [hrest, hm]
      rfl
  · have hfound : (l.table.longestMatch l.workspace (c :: rest)).1 = some m := by rw [hm]
    obtain ⟨u, ⟨v, huv⟩, -, hlength, htrivia⟩ := TokenTable.takes_longestMatch ht hfound
    have htake : Text.take m.length (c :: rest) = u := by rw [hlength, ← huv, Text.take_append]
    have htaken : l.table.tokenAt? l.workspace l.cursor
        = some ⟨m.id, String.ofList u, l.position⟩ := by
      rw [TokenTable.tokenAt?, hrest]
      dsimp only
      rw [hfound, ← htake]
      rfl
    have hcursor : l.cursor.advanceBy m.length
        = l.cursor.advanceBy (Text.size (String.ofList u).toList) := by
      rw [hlength, String.toList_ofList]
    have hworkspace : w = (l.table.longestMatch l.workspace l.cursor.rest).2 := by rw [hrest, hm]
    by_cases hskip : m.trivia = true ∧ l.mode = .skip
    · have hshows : l.table.shows l.mode ⟨m.id, String.ofList u, l.position⟩ = false :=
        TokenTable.shows_eq_false_iff.2 (htrivia ▸ hskip)
      exact ⟨_, l.skip m.length w, htaken, hcursor, hworkspace, rfl, rfl,
        fun h => absurd (hshows.symm.trans h) nofun, fun _ => next_trivia hrest hm hskip⟩
    · have hshows : l.table.shows l.mode ⟨m.id, String.ofList u, l.position⟩ = true :=
        TokenTable.shows_eq_true_iff.2 (htrivia ▸ hskip)
      refine ⟨_, { l.skip m.length w with produced := l.produced + 1 }, htaken, hcursor, hworkspace,
        rfl, rfl, fun _ => ?_, fun h => absurd (hshows.symm.trans h) nofun⟩
      rw [next_lexeme hrest hm hskip, htake]

/-- The tokens of a lexer are those that it takes off its text, without the trivia if these are left
out; behind them the lexer is at the end of the text. -/
theorem cuts_tokens (l : Lexer) (ht : l.table.Indexed) (made : Array Token) :
    ∃ all, l.table.Cuts l.workspace l.cursor all (l.drain made).2.cursor ∧
      l.tokens = all.filter (l.table.shows l.mode) := by
  -- By induction on the length of the text: a token is never empty, so that less is left behind it.
  generalize hn : l.cursor.rest.length = n
  induction n using Nat.strongRecOn generalizing l made with
  | _ n ih =>
    subst hn
    by_cases hrest : l.cursor.rest = []
    · have hnext := next_nil hrest
      rw [tokens_of_next_none hnext, drain_of_next_none hnext]
      exact ⟨[], .done (TokenTable.tokenAt?_eq_none_iff.2 hrest), rfl⟩
    · obtain ⟨token, l', hmunch⟩ := l.exists_munch ht hrest
      have hclasses := (TokenTable.tokenAt?_spec ht hmunch.taken).2.2
      have hshort : l'.cursor.rest.length < l.cursor.rest.length := by
        rw [hmunch.cursor]
        exact l.cursor.length_advanceBy_lt _ (Text.size_pos (hclasses.ne_nil ht)) hrest
      have hlater := ih _ hshort l' (hmunch.table ▸ ht)
      rw [hmunch.table, hmunch.mode, hmunch.cursor, hmunch.workspace] at hlater
      cases hshows : l.table.shows l.mode token with
      | true =>
        obtain ⟨all, hcuts, htokens⟩ := hlater (made.push token) rfl
        have hnext := hmunch.shown hshows
        rw [tokens_of_next_some hnext, drain_of_next_some hnext, htokens]
        exact ⟨_, .token hmunch.taken hcuts, (List.filter_cons_of_pos hshows).symm⟩
      | false =>
        obtain ⟨all, hcuts, htokens⟩ := hlater made rfl
        have hnext := hmunch.hidden hshows
        rw [tokens_congr hnext, drain_congr hnext, htokens]
        exact ⟨_, .token hmunch.taken hcuts, (List.filter_cons_of_neg (by simp [hshows])).symm⟩

/-- What a lexer takes off a text does not depend on whether trivia are left out: it is the tokens
that are made when they are kept. -/
theorem cuts_tokenize (ht : t.Indexed) (mode : TriviaMode) (text : List Char) :
    t.Cuts (.ofSize t.maxStates) (.ofText text) (tokenize t .keep text).1.toList
        (tokenize t mode text).2.cursor ∧
      (tokenize t mode text).1.toList
        = (tokenize t .keep text).1.toList.filter (t.shows mode) := by
  obtain ⟨all, hcuts, htokens⟩ := cuts_tokens (ofText t mode text) ht #[]
  obtain ⟨all', hkept, hall⟩ := cuts_tokens (ofText t .keep text) ht #[]
  obtain ⟨rfl, -⟩ := hcuts.unique hkept
  have hsame : (tokenize t .keep text).1.toList = all :=
    hall.trans (List.filter_eq_self.2 fun token _ => t.shows_keep token)
  rw [hsame]
  exact ⟨hcuts, htokens⟩

/-- There are stamps enough for all the matches that are made for a text. -/
def Lasts (t : TokenTable) (text : List Char) : Prop :=
  (Workspace.ofSize t.maxStates).Lasts (t.jobsIn (tokenize t .keep text).1.toList)

/-- For a text that is not too long there are. -/
theorem lasts_of_length (ht : t.Indexed) {text : List Char}
    (h : text.length * (t.patterns.size * (text.length + 1)) ≤ Workspace.counterMax) :
    Lasts t text := by
  have hjoined := ((cuts_tokenize ht .keep text).1.tiles ht).joined_eq
  have hlength : (tokenize t .keep text).1.toList.length ≤ text.length :=
    length_tokens_le (ofText t .keep text)
  have hsum := t.sum_jobsIn_le (tokenize t .keep text).1.toList
  rw [hjoined] at hsum
  refine (Workspace.dated_ofSize _).lasts_of_sum ?_
  rw [show (Workspace.ofSize t.maxStates).stamp.toNat = 0 from rfl, Nat.zero_add]
  exact (hsum.trans (Nat.mul_le_mul_right _ hlength)).trans h

theorem lasts_of_decls {decls : List LexemeDecl} (h : TokenTable.ofDecls decls = .ok t)
    {text : List Char}
    (hshort : text.length * (decls.length * (text.length + 1)) ≤ Workspace.counterMax) :
    Lasts t text :=
  have hpatterns := Nat.mul_le_mul_right (text.length + 1) (TokenTable.size_patterns_le h)
  lasts_of_length (TokenTable.indexed_of_ofDecls h).1
    ((Nat.mul_le_mul_left _ hpatterns).trans hshort)

/-- Without patterns no stamps are taken. -/
theorem lasts_of_patterns (h : t.patterns = #[]) (text : List Char) : Lasts t text := by
  rw [Lasts, TokenTable.jobsIn_eq_nil h]
  trivial

/-- The tokens of a text are what it is divided into; trivia are hidden if they are left out. -/
theorem divides_tokenize (ht : t.Indexed) (mode : TriviaMode) {text : List Char}
    (hlasts : Lasts t text) :
    t.Divides (.ofText text) (tokenize t .keep text).1.toList (tokenize t mode text).2.cursor ∧
      (tokenize t mode text).1.toList
        = (tokenize t .keep text).1.toList.filter (t.shows mode) := by
  obtain ⟨hcuts, htokens⟩ := cuts_tokenize ht mode text
  exact ⟨hcuts.divides ht (Workspace.dated_ofSize _) hlasts, htokens⟩

/-- The tokens of a text are its lexemes. -/
theorem lexes_tokenize (ht : t.Indexed) (mode : TriviaMode) {text : List Char}
    (hlasts : Lasts t text) :
    t.Lexes mode text ((tokenize t mode text).1.toList.map Token.lexeme) := by
  obtain ⟨hdivides, htokens⟩ := divides_tokenize ht mode hlasts
  rw [htokens]
  exact hdivides.lexes mode

end Lexer

end FrontEnd
