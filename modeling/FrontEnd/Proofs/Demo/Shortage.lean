import FrontEnd.Proofs.Demo.Lexicon
import FrontEnd.Proofs.Stream.Stamps

/-!
# Where the demonstration language runs out of stamps

A string with an escape needs a state that blanks and identifiers do not have. If the stamps end
between the quotation mark and the backslash of the first string of a text, this state was never
met, and **the string is not found**. Both characters become tokens that belong to no rule.

- `Demo.triesOnly_of`: the only pattern that is tried at a character;
- `Demo.longestMatch_quote`: a string that is not found;
- `Demo.unknown_behind_letters`, `Demo.unknown_behind_blanks`: **a long lexeme that leaves no stamps
  for the string behind it**;
- `Demo.lasts_letters_quote`: a text that has just stamps enough.
-/

namespace FrontEnd

namespace Demo

variable {t : TokenTable} {n : Fin 65536} {c d : Char} {w : Workspace} {cur cur' : Cursor}
  {ts : List Token} {a : Automaton} {u v rest : List Char} {k m : Nat}

/-! ## The pattern that is tried -/

/-- A rule that is tried has one of the patterns. -/
theorem tried_cases (ht : table = .ok t) (h : t.tried? c n = some a) :
    ∃ p, (n.val, p) ∈ patternRules ∧ a = .ofPattern p ∧
      (Automaton.ofPattern p).canStartWith c = true := by
  obtain ⟨d, -, form, hform, rfl, hstart⟩ :=
    (hasRule_table ht).1 (TokenTable.tried?_eq_some_iff.1 h)
  rcases forms_cases hform with ⟨text, -, hliteral⟩ | ⟨p, hp, heq⟩
  · cases hliteral
  · obtain rfl := LexemeForm.pattern.inj heq
    exact ⟨p, hp, rfl, hstart⟩

theorem canStartWith_comment (hc : c ≠ '/') :
    (Automaton.ofPattern commentPattern).canStartWith c = false := by
  have hproper := proper_patterns commentPattern (by simp)
  have hstates : (Automaton.ofPattern commentPattern).states = #[.accept, .fork 2 0,
      .read ⟨[('\n', '\n')], true⟩ 1, .read (.single '/') 1, .read (.single '/') 3] := rfl
  refine Automaton.canStartWith_eq_false hproper fun s cls next hstate hd => ?_
  rw [hstates] at hstate ⊢
  match s with
  | 0 | 1 => cases hstate
  | 2 =>
    cases hstate
    refine ⟨[c], .read rfl hd (.right rfl ⟨0, .accept rfl⟩), fun hmem => ?_⟩
    generalize htext : [c] = text at hmem
    obtain ⟨hw⟩ := mem_commentPattern.1 hmem
    cases htext
  | 3 | 4 =>
    cases hstate
    exact absurd (CharClass.accepts_single.1 hd) hc
  | s + 5 => cases hstate

theorem states_string : (Automaton.ofPattern stringPattern).states = #[.accept,
    .read (.single '"') 0, .fork 6 1, .read bareClass 2, .read .anyButLineFeed 2,
    .read (.single '\\') 4, .fork 3 5, .read (.single '"') 2] := rfl

theorem canStartWith_string (hc : c ≠ '"') :
    (Automaton.ofPattern stringPattern).canStartWith c = false := by
  have hproper := proper_patterns stringPattern (by simp)
  have hquote : ∀ {x : List Char}, c :: x ∉ stringPattern.language := fun hmem => by
    generalize htext : c :: _ = text at hmem
    obtain ⟨hw⟩ := quoted_of_mem hmem
    exact hc (List.cons.inj htext).1
  have hclose : Automaton.AcceptsFrom (Automaton.ofPattern stringPattern).states 2 ['"'] :=
    .right rfl (.read rfl rfl ⟨0, .accept rfl⟩)
  refine Automaton.canStartWith_eq_false hproper fun s cls next hstate hd => ?_
  rw [states_string] at hstate hclose ⊢
  match s with
  | 0 | 2 | 6 => cases hstate
  | 1 | 7 =>
    cases hstate
    exact absurd (CharClass.accepts_single.1 hd) hc
  | 3 | 4 =>
    cases hstate
    exact ⟨_, .read rfl hd hclose, hquote⟩
  | 5 =>
    cases hstate
    exact ⟨[c, 'a', '"'], .read rfl hd (.read rfl rfl hclose), hquote⟩
  | s + 8 => cases hstate

/-- Can a pattern perhaps start with the character? -/
def mayStart (c : Char) : Nat × Pattern → Bool
  | (1, _) => c = '/'
  | (29, _) => c = '"'
  | (_, p) => (Automaton.ofPattern p).reads c

/-- A pattern that cannot even perhaps start with the character cannot. -/
theorem mayStart_of_canStartWith {r : Nat × Pattern} (hr : r ∈ patternRules)
    (hstart : (Automaton.ofPattern r.2).canStartWith c = true) : mayStart c r = true := by
  by_contra hnot
  rw [Bool.not_eq_true] at hnot
  have hfalse : (Automaton.ofPattern r.2).canStartWith c = false := by
    have hproper := (language_patternRules hr).1
    simp only [patternRules, List.mem_cons, List.not_mem_nil, or_false] at hr
    rcases hr with rfl | rfl | rfl | rfl | rfl
    · exact Automaton.canStartWith_of_unread hproper hnot
    · exact canStartWith_comment (of_decide_eq_false hnot)
    · exact Automaton.canStartWith_of_unread hproper hnot
    · exact canStartWith_string (of_decide_eq_false hnot)
    · exact Automaton.canStartWith_of_unread hproper hnot
  rw [hstart] at hfalse
  cases hfalse

/-- Characters with the number of the only rule that can start with them. There is no rule number
31, so that none can start with a backslash. -/
def starters : List (Char × Nat) := [('a', 30), (' ', 0), ('\n', 0), ('"', 29), ('\\', 31)]

theorem starters_alone : ∀ s ∈ starters,
    (∀ r ∈ patternRules, r.1 ≠ s.2 → mayStart s.1 r = false) ∧
      ∀ text ∈ fixedTexts, (LexemeForm.literal text.toList).code? ≠ some s.1.toNat := by
  decide +kernel

theorem number_of_canStartWith {r : Nat × Pattern} (hc : (c, k) ∈ starters)
    (hr : r ∈ patternRules) (hstart : (Automaton.ofPattern r.2).canStartWith c = true) :
    r.1 = k := by
  by_contra hne
  have hmay := (starters_alone _ hc).1 r hr hne
  rw [mayStart_of_canStartWith hr hstart] at hmay
  cases hmay

/-- At such a character the pattern of the rule is tried, and no other. -/
theorem triesOnly_of (ht : table = .ok t) {p : Pattern} (hp : p.Proper)
    (hform : forms[n.val]? = some (.pattern (.ofPattern p))) (hc : (c, n.val) ∈ starters)
    (hu : (Automaton.ofPattern p).Accepts (c :: u)) : t.TriesOnly c n (.ofPattern p) where
  tried := by
    have hlt : n.val < tokenDecls.length := by
      rw [← length_forms]
      exact (List.getElem?_eq_some_iff.1 hform).1
    have hstart := Automaton.canStartWith_of_mem hp ((Automaton.accepts_ofPattern hp).1 hu)
    exact TokenTable.tried?_eq_some_iff.2
      ((hasRule_table ht).2 ⟨_, List.getElem?_eq_getElem hlt, _, hform, rfl, hstart⟩)
  only n' hne := by
    refine Option.eq_none_iff_forall_ne_some.2 fun a htried => ?_
    obtain ⟨q, hq, -, hstart⟩ := tried_cases ht htried
    exact hne (Fin.ext (number_of_canStartWith hc hq hstart))
  unwritten n' hrule := by
    obtain ⟨d, -, form, hform, hcode⟩ := (hasRule_table ht).1 hrule
    rcases forms_cases hform with ⟨text, htext, rfl⟩ | ⟨q, -, rfl⟩
    · exact (starters_alone _ hc).2 text htext hcode
    · cases hcode

/-! ## Letters, blanks and quotation marks -/

theorem accepts_letters (m : Nat) :
    (Automaton.ofPattern identifierPattern).Accepts ('a' :: List.replicate m 'a') := by
  refine (Automaton.accepts_ofPattern (proper_patterns _ (by simp))).2 ?_
  simp only [identifierPattern, Pattern.language, Pattern.languageConcat, mul_one,
    CharClass.mem_language_mul, CharClass.mem_kstar]
  refine ⟨'a', _, rfl, by decide, fun c hc => ?_⟩
  rw [List.eq_of_mem_replicate hc]
  decide

theorem accepts_blank (hu : Blank u) : (Automaton.ofPattern blankPattern).Accepts u :=
  (Automaton.accepts_ofPattern (proper_patterns _ (by simp))).2 (mem_blankPattern.2 hu)

/-- A string that begins with an escape. -/
def escapeText : List Char := ['"', '\\', 'a', '"']

theorem accepts_escape : (Automaton.ofPattern stringPattern).Accepts escapeText := by
  have hclose : Automaton.AcceptsFrom (Automaton.ofPattern stringPattern).states 2 ['"'] :=
    .right rfl (.read rfl rfl ⟨0, .accept rfl⟩)
  exact .read rfl rfl (.left rfl (.right rfl (.read rfl rfl (.read rfl rfl hclose))))

theorem triesOnly_letter (ht : table = .ok t) :
    t.TriesOnly 'a' 30 (.ofPattern identifierPattern) :=
  triesOnly_of ht (proper_patterns _ (by simp)) rfl (by decide) (accepts_letters 0)

theorem triesOnly_quote (ht : table = .ok t) :
    t.TriesOnly '"' 29 (.ofPattern stringPattern) :=
  triesOnly_of ht (proper_patterns _ (by simp)) rfl (by decide) accepts_escape

theorem triesOnly_blank (ht : table = .ok t) (hc : c = ' ' ∨ c = '\n') :
    t.TriesOnly c 0 (.ofPattern blankPattern) ∧ Blank [c] := by
  have hstarter : (c, 0) ∈ starters := by rcases hc with rfl | rfl <;> decide
  have hblank : Blank [c] := by rcases hc with rfl | rfl <;> exact blank_singleton (by decide)
  exact ⟨triesOnly_of ht (proper_patterns _ (by simp)) rfl hstarter (accepts_blank hblank), hblank⟩

/-- Neither names nor blanks go on with a quotation mark, and names not with a blank. -/
theorem unread_behind :
    ((Automaton.ofPattern identifierPattern).reads '"' = false ∧
        (Automaton.ofPattern blankPattern).reads '"' = false) ∧
      (Automaton.ofPattern identifierPattern).reads ' ' = false ∧
        (Automaton.ofPattern identifierPattern).reads '\n' = false := by
  decide +kernel

/-- No rule accepts a text that begins with a backslash. -/
theorem refuses_backslash (ht : table = .ok t) (rest : List Char) :
    t.Refuses ('\\' :: rest) := by
  intro n v hv htakes
  have hstarter : ('\\', 31) ∈ starters := by decide
  obtain ⟨v, rfl, -⟩ := (List.prefix_cons_iff.1 hv).resolve_left (htakes.ne_nil (indexed_table ht))
  obtain ⟨form, hform, hmem⟩ := (takes_iff ht).1 htakes
  rcases forms_cases hform with ⟨text, htext, rfl⟩ | ⟨p, hp, rfl⟩
  · have heq : '\\' :: v = text.toList := hmem
    exact (starters_alone _ hstarter).2 text htext (by rw [← heq]; rfl)
  · have hnumbers : ∀ r ∈ patternRules, r.1 ≠ 31 := by decide
    obtain ⟨hproper, hlanguage⟩ := language_patternRules hp
    rw [hlanguage] at hmem
    exact hnumbers _ hp
      (number_of_canStartWith hstarter hp (Automaton.canStartWith_of_mem hproper hmem))

/-! ## A string that is not found -/

theorem size_identifier_le : (Automaton.ofPattern identifierPattern).states.size ≤ 4 :=
  Nat.le_refl 4

theorem size_blank_le : (Automaton.ofPattern blankPattern).states.size ≤ 4 := Nat.le_succ 3

/-- Behind a backslash a string goes on in state number four. -/
theorem funnels_string : (Automaton.ofPattern stringPattern).Funnels 4 '\\' := by
  intro s cls next hs hstate hc
  rw [states_string] at hstate
  match s with
  | 0 | 2 | 6 => cases hstate
  | 1 | 3 | 7 =>
    cases hstate
    exact absurd hc (by decide)
  | 4 => exact absurd rfl hs
  | 5 =>
    cases hstate
    rfl
  | s + 8 => cases hstate

/-- A quotation mark is no string, and the second one is not the end if there is a backslash in
front of it. -/
theorem not_quoted (hv : v <+: ['"']) : ¬ Quoted v ∧ ¬ Quoted (v ++ ['\\', '"']) := by
  have hcases : v = [] ∨ v = ['"'] := by
    rcases List.prefix_cons_iff.1 hv with rfl | ⟨v, rfl, hnil⟩
    · exact .inl rfl
    · exact .inr (by rw [List.prefix_nil.1 hnil])
  have hopen : ∀ {x w : List Char}, x = '"' :: (w ++ ['"']) → x ≠ ['"'] ∧ x.head? = some '"' := by
    rintro _ w rfl
    exact ⟨by simp, rfl⟩
  constructor
  · rintro ⟨hw⟩
    rcases hcases with hnil | hquote
    · cases hnil
    · exact (hopen rfl).1 hquote
  · intro hquoted
    generalize htext : v ++ ['\\', '"'] = text at hquoted
    obtain ⟨hw⟩ := hquoted
    rcases hcases with rfl | rfl
    · cases (hopen htext).2
    · have hinner := List.append_cancel_right (List.cons.inj htext : _ ∧ ['\\'] ++ ['"'] = _).2
      rw [← hinner] at hw
      cases hw with
      | bare hc => exact absurd hc (by decide)

/-- With two stamps left a string that begins with an escape is not found. -/
theorem longestMatch_quote (hw : w.Spent 4 m) (hroom : m + 2 = Workspace.counterMax) :
    ((Automaton.ofPattern stringPattern).longestMatch w ('"' :: '\\' :: rest)).1 = none := by
  have hproper := proper_patterns stringPattern (by simp)
  have hquoted : ∀ {u}, (Automaton.ofPattern stringPattern).Accepts u → Quoted u := fun h =>
    quoted_of_mem ((Automaton.accepts_ofPattern hproper).1 h)
  have hlast : ((Automaton.ofPattern stringPattern).initial w).1.stamp.toNat + 1
      = Workspace.counterMax := by
    rw [Automaton.toNat_initial_of_lt (by rw [hw.stamp]; omega), hw.stamp]
    exact hroom
  have havoids : (Automaton.ofPattern stringPattern).Avoids 4 ['"'] := by
    refine .inr ⟨['\\', '"'], ?_, fun v hv haccepts => (not_quoted hv).2 (hquoted haccepts)⟩
    exact .read rfl rfl (.right rfl (.read rfl rfl ⟨0, .accept rfl⟩))
  have htext : '"' :: '\\' :: rest = ['"'] ++ '\\' :: rest := rfl
  rw [htext]
  refine Automaton.longestMatch_lost (fun s => Automaton.accept_ofPattern hproper) hw.unmet ?_
    hlast havoids (fun v hv haccepts => (not_quoted hv).1 (hquoted haccepts)) funnels_string
  rw [states_string]
  exact nofun

/-- Both characters become tokens that belong to no rule. -/
theorem unknown_quote (ht : table = .ok t) (hw : w.Spent 4 m)
    (hroom : m + 2 = Workspace.counterMax) (hcur : cur.rest = '"' :: '\\' :: rest)
    (h : t.Cuts w cur ts cur') : 2 ≤ ts.countP (·.id = .unknown) := by
  have hindexed := indexed_table ht
  have hlost : (t.longestMatch w ('"' :: '\\' :: rest)).1 = none :=
    (triesOnly_quote ht).longestMatch_eq_none hindexed (TokenTable.pairwise_patterns ht)
      (longestMatch_quote hw hroom)
  obtain ⟨token, ts, left, rfl, hid, hleft, h⟩ := h.of_lost hindexed (hcur ▸ hlost) hcur
  have hlost' := TokenTable.longestMatch_of_refuses hindexed (refuses_backslash ht rest)
  obtain ⟨token', ts, -, rfl, hid', -⟩ := h.of_lost hindexed (hleft ▸ hlost' _) hleft
  rw [List.countP_cons_of_pos (by simpa using hid), List.countP_cons_of_pos (by simpa using hid')]
  exact Nat.le_add_left ..

/-! ## Long lexemes -/

theorem blank_spaces (m : Nat) : Blank (' ' :: List.replicate m ' ') :=
  ⟨List.cons_ne_nil _ _, fun c hc => by
    rw [← List.replicate_succ] at hc
    rw [List.eq_of_mem_replicate hc]
    decide⟩

/-- So many letters, a blank and the quotation mark of a string: where the letters leave seven
stamps, the string is not found. -/
theorem unknown_behind_letters (ht : table = .ok t) (hd : d = ' ' ∨ d = '\n')
    (hroom : m + 8 = Workspace.counterMax) (mode : TriviaMode) (rest : List Char) :
    2 ≤ (Lexer.tokenize t mode
      (List.replicate (m + 1) 'a' ++ d :: '"' :: '\\' :: rest)).1.toList.countP
        (·.id = .unknown) := by
  have hindexed := indexed_table ht
  have hsorted := TokenTable.pairwise_patterns ht
  have hword : (Automaton.ofPattern identifierPattern).reads d = false := by
    rcases hd with rfl | rfl
    · exact unread_behind.2.1
    · exact unread_behind.2.2
  obtain ⟨honly, hblank⟩ := triesOnly_blank ht hd
  rw [Lexer.countP_unknown hindexed]
  have hcuts := (Lexer.cuts_tokenize hindexed .keep
    (List.replicate (m + 1) 'a' ++ d :: '"' :: '\\' :: rest)).1
  generalize (Lexer.tokenize t .keep _).1.toList = ts at hcuts ⊢
  obtain ⟨_, ts, left, w, rfl, hleft, hspent, hcuts, -⟩ := hcuts.of_spent hindexed hsorted
    (triesOnly_letter ht) (Workspace.spent_ofSize _ 4) size_identifier_le (accepts_letters m) hword
    (by rw [List.length_replicate]; omega) rfl
  rw [List.length_replicate] at hspent
  obtain ⟨_, ts, left, w, rfl, hleft, hspent, hcuts, -⟩ := hcuts.of_spent hindexed hsorted
    honly hspent size_blank_le (accepts_blank hblank) unread_behind.1.2
    (by rw [List.length_nil]; omega) hleft
  have hunknown := unknown_quote ht hspent (by rw [List.length_nil]; omega) hleft hcuts
  rw [List.countP_cons, List.countP_cons]
  omega

/-- So many blanks in front of the quotation mark of a string do the same. -/
theorem unknown_behind_blanks (ht : table = .ok t) (hroom : m + 6 = Workspace.counterMax)
    (mode : TriviaMode) (rest : List Char) :
    2 ≤ (Lexer.tokenize t mode
      (List.replicate (m + 1) ' ' ++ '\n' :: '"' :: '\\' :: rest)).1.toList.countP
        (·.id = .unknown) := by
  have hindexed := indexed_table ht
  have hend : Blank ['\n'] := blank_singleton (by decide)
  have hblank : Blank (' ' :: (List.replicate m ' ' ++ ['\n'])) :=
    ⟨List.cons_ne_nil _ _, List.forall_mem_append.2 ⟨(blank_spaces m).blank, hend.blank⟩⟩
  have htext : List.replicate (m + 1) ' ' ++ '\n' :: '"' :: '\\' :: rest
      = ' ' :: (List.replicate m ' ' ++ ['\n']) ++ '"' :: '\\' :: rest := by
    simp [List.replicate_succ]
  rw [Lexer.countP_unknown hindexed, htext]
  have hcuts := (Lexer.cuts_tokenize hindexed .keep
    (' ' :: (List.replicate m ' ' ++ ['\n']) ++ '"' :: '\\' :: rest)).1
  generalize (Lexer.tokenize t .keep _).1.toList = ts at hcuts ⊢
  have hlength : (List.replicate m ' ' ++ ['\n']).length = m + 1 := by simp
  obtain ⟨_, ts, left, w, rfl, hleft, hspent, hcuts, -⟩ := hcuts.of_spent hindexed
    (TokenTable.pairwise_patterns ht) (triesOnly_blank ht (.inl rfl)).1 (Workspace.spent_ofSize _ 4)
    size_blank_le (accepts_blank hblank) unread_behind.1.2 (by omega) rfl
  have hunknown := unknown_quote ht hspent (by omega) hleft hcuts
  rw [List.countP_cons]
  omega

/-- A word of letters alone is not too long for the stamps. -/
theorem lasts_letters (ht : table = .ok t) (hroom : m + 2 ≤ Workspace.counterMax) :
    Lexer.Lasts t (List.replicate (m + 1) 'a') :=
  Lexer.lasts_single (indexed_table ht) (TokenTable.pairwise_patterns ht) (triesOnly_letter ht)
    (accepts_letters m) (by rwa [List.length_replicate])

theorem lasts_spaces (ht : table = .ok t) (hroom : m + 2 ≤ Workspace.counterMax) :
    Lexer.Lasts t (List.replicate (m + 1) ' ') :=
  Lexer.lasts_single (indexed_table ht) (TokenTable.pairwise_patterns ht)
    (triesOnly_blank ht (.inl rfl)).1 (accepts_blank (blank_spaces m))
    (by rwa [List.length_replicate])

/-- Without the blank there are just stamps enough for the string behind the letters. -/
theorem lasts_letters_quote (ht : table = .ok t) (hroom : m + 8 ≤ Workspace.counterMax) :
    Lexer.Lasts t (List.replicate (m + 1) 'a' ++ escapeText) := by
  have hindexed := indexed_table ht
  have hsorted := TokenTable.pairwise_patterns ht
  have hcuts := (Lexer.cuts_tokenize hindexed .keep
    (List.replicate (m + 1) 'a' ++ escapeText)).1
  unfold Lexer.Lasts
  generalize (Lexer.tokenize t .keep _).1.toList = ts at hcuts ⊢
  obtain ⟨_, ts, left, w, rfl, hleft, hspent, hcuts, hlasts⟩ := hcuts.of_spent hindexed hsorted
    (triesOnly_letter ht) (Workspace.spent_ofSize _ 4) size_identifier_le (accepts_letters m)
    unread_behind.1.1 (by rw [List.length_replicate]; omega) rfl
  rw [List.length_replicate] at hspent
  refine hlasts (hcuts.lasts_last hindexed hsorted (triesOnly_quote ht) hspent.dated accepts_escape
    ?_ hleft)
  have hlength : ['\\', 'a', '"'].length = 3 := rfl
  rw [hspent.stamp]
  omega

theorem wins_letters (ht : table = .ok t) (m : Nat)
    (hrest : ∀ d ∈ rest.head?, (Automaton.ofPattern identifierPattern).reads d = false) :
    t.Wins (List.replicate (m + 1) 'a' ++ rest) (List.replicate (m + 1) 'a') 30 :=
  (triesOnly_letter ht).wins (indexed_table ht) (accepts_letters m) hrest

theorem wins_escape (ht : table = .ok t) : t.Wins escapeText escapeText 29 :=
  (triesOnly_quote ht).wins (indexed_table ht) accepts_escape nofun

/-- The two lexemes of a text of letters and a string. -/
theorem lexes_letters_quote (ht : table = .ok t) (m : Nat) :
    t.Lexes .skip (List.replicate (m + 1) 'a' ++ escapeText)
      [⟨.kind 30, String.ofList (List.replicate (m + 1) 'a')⟩,
        ⟨.kind 29, String.ofList escapeText⟩] := by
  have hstring : t.Lexes .skip escapeText _ :=
    .wins (wins_escape ht) (List.append_nil _).symm .nil
  have hall : t.Lexes .skip (List.replicate (m + 1) 'a' ++ escapeText) _ :=
    .wins (wins_letters ht m fun d hd => Option.some.inj hd ▸ unread_behind.1.1) rfl
      hstring
  rwa [TokenTable.kept_of_shown (shown_table ht (by decide)),
    TokenTable.kept_of_shown (shown_table ht (by decide))] at hall

end Demo

end FrontEnd
