import FrontEnd.Proofs.Stream.Stamps

/-!
# Texts divided into tokens

When trivia are kept, nothing of a text is lost: its tokens stand one behind the other and make up
the whole. Each is a lexeme of its rule, or one character that is reported; and as long as there are
stamps enough, it is the longest lexeme at its place, of those the one of the earliest rule, and one
character only where there is none. Leaving out trivia only hides tokens.

- `Lexer.division_tokenize`: **the tokens of a text, trivia among them**;
- `Lexer.division_exhausted`: a text that there are no stamps enough for;
- `Lexer.tokenize_skip`: the tokens of a text without trivia.
-/

namespace FrontEnd

/-- Only tokens of rules are ever left out. -/
theorem TokenTable.not_unknown_of_hidden {t : TokenTable} {mode : TriviaMode} {token : Token}
    (h : t.shows mode token = false) : token.id ≠ .unknown := by
  intro hid
  have htrivia := (shows_eq_false_iff.1 h).1
  rw [hid] at htrivia
  cases htrivia

namespace Token

/-- A report for each unknown token, with the place of its character, and no others. -/
theorem complaints_eq {ts : List Token}
    (h : ∀ token ∈ ts, token.id = .unknown → ∃ c, token.text = String.ofList [c]) :
    (ts.flatMap complaints).map (fun d => (d.code, d.location))
      = (ts.filter (·.id == .unknown)).map fun token =>
          (.unrecognizedCharacter, ⟨token.position, Text.size token.text.toList⟩) := by
  induction ts with
  | nil => rfl
  | cons token ts ih =>
    obtain ⟨hfirst, hrest⟩ := List.forall_mem_cons.1 h
    rw [List.flatMap_cons, List.map_append, ih hrest, complaints]
    by_cases hid : token.id = .unknown
    · obtain ⟨c, hc⟩ := hfirst hid
      rw [if_pos hid, List.filter_cons_of_pos (p := fun x : Token => x.id == .unknown)
        (beq_iff_eq.2 hid)]
      simp [Diagnostic.unrecognizedCharacter, hc]
    · rw [if_neg hid, List.filter_cons_of_neg (p := fun x : Token => x.id == .unknown)
        (by simpa using hid)]
      rfl

/-- Tokens of rules can be left out. -/
theorem complaints_filter {ts : List Token} {p : Token → Bool}
    (h : ∀ token, p token = false → token.id ≠ .unknown) :
    (ts.filter p).flatMap complaints = ts.flatMap complaints := by
  induction ts with
  | nil => rfl
  | cons token ts ih =>
    cases hp : p token with
    | true => rw [List.filter_cons_of_pos hp, List.flatMap_cons, List.flatMap_cons, ih]
    | false =>
      rw [List.filter_cons_of_neg (by simp [hp]), List.flatMap_cons, complaints,
        if_neg (h token hp), ih]
      rfl

end Token

/-- Blanks that are usually dropped, and one letter. -/
def TokenTable.blankDecls : List LexemeDecl := [⟨"blank", .literal " ", true⟩, .ofLiteral "a"]

theorem TokenTable.exists_ofDecls_blank : ∃ t, ofDecls blankDecls = .ok t := by
  have hforms : List.Forall₂ Compiles blankDecls [.literal [' '], .literal ['a']] :=
    .cons rfl (.cons rfl .nil)
  exact exists_ofDecls (by decide) (by decide) hforms

namespace Lexer

variable {decls : List LexemeDecl} {t : TokenTable}

/-- With trivia kept, the tokens of a text make up the text. Each of them stands where those before
it end, is not empty, and is a lexeme of its rule or one character; and these characters are what is
reported. If there are stamps enough, each is the longest lexeme at its place, by the earliest rule
that accepts it, and one character where no rule accepts anything. -/
theorem division_tokenize (h : TokenTable.ofDecls decls = .ok t) (text : List Char) :
    Token.joined (tokenize t .keep text).1.toList = text ∧
      (∀ before token later, (tokenize t .keep text).1.toList = before ++ token :: later →
        token.text ≠ "" ∧ t.Classes token ∧
        token.position = ((Cursor.ofText text).advanceBy (Text.size (Token.joined before))).position ∧
        token.position.offset = Position.bounded (Text.size (Token.joined before)) ∧
        (Lasts t text → t.Munches (Token.joined (token :: later)) token)) ∧
      (tokenize t .keep text).2.log.toList.map (fun d => (d.code, d.location))
        = ((tokenize t .keep text).1.toList.filter (·.id == .unknown)).map fun token =>
            (.unrecognizedCharacter, ⟨token.position, Text.size token.text.toList⟩) := by
  have ht := (TokenTable.indexed_of_ofDecls h).1
  obtain ⟨hcuts, -⟩ := cuts_tokenize ht .keep text
  have htiles := hcuts.tiles ht
  have hclasses := hcuts.classes ht
  rw [log_tokenize, ← tokenize_toList]
  refine ⟨htiles.joined_eq, fun before token later hall => ?_, Token.complaints_eq ?_⟩
  · have hrest : (Cursor.ofText text).rest = Token.joined before ++ Token.joined (token :: later) := by
      rw [← htiles.joined_eq, hall, Token.joined, List.flatMap_append]
      rfl
    have hposition := htiles.place_eq hall
    have hoffset := Cursor.offset_advanceBy hrest (Nat.zero_le _)
    rw [← hposition] at hoffset
    have hclass := hclasses token (hall ▸ List.mem_append_right _ List.mem_cons_self)
    refine ⟨fun hempty => hclass.ne_nil ht (by rw [hempty]; rfl), hclass, hposition, ?_,
      fun hlasts => (divides_tokenize ht .keep hlasts).1.munches hall⟩
    rw [hoffset]
    exact congrArg Position.bounded (Nat.zero_add _)
  · intro token hmem hid
    rcases hclasses token hmem with ⟨-, hone⟩ | ⟨n, hn, -⟩
    · exact hone
    · cases hid.symm.trans hn

/-- A letter, a blank, and a character that no rule accepts. -/
theorem division_tokenize_blank :
    ∃ t, TokenTable.ofDecls TokenTable.blankDecls = .ok t ∧ Lasts t ['a', ' ', '?'] ∧
      Token.joined (tokenize t .keep ['a', ' ', '?']).1.toList = ['a', ' ', '?'] ∧
      ∀ before token later,
        (tokenize t .keep ['a', ' ', '?']).1.toList = before ++ token :: later →
          t.Munches (Token.joined (token :: later)) token := by
  obtain ⟨t, h⟩ := TokenTable.exists_ofDecls_blank
  have hlasts : Lasts t ['a', ' ', '?'] := by
    refine lasts_of_length (TokenTable.indexed_of_ofDecls h).1 ?_
    have hfew : t.patterns.size ≤ 2 := TokenTable.size_patterns_le h
    exact (Nat.mul_le_mul_left 3 (Nat.mul_le_mul_right 4 hfew)).trans (by decide)
  obtain ⟨hjoined, htokens, -⟩ := division_tokenize h ['a', ' ', '?']
  exact ⟨t, h, hlasts, hjoined, fun before token later hall =>
    (htokens before token later hall).2.2.2.2 hlasts⟩

/-- A lexeme that is not found is taken apart. -/
theorem exists_unknown (ht : t.Indexed) {text : List Char} {n : Fin 65536}
    (htakes : t.Takes n text) (hlost : (t.longestMatch (.ofSize t.maxStates) text).1 = none) :
    ∃ token later, (tokenize t .keep text).1.toList = token :: later ∧ token.id = .unknown ∧
      ¬ t.Munches (Token.joined (token :: later)) token := by
  obtain ⟨c, rest, rfl⟩ := List.exists_cons_of_ne_nil (htakes.ne_nil ht)
  obtain ⟨hcuts, -⟩ := cuts_tokenize ht .keep (c :: rest)
  have hjoined := (hcuts.tiles ht).joined_eq
  obtain ⟨token, later, -, htokens, hid, -⟩ := hcuts.of_lost ht hlost rfl
  refine ⟨token, later, htokens, hid, fun hmunches => ?_⟩
  rw [← htokens, hjoined] at hmunches
  cases hmunches with
  | wins => cases hid
  | unknown _ hrefuses => exact hrefuses n _ (List.prefix_refl _) htakes

/-- A word that takes all stamps is not found, and its first letter becomes a token that belongs to
no rule. -/
theorem division_exhausted : ∃ t token later, TokenTable.ofDecls TokenTable.wordDecls = .ok t ∧
    (tokenize t .keep (asAndB (Workspace.counterMax - 1))).1.toList = token :: later ∧
    token.id = .unknown ∧ ¬ t.Munches (Token.joined (token :: later)) token := by
  obtain ⟨t, hbuilt, hrules, hlost⟩ := TokenTable.exists_ofDecls_word
  have htakes : t.Takes 0 (asAndB (Workspace.counterMax - 1)) := by
    refine (TokenTable.hasRule_single hrules).2 ⟨rfl, ?_⟩
    rw [LexemeForm.language_ofPattern Pattern.proper_manyAsAndB]
    exact Pattern.mem_manyAsAndB.2 ⟨_, rfl⟩
  obtain ⟨token, later, htokens⟩ :=
    exists_unknown (TokenTable.indexed_of_ofDecls hbuilt).1 htakes hlost
  exact ⟨t, token, later, hbuilt, htokens⟩

/-- Leaving out trivia hides the tokens of trivia rules and changes nothing else. -/
theorem tokenize_skip (h : TokenTable.ofDecls decls = .ok t) (text : List Char) :
    (tokenize t .skip text).1.toList
        = (tokenize t .keep text).1.toList.filter (fun token => !t.isTrivia token.id) ∧
      (tokenize t .skip text).2.log.toList = (tokenize t .keep text).2.log.toList ∧
      (tokenize t .skip text).2.position = (tokenize t .keep text).2.position := by
  have ht := (TokenTable.indexed_of_ofDecls h).1
  obtain ⟨hkeep, -⟩ := cuts_tokenize ht .keep text
  obtain ⟨hskip, hshown⟩ := cuts_tokenize ht .skip text
  refine ⟨?_, ?_, congrArg Cursor.position (hskip.unique hkeep).2⟩
  · rw [hshown]
    exact congrArg (List.filter · _) (funext fun token => by simp [TokenTable.shows])
  · rw [log_tokenize, log_tokenize, ← tokenize_toList, ← tokenize_toList, hshown]
    exact Token.complaints_filter fun token hhidden => t.not_unknown_of_hidden hhidden

/-- A letter, a blank, and a character that no rule accepts. -/
theorem tokenize_skip_blank :
    ∃ t, TokenTable.ofDecls TokenTable.blankDecls = .ok t ∧
      (tokenize t .skip ['a', ' ', '?']).1.toList
        = (tokenize t .keep ['a', ' ', '?']).1.toList.filter (fun token => !t.isTrivia token.id) ∧
      (tokenize t .skip ['a', ' ', '?']).2.log.toList
        = (tokenize t .keep ['a', ' ', '?']).2.log.toList ∧
      (tokenize t .skip ['a', ' ', '?']).2.position
        = (tokenize t .keep ['a', ' ', '?']).2.position := by
  obtain ⟨t, h⟩ := TokenTable.exists_ofDecls_blank
  exact ⟨t, h, tokenize_skip h ['a', ' ', '?']⟩

end Lexer

end FrontEnd
