import FrontEnd.Proofs.Demo.Shortage

/-!
# Line ends

A line feed ends every lexeme but a row of blanks, and blanks are left out. So two texts with a line
feed between them have the lexemes of the first, and then those of the second.

- `Demo.blank_of_lineFeed`: only a row of blanks goes over the end of a line;
- `Demo.lexes_blanks`: blanks in front of a text;
- `Demo.lexes_lines`: **the lexemes of two texts with a line feed between them**;
- `Demo.listed`, `Demo.relexes_listed`: **lexemes written one to a line are the lexemes of what is
  written**, with those that belong to no rule among them;
- `Demo.relexes_listed_exhausted`: lexemes that are lost because of the line feed between them.
-/

namespace FrontEnd

namespace Demo

variable {t : TokenTable} {n : Fin 65536} {text text' u v b rest : List Char} {c : Char}
  {ls ls' : List Lexeme}

/-! ## What ends with a line -/

theorem Inside.lineFeed_notMem (h : Inside u) : '\n' ∉ u := by
  induction h with
  | nil => exact List.not_mem_nil
  | bare hc hw ih =>
    refine List.not_mem_cons_of_ne_of_not_mem ?_ ih
    rintro rfl
    exact absurd hc (by decide)
  | escape hc hw ih =>
    exact List.not_mem_cons_of_ne_of_not_mem (by decide)
      (List.not_mem_cons_of_ne_of_not_mem hc.symm ih)

/-- Only a row of blanks goes over the end of a line. -/
theorem blank_of_lineFeed (ht : table = .ok t) (h : t.Takes n u) (hmem : '\n' ∈ u) : Blank u := by
  rcases takes_cases ht h with ⟨-, hblank⟩ | ⟨-, hcomment⟩ | ⟨-, hsolid | hquoted⟩
  · exact hblank
  · obtain ⟨hw⟩ := hcomment
    exact absurd (by simpa using hmem) hw
  · exact absurd (hsolid.solid _ hmem) (by decide)
  · obtain ⟨hw⟩ := hquoted
    exact absurd (by simpa using hmem) hw.lineFeed_notMem

/-- Where a line ends no rule goes on, unless there was nothing but blanks before. -/
theorem takes_lineEnd (ht : table = .ok t) (h : t.Takes n v) (hv : v <+: u ++ rest) (hu : u ≠ [])
    (hrest : ∀ c ∈ rest.head?, c = '\n') : v <+: u ∨ Blank u := by
  rcases List.prefix_or_prefix_of_prefix hv (List.prefix_append u rest) with hvu | ⟨v', rfl⟩
  · exact .inl hvu
  cases v' with
  | nil =>
    rw [List.append_nil]
    exact .inl (List.prefix_refl u)
  | cons c v' =>
    right
    obtain ⟨rest', hrest'⟩ := (List.prefix_append_right_inj u).1 hv
    obtain rfl : c = '\n' := hrest c (by rw [← hrest']; rfl)
    have hall := blank_of_lineFeed ht h (by simp)
    exact ⟨hu, fun d hd => hall.blank d (List.mem_append_left _ hd)⟩

/-- Another line behind a text changes its first lexeme only if there is nothing but blanks. -/
theorem wins_lineEnd (ht : table = .ok t) (h : t.Wins text u n) (hblank : ¬ Blank text)
    (hrest : ∀ c ∈ rest.head?, c = '\n') : t.Wins (text ++ rest) u n where
  first := h.first.trans (List.prefix_append ..)
  takes := h.takes
  best := by
    intro n' v hv htakes
    have hne : text ≠ [] := fun hnil =>
      h.ne_nil (indexed_table ht) (List.prefix_nil.1 (hnil ▸ h.first))
    exact h.best n' v ((takes_lineEnd ht htakes hv hne hrest).resolve_right hblank) htakes

/-- A character that belongs to no rule does so too with another line behind it: by itself it is no
blank. -/
theorem refuses_lineEnd (ht : table = .ok t) (h : t.Refuses (c :: text))
    (hrest : ∀ c ∈ rest.head?, c = '\n') : t.Refuses (c :: rest) := by
  intro n v hv htakes
  have hfirst : [c] <+: c :: text := List.prefix_append [c] text
  rcases takes_lineEnd (u := [c]) ht htakes hv (List.cons_ne_nil _ _) hrest with hvc | hblank
  · exact h n v (hvc.trans hfirst) htakes
  · exact h 0 [c] hfirst ((takes_zero ht).2 hblank)

/-! ## Blanks -/

/-- Blanks are left out. -/
theorem kept_blank (ht : table = .ok t) (u : List Char) : t.kept .skip u 0 = [] :=
  if_pos ⟨(isTrivia_table ht).2 (Nat.zero_le 1), rfl⟩

/-- Blanks in front of a text that does not begin with one have no say in its lexemes. -/
theorem lexes_blank (ht : table = .ok t) (hb : Blank b) (hrest : ∀ c ∈ rest.head?, ¬ Blank [c]) :
    t.Lexes .skip (b ++ rest) ls ↔ t.Lexes .skip rest ls := by
  have hwins := wins_blank ht hb hrest
  constructor
  · intro h
    obtain ⟨ls', hlexes, rfl⟩ := h.of_wins hwins (indexed_table ht)
    rwa [kept_blank ht, List.nil_append]
  · intro h
    have hall := TokenTable.Lexes.wins hwins rfl h
    rwa [kept_blank ht, List.nil_append] at hall

/-- Blanks in front of a text have no say in its lexemes, also where it goes on with blanks. -/
theorem lexes_blanks (ht : table = .ok t) (hb : Blank b) (h : t.Lexes .skip text ls) :
    t.Lexes .skip (b ++ text) ls := by
  let accepts : Char → Bool := (⟨CharClass.blanks, false⟩ : CharClass).accepts
  have hfront : ∀ c ∈ text.takeWhile accepts, accepts c = true := fun c hc =>
    List.all_eq_true.1 List.all_takeWhile c hc
  have hrest : ∀ c ∈ (text.dropWhile accepts).head?, ¬ Blank [c] := by
    intro c hc hblank
    have hnot := List.head?_dropWhile_not accepts text
    rw [Option.mem_def.1 hc] at hnot
    exact absurd (hblank.blank c List.mem_cons_self) (by simpa using hnot)
  have hsplit := List.takeWhile_append_dropWhile (p := accepts) (l := text)
  generalize text.takeWhile accepts = s at hfront hsplit
  generalize text.dropWhile accepts = r at hrest hsplit
  subst hsplit
  have hlexes : t.Lexes .skip r ls := by
    by_cases hs : s = []
    · rwa [hs, List.nil_append] at h
    · exact (lexes_blank ht ⟨hs, hfront⟩ hrest).1 h
  rw [← List.append_assoc]
  refine (lexes_blank ht ⟨by simp [hb.ne_nil], ?_⟩ hrest).2 hlexes
  exact List.forall_mem_append.2 ⟨hb.blank, hfront⟩

/-! ## Two texts -/

/-- A line feed divides the lexemes of what is before it, where all of that are lexemes, from the
lexemes of what is behind it. -/
theorem lexes_lines (ht : table = .ok t) (h : t.Lexes .skip text ls)
    (hknown : .unknown ∉ ls.map Lexeme.id) (h' : t.Lexes .skip text' ls') :
    t.Lexes .skip (text ++ '\n' :: text') (ls ++ ls') := by
  have hline : t.Lexes .skip ('\n' :: text') ls' :=
    lexes_blanks ht (blank_singleton (by decide)) h'
  induction h with
  | nil => exact hline
  | unknown => exact absurd List.mem_cons_self hknown
  | @wins text u rest n ls hwins htext hrest ih =>
    by_cases hblank : Blank text
    · have hnone : t.Lexes .skip (text ++ []) [] := (lexes_blank ht hblank (by simp)).2 .nil
      rw [List.append_nil] at hnone
      rw [TokenTable.Lexes.unique (indexed_table ht) (.wins hwins htext hrest) hnone]
      exact lexes_blanks ht hblank hline
    · rw [List.map_append] at hknown
      have hlater := ih fun hmem => hknown (List.mem_append_right _ hmem)
      rw [List.append_assoc]
      refine .wins (wins_lineEnd ht hwins hblank ?_) ?_ hlater
      · exact fun c hc => (Option.mem_some_iff.1 hc).symm
      · rw [htext, List.append_assoc]

/-! ## One lexeme in a line -/

/-- The texts of the lexemes, one to a line. -/
def listed (ls : List Lexeme) : List Char := ("\n".intercalate (ls.map Lexeme.text)).toList

/-- What is listed behind a lexeme begins with another line, and the line feed is left out. -/
theorem exists_listed_cons (ht : table = .ok t) (l : Lexeme) (h : t.Lexes .skip (listed ls) ls) :
    ∃ rest, listed (l :: ls) = l.text.toList ++ rest ∧ (∀ c ∈ rest.head?, c = '\n') ∧
      t.Lexes .skip rest ls := by
  cases ls with
  | nil => exact ⟨[], by simp [listed], nofun, .nil⟩
  | cons l' ls =>
    refine ⟨'\n' :: listed (l' :: ls), by simp [listed], ?_, ?_⟩
    · rintro c ⟨⟩
      rfl
    · exact lexes_blanks ht (blank_singleton (by decide)) h

/-- The lexemes of a text are the lexemes of what they are when they are listed. -/
theorem lexes_listed (ht : table = .ok t) (h : t.Lexes .skip text ls) :
    t.Lexes .skip (listed ls) ls := by
  induction h with
  | nil => exact .nil
  | @unknown c text ls hrefuses _ ih =>
    obtain ⟨rest, heq, hrest, hlexes⟩ := exists_listed_cons ht ⟨.unknown, String.ofList [c]⟩ ih
    rw [heq, String.toList_ofList]
    exact .unknown (refuses_lineEnd ht hrefuses hrest) hlexes
  | @wins text u _ n ls hwins _ _ ih =>
    by_cases hskip : t.isTrivia (.kind n) = true ∧ TriviaMode.skip = .skip
    · rw [TokenTable.kept, if_pos hskip]
      exact ih
    · have hkept : t.kept .skip u n = [⟨.kind n, String.ofList u⟩] := if_neg hskip
      have hblank : ¬ Blank u := by
        intro hblank
        rcases hwins.best 0 u hwins.first ((takes_zero ht).2 hblank) with hlt | ⟨-, hle⟩
        · exact Nat.lt_irrefl _ hlt
        · have hn : n.val ≤ 0 := hle
          exact hskip ⟨(isTrivia_table ht).2 (hn.trans (Nat.zero_le 1)), rfl⟩
      obtain ⟨rest, heq, hrest, hlexes⟩ := exists_listed_cons ht ⟨.kind n, String.ofList u⟩ ih
      have hall := TokenTable.Lexes.wins (wins_lineEnd ht hwins.alone hblank hrest) rfl hlexes
      rw [hkept] at hall ⊢
      rw [List.singleton_append, heq, String.toList_ofList]
      exact hall

theorem length_listed_cons_le (l : Lexeme) (ls : List Lexeme) :
    (listed (l :: ls)).length ≤ l.text.toList.length + 1 + (listed ls).length := by
  cases ls with
  | nil => simp [listed]
  | cons l' ls =>
    simp only [listed, List.map_cons, String.intercalate_cons_cons, String.toList_append,
      List.length_append]
    exact Nat.le_refl _

/-- Where no token is empty, what is listed of them is at most twice as long as they are. -/
theorem length_listed_filter_le (p : Token → Bool) {ts : List Token}
    (hts : ∀ token ∈ ts, token.text.toList ≠ []) :
    (listed ((ts.filter p).map Token.lexeme)).length ≤ 2 * (Token.joined ts).length := by
  induction ts with
  | nil => simp [listed]
  | cons token ts ih =>
    obtain ⟨htoken, hts⟩ := List.forall_mem_cons.1 hts
    have hpos := List.length_pos_iff.2 htoken
    have hlater := ih hts
    have hjoined : (Token.joined (token :: ts)).length
        = token.text.toList.length + (Token.joined ts).length := List.length_append
    by_cases hp : p token = true
    · have hcons : _ ≤ token.text.toList.length + 1 + _ :=
        length_listed_cons_le token.lexeme ((ts.filter p).map Token.lexeme)
      rw [List.filter_cons_of_pos hp, List.map_cons]
      omega
    · rw [List.filter_cons_of_neg hp]
      omega

theorem length_listed_le (ht : table = .ok t) (text : List Char) :
    (listed ((Lexer.tokenize t .skip text).1.toList.map Token.lexeme)).length
      ≤ 2 * text.length := by
  obtain ⟨hcuts, htokens⟩ := Lexer.cuts_tokenize (indexed_table ht) .skip text
  have hle := length_listed_filter_le (t.shows .skip) fun token htoken =>
    (hcuts.classes (indexed_table ht) token htoken).ne_nil (indexed_table ht)
  rw [(hcuts.tiles (indexed_table ht)).joined_eq] at hle
  rw [htokens]
  exact hle

/-- As many characters are reported as belong to no rule. -/
theorem countP_log_tokenize (mode : TriviaMode) (text : List Char) :
    (Lexer.tokenize t mode text).2.log.toList.countP (·.code = .unrecognizedCharacter)
      = ((Lexer.tokenize t mode text).1.toList.map Token.lexeme).countP (·.id = .unknown) := by
  rw [Lexer.log_tokenize, Lexer.tokenize_toList, List.countP_map]
  induction (Lexer.ofText t mode text).tokens with
  | nil => rfl
  | cons token ts ih =>
    rw [List.flatMap_cons, List.countP_append, ih, List.countP_cons, Nat.add_comm]
    congr 1
    by_cases hid : token.id = .unknown
    · simp [Token.complaints, Token.lexeme, hid, Diagnostic.unrecognizedCharacter]
    · simp [Token.complaints, Token.lexeme, hid]

/-- **The tokens of a text, trivia left out and listed one to a line, are read again as they were,
with as many characters reported that belong to no rule**, while there are stamps for both. -/
theorem relexes_listed (ht : table = .ok t) (text : List Char) (hlasts : Lexer.Lasts t text)
    (hlasts' : Lexer.Lasts t
      (listed ((Lexer.tokenize t .skip text).1.toList.map Token.lexeme))) :
    let made := Lexer.tokenize t .skip text
    let again := Lexer.tokenize t .skip (listed (made.1.toList.map Token.lexeme))
    again.1.toList.map Token.lexeme = made.1.toList.map Token.lexeme ∧
      again.2.log.toList.countP (·.code = .unrecognizedCharacter)
        = made.2.log.toList.countP (·.code = .unrecognizedCharacter) := by
  intro made again
  have hindexed := indexed_table ht
  have hmade : t.Lexes .skip text (made.1.toList.map Token.lexeme) :=
    Lexer.lexes_tokenize hindexed .skip hlasts
  have hagain : t.Lexes .skip (listed (made.1.toList.map Token.lexeme))
      (again.1.toList.map Token.lexeme) :=
    Lexer.lexes_tokenize hindexed .skip hlasts'
  have hsame := hagain.unique hindexed (lexes_listed ht hmade)
  refine ⟨hsame, ?_⟩
  rw [countP_log_tokenize, countP_log_tokenize]
  exact congrArg (List.countP (·.id = .unknown)) hsame

/-- A word and a string, and a character between them that belongs to no rule. -/
def strayText : List Char := ['a', ' ', '?', '"', 'b', ' ', '"']

/-- They are read again line by line. -/
theorem relexes_listed_stray : ∃ t, table = .ok t ∧ Lexer.Lasts t strayText ∧
    Lexer.Lasts t (listed ((Lexer.tokenize t .skip strayText).1.toList.map Token.lexeme)) ∧
    (Lexer.tokenize t .skip (listed ((Lexer.tokenize t .skip strayText).1.toList.map
        Token.lexeme))).1.toList.map Token.lexeme
      = (Lexer.tokenize t .skip strayText).1.toList.map Token.lexeme := by
  obtain ⟨t, ht⟩ := exists_table
  have hlasts : Lexer.Lasts t strayText := Lexer.lasts_of_decls ht (by decide)
  have hlasts' : Lexer.Lasts t
      (listed ((Lexer.tokenize t .skip strayText).1.toList.map Token.lexeme)) := by
    have hle : _ ≤ 2 * 7 := length_listed_le ht strayText
    refine Lexer.lasts_of_decls ht ((Nat.mul_le_mul hle
      (Nat.mul_le_mul_left _ (Nat.succ_le_succ hle))).trans (by decide))
  exact ⟨t, ht, hlasts, hlasts', (relexes_listed ht strayText hlasts hlasts').1⟩

/-- The line feed between the two lexemes of this text takes stamps that are needed for the second
one. It is taken apart, and its characters are reported. -/
theorem relexes_listed_exhausted : ∃ t, table = .ok t ∧
    let made := Lexer.tokenize t .skip (List.replicate 4294967288 'a' ++ escapeText)
    let again := Lexer.tokenize t .skip (listed (made.1.toList.map Token.lexeme))
    made.2.log.toList.countP (·.code = .unrecognizedCharacter) = 0 ∧
      2 ≤ again.2.log.toList.countP (·.code = .unrecognizedCharacter) := by
  obtain ⟨t, ht⟩ := exists_table
  have hroom : 4294967287 + 8 = Workspace.counterMax := by decide
  have hletters : 4294967288 = 4294967287 + 1 := by decide
  rw [hletters]
  generalize 4294967287 = m at hroom
  have hmade : (Lexer.tokenize t .skip
      (List.replicate (m + 1) 'a' ++ escapeText)).1.toList.map Token.lexeme = _ :=
    (Lexer.lexes_tokenize (indexed_table ht) .skip (lasts_letters_quote ht hroom.le)).unique
      (indexed_table ht) (lexes_letters_quote ht m)
  have hlisted : listed [⟨.kind 30, String.ofList (List.replicate (m + 1) 'a')⟩,
      ⟨.kind 29, String.ofList escapeText⟩]
        = List.replicate (m + 1) 'a' ++ '\n' :: escapeText := by
    simp [listed]
  refine ⟨t, ht, ?_⟩
  dsimp only
  rw [countP_log_tokenize, countP_log_tokenize, hmade, hlisted]
  refine ⟨rfl, ?_⟩
  rw [List.countP_map]
  exact unknown_behind_letters ht (.inr rfl) hroom .skip _

end Demo

end FrontEnd
