import FrontEnd.Proofs.Demo.Insertions
import FrontEnd.Proofs.Demo.Lines
import FrontEnd.Proofs.Parser.Reports
import FrontEnd.Proofs.Parser.Resuming

/-!
# Words of the demonstration language

A text is written as words with a blank between them. Each word is a lexeme of its own, and no word
runs on into the next one, so that a word too many is one lexeme too many.

- `TokenTable.IsWord`: a text that a lexer takes for one token;
- `TokenTable.IsLexeme`: a text that is one lexeme, which is the same while there are stamps;
- `Demo.lexes_spaced`: **the lexemes of spaced words are the words**;
- `Demo.config_eq`: the language is the one that the parser of the proofs is for;
- `Demo.recovers_insertion`: what a word too many does to a program;
- `Demo.recovers_insertion_exhausted`: a word too many that takes the stamps that the program needs.
-/

namespace FrontEnd

namespace TokenTable

variable {t : TokenTable} {x : Lexeme} {text u : List Char} {n : Fin 65536}

/-- The text of the lexeme is one token, trivia counted in, and this is the lexeme. It is no trivia
itself and not unknown. -/
structure IsWord (t : TokenTable) (x : Lexeme) : Prop where
  alone : (Lexer.tokenize t .keep x.text.toList).1.toList.map Token.lexeme = [x]
  shown : t.isTrivia x.id = false
  known : x.id ≠ .unknown

theorem kept_keep : t.kept .keep u n = [⟨.kind n, String.ofList u⟩] := if_neg nofun

/-- Only the empty text has no lexemes when trivia are kept. -/
theorem Lexes.eq_nil (h : t.Lexes .keep text []) : text = [] := by
  generalize hls : ([] : List Lexeme) = ls at h
  cases h with
  | nil => rfl
  | unknown => cases hls
  | wins =>
    rw [kept_keep] at hls
    cases hls

/-- The text of the lexeme is the lexeme at its own start, and no trivia. -/
def IsLexeme (t : TokenTable) (x : Lexeme) : Prop :=
  ∃ n, x.id = .kind n ∧ t.Wins x.text.toList x.text.toList n ∧ t.isTrivia (.kind n) = false

/-- A word is the lexeme of a rule, as a whole. -/
theorem isWord_iff (ht : t.Indexed) (hlasts : Lexer.Lasts t x.text.toList) :
    t.IsWord x ↔ t.IsLexeme x := by
  have hlexes := Lexer.lexes_tokenize ht .keep hlasts
  constructor
  · rintro ⟨halone, hshown, hknown⟩
    rw [halone] at hlexes
    unfold IsLexeme
    generalize hls : [x] = ls at hlexes
    generalize x.text.toList = whole at hlexes ⊢
    cases hlexes with
    | nil => cases hls
    | unknown =>
      obtain ⟨rfl, -⟩ := List.cons.inj hls
      exact absurd rfl hknown
    | @wins _ u rest n ls hwins htext hrest =>
      rw [kept_keep] at hls
      obtain ⟨rfl, rfl⟩ := List.cons.inj hls
      rw [hrest.eq_nil, List.append_nil] at htext
      subst htext
      exact ⟨n, rfl, hwins, hshown⟩
  · rintro ⟨n, hid, hwins, hshown⟩
    refine ⟨?_, hid ▸ hshown, hid ▸ nofun⟩
    have hword : t.Lexes .keep x.text.toList _ := .wins hwins (List.append_nil _).symm .nil
    rw [Lexes.unique ht hlexes hword, kept_keep, List.append_nil, String.ofList_toList, ← hid]

/-- The whole text is the lexeme of the first rule that accepts it. -/
theorem wins_self_iff : t.Wins u u n ↔ t.Takes n u ∧ ∀ n', t.Takes n' u → n ≤ n' := by
  constructor
  · intro h
    refine ⟨h.takes, fun n' htakes => ?_⟩
    rcases h.best n' u (List.prefix_refl u) htakes with hlt | ⟨-, hle⟩
    · exact absurd hlt (Nat.lt_irrefl _)
    · exact hle
  · rintro ⟨htakes, hfirst⟩
    refine ⟨List.prefix_refl u, htakes, fun n' v hv htakes' => ?_⟩
    rcases hv.length_le.lt_or_eq with hlt | heq
    · exact .inl hlt
    · obtain rfl := hv.eq_of_length heq
      exact .inr ⟨rfl, hfirst n' htakes'⟩

end TokenTable

namespace Demo

variable {t : TokenTable} {n : Fin 65536} {c : Config} {d : LexemeDecl} {x : Lexeme}
  {w w₁ w₂ : List Lexeme}
  {q : Parse} {source source' : SourceBuffer}

/-! ## The whole language -/

theorem token_table (ht : table = .ok t) (n : Fin 65536) (hd : tokenDecls[n.val]? = some d) :
    token t d.name = .ok (.kind n) := by
  rw [token, id?_table ht n hd]

/-- The number of the rule with the fixed text. -/
def fixedNumber (text : String) : Fin 65536 := Fin.ofNat 65536 (fixedTexts.idxOf text + 2)

theorem literal_table (ht : table = .ok t) {text : String} (h : text ∈ fixedTexts) :
    literal t text = .ok (.kind (fixedNumber text)) := by
  refine token_table ht _ (d := .ofLiteral text) ?_
  have hall : ∀ text ∈ fixedTexts,
      tokenDecls[(fixedNumber text).val]? = some (.ofLiteral text) := by
    decide
  exact hall text h

theorem expressionOps_table (ht : table = .ok t) : expressionOps t = .ok operatorTable := by
  have h := @literal_table t ht
  simp (disch := decide) only [expressionOps, prefixTexts, levels, List.mapM_cons, List.mapM_nil,
    h, pure_bind, bind_assoc]
  rfl

theorem definitions_table (ht : table = .ok t) : definitions t = .ok ruleDefinitions := by
  have h := @literal_table t ht
  have hnumber : token t "number" = .ok number := token_table ht 28 (d := .ofPattern _ _) rfl
  have hstring : token t "string" = .ok string := token_table ht 29 (d := .ofPattern _ _) rfl
  have hidentifier : token t "identifier" = .ok identifier :=
    token_table ht 30 (d := .ofPattern _ _) rfl
  simp (disch := decide) only [definitions, hnumber, hstring, hidentifier, h, expressionOps_table ht]
  rfl

theorem sync_table (ht : table = .ok t) : sync t = .ok stops := by
  have h := @literal_table t ht
  simp (disch := decide) only [sync, syncTexts, List.mapM_cons, List.mapM_nil, h]
  rfl

theorem grammar_table (ht : table = .ok t) : grammar t = .ok built := by
  have hdecls : grammarDecls t = .ok builtDecls := by
    rw [grammarDecls, definitions_table ht]
    rfl
  rw [grammar, hdecls]
  refine (pure_bind builtDecls _).trans ?_
  rw [ofDecls_built]
  rfl

/-- The tokens where skipping stops are in the table. -/
theorem find?_members (ht : table = .ok t) :
    stops.members.find? (fun id => !ConfigDraft.defines t id) = none := by
  have hsize : t.size = 31 := by
    rw [TokenTable.size, ← Array.length_toList, rules_table ht, List.length_zipWith]
    rfl
  have hall : ∀ id ∈ stops.members, ∃ n : Fin 31, id = .kind (n.castLE (by decide)) := by
    decide +kernel
  rw [List.find?_eq_none]
  intro id hid
  obtain ⟨n, rfl⟩ := hall id hid
  simp [ConfigDraft.defines, hsize]

theorem config_eq (ht : table = .ok t) : config = .ok ⟨t, built, stops, built.lookahead⟩ := by
  have hbuild : ConfigDraft.build ⟨some t, some built, stops, none⟩
      = .ok ⟨t, built, stops, built.lookahead⟩ := by
    rw [ConfigDraft.build]
    dsimp only
    rw [find?_members ht]
    rfl
  rw [config, ht]
  refine (pure_bind t _).trans ?_
  rw [grammar_table ht, sync_table ht]
  refine (pure_bind built _).trans ((pure_bind stops _).trans ?_)
  rw [hbuild]
  rfl

theorem exists_config : ∃ c, config = .ok c := by
  obtain ⟨t, ht⟩ := exists_table
  exact ⟨_, config_eq ht⟩

/-- What the language consists of. -/
theorem of_config (hc : config = .ok c) :
    table = .ok c.table ∧ c.parser = parser ∧ c.sync = stops := by
  obtain ⟨t, ht⟩ := exists_table
  obtain rfl := Except.ok.inj (hc.symm.trans (config_eq ht))
  exact ⟨ht, rfl, rfl⟩

/-! ## Words -/

/-- The words with a blank between them. -/
def spaced (w : List Lexeme) : String := " ".intercalate (w.map Lexeme.text)

/-- Such a lexeme is no blank and no comment. -/
theorem exists_wins (ht : table = .ok t) (hx : t.IsLexeme x) :
    ∃ n, x.id = .kind n ∧ t.Wins x.text.toList x.text.toList n ∧ 1 < n.val := by
  obtain ⟨n, hid, hwins, hshown⟩ := hx
  refine ⟨n, hid, hwins, Nat.lt_of_not_le fun hle => ?_⟩
  exact absurd ((isTrivia_table ht).2 hle) (by rw [hshown]; exact Bool.false_ne_true)

/-- The words stand for their lexemes. -/
theorem lexes_spaced (ht : table = .ok t) (hwords : ∀ x ∈ w, t.IsLexeme x) :
    t.Lexes .skip (spaced w).toList w := by
  have hkept : ∀ {x n}, t.IsLexeme x → x.id = .kind n → t.kept .skip x.text.toList n = [x] := by
    rintro x n ⟨m, hm, -, hshown⟩ hid
    obtain rfl := TokenId.kind.inj (hm.symm.trans hid)
    rw [TokenTable.kept_of_shown hshown, ← hid, String.ofList_toList]
  induction w with
  | nil => exact .nil
  | cons x w ih =>
    obtain ⟨hx, hrest⟩ := List.forall_mem_cons.1 hwords
    obtain ⟨n, hid, hwins, hn⟩ := exists_wins ht hx
    cases w with
    | nil =>
      have htext : (spaced [x]).toList = x.text.toList ++ [] := by simp [spaced]
      rw [htext, List.append_nil]
      have hone : t.Lexes .skip x.text.toList _ := .wins hwins (List.append_nil _).symm .nil
      rwa [hkept hx hid] at hone
    | cons y w =>
      have htext : (spaced (x :: y :: w)).toList
          = x.text.toList ++ ' ' :: (spaced (y :: w)).toList := by simp [spaced]
      have hlater := lexes_blanks ht (blank_singleton (c := ' ') (by decide)) (ih hrest)
      have hall := TokenTable.Lexes.wins (wins_before_blank ht hwins hn _) rfl hlater
      rw [hkept hx hid] at hall
      rwa [htext]

/-- The lexemes of spaced words are the words, while there are stamps. -/
theorem lexemes_spaced (ht : table = .ok t) (hwords : ∀ x ∈ w, t.IsLexeme x)
    (hlasts : Lexer.Lasts t (spaced w).toList) : Parser.lexemes t (spaced w).toList = w :=
  TokenTable.Lexes.unique (indexed_table ht)
    (Lexer.lexes_tokenize (indexed_table ht) .skip hlasts) (lexes_spaced ht hwords)

theorem lexemes_source (ht : table = .ok t) (htext : source.text = spaced w)
    (hwords : ∀ x ∈ w, t.IsLexeme x) (hlasts : Lexer.Lasts t source.chars) :
    Parser.lexemes t source.chars = w := by
  rw [SourceBuffer.chars, htext] at hlasts ⊢
  exact lexemes_spaced ht hwords hlasts

/-- The token of a word is known, and it is not the end of the input. -/
theorem known_of_isLexeme (hx : t.IsLexeme x) : x.id ≠ .unknown ∧ x.id ≠ .eof := by
  obtain ⟨n, hid, -, -⟩ := hx
  rw [hid]
  exact ⟨nofun, nofun⟩

/-- The token of `else` has no other text. -/
theorem text_of_elseWord (ht : table = .ok t) (h : t.Takes n x.text.toList) (hn : x.id = .kind n)
    (hid : x.id = elseWord) : x.text = "else" := by
  obtain rfl : n = 5 := TokenId.kind.inj (hn.symm.trans hid)
  obtain ⟨form, hform, hu⟩ := (takes_iff ht).1 h
  cases hform
  exact String.toList_inj.1 hu

/-! ### Fixed texts -/

theorem val_fixedNumber (text : String) :
    (fixedNumber text).val = fixedTexts.idxOf text + 2 := by
  have hle := List.idxOf_le_length (a := text) (l := fixedTexts)
  have hlength : fixedTexts.length = 26 := rfl
  rw [fixedNumber, Fin.val_ofNat, Nat.mod_eq_of_lt (by omega)]

/-- The lexeme of a rule with a fixed text. -/
def fixedWord (text : String) : Lexeme := ⟨.kind (fixedNumber text), text⟩

/-- Each fixed text is a lexeme. -/
theorem isLexeme_fixed (ht : table = .ok t) {text : String} (h : text ∈ fixedTexts) :
    t.IsLexeme (fixedWord text) := by
  have hlt := List.idxOf_lt_length_iff.2 h
  have hval := val_fixedNumber text
  refine ⟨fixedNumber text, rfl, TokenTable.wins_self_iff.2 ⟨?_, ?_⟩, ?_⟩
  · rw [takes_iff ht, hval, forms_fixed hlt, List.getElem_idxOf hlt]
    exact ⟨_, rfl, rfl⟩
  · intro n' htakes
    rcases takes_cases ht htakes with ⟨-, hblank⟩ | ⟨-, hcomment⟩ | ⟨hn, -⟩
    · obtain ⟨c, rest, htext, hc⟩ := exists_head (.inl (solid_fixed text h))
      exact absurd (htext ▸ hblank).head hc
    · exact absurd hcomment (not_comment_fixed text h)
    · obtain ⟨i, hi⟩ := Nat.exists_eq_add_of_le' hn
      rw [Fin.le_def, hval, hi]
      by_contra hle
      have hi' : i < fixedTexts.length := by omega
      obtain ⟨form, hform, hu⟩ := (takes_iff ht).1 htakes
      rw [hi, forms_fixed hi'] at hform
      cases hform
      have hsame : text = fixedTexts[i] := String.toList_inj.1 hu
      have hnodup : fixedTexts.Nodup := by decide
      rw [hsame, hnodup.idxOf_getElem] at hle
      exact hle (Nat.le_refl _)
  · exact shown_table ht (by omega)

/-- Several fixed texts are lexemes. -/
theorem isLexeme_fixedWords (ht : table = .ok t) (texts : List String) (h : texts ⊆ fixedTexts) :
    ∀ y ∈ texts.map fixedWord, t.IsLexeme y := by
  intro y hy
  obtain ⟨text, htext, rfl⟩ := List.mem_map.1 hy
  exact isLexeme_fixed ht (h htext)

/-! ## A word too many -/

/-- Every text has an answer. -/
theorem exists_answer_config (hc : config = .ok c) (source : SourceBuffer) :
    ∃ q, c.parser.Answers (c.stream source) q := by
  rw [(of_config hc).2.1]
  exact Parser.exists_answer_of_complete checked_grammar lacks_grammar decisive.defined _

/-- One word too many in a program without a fault: the text has an answer with one report at most.
Unless the word is `else`, all top-level nodes but one at most are kept, in their order. There have
to be stamps enough for each of the words, for the program, and for the text with the word. -/
theorem recovers_insertion (hc : config = .ok c) (hwords : ∀ y ∈ w₁ ++ x :: w₂, c.table.IsWord y)
    (hx : c.sync.contains x.id = false) (hsource : source.text = spaced (w₁ ++ w₂))
    (hsource' : source'.text = spaced (w₁ ++ x :: w₂))
    (halone : ∀ y ∈ w₁ ++ x :: w₂, Lexer.Lasts c.table y.text.toList)
    (hlasts : Lexer.Lasts c.table source.chars) (hlasts' : Lexer.Lasts c.table source'.chars)
    (hq : c.parser.Answers (c.stream source) q) (hquiet : q.diagnostics = []) :
    ∃ q', c.parser.Answers (c.stream source') q' ∧ q'.diagnostics.length ≤ 1 ∧
      (x.text ≠ "else" → Retained (q.tree.branches c.names) (q'.tree.branches c.names)) := by
  obtain ⟨ht, hparser, hsync⟩ := of_config hc
  have hall : ∀ y ∈ w₁ ++ x :: w₂, c.table.IsLexeme y := fun y hy =>
    (TokenTable.isWord_iff (indexed_table ht) (halone y hy)).1 (hwords y hy)
  have hfew : ∀ y ∈ w₁ ++ w₂, c.table.IsLexeme y := fun y hy => hall y
    (((List.Sublist.refl w₁).append (List.sublist_cons_self x w₂)).subset hy)
  obtain ⟨q', hq'⟩ := exists_answer_config hc source'
  rw [hparser] at hq hq' ⊢
  have hlexemes := lexemes_source ht hsource hfew hlasts
  have hlexemes' := lexemes_source ht hsource' hall hlasts'
  obtain ⟨hreports, hkept⟩ := answers_insertion hq hquiet hq' hlexemes hlexemes'
    (fun y hy => known_of_isLexeme (hall y hy)) (hsync ▸ hx) c.names
  refine ⟨q', hq', hreports, fun hother => hkept fun hid => hother ?_⟩
  obtain ⟨n, hn, hwins, -⟩ := hall x (by simp)
  exact text_of_elseWord ht hwins.takes hn hid

/-- The lexemes of a block without statements. -/
def emptyBlock : List Lexeme := [fixedWord "\x7b", fixedWord "\x7d"]

theorem spelled_emptyBlock (names : Names) : Spelled names .statement emptyBlock :=
  .braces (.body rfl .nothing rfl)

/-- Three blocks without statements. -/
def threeBlocks : SourceBuffer := .ofText none "\x7b \x7d \x7b \x7d \x7b \x7d"

/-- The same with a parenthesis in the second one. -/
def damagedBlocks : SourceBuffer := .ofText none "\x7b \x7d \x7b ) \x7d \x7b \x7d"

/-- The lexemes before the parenthesis. -/
def beforeDamage : List Lexeme := emptyBlock ++ [fixedWord "\x7b"]

/-- The lexemes behind it. -/
def behindDamage : List Lexeme := fixedWord "\x7d" :: emptyBlock

theorem text_threeBlocks : threeBlocks.text = spaced (beforeDamage ++ behindDamage) := rfl

theorem text_damagedBlocks :
    damagedBlocks.text = spaced (beforeDamage ++ fixedWord ")" :: behindDamage) := rfl

/-- Two of the three top-level nodes are kept at least. -/
theorem recovers_insertion_block : ∃ c q q', config = .ok c ∧
    c.parser.Answers (c.stream threeBlocks) q ∧ q.diagnostics = [] ∧
    (q.tree.branches c.names).length = 3 ∧ c.parser.Answers (c.stream damagedBlocks) q' ∧
    q'.diagnostics.length ≤ 1 ∧ Retained (q.tree.branches c.names) (q'.tree.branches c.names) := by
  obtain ⟨c, hc⟩ := exists_config
  obtain ⟨ht, hparser, hsync⟩ := of_config hc
  have hall : ∀ y ∈ beforeDamage ++ fixedWord ")" :: behindDamage, c.table.IsLexeme y :=
    isLexeme_fixedWords ht ["\x7b", "\x7d", "\x7b", ")", "\x7d", "\x7b", "\x7d"] (by decide)
  have hshort : ∀ y ∈ beforeDamage ++ fixedWord ")" :: behindDamage,
      y.text.toList.length = 1 := by decide
  have halone : ∀ y ∈ beforeDamage ++ fixedWord ")" :: behindDamage,
      Lexer.Lasts c.table y.text.toList := fun y hy =>
    Lexer.lasts_of_decls ht (by rw [hshort y hy]; decide)
  have hlasts : Lexer.Lasts c.table threeBlocks.chars := Lexer.lasts_of_decls ht (by decide)
  have hlasts' : Lexer.Lasts c.table damagedBlocks.chars :=
    Lexer.lasts_of_decls ht (by decide)
  have hfew : ∀ y ∈ beforeDamage ++ behindDamage, c.table.IsLexeme y :=
    isLexeme_fixedWords ht ["\x7b", "\x7d", "\x7b", "\x7d", "\x7b", "\x7d"] (by decide)
  have hlexemes := lexemes_source ht text_threeBlocks hfew hlasts
  have hblocks : ∀ u ∈ [emptyBlock, emptyBlock, emptyBlock], Spelled c.names .statement u :=
    List.forall_mem_cons.2 ⟨spelled_emptyBlock _, List.forall_mem_cons.2
      ⟨spelled_emptyBlock _, List.forall_mem_singleton.2 (spelled_emptyBlock _)⟩⟩
  have hspelled : Spelled c.names .statements (emptyBlock ++ (emptyBlock ++ (emptyBlock ++ []))) :=
    .more (spelled_emptyBlock _) (.more (spelled_emptyBlock _)
      (.more (spelled_emptyBlock _) .nothing))
  obtain ⟨q, hq⟩ := exists_answer_config hc threeBlocks
  have hquiet : q.diagnostics = [] :=
    quiet_of_spelled (hparser ▸ hq) hlexemes (by decide) hspelled
  have hthree := length_branches hblocks (hparser ▸ hq) hlexemes
  obtain ⟨q', hq', hreports, hkept⟩ := recovers_insertion hc
    (fun y hy => (TokenTable.isWord_iff (indexed_table ht) (halone y hy)).2 (hall y hy))
    (by rw [hsync]; decide) text_threeBlocks text_damagedBlocks halone hlasts hlasts' hq
    hquiet
  exact ⟨c, q, q', hc, hq, hquiet, hthree, hq', hreports, hkept (by decide)⟩

/-- The reports about characters that belong to no rule are as many as these. -/
theorem countP_isLexical (hq : parser.Answers (.ofText t text depth) q)
    (hsize : Text.size text < 2 ^ 32) : q.diagnostics.countP Diagnostic.isLexical
      = (Lexer.tokenize t .skip text).1.toList.countP (·.id = .unknown) := by
  have hlog := countP_log_tokenize (t := t) .skip text
  rw [← (hq.merged checked_grammar hsize).1, List.countP_filter, List.countP_map] at hlog
  refine Eq.trans (List.countP_congr fun d _ => ?_) hlog
  simp [Diagnostic.isLexical]

/-- A string with an escape. -/
def escapeWord : Lexeme := ⟨.kind 29, String.ofList escapeText⟩

/-- A name of so many letters. -/
def longWord (m : Nat) : Lexeme := ⟨.kind 30, String.ofList (List.replicate m 'a')⟩

theorem isLexeme_escape (ht : table = .ok t) : t.IsLexeme escapeWord := by
  refine ⟨29, rfl, ?_, shown_table ht (by decide)⟩
  rw [escapeWord, String.toList_ofList]
  exact wins_escape ht

theorem isLexeme_longWord (ht : table = .ok t) (m : Nat) : t.IsLexeme (longWord (m + 1)) := by
  refine ⟨30, rfl, ?_, shown_table ht (by decide)⟩
  have hwins : t.Wins (List.replicate (m + 1) 'a' ++ []) _ 30 := wins_letters ht m nofun
  rw [List.append_nil] at hwins
  rwa [longWord, String.toList_ofList]

/-- The string as a statement. -/
def stringWords : List Lexeme := [escapeWord, fixedWord ";"]

theorem isLexeme_stringWords (ht : table = .ok t) : ∀ y ∈ stringWords, t.IsLexeme y :=
  List.forall_mem_cons.2 ⟨isLexeme_escape ht,
    List.forall_mem_singleton.2 (isLexeme_fixed ht (by decide))⟩

theorem isWord_stringWords (ht : table = .ok t) : ∀ y ∈ stringWords, t.IsWord y := by
  intro y hy
  have hshort : ∀ y ∈ stringWords, y.text.toList.length ≤ 4 := by decide
  refine (TokenTable.isWord_iff (indexed_table ht) ?_).2 (isLexeme_stringWords ht y hy)
  exact Lexer.lasts_of_decls ht
    ((Nat.mul_le_mul (hshort y hy) (Nat.mul_le_mul_left _ (Nat.succ_le_succ (hshort y hy)))).trans
      (by decide))

/-- A name is a word as long as there are stamps for it alone. -/
theorem isWord_longWord (ht : table = .ok t) {m : Nat} (hroom : m + 2 ≤ Workspace.counterMax) :
    t.IsWord (longWord (m + 1)) := by
  refine (TokenTable.isWord_iff (indexed_table ht) ?_).2 (isLexeme_longWord ht m)
  rw [longWord, String.toList_ofList]
  exact lasts_letters ht hroom

theorem spelled_stringWords (names : Names) : Spelled names .statements (stringWords ++ []) :=
  .more (.simple (.value (operand_leaf (by decide)) rfl (by decide) (by decide))) .nothing

/-- The text with the name in front of the string. -/
theorem chars_longWord (m : Nat) :
    (SourceBuffer.ofText none (spaced (longWord m :: stringWords))).chars
      = List.replicate m 'a' ++ ' ' :: '"' :: '\\' :: ['a', '"', ' ', ';'] := by
  simp [SourceBuffer.chars, SourceBuffer.ofText, spaced, longWord, stringWords, escapeWord,
    escapeText, fixedWord]

/-- A program without a fault, and a word too many in front of it that leaves no stamps for the
string. Each of the words is a token by itself, but the quotation mark and the backslash are
reported, each by itself. -/
theorem recovers_insertion_exhausted : ∃ c q q', config = .ok c ∧
    (∀ y ∈ longWord 4294967288 :: stringWords, c.table.IsWord y) ∧
    c.sync.contains (longWord 4294967288).id = false ∧
    c.parser.Answers (c.stream (.ofText none (spaced stringWords))) q ∧ q.diagnostics = [] ∧
    c.parser.Answers (c.stream (.ofText none (spaced (longWord 4294967288 :: stringWords)))) q' ∧
    1 < q'.diagnostics.length := by
  obtain ⟨c, hc⟩ := exists_config
  obtain ⟨ht, hparser, hsync⟩ := of_config hc
  have hroom : 4294967287 + 8 = Workspace.counterMax := by decide
  have hbelow : 4294967287 + 8 < 2 ^ 32 := by decide
  have hletters : 4294967288 = 4294967287 + 1 := by decide
  rw [hletters]
  generalize 4294967287 = m at hroom hbelow
  have hwords : ∀ y ∈ longWord (m + 1) :: stringWords, c.table.IsWord y :=
    List.forall_mem_cons.2 ⟨isWord_longWord ht (by omega), isWord_stringWords ht⟩
  obtain ⟨q, hq⟩ := exists_answer_config hc (.ofText none (spaced stringWords))
  obtain ⟨q', hq'⟩ :=
    exists_answer_config hc (.ofText none (spaced (longWord (m + 1) :: stringWords)))
  have hquiet : q.diagnostics = [] :=
    quiet_of_spelled (hparser ▸ hq)
      (lexemes_source ht rfl (isLexeme_stringWords ht) (Lexer.lasts_of_decls ht (by decide)))
      (by decide) (spelled_stringWords c.names)
  have hplain : stops.contains (.kind 30) = false := by decide
  have hanswer : parser.Answers (.ofText c.table _ c.lookahead) q' := hparser ▸ hq'
  have hsize : Text.size (List.replicate (m + 1) 'a' ++ ' ' :: '"' :: '\\' :: ['a', '"', ' ', ';'])
      < 2 ^ 32 := by
    rw [Text.size_append, Text.size_replicate rfl]
    exact hbelow
  rw [chars_longWord] at hanswer
  refine ⟨c, q, q', hc, hwords, by rwa [hsync], hq, hquiet, hq', ?_⟩
  calc 1 < 2 := Nat.lt_succ_self 1
    _ ≤ _ := unknown_behind_letters ht (.inl rfl) hroom .skip _
    _ = q'.diagnostics.countP Diagnostic.isLexical := (countP_isLexical hanswer hsize).symm
    _ ≤ q'.diagnostics.length := List.countP_le_length

end Demo

end FrontEnd
