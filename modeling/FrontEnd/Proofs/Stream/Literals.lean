import FrontEnd.Proofs.Stream.Division
import FrontEnd.Proofs.Pattern.Parsing

/-!
# Fixed texts as patterns

What a lexer does depends on the lexemes of its rules, and not on how these are written. So a rule
for a fixed text can be written as a pattern as well, with a backslash before each punctuation
character: **both make the same tokens and the same reports of every text**, as long as there are
stamps enough for the pattern. A fixed text needs none.

- `TokenTable.Accords`: two tables have the same lexemes by the same rules;
- `Lexer.tokenize_congr`: such tables make the same tokens and reports;
- `Pattern.escaped`: the pattern of a fixed text;
- `Pattern.ofString_escaped`: it is read, and the text is all that it stands for;
- `TokenTable.Cuts.unknown_abc`: a text in which a pattern runs out of stamps;
- `Lexer.tokenize_escaped`: a rule for a fixed text and one for its pattern are the same.
-/

namespace FrontEnd

/-! ## Tables with the same lexemes -/

namespace TokenTable

variable {t t' : TokenTable} {text u : List Char} {n : Fin 65536} {token : Token}
  {cur cur' : Cursor} {ts : List Token} {rule rule' : LexemeRule}

/-- The rules with the same number accept the same texts, and are for trivia or not. -/
structure Accords (t t' : TokenTable) : Prop where
  takes : ∀ n u, t.Takes n u ↔ t'.Takes n u
  trivia : ∀ id, t.isTrivia id = t'.isTrivia id

namespace Accords

theorem wins (h : t.Accords t') (hwins : t.Wins text u n) : t'.Wins text u n where
  first := hwins.first
  takes := (h.takes n u).1 hwins.takes
  best n' v hv htakes := hwins.best n' v hv ((h.takes n' v).2 htakes)

theorem refuses (h : t.Accords t') (hrefuses : t.Refuses text) : t'.Refuses text :=
  fun n v hv htakes => hrefuses n v hv ((h.takes n v).2 htakes)

theorem munches (h : t.Accords t') (hmunches : t.Munches text token) : t'.Munches text token := by
  cases hmunches with
  | wins hwins => exact .wins (h.wins hwins)
  | unknown htext hrefuses => exact .unknown htext (h.refuses hrefuses)

/-- A text is divided in the same way. -/
theorem divides (h : t.Accords t') (hdivides : t.Divides cur ts cur') : t'.Divides cur ts cur' := by
  induction hdivides with
  | done hnil => exact .done hnil
  | token hmunches hplace _ ih => exact .token (h.munches hmunches) hplace ih

theorem shows (h : t.Accords t') (mode : TriviaMode) : t.shows mode = t'.shows mode := by
  funext token
  rw [TokenTable.shows, TokenTable.shows, h.trivia]

end Accords

/-- Two rules with the same lexemes make tables with the same lexemes. -/
theorem accords_single (h : t.rules.toList = [rule]) (h' : t'.rules.toList = [rule'])
    (hlanguage : rule.form.language = rule'.form.language) (htrivia : rule.trivia = rule'.trivia) :
    t.Accords t' where
  takes n u := by
    rw [Takes, Takes, hasRule_single h, hasRule_single h', hlanguage]
  trivia id := by
    cases id with
    | kind n =>
      rw [isTrivia, isTrivia, rule?, rule?, ← Array.getElem?_toList, ← Array.getElem?_toList, h, h']
      cases n.val with
      | zero => exact htrivia
      | succ i => rfl
    | _ => rfl

end TokenTable

/-- Tables with the same lexemes make the same tokens and reports, if both have stamps enough. -/
theorem Lexer.tokenize_congr {t t' : TokenTable} (h : t.Accords t') (ht : t.Indexed)
    (ht' : t'.Indexed) (mode : TriviaMode) {text : List Char} (hlasts : Lasts t text)
    (hlasts' : Lasts t' text) : (tokenize t mode text).1 = (tokenize t' mode text).1 ∧
      (tokenize t mode text).2.log.toList = (tokenize t' mode text).2.log.toList := by
  obtain ⟨hdivides, htokens⟩ := divides_tokenize ht mode hlasts
  obtain ⟨hdivides', htokens'⟩ := divides_tokenize ht' mode hlasts'
  have hall := ((h.divides hdivides).unique ht' hdivides').1
  have hsame : (tokenize t mode text).1.toList = (tokenize t' mode text).1.toList := by
    rw [htokens, htokens', h.shows, hall]
  refine ⟨Array.toList_inj.1 hsame, ?_⟩
  rw [log_tokenize, log_tokenize, ← tokenize_toList, ← tokenize_toList, hsame]

/-! ## The pattern of a fixed text -/

namespace Pattern

open PatternSyntax

/-- A character, with a backslash before it if it is punctuation. -/
def escapedLetter (c : Char) : List Char := if isPunctuation c then ['\\', c] else [c]

/-- The pattern of a fixed text. -/
def escaped (text : List Char) : List Char := text.flatMap escapedLetter

theorem not_mem_specials {c : Char} (h : isPunctuation c ≠ true) : c ∉ specials := by
  intro hmem
  have hall : specials.all isPunctuation = true := by decide
  exact h (List.all_eq_true.1 hall c hmem)

/-- The character as a part of a pattern. -/
def letterPart (c : Char) : Repeat :=
  if h : isPunctuation c = true then .mk (.escape (.char (.punctuation c h))) []
  else .mk (.literal c (not_mem_specials h)) []

theorem text_letterPart (c : Char) : (letterPart c).text = escapedLetter c := by
  unfold letterPart escapedLetter
  split
  · rw [PatternReader.text_unsigned, Atom.text]
    rfl
  · rw [PatternReader.text_unsigned, Atom.text]

theorem value_letterPart (c : Char) : (letterPart c).value = .chars (.single c) := by
  unfold letterPart
  split
  · rw [PatternReader.value_unsigned, Atom.value]
    rfl
  · rw [PatternReader.value_unsigned, Atom.value]

theorem concatText_letterParts (text : List Char) :
    concatText (text.map letterPart) = escaped text := by
  induction text with
  | nil => rw [List.map_nil, concatText, escaped, List.flatMap_nil]
  | cons c text ih =>
    rw [List.map_cons, concatText, ih, text_letterPart, escaped, escaped, List.flatMap_cons]

theorem concatValues_letterParts (text : List Char) :
    concatValues (text.map letterPart) = text.map fun c => .chars (.single c) := by
  induction text with
  | nil => rw [List.map_nil, concatValues, List.map_nil]
  | cons c text ih => rw [List.map_cons, concatValues, ih, value_letterPart, List.map_cons]

theorem escaped_ne_nil {text : List Char} (h : text ≠ []) : escaped text ≠ [] := by
  obtain ⟨c, text, rfl⟩ := List.exists_cons_of_ne_nil h
  rw [escaped, List.flatMap_cons]
  refine List.append_ne_nil_of_left_ne_nil ?_ _
  unfold escapedLetter
  split <;> exact List.cons_ne_nil _ _

/-- One pattern after the other, or the only one. -/
theorem language_sequence (ps : List Pattern) : (sequence ps).language = languageConcat ps := by
  match ps with
  | [] => rw [sequence, language, languageConcat]
  | [p] => rw [sequence, languageConcat, languageConcat, mul_one]
  | p :: q :: ps => rw [sequence, language] <;> nofun

theorem mem_languageConcat_letters {text u : List Char} :
    u ∈ languageConcat (text.map fun c => .chars (.single c)) ↔ u = text := by
  induction text generalizing u with
  | nil => rw [List.map_nil, languageConcat, Language.mem_one]
  | cons c text ih =>
    rw [List.map_cons, languageConcat, language, CharClass.mem_language_mul]
    constructor
    · rintro ⟨d, rest, rfl, hd, hrest⟩
      rw [CharClass.accepts_single.1 hd, ih.1 hrest]
    · rintro rfl
      exact ⟨c, text, rfl, CharClass.accepts_single.2 rfl, ih.2 rfl⟩

/-- The pattern of a fixed text is read, and the text is all that it stands for. -/
theorem ofString_escaped {text : List Char} (h : text ≠ []) :
    ∃ p, ofString (String.ofList (escaped text)) = .ok p ∧ p.language = {text} := by
  have htext : (⟨[], text.map letterPart⟩ : Alternation).text = escaped text := by
    rw [Alternation.text, concatText_letterParts, earlierText, List.nil_append]
  have hread := ofChars_text (htext ▸ escaped_ne_nil h)
  rw [htext, Alternation.value, concatValues_letterParts, earlierValues] at hread
  refine ⟨_, by rw [ofString, String.toList_ofList]; exact hread, ?_⟩
  ext u
  rw [List.nil_append, choice, language_sequence, mem_languageConcat_letters]
  rfl

end Pattern

/-! ## A word that runs out of stamps -/

namespace Pattern

/-- The pattern of the word `abc`. -/
def abc : Pattern :=
  .concat [.chars (.single 'a'), .chars (.single 'b'), .chars (.single 'c')]

theorem mem_abc {u : List Char} : u ∈ abc.language ↔ u = ['a', 'b', 'c'] := by
  rw [abc, language]
  exact @mem_languageConcat_letters ['a', 'b', 'c'] u

theorem proper_abc : abc.Proper := by simp [abc, Proper, AllProper]

end Pattern

namespace Automaton

variable {w : Workspace} {u rest : List Char}

theorem states_abc : (ofPattern .abc).states = #[.accept, .read (.single 'c') 0,
    .read (.single 'b') 1, .read (.single 'a') 2] := rfl

theorem accepts_abc : (ofPattern .abc).Accepts u ↔ u = ['a', 'b', 'c'] :=
  (accepts_ofPattern Pattern.proper_abc).trans Pattern.mem_abc

/-- The states of the word stand in a row, and a letter is read in one place. -/
theorem state_abc {s next : Nat} {cls : CharClass}
    (h : (ofPattern .abc).states[s]? = some (.read cls next)) :
    cls = .single 'c' ∧ next = 0 ∨ cls = .single 'b' ∧ next = 1 ∨
      cls = .single 'a' ∧ s = (ofPattern .abc).start := by
  rw [states_abc] at h
  match s with
  | 0 => cases h
  | 1 =>
    cases h
    exact .inl ⟨rfl, rfl⟩
  | 2 =>
    cases h
    exact .inr (.inl ⟨rfl, rfl⟩)
  | 3 =>
    cases h
    exact .inr (.inr ⟨rfl, rfl⟩)
  | s + 4 => cases h

theorem fork_abc (s l r : Nat) : (ofPattern .abc).states[s]? ≠ some (.fork l r) := by
  rw [states_abc]
  match s with
  | 0 | 1 | 2 | 3 => exact nofun
  | s + 4 => exact nofun

/-- The match that fails at the second `a` has looked at two characters. -/
theorem looked_abc : (ofPattern .abc).looked ('a' :: 'a' :: rest) = 2 := by
  refine looked_of_halts (u := ['a']) (v := ['b', 'c']) (by decide) (accepts_abc.2 rfl)
    fun s cls next hstate hd => ?_
  rcases state_abc hstate with ⟨rfl, -⟩ | ⟨rfl, -⟩ | ⟨-, rfl⟩
  · exact absurd hd (by decide)
  · exact absurd hd (by decide)
  · exact ⟨['a', 'b', 'c'], accepts_abc.2 rfl, fun h => absurd (accepts_abc.1 h) (by decide)⟩

/-- Where the word does not stand its end is not met. -/
theorem avoids_abc {text : List Char} (h : ¬ ['a', 'b', 'c'] <+: text) :
    (ofPattern .abc).Avoids 0 text := by
  refine .inr ⟨[], ⟨0, .accept rfl⟩, fun v hv haccepts => h ?_⟩
  rw [List.append_nil, accepts_abc] at haccepts
  exact haccepts ▸ hv

/-- With one stamp less than letters the word is not found. -/
theorem longestMatch_abc (hw : w.Unmet 0)
    (hstamp : w.stamp.toNat + 3 = Workspace.counterMax) :
    ((ofPattern .abc).longestMatch w ['a', 'b', 'c']).1 = none := by
  have htext : ['a', 'b', 'c'] = ['a', 'b'] ++ 'c' :: [] := rfl
  rw [htext]
  refine longestMatch_lost (z := 0) (fun s => accept_ofPattern Pattern.proper_abc) hw (fork_abc 0)
    ?_ ?_ ?_ ?_
  · rw [toNat_initial_of_lt (by omega), ← hstamp]
    rfl
  · exact avoids_abc (by decide)
  · intro v hv haccepts
    rw [accepts_abc.1 haccepts] at hv
    exact absurd hv (by decide)
  · intro s cls next _ hstate hc
    rcases state_abc hstate with ⟨-, rfl⟩ | ⟨rfl, -⟩ | ⟨rfl, -⟩
    · rfl
    · exact absurd hc (by decide)
    · exact absurd hc (by decide)

end Automaton

/-- So many letters, the last of which begins the word `abc`. -/
def abcBehind (m : Nat) : List Char := List.replicate m 'a' ++ ['a', 'b', 'c']

namespace TokenTable

variable {t : TokenTable} {rule : LexemeRule} {w : Workspace} {cur cur' : Cursor} {ts : List Token}
  {text u : List Char} {n : Fin 65536} {k m : Nat}

/-- A lexeme that stands in the text is not missed where all tokens are single characters. -/
theorem Divides.exists_known (ht : t.Indexed) (h : t.Divides cur ts cur') (hu : t.Takes n u)
    {before later : List Char} (hcur : cur.rest = before ++ (u ++ later)) :
    ∃ token ∈ ts, token.id ≠ .unknown := by
  induction h generalizing before with
  | done hnil =>
    rw [hnil] at hcur
    exact absurd (List.append_eq_nil_iff.1 (List.append_eq_nil_iff.1 hcur.symm).2).1 (hu.ne_nil ht)
  | @token cur _ token ts hmunches hplace hrest ih =>
    cases hmunches with
    | wins => exact ⟨_, List.mem_cons_self, nofun⟩
    | @unknown c rest _ htext hrefuses =>
      cases before with
      | nil =>
        rw [List.nil_append] at hcur
        exact absurd hu (hrefuses n u (hcur ▸ List.prefix_append u later))
      | cons b before =>
        have hleft : (cur.advanceBy (Text.size [c])).rest = rest :=
          Cursor.rest_advanceBy (by rw [htext]; rfl)
        obtain ⟨-, hrest⟩ := List.cons.inj (htext.symm.trans hcur)
        have hbehind : rest = before ++ (u ++ later) := hrest
        obtain ⟨token, hmem, hid⟩ := ih (by rw [String.toList_ofList, hleft, hbehind])
        exact ⟨token, List.mem_cons_of_mem _ hmem, hid⟩

/-- All tokens are single characters where the only lexeme does not stand in the text. -/
theorem Cuts.all_unknown (ht : t.Indexed) (h : t.Cuts w cur ts cur')
    (hnone : ∀ n u, t.Takes n u → ¬ u <:+: cur.rest) : ∀ token ∈ ts, token.id = .unknown := by
  intro token htoken
  rcases h.classes ht token htoken with ⟨hid, -⟩ | ⟨n, -, htakes⟩
  · exact hid
  · refine absurd ?_ (hnone n _ htakes)
    rw [← (h.tiles ht).joined_eq]
    obtain ⟨before, later, rfl⟩ := List.append_of_mem htoken
    exact ⟨Token.joined before, Token.joined later, by simp [Token.joined]⟩

section Words

variable (ht : t.Indexed) (hsorted : t.patterns.toList.Pairwise (· < ·))
  (hrules : t.rules.toList = [rule]) (hform : rule.form = .pattern (.ofPattern .abc))

include hrules hform in
theorem takes_abc : t.Takes n u ↔ n.val = 0 ∧ u = ['a', 'b', 'c'] := by
  rw [Takes, hasRule_single hrules, hform]
  exact and_congr_right fun _ => Automaton.accepts_abc

include hrules hform in
theorem triesOnly_abc : t.TriesOnly 'a' 0 (.ofPattern .abc) :=
  triesOnly_single hrules hform
    (Automaton.canStartWith_of_mem Pattern.proper_abc (Pattern.mem_abc.2 rfl))

include ht hsorted hrules hform in
/-- Each `a` in front of the word takes three stamps. Where they end just before the last letter of
the word, the word is not found. -/
theorem Cuts.unknown_abc (hw : w.Spent 0 k) (hstamp : k + 3 * (m + 1) = Workspace.counterMax)
    (hcur : cur.rest = abcBehind m) (h : t.Cuts w cur ts cur') :
    ∀ token ∈ ts, token.id = .unknown := by
  have hone := triesOnly_abc hrules hform
  induction m generalizing w cur ts k with
  | zero =>
    have hlost := hone.longestMatch_eq_none ht hsorted
      (Automaton.longestMatch_abc hw.unmet (hw.stamp.symm ▸ hstamp))
    obtain ⟨token, later, left, rfl, hid, hleft, hlater⟩ := h.of_lost ht (hcur ▸ hlost) hcur
    refine List.forall_mem_cons.2 ⟨hid, hlater.all_unknown ht fun n u hu => ?_⟩
    rw [hleft, ((takes_abc hrules hform).1 hu).2]
    decide
  | succ m ih =>
    obtain ⟨rest, hrest⟩ : ∃ rest, abcBehind (m + 1) = 'a' :: 'a' :: rest := by
      cases m <;> exact ⟨_, rfl⟩
    have hnot : ¬ ['a', 'b', 'c'] <+: 'a' :: 'a' :: rest := by simp [List.cons_prefix_cons]
    have hrefuses : t.Refuses cur.rest := fun n u hu htakes => by
      rw [((takes_abc hrules hform).1 htakes).2, hcur, hrest] at hu
      exact hnot hu
    have hbehind : k + 1 + (Automaton.ofPattern .abc).looked ('a' :: 'a' :: rest) = k + 3 := by
      rw [Automaton.looked_abc]
    have hspent := (hw.after ht hsorted hone (Automaton.fork_abc 0) (Automaton.avoids_abc hnot)
      (by omega) (by omega)).2
    obtain ⟨token, later, left, rfl, hid, hleft, hlater⟩ :=
      h.of_lost ht (longestMatch_of_refuses ht hrefuses w) hcur
    rw [hcur, hrest] at hlater
    exact List.forall_mem_cons.2 ⟨hid, ih (hbehind ▸ hspent) (by omega) hleft hlater⟩

end Words

end TokenTable

/-! ## Both rules -/

namespace Lexer

open TokenTable

/-- A table of one fixed text has no patterns. -/
theorem patterns_of_literal {t : TokenTable} {rule : LexemeRule} {text : List Char} (ht : t.Indexed)
    (hrules : t.rules.toList = [rule]) (hform : rule.form = .literal text) : t.patterns = #[] := by
  refine Array.eq_empty_iff_forall_not_mem.2 fun n hn => ?_
  obtain ⟨-, hpattern⟩ := (hasRule_single hrules).1 ((ht.patterns n).1 hn)
  rw [hform] at hpattern
  cases hpattern

/-- A rule for a fixed text and a rule for its pattern make the same tokens and the same reports of
every text for which there are stamps enough with the pattern. -/
theorem tokenize_escaped (name text : String) (h : text ≠ "") :
    ∃ p t t', Pattern.ofString (String.ofList (Pattern.escaped text.toList)) = .ok p ∧
      ofDecls [.ofNamedLiteral name text] = .ok t ∧
      ofDecls [.ofPattern name (String.ofList (Pattern.escaped text.toList))] = .ok t' ∧
      ∀ mode source, Lasts t' source →
        (tokenize t mode source).1 = (tokenize t' mode source).1 ∧
        (tokenize t mode source).2.log.toList = (tokenize t' mode source).2.log.toList := by
  have hne : text.toList ≠ [] := fun hnil => h (String.toList_eq_nil_iff.1 hnil)
  obtain ⟨p, hread, hlanguage⟩ := Pattern.ofString_escaped hne
  have hliteral : Compiles (.ofNamedLiteral name text) (.literal text.toList) :=
    if_neg (by simpa [String.isEmpty_iff] using h)
  have hnull : p.nullable = false := by
    rw [← Bool.not_eq_true, Pattern.nullable_iff, hlanguage]
    exact fun hnil => hne (Set.mem_singleton_iff.1 hnil).symm
  have hpattern := compile_pattern name hread hnull
  obtain ⟨t, hbuilt, ht, hrules⟩ := exists_single hliteral
  obtain ⟨t', hbuilt', ht', hrules'⟩ := exists_single (d := .ofPattern name _) hpattern
  have haccords : t.Accords t' := by
    refine accords_single hrules hrules' ?_ rfl
    exact hlanguage.symm.trans
      (LexemeForm.language_ofPattern (Pattern.proper_ofString hread)).symm
  exact ⟨p, t, t', hread, hbuilt, hbuilt', fun mode source =>
    tokenize_congr haccords ht ht' mode
      (lasts_of_patterns (patterns_of_literal ht hrules rfl) source)⟩

/-- A sign that stands for itself behind a backslash, and a text with a character left over. -/
theorem tokenize_escaped_increment :
    "i++" ≠ "" ∧ Pattern.escaped "i++".toList = ['i', '\\', '+', '\\', '+'] ∧
      ∃ t t', ofDecls [.ofNamedLiteral "increment" "i++"] = .ok t ∧
        ofDecls [.ofPattern "increment" (String.ofList (Pattern.escaped "i++".toList))] = .ok t' ∧
        Lasts t' ['i', '+', 'i', '+', '+'] ∧
        (tokenize t .skip ['i', '+', 'i', '+', '+']).1
          = (tokenize t' .skip ['i', '+', 'i', '+', '+']).1 := by
  have hne : "i++" ≠ "" := by decide
  obtain ⟨p, t, t', -, ht, ht', hsame⟩ := tokenize_escaped "increment" "i++" hne
  have hlasts : Lasts t' ['i', '+', 'i', '+', '+'] := by
    refine lasts_of_length (indexed_of_ofDecls ht').1 ?_
    have hfew : t'.patterns.size ≤ 1 := size_patterns_le ht'
    exact (Nat.mul_le_mul_left 5 (Nat.mul_le_mul_right 6 hfew)).trans (by decide)
  exact ⟨hne, by decide, t, t', ht, ht', hlasts, (hsame .skip _ hlasts).1⟩

/-- Where no lexemes are trivia all tokens are made. -/
theorem shows_single {t : TokenTable} {rule : LexemeRule} (hrules : t.rules.toList = [rule])
    (htrivia : rule.trivia = false) (mode : TriviaMode) (token : Token) :
    t.shows mode token = true := by
  rw [shows_eq_true_iff, isTrivia_eq_false (hrules ▸ List.forall_mem_singleton.2 htrivia)]
  exact fun hskip => Bool.false_ne_true hskip.1

/-- The fixed text is found at the end of a long row of its first letter, and the pattern is not: in
front of the last letter there are no stamps left. -/
theorem tokenize_escaped_exhausted :
    ∃ t t', ofDecls [.ofNamedLiteral "word" "abc"] = .ok t ∧
      ofDecls [.ofPattern "word" (String.ofList (Pattern.escaped "abc".toList))] = .ok t' ∧
      ∀ mode, (tokenize t mode (abcBehind 1431655764)).1
        ≠ (tokenize t' mode (abcBehind 1431655764)).1 := by
  obtain ⟨t, hbuilt, ht, hrules⟩ := exists_single
    (rfl : Compiles (.ofNamedLiteral "word" "abc") (.literal ['a', 'b', 'c']))
  obtain ⟨t', hbuilt', ht', hrules'⟩ := exists_single (d := .ofPattern "word" "abc")
    (compile_pattern _ (p := .abc) rfl rfl)
  have hm : 3 * (1431655764 + 1) = Workspace.counterMax := by decide
  generalize 1431655764 = m at hm
  refine ⟨t, t', hbuilt, hbuilt', fun mode hsame => ?_⟩
  have hlasts : Lasts t (abcBehind m) := lasts_of_patterns (patterns_of_literal ht hrules rfl) _
  obtain ⟨hdivides, htokens⟩ := divides_tokenize ht mode hlasts
  obtain ⟨hcuts, htokens'⟩ := cuts_tokenize ht' mode (abcBehind m)
  have htakes : t.Takes 0 ['a', 'b', 'c'] := (hasRule_single hrules).2 ⟨rfl, rfl⟩
  have htext : (Cursor.ofText (abcBehind m)).rest
      = List.replicate m 'a' ++ (['a', 'b', 'c'] ++ []) := rfl
  obtain ⟨token, hmem, hid⟩ := hdivides.exists_known ht htakes htext
  have hall := hcuts.unknown_abc ht' (pairwise_patterns hbuilt') hrules' rfl
    (Workspace.spent_ofSize _ _) ((Nat.zero_add _).trans hm) rfl
  have hmade : token ∈ (tokenize t mode (abcBehind m)).1.toList := by
    rw [htokens]
    exact List.mem_filter.2 ⟨hmem, shows_single hrules rfl mode token⟩
  rw [hsame, htokens'] at hmade
  exact hid (hall token (List.mem_of_mem_filter hmade))

end Lexer

end FrontEnd
