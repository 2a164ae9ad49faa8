import FrontEnd.Proofs.Demo.Recovery
import FrontEnd.Proofs.Parser.Recursion

/-!
# Texts with a token too many

What the parser answers to a text of the demonstration language is read off from the recursion over
errands. A text with one token more than a text without a fault has at most one report, and keeps
all statements but one.

- `Demo.decisive`: one token tells the alternatives of each rule apart;
- `Demo.of_program`: **a program is a repetition of statements up to the end of the input**;
- `Demo.answers_insertion`: what a token too many does to an answer.
-/

namespace FrontEnd

namespace Demo

variable {names : Names} {v : Prospect} {o : Errand.Outcome} {w w₁ w₂ : List Lexeme} {x : Lexeme} {r : Nat}
  {as : List Alternative} {ops : Operators} {follow : TokenSet} {table : TokenTable}
  {text text' : List Char} {depth depth' : Nat} {q q' : Parse}

/-! ## The grammar -/

theorem checked_grammar : parser.grammar.Checked := Grammar.checked_of_ofDecls ofDecls_built

/-- What a rule consists of is in the table of bodies. -/
theorem mem_bodies (r : Nat) : parser.grammar.body r ∈ RuleBody.undefined :: bodies.toList := by
  rw [body_grammar]
  cases hr : bodies[r]? with
  | none => exact List.mem_cons_self
  | some body => exact List.mem_cons_of_mem _ (Array.mem_toList_iff.2 (Array.mem_of_getElem? hr))

/-- No rule asks for the end of the input. -/
theorem lacks_grammar : parser.grammar.Lacks .eof := by
  constructor
  · have hall : ∀ body ∈ RuleBody.undefined :: bodies.toList, ∀ a ∈ body.alternatives,
        .token .eof ∉ a.symbols := by decide
    intro r as a hb
    have hbody := hall _ (mem_bodies r)
    rw [hb] at hbody
    exact hbody a
  · have hall : ∀ body ∈ RuleBody.undefined :: bodies.toList, ∀ ops, body = .expression ops →
        .eof ∉ ops.signs ∧ .eof ∉ ops.links := by
      intro body hbody ops hops
      obtain rfl : ops = operatorTable := by simpa [bodies, hops] using hbody
      decide
    intro r ops hb
    exact hall _ (mem_bodies r) ops hb

/-- Alternatives with disjoint first sets are told apart by one token. -/
theorem length_candidates_le
    (h : (as.filter fun a => a.guard.isEmpty).Pairwise fun a b => a.first.intersects b.first = false)
    (t : TokenId) : (ParseState.candidates as t).length ≤ 1 := by
  have hsub : (ParseState.candidates as t).Sublist (as.filter fun a => a.guard.isEmpty) := by
    refine List.monotone_filter_right as fun a ha => ?_
    exact (Bool.and_eq_true _ _ ▸ ha).1
  match hlist : ParseState.candidates as t with
  | [] | [_] => simp
  | a :: b :: rest =>
    have hcontains : ∀ c ∈ ParseState.candidates as t, c.first.contains t = true := fun c hc =>
      (Bool.and_eq_true _ _ ▸ (List.mem_filter.1 hc).2).2
    rw [hlist] at hsub hcontains
    have hdisjoint := (List.pairwise_cons.1 (h.sublist hsub)).1 b List.mem_cons_self
    exact absurd (TokenSet.intersects_of_contains (hcontains a (by simp)) (hcontains b (by simp)))
      (by rw [hdisjoint]; exact Bool.false_ne_true)

/-- One token tells the alternatives of each rule apart. -/
theorem decisive : parser.grammar.Decisive where
  defined := by
    intro r hr hb
    have hsize : parser.grammar.size = 14 := by decide +kernel
    rw [hsize] at hr
    rw [body_grammar] at hb
    revert r
    decide
  one := by
    have hall : ∀ body ∈ RuleBody.undefined :: bodies.toList,
        (body.alternatives.filter fun a => a.guard.isEmpty).Pairwise
          fun a b => a.first.intersects b.first = false := by decide
    intro r as hb
    have hbody := hall _ (mem_bodies r)
    rw [hb] at hbody
    exact length_candidates_le hbody

/-! ## Programs -/

/-- What comes behind the statements of a program. -/
def programFollow : TokenSet := Parser.followOf ⟨.many stmt, ∅, true⟩ (.single .eof)

theorem eq_eof_of_programFollow {id : TokenId} (h : programFollow.contains id = true) :
    id = .eof := by
  rw [programFollow, Parser.followOf, if_pos rfl, TokenSet.contains_union, TokenSet.contains_empty,
    TokenSet.contains_single, Bool.false_or, beq_iff_eq] at h
  exact h.symm

/-- A program is a repetition of statements up to the end of the input. -/
theorem of_program (h : parser.Performs names (.rule program (.single .eof)) v o) :
    parser.Performs names (.repetition stmt programFollow) v o := by
  have hopen : parser.hasNode program = false := by
    rw [Parser.hasNode, isTransparent_grammar, transparent_built]
    rfl
  obtain ⟨o₁, hsteps, rfl⟩ := h.of_choice (body_grammar program) (Parser.choose_singleton rfl _)
  obtain ⟨o₂, o₃, hmany, hend, rfl⟩ := hsteps.of_cons
  rw [hend.of_nil, Parser.closed, Parser.close, hopen]
  exact hmany.of_many

/-- A program is read up to the end of the input. -/
theorem ahead_of_program (hw : .eof ∉ w.map Lexeme.id)
    (h : parser.Performs names (.repetition stmt programFollow) ⟨w, false⟩ o) :
    o.after.ahead = [] := by
  have hnext := h.next_of_repetition fun _ => eq_eof_of_programFollow
  match hahead : o.after.ahead with
  | [] => rfl
  | t :: rest =>
    have hmem : t ∈ w := h.ahead_suffix.subset (hahead ▸ List.mem_cons_self)
    rw [Prospect.next_of_cons hahead] at hnext
    exact absurd (List.mem_map.2 ⟨t, hmem, hnext⟩) hw

/-- A program without a report is spelled as statements are. -/
theorem spelled_of_program (hw : .eof ∉ w.map Lexeme.id) (hq : o.reports = 0)
    (h : parser.Performs names (.repetition stmt programFollow) ⟨w, false⟩ o) :
    Spelled names .statements w := by
  obtain ⟨u, rest, rfl, hu, halike⟩ := spelled_of_quiet hq h
  have hrest := ahead_of_program hw h
  rw [halike.after] at hrest
  obtain rfl : rest = [] := hrest
  rwa [List.append_nil]

/-- Of the branches all are kept, in their order, but one at most. -/
def Retained (branches branches' : List String) : Prop :=
  ∃ a lost b, branches = a ++ lost ++ b ∧ lost.length ≤ 1 ∧ (a ++ b).Sublist branches'

theorem Kept.retained {items items' : List Item} (h : Kept items items') :
    Retained (items.reverse.map Item.text) (items'.reverse.map Item.text) := by
  obtain ⟨a, lost, b, rfl, hlost, hsub⟩ := h
  refine ⟨b.reverse.map Item.text, lost.reverse.map Item.text, a.reverse.map Item.text, ?_, ?_, ?_⟩
  · simp
  · rwa [List.length_map, List.length_reverse]
  · rw [← List.map_append, ← List.reverse_append]
    exact hsub.reverse.map Item.text

/-! ## Answers -/

theorem textIds_of_lexemes (hw : Parser.lexemes table text = w) :
    Lexer.textIds table text = w.map Lexeme.id := by
  rw [← hw, Parser.lexemes, List.map_map]
  rfl

/-- An answer is read off from the statements of the text. -/
theorem answers_program (hq : parser.Answers (.ofText table text depth) q)
    (hw : Parser.lexemes table text = w) (names : Names) :
    ∃ o, parser.Performs names (.repetition stmt programFollow) ⟨w, false⟩ o ∧
      (.unknown ∉ w.map Lexeme.id → q.diagnostics.length = o.reports) ∧
      q.tree.branches names = o.items.reverse.map Item.text := by
  have hids := textIds_of_lexemes hw
  by_cases hne : w = []
  · subst hne
    obtain ⟨hreports, hbranches⟩ := hq.of_no_tokens hids names
    exact ⟨_, .close (.inl rfl), fun _ => List.length_eq_zero_iff.2 hreports, hbranches⟩
  obtain ⟨o, hperf, hanswer⟩ := hq.performs checked_grammar lacks_grammar decisive
    (by rwa [hids, ne_eq, List.map_eq_nil_iff]) names
  rw [hw] at hperf
  have hprogram := of_program hperf
  have hend : .eof ∉ w.map Lexeme.id := fun hmem =>
    Parser.ne_eof_of_mem_textIds (hids ▸ hmem) rfl
  rw [hids] at hanswer
  exact ⟨o, hprogram, hanswer (ahead_of_program hend hprogram)⟩

/-- A text with a quiet answer is spelled as statements are, and its branches are those of the
statements. -/
theorem spelled_of_answers (hq : parser.Answers (.ofText table text depth) q)
    (hquiet : q.diagnostics = []) (hw : Parser.lexemes table text = w)
    (hknown : .unknown ∉ w.map Lexeme.id) (names : Names) :
    Spelled names .statements w ∧ ∀ o,
      parser.Performs names (.repetition stmt programFollow) ⟨w, false⟩ o →
        q.tree.branches names = o.items.reverse.map Item.text := by
  obtain ⟨o, hprogram, hreports, hbranches⟩ := answers_program hq hw names
  have hzero : o.reports = 0 := by rw [← hreports hknown, hquiet, List.length_nil]
  have hend : .eof ∉ w.map Lexeme.id := fun hmem =>
    Parser.ne_eof_of_mem_textIds (textIds_of_lexemes hw ▸ hmem) rfl
  refine ⟨spelled_of_program hend hzero hprogram, fun o' h => ?_⟩
  rw [h.unique hprogram, hbranches]

/-- A text that is spelled as statements are has no reports. -/
theorem quiet_of_spelled (hq : parser.Answers (.ofText table text depth) q)
    (hw : Parser.lexemes table text = w) (hknown : .unknown ∉ w.map Lexeme.id)
    (hs : Spelled names .statements w) : q.diagnostics = [] := by
  obtain ⟨o, hprogram, hreports, -⟩ := answers_program hq hw names
  obtain ⟨items, -, hread⟩ := hs.reads
  have hquiet := hread programFollow [] false (.inl rfl)
  rw [List.append_nil] at hquiet
  obtain rfl := hprogram.unique hquiet
  exact List.length_eq_zero_iff.1 (hreports hknown)

/-- Statements are read one after the other, and each makes one item. -/
theorem reads_all {us : List (List Lexeme)} (hus : ∀ u ∈ us, Spelled names .statement u) :
    ∃ items : List Item, items.length = us.length ∧
      (us.flatten = [] ∨ stmtFirst.contains (⟨us.flatten, false⟩ : Prospect).next = true) ∧
      ∀ follow rest d, Ends follow (⟨rest, d⟩ : Prospect).next →
        parser.Performs names (.repetition stmt follow) ⟨us.flatten ++ rest, d⟩
          ⟨.proceeding, items, ⟨rest, d && us.flatten.isEmpty⟩, 0⟩ := by
  induction us with
  | nil =>
    refine ⟨[], rfl, .inl rfl, fun follow rest d hend => ?_⟩
    rw [List.flatten_nil, List.isEmpty_nil, Bool.and_true]
    exact reads_nothing hend
  | cons u us ih =>
    obtain ⟨hu, hlater⟩ := List.forall_mem_cons.1 hus
    obtain ⟨item, hfirst, hread⟩ := hu.reads
    obtain ⟨items, hlength, hbegins, hreads⟩ := ih hlater
    rw [List.flatten_cons]
    refine ⟨items ++ [item], ?_, .inr (next_of_statement hfirst _), fun follow rest d hend =>
      reads_statements hfirst hread hbegins hreads hend⟩
    rw [List.length_append, List.length_singleton, List.length_cons, hlength]

/-- A text of so many statements has as many branches. -/
theorem length_branches {us : List (List Lexeme)} (hus : ∀ u ∈ us, Spelled names .statement u)
    (hq : parser.Answers (.ofText table text depth) q)
    (hw : Parser.lexemes table text = us.flatten) :
    (q.tree.branches names).length = us.length := by
  obtain ⟨o, hprogram, -, hbranches⟩ := answers_program hq hw names
  obtain ⟨items, hlength, -, hreads⟩ := reads_all hus
  have hread := hreads programFollow [] false (.inl rfl)
  rw [List.append_nil] at hread
  obtain rfl := hprogram.unique hread
  rw [hbranches, List.length_map, List.length_reverse, hlength]

/-- One token too many in a text without a fault: there is one report at most, and one branch is
lost at most. -/
theorem answers_insertion (hq : parser.Answers (.ofText table text depth) q)
    (hquiet : q.diagnostics = []) (hq' : parser.Answers (.ofText table text' depth') q')
    (hw : Parser.lexemes table text = w₁ ++ w₂)
    (hw' : Parser.lexemes table text' = w₁ ++ x :: w₂)
    (hknown : ∀ t ∈ w₁ ++ x :: w₂, t.id ≠ .unknown ∧ t.id ≠ .eof)
    (hx : stops.contains x.id = false) (names : Names) :
    q'.diagnostics.length ≤ 1 ∧
      (x.id ≠ elseWord → Retained (q.tree.branches names) (q'.tree.branches names)) := by
  have hsub : (w₁ ++ w₂).Sublist (w₁ ++ x :: w₂) :=
    (List.Sublist.refl w₁).append (List.sublist_cons_self x w₂)
  have hlexed : .unknown ∉ (w₁ ++ x :: w₂).map Lexeme.id := by
    intro hmem
    obtain ⟨t, ht, hid⟩ := List.mem_map.1 hmem
    exact (hknown t ht).1 hid
  obtain ⟨hspelled, hbranches⟩ := spelled_of_answers hq hquiet hw
    (fun hmem => hlexed ((hsub.map _).subset hmem)) names
  obtain ⟨items, hread, hdamage⟩ := hspelled.withstands
  obtain ⟨o', hprogram, hreports, hbranches'⟩ := answers_program hq' hw' names
  have hends : Ends programFollow (⟨[], false⟩ : Prospect).next := .inl rfl
  have hitems := hbranches _ (List.append_nil (w₁ ++ w₂) ▸ hread programFollow [] false hends)
  obtain ⟨hmended, hkept⟩ := hdamage w₁ w₂ x programFollow [] o' rfl
    ⟨hx, (hknown x (by simp)).2⟩ (fun _ hid => .inl (eq_eof_of_programFollow hid)) (.inl rfl)
    (by rwa [List.append_nil])
  rw [hreports hlexed, hitems, hbranches']
  exact ⟨hmended.reports, fun helse => (hkept helse).retained⟩

end Demo

end FrontEnd
