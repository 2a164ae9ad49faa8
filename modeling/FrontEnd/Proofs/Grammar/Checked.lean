import FrontEnd.Grammar.Build
import FrontEnd.Proofs.Grammar.LeftRecursion
import FrontEnd.Proofs.Grammar.Rounds

/-!
# What a grammar that was built can be relied on for

A grammar comes out of its declarations with the analysis of its rules. All that the parser relies
on is said once, of the finished grammar, and no later proof opens the analysis again.

- `Analysis.contains_sequenceFirst`: what begins a sequence;
- `GrammarDraft.build_eq_ok_iff`: which drafts become grammars;
- `Grammar.Checked`: the promises;
- `Grammar.checked_of_ofDecls`: **every grammar that can be built keeps them**.
-/

namespace FrontEnd

namespace Analysis

variable {nullable : Array Bool} {first : Array TokenSet} {symbols rest : List Symbol}
  {symbol : Symbol} {t : TokenId}

/-! ## Sequences -/

theorem snd_sequenceFirst (nullable : Array Bool) (first : Array TokenSet)
    (symbols : List Symbol) :
    (sequenceFirst nullable first symbols).2 = symbols.all (symbolNullable nullable) := by
  induction symbols with
  | nil => rfl
  | cons symbol rest ih =>
    rw [sequenceFirst, List.all_cons]
    cases symbolNullable nullable symbol with
    | true => exact ih
    | false => rfl

theorem contains_sequenceFirst :
    (sequenceFirst nullable first (symbol :: rest)).1.contains t = true ↔
      (symbolFirst first symbol).contains t = true ∨
        symbolNullable nullable symbol = true ∧
          (sequenceFirst nullable first rest).1.contains t = true := by
  rw [sequenceFirst]
  cases symbolNullable nullable symbol with
  | true => simp
  | false => simp

theorem contains_foldl_union {α : Type} (f : α → TokenSet) (xs : List α) (s : TokenSet) :
    (xs.foldl (fun set x => set.union (f x)) s).contains t = true ↔
      s.contains t = true ∨ ∃ x ∈ xs, (f x).contains t = true := by
  induction xs generalizing s with
  | nil => simp
  | cons x xs ih =>
    rw [List.foldl_cons, ih, TokenSet.contains_union, Bool.or_eq_true, List.exists_mem_cons_iff,
      or_assoc]

/-- A body can be empty by a production of which every symbol can be, or by its operand. -/
theorem bodyNullable_iff {body : RuleBody Production} :
    bodyNullable nullable body = true ↔
      (∃ ps, body = .sequence ps ∧
        ∃ p ∈ ps, ∀ symbol ∈ p.symbols, symbolNullable nullable symbol = true) ∨
      ∃ ops, body = .expression ops ∧ nullable.getD ops.operand false = true := by
  cases body with
  | undefined => simp [bodyNullable]
  | sequence ps => simp [bodyNullable]
  | expression ops => simp [bodyNullable]

/-- A body begins like one of its productions, or like its operand, or with a prefix operator. -/
theorem contains_bodyFirst {body : RuleBody Production} :
    (bodyFirst nullable first body).contains t = true ↔
      (∃ ps, body = .sequence ps ∧
        ∃ p ∈ ps, (sequenceFirst nullable first p.symbols).1.contains t = true) ∨
      ∃ ops, body = .expression ops ∧
        ((first.getD ops.operand ∅).contains t = true ∨
          t ∈ ops.prefixes.map PrefixOperator.token) := by
  cases body with
  | undefined => simp [bodyFirst]
  | sequence ps => simp [bodyFirst, contains_foldl_union]
  | expression ops =>
    rw [bodyFirst, TokenSet.contains_insertMany, Bool.or_eq_true, List.contains_iff_mem]
    simp

/-- A symbol is empty when the rule that it names is, or when it may leave it out. -/
def Blank (Q : Nat → Prop) : Symbol → Prop
  | .token _ => False
  | .rule r => Q r
  | .opt _ | .many _ => True

/-- The token begins the symbol when it is it, or begins the rule that it names. -/
def Heads (Q : Nat → TokenId → Prop) (t : TokenId) : Symbol → Prop
  | .token id => id = t
  | .rule r | .opt r | .many r => Q r t

/-- The token begins a symbol before which all can be empty. -/
def HeadsSequence (nullable : Array Bool) (Q : Nat → TokenId → Prop) (t : TokenId) :
    List Symbol → Prop
  | [] => False
  | symbol :: rest =>
    Heads Q t symbol ∨ symbolNullable nullable symbol = true ∧ HeadsSequence nullable Q t rest

theorem blank_of_symbolNullable {Q : Nat → Prop} (h : ∀ r, nullable.getD r false = true → Q r)
    (hs : symbolNullable nullable symbol = true) : Blank Q symbol := by
  cases symbol with
  | token id => cases hs
  | rule r => exact h r hs
  | opt r | many r => trivial

theorem heads_of_symbolFirst {Q : Nat → TokenId → Prop}
    (h : ∀ r t, (first.getD r ∅).contains t = true → Q r t)
    (hs : (symbolFirst first symbol).contains t = true) : Heads Q t symbol := by
  cases symbol with
  | token id =>
    rw [symbolFirst, TokenSet.contains_single] at hs
    exact eq_of_beq hs
  | rule r | opt r | many r => exact h r t hs

theorem headsSequence_of_sequenceFirst {Q : Nat → TokenId → Prop}
    (h : ∀ r t, (first.getD r ∅).contains t = true → Q r t)
    (hs : (sequenceFirst nullable first symbols).1.contains t = true) :
    HeadsSequence nullable Q t symbols := by
  induction symbols with
  | nil =>
    rw [sequenceFirst, TokenSet.contains_empty] at hs
    cases hs
  | cons symbol rest ih =>
    rcases contains_sequenceFirst.1 hs with hs | ⟨hempty, hs⟩
    · exact .inl (heads_of_symbolFirst h hs)
    · exact .inr ⟨hempty, ih hs⟩

/-- A rule that a sequence can begin with is named by one of its symbols. -/
theorem exists_symbol_of_leading {s : Nat} (hs : s ∈ leading nullable symbols) :
    ∃ symbol ∈ symbols, symbol.rule? = some s := by
  induction symbols with
  | nil => exact nomatch hs
  | cons symbol rest ih =>
    rw [leading, List.mem_append] at hs
    rcases hs with hs | hs
    · exact ⟨symbol, List.mem_cons_self, by simpa using hs⟩
    · split at hs
      · obtain ⟨x, hx, hxs⟩ := ih hs
        exact ⟨x, List.mem_cons_of_mem _ hx, hxs⟩
      · cases hs

theorem map_symbol_steps (nullable : Array Bool) (first : Array TokenSet)
    (symbols : List Symbol) : (steps nullable first symbols).map Step.symbol = symbols := by
  induction symbols with
  | nil => rfl
  | cons symbol symbols ih => exact congrArg (symbol :: ·) ih

end Analysis

/-! ## Drafts that can be built -/

namespace GrammarDraft

open Analysis

variable {d : GrammarDraft}

/-- The grammar that a draft becomes. -/
def finished (d : GrammarDraft) (start : Nat) : Grammar :=
  let nullable := nullables d.rules
  let first := firsts d.rules nullable
  let rules := d.rules.map fun rule =>
    { rule with body := rule.body.map (alternative nullable first) }
  { rules
    byName := Std.HashMap.ofList (d.rules.toList.zipIdx.map fun (rule, r) => (rule.name, r))
    start
    nullable
    first
    conflicts := conflicts rules
    lookahead := lookahead d.rules }

theorem body_finished (d : GrammarDraft) (start r : Nat) :
    (d.finished start).body r = ((d.rules[r]?.map Rule.body).getD .undefined).map
      (alternative (d.finished start).nullable (d.finished start).first) := by
  show ((((d.rules.map _)[r]?).map Rule.body).getD .undefined) = _
  rw [Array.getElem?_map]
  cases d.rules[r]? <;> rfl

theorem checkedStart_spec {start : Nat} (h : d.checkedStart = .ok start) :
    start < d.rules.size ∧
      ∀ rule ∈ d.rules.toList, ∀ s ∈ references rule.body, s < d.rules.size := by
  unfold checkedStart at h
  split at h
  · cases h
  · cases h
  · split at h
    · cases h
    · next hlt =>
      split at h
      · cases h
      · next hdangling =>
        cases h
        constructor
        · exact Nat.lt_of_not_le hlt
        · intro rule hrule s hs
          have hnone := List.find?_eq_none.1 hdangling s (List.mem_flatMap.2 ⟨rule, hrule, hs⟩)
          simpa using hnone

/-- A draft becomes a grammar when nothing is wrong with it, and then this one. -/
theorem build_eq_ok_iff {g : Grammar} :
    d.build = .ok g ↔ ∃ start, d.checkedStart = .ok start ∧
      nullableRepetition? d.rules (nullables d.rules) = none ∧
      leftRecursive? d.rules (nullables d.rules) = none ∧ g = d.finished start := by
  rw [build]
  cases hstart : d.checkedStart with
  | error e =>
    constructor
    · intro h
      cases h
    · rintro ⟨start, h, -⟩
      cases h
  | ok start =>
    simp only [bind, Except.bind]
    constructor
    · intro h
      split at h
      · cases h
      · next hrep =>
        split at h
        · cases h
        · next hleft =>
          cases h
          exact ⟨start, rfl, hrep, hleft, rfl⟩
    · rintro ⟨start, h, hrep, hleft, rfl⟩
      cases h
      rw [hrep, hleft]
      rfl

end GrammarDraft

namespace Grammar

open Analysis

/-! ## The promises -/

/-- The rules have ranks that fall from a rule to those that it can begin with. -/
structure Ranks (g : Grammar) (rank : Nat → Nat) : Prop where
  lt_size : ∀ r < g.size, rank r < g.size
  sequence : ∀ {r as a s}, g.body r = .sequence as → a ∈ as →
    s ∈ leading g.nullable a.symbols → rank s < rank r
  expression : ∀ {r ops}, g.body r = .expression ops → rank ops.operand < rank r

/-- What the parser relies on. -/
structure Checked (g : Grammar) : Prop where
  start_lt : g.start < g.size
  /-- A number in a production is that of a rule. -/
  rule_lt : ∀ {r as a symbol s}, g.body r = .sequence as → a ∈ as → symbol ∈ a.symbols →
    symbol.rule? = some s → s < g.size
  operand_lt : ∀ {r ops}, g.body r = .expression ops → ops.operand < g.size
  /-- An alternative carries its analysis. -/
  analysed : ∀ {r as a}, g.body r = .sequence as → a ∈ as →
    a = alternative g.nullable g.first a.toProduction
  nullable_sequence : ∀ {r as a}, g.body r = .sequence as → a ∈ as → a.nullable = true →
    g.isNullable r = true
  nullable_expression : ∀ {r ops}, g.body r = .expression ops → g.isNullable ops.operand = true →
    g.isNullable r = true
  first_sequence : ∀ {r as a t}, g.body r = .sequence as → a ∈ as → a.first.contains t = true →
    (g.firstOf r).contains t = true
  first_expression : ∀ {r ops t}, g.body r = .expression ops →
    (g.firstOf ops.operand).contains t = true ∨ t ∈ ops.prefixes.map PrefixOperator.token →
    (g.firstOf r).contains t = true
  /-- Nothing can be empty without a reason. -/
  nullable_least : ∀ {Q : Nat → Prop},
    (∀ r as a, g.body r = .sequence as → a ∈ as → (∀ symbol ∈ a.symbols, Blank Q symbol) → Q r) →
    (∀ r ops, g.body r = .expression ops → Q ops.operand → Q r) →
    ∀ {r}, g.isNullable r = true → Q r
  /-- No token begins a rule without a reason. -/
  first_least : ∀ {Q : Nat → TokenId → Prop},
    (∀ r as a t, g.body r = .sequence as → a ∈ as → HeadsSequence g.nullable Q t a.symbols →
      Q r t) →
    (∀ r ops t, g.body r = .expression ops →
      Q ops.operand t ∨ t ∈ ops.prefixes.map PrefixOperator.token → Q r t) →
    ∀ {r t}, (g.firstOf r).contains t = true → Q r t
  /-- What is repeated or made optional cannot be empty. -/
  solid : ∀ {r as a s}, g.body r = .sequence as → a ∈ as →
    (.opt s ∈ a.symbols ∨ .many s ∈ a.symbols) → g.isNullable s = false
  /-- No rule begins with itself. -/
  ranked : ∃ rank, g.Ranks rank

/-! ## The finished grammar and the draft -/

/-- The grammar has the rules of a draft, with their analysis. -/
structure Finishes (g : Grammar) (rules : Rules) : Prop where
  rules_eq : g.rules = rules.map fun rule =>
    { rule with body := rule.body.map (alternative g.nullable g.first) }
  nullable_eq : g.nullable = nullables rules
  first_eq : g.first = firsts rules (nullables rules)
  start_lt : g.start < rules.size
  dangling : ∀ rule ∈ rules.toList, ∀ s ∈ GrammarDraft.references rule.body, s < rules.size
  repetition : nullableRepetition? rules (nullables rules) = none
  leftRecursive : leftRecursive? rules (nullables rules) = none

theorem exists_finishes {decls : List GrammarDecl} {g : Grammar} (h : ofDecls decls = .ok g) :
    ∃ rules, g.Finishes rules := by
  obtain ⟨start, hstart, hrep, hleft, rfl⟩ := GrammarDraft.build_eq_ok_iff.1 h
  obtain ⟨hlt, hdangling⟩ := GrammarDraft.checkedStart_spec hstart
  exact ⟨_, rfl, rfl, rfl, hlt, hdangling, hrep, hleft⟩

namespace Finishes

variable {g : Grammar} {rules : Rules}

theorem size (h : g.Finishes rules) : g.size = rules.size := by
  rw [Grammar.size, h.rules_eq, Array.size_map]

theorem body_of_none (h : g.Finishes rules) {r : Nat} (hr : rules[r]? = none) :
    g.body r = .undefined := by
  rw [Grammar.body, h.rules_eq, Array.getElem?_map, hr]
  rfl

theorem body_of_some (h : g.Finishes rules) {r : Nat} {rule : Rule Production}
    (hr : rules[r]? = some rule) :
    g.body r = rule.body.map (alternative g.nullable g.first) := by
  conv => lhs; rw [Grammar.body, h.rules_eq, Array.getElem?_map, hr]
  rfl

/-- A rule of the grammar with a body comes from one of the draft. -/
theorem exists_rule (h : g.Finishes rules) {r : Nat} {body : RuleBody Alternative}
    (hb : g.body r = body) (hdefined : body ≠ .undefined) :
    ∃ rule, rules[r]? = some rule ∧ rule.body.map (alternative g.nullable g.first) = body := by
  cases hr : rules[r]? with
  | none => exact absurd (hb.symm.trans (h.body_of_none hr)) hdefined
  | some rule => exact ⟨rule, rfl, (h.body_of_some hr).symm.trans hb⟩

/-- A sequence of the grammar comes from one of the draft. -/
theorem sequence (h : g.Finishes rules) {r : Nat} {as : List Alternative} {a : Alternative}
    (hb : g.body r = .sequence as) (ha : a ∈ as) :
    ∃ rule ps, rules[r]? = some rule ∧ rule.body = .sequence ps ∧ a.toProduction ∈ ps ∧
      a = alternative g.nullable g.first a.toProduction := by
  obtain ⟨rule, hr, hmap⟩ := h.exists_rule hb nofun
  cases hbody : rule.body with
  | undefined | expression ops => rw [hbody] at hmap; cases hmap
  | sequence ps =>
    rw [hbody] at hmap
    cases hmap
    obtain ⟨p, hp, rfl⟩ := List.mem_map.1 ha
    exact ⟨rule, ps, hr, hbody, hp, rfl⟩

/-- An expression of the grammar comes from one of the draft. -/
theorem expression (h : g.Finishes rules) {r : Nat} {ops : Operators}
    (hb : g.body r = .expression ops) :
    ∃ rule, rules[r]? = some rule ∧ rule.body = .expression ops := by
  obtain ⟨rule, hr, hmap⟩ := h.exists_rule hb nofun
  cases hbody : rule.body with
  | undefined | sequence ps => rw [hbody] at hmap; cases hmap
  | expression ops' =>
    rw [hbody] at hmap
    cases hmap
    exact ⟨rule, hr, hbody⟩

/-- A production of the draft is an alternative of the grammar. -/
theorem alternative_mem (h : g.Finishes rules) {r : Nat} {rule : Rule Production}
    {ps : List Production} {p : Production} (hr : rules[r]? = some rule)
    (hbody : rule.body = .sequence ps) (hp : p ∈ ps) :
    g.body r = .sequence (ps.map (alternative g.nullable g.first)) ∧
      alternative g.nullable g.first p ∈ ps.map (alternative g.nullable g.first) := by
  rw [h.body_of_some hr, hbody]
  exact ⟨rfl, List.mem_map_of_mem hp⟩

theorem mem_toList {r : Nat} {rule : Rule Production} (hr : rules[r]? = some rule) :
    rule ∈ rules.toList := by
  rw [← Array.getElem?_toList] at hr
  exact List.mem_of_getElem? hr

theorem nullable_least (h : g.Finishes rules) {Q : Nat → Prop}
    (hseq : ∀ r as a, g.body r = .sequence as → a ∈ as →
      (∀ symbol ∈ a.symbols, Blank Q symbol) → Q r)
    (hexp : ∀ r ops, g.body r = .expression ops → Q ops.operand → Q r) {r : Nat}
    (hr : g.isNullable r = true) : Q r := by
  rw [isNullable, h.nullable_eq] at hr
  refine nullables_induction (fun nullable hknown r rule hrule hb => ?_) hr
  rcases bodyNullable_iff.1 hb with ⟨ps, hbody, p, hp, hall⟩ | ⟨ops, hbody, hoperand⟩
  · obtain ⟨hg, hmem⟩ := h.alternative_mem hrule hbody hp
    refine hseq r _ _ hg hmem fun symbol hsymbol => ?_
    exact blank_of_symbolNullable hknown (hall symbol hsymbol)
  · refine hexp r ops ?_ (hknown _ hoperand)
    rw [h.body_of_some hrule, hbody]
    rfl

theorem first_least (h : g.Finishes rules) {Q : Nat → TokenId → Prop}
    (hseq : ∀ r as a t, g.body r = .sequence as → a ∈ as →
      HeadsSequence g.nullable Q t a.symbols → Q r t)
    (hexp : ∀ r ops t, g.body r = .expression ops →
      Q ops.operand t ∨ t ∈ ops.prefixes.map PrefixOperator.token → Q r t) {r : Nat} {t : TokenId}
    (hr : (g.firstOf r).contains t = true) : Q r t := by
  rw [firstOf, h.first_eq] at hr
  refine firsts_induction (fun first hknown r rule t hrule hb => ?_) hr
  rcases contains_bodyFirst.1 hb with ⟨ps, hbody, p, hp, ht⟩ | ⟨ops, hbody, hops⟩
  · obtain ⟨hg, hmem⟩ := h.alternative_mem hrule hbody hp
    rw [← h.nullable_eq] at ht
    exact hseq r _ _ t hg hmem (headsSequence_of_sequenceFirst hknown ht)
  · refine hexp r ops t ?_ (hops.imp_left (hknown _ _))
    rw [h.body_of_some hrule, hbody]
    rfl

theorem solid (h : g.Finishes rules) {r s : Nat} {as : List Alternative} {a : Alternative}
    (hb : g.body r = .sequence as) (ha : a ∈ as)
    (hs : .opt s ∈ a.symbols ∨ .many s ∈ a.symbols) : g.isNullable s = false := by
  obtain ⟨rule, ps, hrule, hbody, hp, -⟩ := h.sequence hb ha
  have hnone := List.findSome?_eq_none_iff.1 h.repetition rule (mem_toList hrule)
  rw [hbody] at hnone
  rw [isNullable, h.nullable_eq]
  rcases hs with hs | hs
  · have := List.findSome?_eq_none_iff.1 hnone _ (List.mem_flatMap.2 ⟨_, hp, hs⟩)
    simpa using this
  · have := List.findSome?_eq_none_iff.1 hnone _ (List.mem_flatMap.2 ⟨_, hp, hs⟩)
    simpa using this

theorem ranked (h : g.Finishes rules) : ∃ rank, g.Ranks rank := by
  obtain ⟨rank, hlt, hfall⟩ := exists_rank h.leftRecursive
  refine ⟨rank, h.size ▸ hlt, fun {r as a s} hb ha hs => ?_, fun {r ops} hb => ?_⟩
  · obtain ⟨rule, ps, hrule, hbody, hp, -⟩ := h.sequence hb ha
    obtain ⟨hr, -⟩ := Array.getElem?_eq_some_iff.1 hrule
    have href : s ∈ GrammarDraft.references rule.body := by
      rw [hbody]
      -- Edges lead to rules that are named in the production, and none of these dangles.
      obtain ⟨x, hx, hxs⟩ := exists_symbol_of_leading hs
      exact List.mem_filterMap.2 ⟨x, List.mem_flatMap.2 ⟨_, hp, hx⟩, hxs⟩
    refine hfall r hr s (h.dangling rule (mem_toList hrule) s href) ?_
    rw [leftEdges, hrule, Option.map_some, hbody, ← h.nullable_eq]
    exact List.mem_flatMap.2 ⟨_, hp, hs⟩
  · obtain ⟨rule, hrule, hbody⟩ := h.expression hb
    obtain ⟨hr, -⟩ := Array.getElem?_eq_some_iff.1 hrule
    have href : ops.operand ∈ GrammarDraft.references rule.body := by
      rw [hbody]
      exact List.mem_singleton_self _
    refine hfall r hr _ (h.dangling rule (mem_toList hrule) _ href) ?_
    rw [leftEdges, hrule, Option.map_some, hbody]
    exact List.mem_singleton_self _

theorem checked (h : g.Finishes rules) : g.Checked where
  start_lt := h.size ▸ h.start_lt
  rule_lt := by
    intro r as a symbol s hb ha hsymbol hs
    obtain ⟨rule, ps, hrule, hbody, hp, -⟩ := h.sequence hb ha
    rw [h.size]
    refine h.dangling rule (mem_toList hrule) s ?_
    rw [hbody]
    exact List.mem_filterMap.2 ⟨symbol, List.mem_flatMap.2 ⟨_, hp, hsymbol⟩, hs⟩
  operand_lt := by
    intro r ops hb
    obtain ⟨rule, hrule, hbody⟩ := h.expression hb
    rw [h.size]
    refine h.dangling rule (mem_toList hrule) _ ?_
    rw [hbody]
    exact List.mem_singleton_self _
  analysed := by
    intro r as a hb ha
    obtain ⟨_, _, _, _, _, heq⟩ := h.sequence hb ha
    exact heq
  nullable_sequence := by
    intro r as a hb ha hnull
    obtain ⟨rule, ps, hrule, hbody, hp, heq⟩ := h.sequence hb ha
    rw [isNullable, h.nullable_eq]
    refine nullable_of_body hrule (bodyNullable_iff.2 (.inl ⟨ps, hbody, _, hp, ?_⟩))
    have hsnd := snd_sequenceFirst g.nullable g.first a.symbols
    rw [← h.nullable_eq, ← List.all_eq_true, ← hsnd]
    rw [heq] at hnull
    exact hnull
  nullable_expression := by
    intro r ops hb hnull
    obtain ⟨rule, hrule, hbody⟩ := h.expression hb
    rw [isNullable, h.nullable_eq] at hnull ⊢
    exact nullable_of_body hrule (bodyNullable_iff.2 (.inr ⟨ops, hbody, hnull⟩))
  first_sequence := by
    intro r as a t hb ha ht
    obtain ⟨rule, ps, hrule, hbody, hp, heq⟩ := h.sequence hb ha
    rw [firstOf, h.first_eq]
    refine first_of_body hrule (contains_bodyFirst.2 (.inl ⟨ps, hbody, _, hp, ?_⟩))
    rw [← h.first_eq, ← h.nullable_eq]
    rw [heq] at ht
    exact ht
  first_expression := by
    intro r ops t hb ht
    obtain ⟨rule, hrule, hbody⟩ := h.expression hb
    rw [firstOf, h.first_eq] at ht ⊢
    exact first_of_body hrule (contains_bodyFirst.2 (.inr ⟨ops, hbody, ht⟩))
  nullable_least := h.nullable_least
  first_least := h.first_least
  solid := h.solid
  ranked := h.ranked

end Finishes

/-- A rule with a body is there. -/
theorem lt_size_of_body {g : Grammar} {r : Nat} (h : g.body r ≠ .undefined) : r < g.size := by
  refine Nat.lt_of_not_le fun hle => h ?_
  rw [body, Array.getElem?_eq_none hle]
  rfl

theorem Checked.map_symbol_steps {g : Grammar} (hc : g.Checked) {r : Nat}
    {as : List Alternative} {a : Alternative} (hb : g.body r = .sequence as) (ha : a ∈ as) :
    a.steps.map Step.symbol = a.symbols := by
  have heq := hc.analysed hb ha
  conv => lhs; rw [heq]
  exact Analysis.map_symbol_steps ..

theorem checked_of_ofDecls {decls : List GrammarDecl} {g : Grammar} (h : ofDecls decls = .ok g) :
    g.Checked := by
  obtain ⟨rules, hg⟩ := exists_finishes h
  exact hg.checked

end Grammar

end FrontEnd
