import FrontEnd.Proofs.Grammar.Checked
import FrontEnd.Proofs.Lookups

/-!
# Every rule that is looked up is there

Rules are named by number, and numbers are made sure of once, before a draft is analysed. From then
on they are used to look up bodies, marks and first sets. Here all this is written down once more
with **lookups that give no result where nothing is**, and shown to come to the same.

- `Analysis.nullables?`, `Analysis.firsts?`, `Analysis.alternative?`: what can be empty, and what
  begins with what;
- `Analysis.repetitionIn?`, `Analysis.recursionIn?`: what makes rules unfit;
- `Grammar.ofDecls?_eq`: **whatever the declarations are, no lookup fails on the way to their
  grammar or their first fault**;
- `Grammar.bodyAt?`, `Grammar.firstAt?`, `Alternative.steps?`: lookups in a finished grammar.
-/

namespace FrontEnd

namespace Analysis

variable {rules : Rules} {nullable : Array Bool} {first : Array TokenSet} {n : Nat}

/-- The bodies name only rules that are there. -/
def Closed (rules : Rules) : Prop :=
  ∀ rule ∈ rules.toList, ∀ s ∈ GrammarDraft.references rule.body, s < rules.size

/-- The symbols name only the first `n` rules. -/
def Names (n : Nat) (symbols : List Symbol) : Prop := ∀ s ∈ symbols.filterMap Symbol.rule?, s < n

theorem Names.cons {symbol : Symbol} {rest : List Symbol} (h : Names n (symbol :: rest)) :
    (∀ s, symbol.rule? = some s → s < n) ∧ Names n rest := by
  constructor
  · exact fun s hs => h s (List.mem_filterMap.2 ⟨symbol, List.mem_cons_self, hs⟩)
  · intro s hs
    obtain ⟨x, hx, hxs⟩ := List.mem_filterMap.1 hs
    exact h s (List.mem_filterMap.2 ⟨x, List.mem_cons_of_mem _ hx, hxs⟩)

theorem Names.of_mem {symbols : List Symbol} (h : Names n symbols) {symbol : Symbol}
    (hmem : symbol ∈ symbols) : ∀ s, symbol.rule? = some s → s < n :=
  fun s hs => h s (List.mem_filterMap.2 ⟨symbol, hmem, hs⟩)

theorem names_of_mem {ps : List Production} {p : Production}
    (h : ∀ s ∈ GrammarDraft.references (.sequence ps), s < n) (hp : p ∈ ps) :
    Names n p.symbols := by
  intro s hs
  obtain ⟨x, hx, hxs⟩ := List.mem_filterMap.1 hs
  exact h s (List.mem_filterMap.2 ⟨x, List.mem_flatMap.2 ⟨p, hp, hx⟩, hxs⟩)

theorem operand_lt_of_references {ops : Operators}
    (h : ∀ s ∈ GrammarDraft.references (.expression ops), s < n) : ops.operand < n :=
  h _ (List.mem_singleton_self _)

theorem Closed.references_lt (hc : Closed rules) {r : Nat} {rule : Rule Production}
    (hr : rules[r]? = some rule) : ∀ s ∈ GrammarDraft.references rule.body, s < rules.size :=
  hc rule (Grammar.Finishes.mem_toList hr)

theorem exists_rule {r : Nat} (hr : r < rules.size) : ∃ rule, rules[r]? = some rule :=
  ⟨_, Array.getElem?_eq_getElem hr⟩

/-! ## Rules that can be empty -/

/-- Can the symbol be empty, if `nullable` says which rules can? -/
def symbolNullable? (nullable : Array Bool) : Symbol → Option Bool
  | .token _ => some false
  | .rule r => nullable[r]?
  | .opt _ | .many _ => some true

/-- Can a body be empty, if `nullable` says which rules can? -/
def bodyNullable? (nullable : Array Bool) : RuleBody Production → Option Bool
  | .undefined => some false
  | .sequence ps => ps.anyM fun p => p.symbols.allM (symbolNullable? nullable)
  | .expression ops => nullable[ops.operand]?

theorem symbolNullable?_eq {symbol : Symbol}
    (h : ∀ s, symbol.rule? = some s → s < nullable.size) :
    symbolNullable? nullable symbol = some (symbolNullable nullable symbol) := by
  cases symbol with
  | token id | opt r | many r => rfl
  | rule r => exact getElem?_eq_some_getD (h r rfl) false

theorem bodyNullable?_eq {body : RuleBody Production}
    (h : ∀ s ∈ GrammarDraft.references body, s < nullable.size) :
    bodyNullable? nullable body = some (bodyNullable nullable body) := by
  cases body with
  | undefined => rfl
  | sequence ps =>
    refine anyM_eq_some fun p hp => allM_eq_some fun symbol hsymbol => ?_
    exact symbolNullable?_eq ((names_of_mem h hp).of_mem hsymbol)
  | expression ops => exact getElem?_eq_some_getD (operand_lt_of_references h) false

/-- Marks a rule if it can be empty as far as is known. -/
def nullableVisit? (rules : Rules) (nullable : Array Bool) (r : Nat) : Option (Array Bool) := do
  let rule ← rules[r]?
  if ← nullable[r]? then some nullable
  else if ← bodyNullable? nullable rule.body then put? nullable r true
  else some nullable

/-- Goes once round the rules and marks those that can be empty as far as is known. -/
def nullableRound? (rules : Rules) (nullable : Array Bool) : Option (Array Bool) :=
  (List.range rules.size).foldlM (nullableVisit? rules) nullable

/-- Repeats `round` until it changes nothing, at most `bound` times. -/
def settle? {α : Type} [DecidableEq α] (round : α → Option α) : Nat → α → Option α
  | 0, x => some x
  | bound + 1, x => do
    let next ← round x
    if next = x then some x else settle? round bound next

/-- The rules that can be empty. -/
def nullables? (rules : Rules) : Option (Array Bool) :=
  settle? (nullableRound? rules) (rules.size + 1) (Array.replicate rules.size false)

theorem nullableVisit?_eq (hc : Closed rules) (hsize : nullable.size = rules.size) {r : Nat}
    (hr : r < rules.size) :
    nullableVisit? rules nullable r = some (nullableVisit rules nullable r) := by
  obtain ⟨rule, hrule⟩ := exists_rule hr
  have hlt : r < nullable.size := hsize ▸ hr
  have hbody : bodyNullable? nullable rule.body = some (bodyNullable nullable rule.body) :=
    bodyNullable?_eq (hsize.symm ▸ hc.references_lt hrule)
  rw [nullableVisit?, nullableVisit, hrule, Array.getElem?_eq_getElem hlt]
  simp only [Option.bind_eq_bind, Option.bind_some]
  by_cases hknown : nullable[r] = true
  · -- What is marked already is not looked at again; marking it once more changes nothing.
    have hsame : nullable.setIfInBounds r true = nullable := by
      rw [Array.setIfInBounds, dif_pos hlt, ← hknown, Array.set_getElem_self]
    rw [if_pos hknown, hsame, ite_self]
  · rw [if_neg hknown, hbody, Option.bind_some, put?_eq hlt]
    split
    · rfl
    · rfl

theorem nullableRound?_eq (hc : Closed rules) (hsize : nullable.size = rules.size) :
    nullableRound? rules nullable = some (nullableRound rules nullable) ∧
      (nullableRound rules nullable).size = rules.size :=
  foldlM_eq_some (fun x : Array Bool => x.size = rules.size)
    (fun x hx r hr => ⟨nullableVisit?_eq hc hx (List.mem_range.1 hr),
      (size_nullableVisit rules x r).trans hx⟩) hsize

/-- Where no round fails, going round does not. -/
theorem settle?_eq {α : Type} [DecidableEq α] {round? : α → Option α} {round : α → α}
    (P : α → Prop) (h : ∀ x, P x → round? x = some (round x) ∧ P (round x)) (bound : Nat) {x : α}
    (hx : P x) : settle? round? bound x = some (settle round bound x) := by
  induction bound generalizing x with
  | zero => rfl
  | succ bound ih =>
    obtain ⟨hround, hnext⟩ := h x hx
    show (round? x).bind _ = some (if round x = x then x else settle round bound (round x))
    rw [hround, Option.bind_some]
    split
    · rfl
    · exact ih hnext

theorem nullables?_eq (hc : Closed rules) : nullables? rules = some (nullables rules) :=
  settle?_eq (fun x : Array Bool => x.size = rules.size) (fun _ hx => nullableRound?_eq hc hx) _
    Array.size_replicate

/-! ## First tokens -/

/-- The tokens that can begin the symbol, if `first` says it of rules. -/
def symbolFirst? (first : Array TokenSet) : Symbol → Option TokenSet
  | .token id => some (.single id)
  | .rule r | .opt r | .many r => first[r]?

/-- The tokens that can begin a sequence of symbols, and whether it can be empty. -/
def sequenceFirst? (nullable : Array Bool) (first : Array TokenSet) :
    List Symbol → Option (TokenSet × Bool)
  | [] => some (∅, true)
  | symbol :: rest => do
    let here ← symbolFirst? first symbol
    if ← symbolNullable? nullable symbol then
      let (behind, empty) ← sequenceFirst? nullable first rest
      some (here.union behind, empty)
    else some (here, false)

/-- The tokens that can begin a body, if `first` says it of rules. -/
def bodyFirst? (nullable : Array Bool) (first : Array TokenSet) :
    RuleBody Production → Option TokenSet
  | .undefined => some ∅
  | .sequence ps =>
    ps.foldlM (fun set p => do
      let here ← sequenceFirst? nullable first p.symbols
      some (set.union here.1)) ∅
  | .expression ops => do
    let set ← first[ops.operand]?
    some (set.insertMany (ops.prefixes.map PrefixOperator.token))

theorem symbolFirst?_eq {symbol : Symbol} (h : ∀ s, symbol.rule? = some s → s < first.size) :
    symbolFirst? first symbol = some (symbolFirst first symbol) := by
  cases symbol with
  | token id => rfl
  | rule r | opt r | many r => exact getElem?_eq_some_getD (h r rfl) ∅

theorem sequenceFirst?_eq {symbols : List Symbol} (hn : Names nullable.size symbols)
    (hf : Names first.size symbols) :
    sequenceFirst? nullable first symbols = some (sequenceFirst nullable first symbols) := by
  induction symbols with
  | nil => rfl
  | cons symbol rest ih =>
    rw [sequenceFirst?, sequenceFirst, symbolFirst?_eq hf.cons.1, symbolNullable?_eq hn.cons.1]
    simp only [Option.bind_eq_bind, Option.bind_some]
    split
    · rw [ih hn.cons.2 hf.cons.2]
      rfl
    · rfl

theorem bodyFirst?_eq {body : RuleBody Production}
    (hn : ∀ s ∈ GrammarDraft.references body, s < nullable.size)
    (hf : ∀ s ∈ GrammarDraft.references body, s < first.size) :
    bodyFirst? nullable first body = some (bodyFirst nullable first body) := by
  cases body with
  | undefined => rfl
  | sequence ps =>
    refine (foldlM_eq_some (fun _ => True) (fun set _ p hp => ⟨?_, trivial⟩) trivial).1
    rw [sequenceFirst?_eq (names_of_mem hn hp) (names_of_mem hf hp)]
    rfl
  | expression ops =>
    rw [bodyFirst?, getElem?_eq_some_getD (operand_lt_of_references hf) ∅]
    rfl

/-- Adds the first tokens of a rule that are known. -/
def firstVisit? (rules : Rules) (nullable : Array Bool) (first : Array TokenSet) (r : Nat) :
    Option (Array TokenSet) := do
  let rule ← rules[r]?
  let set ← bodyFirst? nullable first rule.body
  let known ← first[r]?
  put? first r (known.union set)

/-- Goes once round the rules and adds the first tokens that are known. -/
def firstRound? (rules : Rules) (nullable : Array Bool) (first : Array TokenSet) :
    Option (Array TokenSet) :=
  (List.range rules.size).foldlM (firstVisit? rules nullable) first

/-- For each rule the tokens that can begin it. -/
def firsts? (rules : Rules) (nullable : Array Bool) : Option (Array TokenSet) :=
  settle? (firstRound? rules nullable) (firstBound rules) (Array.replicate rules.size ∅)

theorem firstVisit?_eq (hc : Closed rules) (hn : nullable.size = rules.size)
    (hf : first.size = rules.size) {r : Nat} (hr : r < rules.size) :
    firstVisit? rules nullable first r = some (firstVisit rules nullable first r) := by
  obtain ⟨rule, hrule⟩ := exists_rule hr
  have hlt : r < first.size := hf ▸ hr
  rw [firstVisit?, firstVisit, hrule, getElem?_eq_some_getD hlt ∅]
  simp only [Option.bind_eq_bind, Option.bind_some]
  rw [bodyFirst?_eq (hn.symm ▸ hc.references_lt hrule) (hf.symm ▸ hc.references_lt hrule),
    Option.bind_some, put?_eq hlt]

theorem firstRound?_eq (hc : Closed rules) (hn : nullable.size = rules.size)
    (hf : first.size = rules.size) :
    firstRound? rules nullable first = some (firstRound rules nullable first) ∧
      (firstRound rules nullable first).size = rules.size :=
  foldlM_eq_some (fun x : Array TokenSet => x.size = rules.size)
    (fun x hx r hr => ⟨firstVisit?_eq hc hn hx (List.mem_range.1 hr),
      (size_firstVisit rules nullable x r).trans hx⟩) hf

theorem firsts?_eq (hc : Closed rules) (hn : nullable.size = rules.size) :
    firsts? rules nullable = some (firsts rules nullable) :=
  settle?_eq (fun x : Array TokenSet => x.size = rules.size)
    (fun _ hx => firstRound?_eq hc hn hx) _ Array.size_replicate

/-! ## Productions -/

/-- The symbols of a sequence, each with what may come behind it. -/
def steps? (nullable : Array Bool) (first : Array TokenSet) : List Symbol → Option (List Step)
  | [] => some []
  | symbol :: rest => do
    let (set, empty) ← sequenceFirst? nullable first rest
    let steps ← steps? nullable first rest
    some (⟨symbol, set, empty⟩ :: steps)

/-- A production with what the parser has to know about it. -/
def alternative? (nullable : Array Bool) (first : Array TokenSet) (p : Production) :
    Option Alternative := do
  let (set, empty) ← sequenceFirst? nullable first p.symbols
  let steps ← steps? nullable first p.symbols
  some ⟨p, set, empty, steps⟩

/-- A rule with what the parser has to know about its productions. -/
def annotate? (nullable : Array Bool) (first : Array TokenSet) (rule : Rule Production) :
    Option (Rule Alternative) :=
  match rule.body with
  | .undefined => some { rule with body := .undefined }
  | .sequence ps => do
    let alternatives ← ps.mapM (alternative? nullable first)
    some { rule with body := .sequence alternatives }
  | .expression ops => some { rule with body := .expression ops }

theorem steps?_eq {symbols : List Symbol} (hn : Names nullable.size symbols)
    (hf : Names first.size symbols) :
    steps? nullable first symbols = some (steps nullable first symbols) := by
  induction symbols with
  | nil => rfl
  | cons symbol rest ih =>
    rw [steps?, steps, sequenceFirst?_eq hn.cons.2 hf.cons.2, ih hn.cons.2 hf.cons.2]
    rfl

theorem alternative?_eq {p : Production} (hn : Names nullable.size p.symbols)
    (hf : Names first.size p.symbols) :
    alternative? nullable first p = some (alternative nullable first p) := by
  rw [alternative?, alternative, sequenceFirst?_eq hn hf, steps?_eq hn hf]
  rfl

theorem annotate?_eq {rule : Rule Production}
    (hn : ∀ s ∈ GrammarDraft.references rule.body, s < nullable.size)
    (hf : ∀ s ∈ GrammarDraft.references rule.body, s < first.size) :
    annotate? nullable first rule =
      some { rule with body := rule.body.map (alternative nullable first) } := by
  obtain ⟨name, body, transparent⟩ := rule
  cases body with
  | undefined | expression ops => rfl
  | sequence ps =>
    have hps : ps.mapM (alternative? nullable first) = some (ps.map (alternative nullable first)) :=
      mapM_eq_some fun p hp => alternative?_eq (names_of_mem hn hp) (names_of_mem hf hp)
    rw [annotate?]
    dsimp only
    rw [hps]
    rfl

/-- The first rule that makes a rule optional or repeats it although that can be empty, with the
rule inside. -/
def repetitionIn? (rules : Rules) (nullable : Array Bool) :
    Option (Option (Rule Production × Nat)) :=
  rules.toList.findSomeM? fun rule =>
    (rule.body.alternatives.flatMap Production.symbols).findSomeM? fun
      | .opt r | .many r => do
        let empty ← nullable[r]?
        some (if empty then some (rule, r) else none)
      | _ => some none

theorem repetitionIn?_eq (hc : Closed rules) (hn : nullable.size = rules.size) :
    repetitionIn? rules nullable = some (nullableRepetition? rules nullable) := by
  refine findSomeM?_eq_some fun rule hrule => findSomeM?_eq_some fun symbol hsymbol => ?_
  have hlt : ∀ s, symbol.rule? = some s → s < nullable.size := by
    intro s hs
    rw [hn]
    obtain ⟨p, hp, hmem⟩ := List.mem_flatMap.1 hsymbol
    cases hbody : rule.body with
    | undefined | expression ops => rw [hbody] at hp; exact absurd hp List.not_mem_nil
    | sequence ps =>
      rw [hbody] at hp
      refine hc rule hrule s ?_
      rw [hbody]
      exact List.mem_filterMap.2 ⟨symbol, List.mem_flatMap.2 ⟨p, hp, hmem⟩, hs⟩
  cases symbol with
  | token id | rule r => rfl
  | opt r | many r =>
    dsimp only
    rw [getElem?_eq_some_getD (hlt r rfl) false]
    rfl

/-! ## Left recursion -/

/-- The rules that a sequence can begin with. -/
def leading? (nullable : Array Bool) : List Symbol → Option (List Nat)
  | [] => some []
  | symbol :: rest => do
    if ← symbolNullable? nullable symbol then
      let behind ← leading? nullable rest
      some (symbol.rule?.toList ++ behind)
    else some (symbol.rule?.toList ++ [])

/-- The rules that a rule can begin with. -/
def leftEdges? (rules : Rules) (nullable : Array Bool) (r : Nat) : Option (List Nat) := do
  let rule ← rules[r]?
  match rule.body with
  | .undefined => some []
  | .sequence ps =>
    let edges ← ps.mapM fun p => leading? nullable p.symbols
    some edges.flatten
  | .expression ops => some [ops.operand]

theorem leading?_eq {symbols : List Symbol} (hn : Names nullable.size symbols) :
    leading? nullable symbols = some (leading nullable symbols) := by
  induction symbols with
  | nil => rfl
  | cons symbol rest ih =>
    rw [leading?, leading, symbolNullable?_eq hn.cons.1]
    simp only [Option.bind_eq_bind, Option.bind_some]
    split
    · rw [ih hn.cons.2, Option.bind_some]
    · rfl

theorem leftEdges?_eq (hc : Closed rules) (hn : nullable.size = rules.size) {r : Nat}
    (hr : r < rules.size) : leftEdges? rules nullable r = some (leftEdges rules nullable r) := by
  obtain ⟨rule, hrule⟩ := exists_rule hr
  have hrefs := hc.references_lt hrule
  rw [leftEdges?, leftEdges, hrule]
  simp only [Option.bind_eq_bind, Option.bind_some, Option.map_some]
  cases hbody : rule.body with
  | undefined | expression ops => rfl
  | sequence ps =>
    rw [hbody] at hrefs
    have hps : ps.mapM (fun p => leading? nullable p.symbols) =
        some (ps.map fun p => leading nullable p.symbols) :=
      mapM_eq_some fun p hp => leading?_eq (hn.symm ▸ names_of_mem hrefs hp)
    dsimp only
    rw [hps, Option.bind_some, List.flatMap_def]

/-- Edges lead to rules that the bodies name. -/
theorem lt_of_mem_leftEdges (hc : Closed rules) {r s : Nat} (h : s ∈ leftEdges rules nullable r) :
    s < rules.size := by
  rw [leftEdges] at h
  cases hrule : rules[r]? with
  | none => rw [hrule] at h; exact absurd h List.not_mem_nil
  | some rule =>
    have hrefs := hc.references_lt hrule
    rw [hrule, Option.map_some] at h
    cases hbody : rule.body with
    | undefined => rw [hbody] at h; exact absurd h List.not_mem_nil
    | expression ops =>
      rw [hbody] at h hrefs
      exact List.mem_singleton.1 h ▸ operand_lt_of_references hrefs
    | sequence ps =>
      rw [hbody] at h hrefs
      obtain ⟨p, hp, hs⟩ := List.mem_flatMap.1 h
      obtain ⟨symbol, hsymbol, hrule?⟩ := exists_symbol_of_leading hs
      exact (names_of_mem hrefs hp).of_mem hsymbol s hrule?

/-- Follows an edge of the search, or leaves a rule that has none left. -/
def follow? (edges : Nat → Option (List Nat)) :
    Except Nat (Array Mark) × List (Nat × List Nat) →
      Option ((Except Nat (Array Mark) × List (Nat × List Nat)) × Bool)
  | (.error r, stack) => some ((.error r, stack), false)
  | (.ok marks, []) => some ((.ok marks, []), false)
  | (.ok marks, (r, []) :: stack) => do
    let marks ← put? marks r .done
    some ((.ok marks, stack), true)
  | (.ok marks, (r, target :: rest) :: stack) => do
    match ← marks[target]? with
    | .active => some ((.error target, stack), false)
    | .done => some ((.ok marks, (r, rest) :: stack), true)
    | .fresh =>
      let found ← edges target
      let marks ← put? marks target .active
      some ((.ok marks, (target, found) :: (r, rest) :: stack), true)

/-- Searches the rules reachable from the left in depth. -/
noncomputable def search? (edges : Nat → Option (List Nat)) (marks : Array Mark)
    (stack : List (Nat × List Nat)) : Option (Except Nat (Array Mark)) :=
  (loop? (follow? edges) (.ok marks, stack)).map Prod.fst

/-- A search ends with a mark for each of the `n` rules, or at one of them. -/
def Ends (n : Nat) : Except Nat (Array Mark) → Prop
  | .ok marks => marks.size = n
  | .error r => r < n

section Search

variable {edges? : Nat → Option (List Nat)} {edges : Nat → List Nat} {marks : Array Mark}

theorem search?_eq (he : ∀ r < n, edges? r = some (edges r)) (hlt : ∀ r, ∀ s ∈ edges r, s < n)
    {stack : List (Nat × List Nat)} (hsize : marks.size = n)
    (hstack : ∀ entry ∈ stack, entry.1 < n ∧ ∀ s ∈ entry.2, s < n) :
    search? edges? marks stack = some (search edges marks stack) ∧
      Ends n (search edges marks stack) := by
  -- The two searches go step by step. No rule is looked up that is not there, as long as the stack
  -- holds rules that are.
  fun_induction search edges marks stack with
  | case1 marks =>
    have hstep : follow? edges? (.ok marks, []) = some ((.ok marks, []), false) := rfl
    rw [search?, loop?_done hstep]
    exact ⟨rfl, hsize⟩
  | case2 marks r stack ih =>
    obtain ⟨⟨hr, -⟩, hbelow⟩ := List.forall_mem_cons.1 hstack
    have hstep : follow? edges? (.ok marks, (r, []) :: stack)
        = some ((.ok (marks.setIfInBounds r .done), stack), true) := by
      rw [follow?, put?_eq (hsize ▸ hr)]
      rfl
    rw [search?, loop?_more hstep]
    exact ih (Array.size_setIfInBounds.trans hsize) hbelow
  | case3 marks r target rest stack htarget hactive =>
    have hstep : follow? edges? (.ok marks, (r, target :: rest) :: stack)
        = some ((.error target, stack), false) := by
      rw [follow?, Array.getElem?_eq_getElem htarget, hactive]
      rfl
    rw [search?, loop?_done hstep]
    exact ⟨rfl, hsize ▸ htarget⟩
  | case4 marks r target rest stack htarget hdone ih =>
    have hstep : follow? edges? (.ok marks, (r, target :: rest) :: stack)
        = some ((.ok marks, (r, rest) :: stack), true) := by
      rw [follow?, Array.getElem?_eq_getElem htarget, hdone]
      rfl
    obtain ⟨⟨hr, hrest⟩, hbelow⟩ := List.forall_mem_cons.1 hstack
    rw [search?, loop?_more hstep]
    exact ih hsize (List.forall_mem_cons.2 ⟨⟨hr, (List.forall_mem_cons.1 hrest).2⟩, hbelow⟩)
  | case5 marks r target rest stack htarget hfresh ih =>
    obtain ⟨⟨hr, hrest⟩, hbelow⟩ := List.forall_mem_cons.1 hstack
    have hn : target < n := hsize ▸ htarget
    have hset : marks.setIfInBounds target .active = marks.set target .active :=
      dif_pos htarget
    have hstep : follow? edges? (.ok marks, (r, target :: rest) :: stack)
        = some ((.ok (marks.set target .active), (target, edges target) :: (r, rest) :: stack),
          true) := by
      rw [follow?, Array.getElem?_eq_getElem htarget, hfresh]
      simp only [Option.bind_eq_bind, Option.bind_some]
      rw [he target hn, Option.bind_some, put?_eq htarget, Option.bind_some, hset]
    rw [search?, loop?_more hstep]
    refine ih ((Array.size_set _).trans hsize) (List.forall_mem_cons.2 ⟨⟨hn, hlt target⟩, ?_⟩)
    exact List.forall_mem_cons.2 ⟨⟨hr, (List.forall_mem_cons.1 hrest).2⟩, hbelow⟩
  | case6 marks r target rest stack htarget ih =>
    obtain ⟨⟨-, hrest⟩, -⟩ := List.forall_mem_cons.1 hstack
    exact absurd (hsize.symm ▸ hrest target List.mem_cons_self) htarget

end Search

/-- Searches from a rule, unless it has been searched. -/
noncomputable def visit? (edges : Nat → Option (List Nat)) (marks : Array Mark) (root : Nat) :
    Option (Except Nat (Array Mark)) := do
  let mark ← marks[root]?
  if mark == .fresh then
    let found ← edges root
    let marks ← put? marks root .active
    search? edges marks [(root, found)]
  else some (.ok marks)

theorem visit?_eq {edges? : Nat → Option (List Nat)} {edges : Nat → List Nat} {marks : Array Mark}
    (he : ∀ r < n, edges? r = some (edges r)) (hlt : ∀ r, ∀ s ∈ edges r, s < n)
    (hsize : marks.size = n) {root : Nat} (hroot : root < n) :
    visit? edges? marks root = some (visit edges marks root) ∧
      Ends n (visit edges marks root) := by
  have hmarks : root < marks.size := hsize ▸ hroot
  rw [visit?, visit, getElem?_eq_some_getD hmarks .done]
  simp only [Option.bind_eq_bind, Option.bind_some]
  by_cases hfresh : (marks.getD root .done == .fresh) = true
  · rw [if_pos hfresh, if_pos hfresh, he root hroot, Option.bind_some, put?_eq hmarks,
      Option.bind_some]
    refine search?_eq he hlt (Array.size_setIfInBounds.trans hsize) ?_
    exact List.forall_mem_singleton.2 ⟨hroot, hlt root⟩
  · rw [if_neg hfresh, if_neg hfresh]
    exact ⟨rfl, hsize⟩

/-- Searches from one rule after the other. -/
noncomputable def visits? (edges : Nat → Option (List Nat)) (marks : Array Mark) :
    List Nat → Option (Except Nat (Array Mark))
  | [] => some (.ok marks)
  | root :: roots => do
    match ← visit? edges marks root with
    | .error r => some (.error r)
    | .ok marks => visits? edges marks roots

theorem visits?_eq {edges? : Nat → Option (List Nat)} {edges : Nat → List Nat}
    {marks : Array Mark} {roots : List Nat}
    (he : ∀ r < n, edges? r = some (edges r)) (hlt : ∀ r, ∀ s ∈ edges r, s < n)
    (hsize : marks.size = n) (hroots : ∀ r ∈ roots, r < n) :
    visits? edges? marks roots = some (roots.foldlM (visit edges) marks) ∧
      Ends n (roots.foldlM (visit edges) marks) := by
  induction roots generalizing marks with
  | nil => exact ⟨rfl, hsize⟩
  | cons root roots ih =>
    obtain ⟨hroot, hroots⟩ := List.forall_mem_cons.1 hroots
    obtain ⟨hvisit, hends⟩ := visit?_eq he hlt hsize hroot
    rw [visits?, hvisit, List.foldlM_cons]
    cases hv : visit edges marks root with
    | error r =>
      rw [hv] at hends
      exact ⟨rfl, hends⟩
    | ok marks =>
      rw [hv] at hends
      exact ih hends hroots

/-- A rule that can begin with itself, if there is one. -/
noncomputable def recursionIn? (rules : Rules) (nullable : Array Bool) : Option (Option Nat) := do
  match ← visits? (leftEdges? rules nullable) (Array.replicate rules.size .fresh)
    (List.range rules.size) with
  | .ok _ => some none
  | .error r => some (some r)

theorem recursionIn?_eq (hc : Closed rules) (hn : nullable.size = rules.size) :
    recursionIn? rules nullable = some (leftRecursive? rules nullable) ∧
      ∀ r, leftRecursive? rules nullable = some r → r < rules.size := by
  have hedges : ∀ r < rules.size,
      leftEdges? rules nullable r = some (leftEdges rules nullable r) :=
    fun r hr => leftEdges?_eq hc hn hr
  have hlt : ∀ r, ∀ s ∈ leftEdges rules nullable r, s < rules.size :=
    fun r s hs => lt_of_mem_leftEdges hc hs
  have hsize : (Array.replicate rules.size Mark.fresh).size = rules.size := Array.size_replicate
  obtain ⟨hvisits, hends⟩ := visits?_eq hedges hlt hsize fun r => List.mem_range.1
  rw [recursionIn?, hvisits, leftRecursive?_eq]
  cases hsearch : (List.range rules.size).foldlM (visit (leftEdges rules nullable))
      (Array.replicate rules.size .fresh) with
  | ok marks => exact ⟨rfl, fun r hr => nomatch hr⟩
  | error target =>
    rw [hsearch] at hends
    exact ⟨rfl, fun r hr => Option.some.inj hr ▸ hends⟩

end Analysis

/-! ## Drafts -/

namespace GrammarDraft

open Analysis

/-- Gives a rule its body. -/
def define? (d : GrammarDraft) (r : Nat) (body : RuleBody Production) : Option GrammarDraft :=
  match d.rules[r]? with
  | none => some (d.fail (.unknownRule r))
  | some rule => do
    if ← d.defined[r]? then some (d.fail (.redefined rule.name))
    else
      let rules ← put? d.rules r { rule with body }
      let defined ← put? d.defined r true
      some { d with rules, defined }

/-- The draft with one more declaration. -/
def add? (d : GrammarDraft) : GrammarDecl → Option GrammarDraft
  | .declare name => some (d.declare name)
  | .define r productions => d.define? r (.sequence productions)
  | .defineExpression r ops => d.define? r (.expression ops)
  | .rule name productions => (d.declare name).define? d.rules.size (.sequence productions)
  | .transparent r => some (d.setTransparent r)
  | .start r => some { d with start := some r }

/-- There is a mark for each rule that says whether it has a body. -/
def Marked (d : GrammarDraft) : Prop := d.defined.size = d.rules.size

theorem define?_eq {d : GrammarDraft} (h : d.Marked) (r : Nat) (body : RuleBody Production) :
    d.define? r body = some (d.define r body) ∧ (d.define r body).Marked := by
  rw [define?, define]
  cases hrule : d.rules[r]? with
  | none => exact ⟨rfl, h⟩
  | some rule =>
    obtain ⟨hr, -⟩ := Array.getElem?_eq_some_iff.1 hrule
    have hdefined : r < d.defined.size := h.symm ▸ hr
    dsimp only
    rw [getElem?_eq_some_getD hdefined false, put?_eq hr, put?_eq hdefined]
    simp only [Option.bind_eq_bind, Option.bind_some]
    by_cases hbefore : d.defined.getD r false = true
    · rw [if_pos hbefore, if_pos hbefore]
      exact ⟨rfl, h⟩
    · rw [if_neg hbefore, if_neg hbefore]
      exact ⟨rfl, Array.size_setIfInBounds.trans (h.trans Array.size_setIfInBounds.symm)⟩

theorem Marked.declare {d : GrammarDraft} (h : d.Marked) (name : String) :
    (d.declare name).Marked := by
  have hcheck : ∀ e, (d.check e).Marked := by
    intro e
    cases e with
    | none => exact h
    | some e => exact h
  show Array.size _ = Array.size _
  rw [GrammarDraft.declare, Array.size_push, Array.size_push, hcheck]

theorem add?_eq {d : GrammarDraft} (h : d.Marked) (decl : GrammarDecl) :
    d.add? decl = some (d.add decl) ∧ (d.add decl).Marked := by
  cases decl with
  | declare name => exact ⟨rfl, h.declare name⟩
  | define r ps => exact define?_eq h r _
  | defineExpression r ops => exact define?_eq h r _
  | rule name ps => exact define?_eq (h.declare name) _ _
  | transparent r =>
    refine ⟨rfl, ?_⟩
    rw [add, setTransparent]
    split
    · exact h
    · exact h.trans Array.size_setIfInBounds.symm
  | start r => exact ⟨rfl, h⟩

/-- The finished grammar. -/
noncomputable def build? (d : GrammarDraft) : Option (Except GrammarError Grammar) :=
  match d.checkedStart with
  | .error e => some (.error e)
  | .ok start => do
    let nullable ← nullables? d.rules
    let first ← firsts? d.rules nullable
    let annotated ← d.rules.toList.mapM (annotate? nullable first)
    match ← repetitionIn? d.rules nullable with
    | some (rule, inner) =>
      some (.error (.nullableRepetition rule.name ((d.rules[inner]?.map Rule.name).getD "<rule>")))
    | none =>
      match ← recursionIn? d.rules nullable with
      | some r =>
        let rule ← d.rules[r]?
        some (.error (.leftRecursion rule.name))
      | none =>
        let rules := annotated.toArray
        some (.ok {
          rules
          byName := Std.HashMap.ofList (d.rules.toList.zipIdx.map fun (rule, r) => (rule.name, r))
          start
          nullable
          first
          conflicts := conflicts rules
          lookahead := lookahead d.rules })


theorem build?_eq (d : GrammarDraft) : d.build? = some d.build := by
  rw [build?, build]
  cases hstart : d.checkedStart with
  | error e => rfl
  | ok start =>
    -- From here on every number in the draft is that of a rule.
    have hc : Closed d.rules := (checkedStart_spec hstart).2
    have hn := size_nullables d.rules
    have hf := (fits_firsts d.rules (nullables d.rules)).1
    have hrules : d.rules.toList.mapM (annotate? (nullables d.rules)
        (firsts d.rules (nullables d.rules))) = some _ :=
      mapM_eq_some fun rule hrule =>
        annotate?_eq (hn.symm ▸ hc rule hrule) (hf.symm ▸ hc rule hrule)
    obtain ⟨hrecursion, hlt⟩ := recursionIn?_eq hc hn
    dsimp only
    rw [nullables?_eq hc]
    simp only [bind, Option.bind_some, Except.bind]
    rw [firsts?_eq hc hn, Option.bind_some, hrules, Option.bind_some, repetitionIn?_eq hc hn,
      Option.bind_some]
    cases hrepetition : nullableRepetition? d.rules (nullables d.rules) with
    | some found => rfl
    | none =>
      dsimp only
      rw [hrecursion, Option.bind_some]
      cases hleft : leftRecursive? d.rules (nullables d.rules) with
      | some r =>
        dsimp only
        rw [Array.getElem?_eq_getElem (hlt r hleft)]
        rfl
      | none =>
        dsimp only
        rw [← Array.toList_map, Array.toArray_toList]

end GrammarDraft

/-- The grammar of a list of declarations. -/
noncomputable def Grammar.ofDecls? (decls : List GrammarDecl) :
    Option (Except GrammarError Grammar) := do
  let d ← decls.foldlM GrammarDraft.add? GrammarDraft.empty
  d.build?

/-- No lookup fails on the way from declarations to their grammar or their first fault. -/
theorem Grammar.ofDecls?_eq (decls : List GrammarDecl) : ofDecls? decls = some (ofDecls decls) := by
  have hempty : GrammarDraft.empty.Marked := rfl
  have hdraft : decls.foldlM GrammarDraft.add? GrammarDraft.empty
      = some (GrammarDraft.ofDecls decls) :=
    (foldlM_eq_some GrammarDraft.Marked (fun d hd decl _ => GrammarDraft.add?_eq hd decl) hempty).1
  rw [ofDecls?, hdraft]
  exact GrammarDraft.build?_eq _

/-! ## Finished grammars -/

namespace Grammar

variable {g : Grammar}

/-- What the rule consists of. -/
def bodyAt? (g : Grammar) (r : Nat) : Option (RuleBody Alternative) := g.rules[r]?.map Rule.body

/-- The tokens that can begin the rule. -/
def firstAt? (g : Grammar) (r : Nat) : Option TokenSet := g.first[r]?

/-- Can the symbol begin with the token? -/
def canStartAt? (g : Grammar) (symbol : Symbol) (id : TokenId) : Option Bool :=
  match symbol with
  | .token t => some (t == id)
  | .rule r | .opt r | .many r => (g.firstAt? r).map (·.contains id)

theorem bodyAt?_eq {r : Nat} (h : r < g.size) : g.bodyAt? r = some (g.body r) := by
  rw [bodyAt?, body, Array.getElem?_eq_getElem h]
  rfl

theorem size_first {decls : List GrammarDecl} (h : ofDecls decls = .ok g) :
    g.first.size = g.size := by
  obtain ⟨rules, hg⟩ := exists_finishes h
  rw [hg.first_eq, hg.size]
  exact (Analysis.fits_firsts ..).1

theorem firstAt?_eq (hg : g.first.size = g.size) {r : Nat} (h : r < g.size) :
    g.firstAt? r = some (g.firstOf r) := getElem?_eq_some_getD (hg.symm ▸ h) ∅

theorem canStartAt?_eq (hg : g.first.size = g.size) {symbol : Symbol}
    (h : ∀ r, symbol.rule? = some r → r < g.size) (id : TokenId) :
    g.canStartAt? symbol id = some (g.canStart symbol id) := by
  cases symbol with
  | token t => rfl
  | rule r | opt r | many r =>
    rw [canStartAt?, firstAt?_eq hg (h r rfl)]
    rfl

end Grammar

namespace Alternative

/-- What may come behind each symbol, by its place. -/
def suffixes (a : Alternative) : List (TokenSet × Bool) :=
  a.steps.map fun s => (s.restFirst, s.restNullable)

/-- The symbols from the `i`-th on, each with what is there for its place. -/
def stepsFrom? (suffixes : List (TokenSet × Bool)) (i : Nat) : List Symbol → Option (List Step)
  | [] => some []
  | symbol :: rest => do
    let (set, empty) ← suffixes[i]?
    let steps ← stepsFrom? suffixes (i + 1) rest
    some (⟨symbol, set, empty⟩ :: steps)

/-- The symbols, each with what is there for its place. -/
def steps? (a : Alternative) : Option (List Step) := stepsFrom? a.suffixes 0 a.symbols

theorem stepsFrom?_append (before rest : List Step) :
    stepsFrom? ((before ++ rest).map fun s => (s.restFirst, s.restNullable)) before.length
      (rest.map Step.symbol) = some rest := by
  induction rest generalizing before with
  | nil => rfl
  | cons s rest ih =>
    have hnext := ih (before ++ [s])
    rw [List.length_append, List.append_assoc] at hnext
    rw [List.map_cons, stepsFrom?, List.getElem?_map, List.getElem?_append_right (Nat.le_refl _),
      Nat.sub_self]
    exact (congrArg (Option.bind · _) hnext).trans rfl

/-- There is something for each place. -/
theorem steps?_eq {g : Grammar} (hc : g.Checked) {r : Nat} {as : List Alternative}
    {a : Alternative} (hb : g.body r = .sequence as) (ha : a ∈ as) : a.steps? = some a.steps := by
  have hsymbols := hc.map_symbol_steps hb ha
  rw [steps?, suffixes, ← hsymbols]
  exact stepsFrom?_append [] a.steps

end Alternative

end FrontEnd
