import FrontEnd.Grammar.Basic

/-!
# Analysis of rules

What a list of rules says about its languages, and what makes it unfit for a parser that reads
from left to right without going back.

- `Analysis.nullables`, `Analysis.firsts`: the least solutions of the equations for empty texts
  and for first tokens, reached by going round the rules until nothing changes;
- `Analysis.leftRecursive?`: a rule that can begin with itself;
- `Analysis.conflicts`: alternatives that one token cannot tell apart.
-/

namespace FrontEnd

namespace Analysis

/-- Rules as they are declared. -/
abbrev Rules := Array (Rule Production)

/-- Can the symbol be empty, if `nullable` says which rules can? -/
def symbolNullable (nullable : Array Bool) : Symbol → Bool
  | .token _ => false
  | .rule r => nullable.getD r false
  | .opt _ | .many _ => true

/-- Can a body be empty, if `nullable` says which rules can? -/
def bodyNullable (nullable : Array Bool) : RuleBody Production → Bool
  | .undefined => false
  | .sequence ps => ps.any fun p => p.symbols.all (symbolNullable nullable)
  | .expression ops => nullable.getD ops.operand false

/-- Repeats `round` until it changes nothing, at most `bound` times. -/
def settle {α : Type} [DecidableEq α] (round : α → α) : Nat → α → α
  | 0, x => x
  | bound + 1, x =>
    let next := round x
    if next = x then x else settle round bound next

/-- Goes once round the rules and marks those that can be empty as far as is known. -/
def nullableRound (rules : Rules) (nullable : Array Bool) : Array Bool :=
  (List.range rules.size).foldl (fun nullable r =>
    match rules[r]? with
    | some rule => if bodyNullable nullable rule.body then nullable.setIfInBounds r true else nullable
    | none => nullable) nullable

/-- The rules that can be empty. -/
def nullables (rules : Rules) : Array Bool :=
  settle (nullableRound rules) (rules.size + 1) (Array.replicate rules.size false)

/-- The tokens that can begin the symbol, if `first` says it of rules. -/
def symbolFirst (first : Array TokenSet) : Symbol → TokenSet
  | .token id => .single id
  | .rule r | .opt r | .many r => first.getD r ∅

/-- The tokens that can begin a sequence of symbols, and whether it can be empty. -/
def sequenceFirst (nullable : Array Bool) (first : Array TokenSet) : List Symbol → TokenSet × Bool
  | [] => (∅, true)
  | symbol :: rest =>
    let here := symbolFirst first symbol
    if symbolNullable nullable symbol then
      let (behind, empty) := sequenceFirst nullable first rest
      (here.union behind, empty)
    else (here, false)

/-- The tokens that can begin a body, if `first` says it of rules. -/
def bodyFirst (nullable : Array Bool) (first : Array TokenSet) : RuleBody Production → TokenSet
  | .undefined => ∅
  | .sequence ps =>
    ps.foldl (fun set p => set.union (sequenceFirst nullable first p.symbols).1) ∅
  | .expression ops =>
    (first.getD ops.operand ∅).insertMany (ops.prefixes.map PrefixOperator.token)

/-- Goes once round the rules and adds the first tokens that are known. -/
def firstRound (rules : Rules) (nullable : Array Bool) (first : Array TokenSet) :
    Array TokenSet :=
  (List.range rules.size).foldl (fun first r =>
    match rules[r]? with
    | some rule =>
      first.setIfInBounds r ((first.getD r ∅).union (bodyFirst nullable first rule.body))
    | none => first) first

/-- More rounds than there are pairs of a rule and a token id. -/
def firstBound (rules : Rules) : Nat := rules.size * 65538 + 1

/-- For each rule the tokens that can begin it. -/
def firsts (rules : Rules) (nullable : Array Bool) : Array TokenSet :=
  settle (firstRound rules nullable) (firstBound rules) (Array.replicate rules.size ∅)

/-! ## Productions -/

/-- The symbols of a sequence, each with what may come behind it. -/
def steps (nullable : Array Bool) (first : Array TokenSet) : List Symbol → List Step
  | [] => []
  | symbol :: rest =>
    let (set, empty) := sequenceFirst nullable first rest
    ⟨symbol, set, empty⟩ :: steps nullable first rest

/-- A production with what the parser has to know about it. -/
def alternative (nullable : Array Bool) (first : Array TokenSet) (p : Production) : Alternative :=
  let (set, empty) := sequenceFirst nullable first p.symbols
  ⟨p, set, empty, steps nullable first p.symbols⟩

/-- The first rule that makes a rule optional or repeats it although that can be empty, with the
rule inside. -/
def nullableRepetition? (rules : Rules) (nullable : Array Bool) : Option (Rule Production × Nat) :=
  rules.toList.findSome? fun rule =>
    (rule.body.alternatives.flatMap Production.symbols).findSome? fun
      | .opt r | .many r => if nullable.getD r false then some (rule, r) else none
      | _ => none

/-! ## Left recursion -/

/-- The rules that a sequence can begin with. -/
def leading (nullable : Array Bool) : List Symbol → List Nat
  | [] => []
  | symbol :: rest =>
    symbol.rule?.toList ++ if symbolNullable nullable symbol then leading nullable rest else []

/-- The rules that a rule can begin with, in the order of its body. -/
def leftEdges (rules : Rules) (nullable : Array Bool) (r : Nat) : List Nat :=
  match rules[r]?.map Rule.body with
  | some (.sequence ps) => ps.flatMap fun p => leading nullable p.symbols
  | some (.expression ops) => [ops.operand]
  | _ => []

/-- How far a rule has been searched. -/
inductive Mark where
  | fresh
  | active
  | done
  deriving DecidableEq, Repr, Inhabited

/-- How many rules nobody has looked at. -/
def freshCount (marks : Array Mark) : Nat := marks.countP (· == .fresh)

theorem freshCount_active_lt (marks : Array Mark) (r : Nat) (h : r < marks.size)
    (hr : marks[r] = .fresh) : freshCount (marks.set r .active) < freshCount marks := by
  have hp : (marks[r] == Mark.fresh) = true := by rw [hr]; rfl
  have hact : (Mark.active == Mark.fresh) = false := rfl
  have hpos : 0 < marks.countP (· == .fresh) :=
    Array.countP_pos_iff.2 ⟨marks[r], Array.getElem_mem h, hp⟩
  simp only [freshCount, Array.countP_set, hp, if_true, hact]
  exact Nat.sub_lt hpos Nat.one_pos

theorem freshCount_done_le (marks : Array Mark) (r : Nat) :
    freshCount (marks.setIfInBounds r .done) ≤ freshCount marks := by
  by_cases h : r < marks.size
  · have hdone : (Mark.done == Mark.fresh) = false := rfl
    simp only [Array.setIfInBounds, h, dif_pos, freshCount, Array.countP_set, hdone]
    exact Nat.sub_le _ _
  · simp [Array.setIfInBounds, h]

/-- Searches the rules reachable from the left in depth: the stack holds the active rules, each
with the edges that are still to be followed. The answer is the first active rule that is met
again. -/
def search (edges : Nat → List Nat) (marks : Array Mark) :
    List (Nat × List Nat) → Except Nat (Array Mark)
  | [] => .ok marks
  | (r, []) :: stack => search edges (marks.setIfInBounds r .done) stack
  | (r, target :: rest) :: stack =>
    if h : target < marks.size then
      match _hm : marks[target] with
      | .active => .error target
      | .done => search edges marks ((r, rest) :: stack)
      | .fresh =>
        search edges (marks.set target .active) ((target, edges target) :: (r, rest) :: stack)
    else search edges marks ((r, rest) :: stack)
termination_by stack => (freshCount marks, (stack.flatMap Prod.snd).length + stack.length)
decreasing_by
  · have := freshCount_done_le marks r
    rcases Nat.lt_or_eq_of_le this with h | h
    · exact Prod.Lex.left _ _ h
    · rw [h]; exact Prod.Lex.right _ (by simp)
  · exact Prod.Lex.right _ (by simp)
  · exact Prod.Lex.left _ _ (freshCount_active_lt marks target h _hm)
  · exact Prod.Lex.right _ (by simp)

/-- A rule that can begin with itself, if there is one. -/
def leftRecursive? (rules : Rules) (nullable : Array Bool) : Option Nat :=
  let edges := leftEdges rules nullable
  let visit (marks : Array Mark) (root : Nat) : Except Nat (Array Mark) :=
    if marks.getD root .done == .fresh then
      search edges (marks.setIfInBounds root .active) [(root, edges root)]
    else .ok marks
  match (List.range rules.size).foldlM visit (Array.replicate rules.size .fresh) with
  | .ok _ => none
  | .error r => some r

/-! ## Conflicts -/

/-- The tokens that can begin two of the alternatives without a guard. -/
def overlap (alternatives : List Alternative) : TokenSet :=
  let step (state : TokenSet × TokenSet) (a : Alternative) : TokenSet × TokenSet :=
    (state.1.union (state.2.inter a.first), state.2.union a.first)
  ((alternatives.filter (·.guard.isEmpty)).foldl step (∅, ∅)).1

/-- The conflict among the alternatives of a rule, if there is one. -/
def conflict? (r : Nat) (alternatives : List Alternative) : Option Conflict :=
  let tokens := overlap alternatives
  if tokens.isEmpty then none
  else
    let involved := alternatives.zipIdx.filter fun (a, _) =>
      a.guard.isEmpty && a.first.intersects tokens
    some ⟨r, involved.map Prod.snd, tokens⟩

/-- The conflicts of all rules in order. -/
def conflicts (rules : Array (Rule Alternative)) : List Conflict :=
  rules.toList.zipIdx.filterMap fun (rule, r) => conflict? r rule.body.alternatives

/-- How many tokens the parser looks at: at least one. -/
def lookahead (rules : Rules) : Nat :=
  rules.foldl (fun n rule =>
    rule.body.alternatives.foldl (fun n p => max n p.guard.length) n) 1

end Analysis

end FrontEnd
