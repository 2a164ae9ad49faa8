import FrontEnd.Grammar.Analysis

/-!
# Building grammars

A grammar is described by a list of declarations. A rule is declared before it is defined, so that
rules can name each other; what is declared and never defined stays undefined.

- `GrammarDecl`: one declaration;
- `GrammarDraft.add`: a draft with one more declaration, which remembers the first misuse;
- `Grammar.ofDecls`: the grammar of a list of declarations, or the first fault.
-/

namespace FrontEnd

/-- What is wrong with a grammar. -/
inductive GrammarError where
  | noStart
  | unknownRule (r : Nat)
  | duplicateRule (name : String)
  | redefined (name : String)
  | tooManyRules (count : Nat)
  | leftRecursion (name : String)
  | nullableRepetition (rule inner : String)
  deriving DecidableEq, Repr

/-- The message of an error. -/
def GrammarError.message : GrammarError → String
  | noStart => "no start rule was set"
  | unknownRule r => s!"rule id {r} does not belong to this grammar"
  | duplicateRule name => "rule `" ++ name ++ "` is declared twice"
  | redefined name => "rule `" ++ name ++ "` is defined twice"
  | tooManyRules count => s!"too many rules ({count})"
  | leftRecursion name => "rule `" ++ name ++ "` is left-recursive"
  | nullableRepetition rule inner =>
    "rule `" ++ rule ++ "` repeats or makes optional `" ++ inner ++
      "`, which can already match nothing"

/-- One declaration. Rules are numbered in the order in which they are declared. -/
inductive GrammarDecl where
  /-- Gives the next number to a name. -/
  | declare (name : String)
  /-- Defines a rule by productions. -/
  | define (r : Nat) (productions : List Production)
  /-- Defines a rule by an operand and operators. -/
  | defineExpression (r : Nat) (ops : Operators)
  /-- Declares and defines a rule. -/
  | rule (name : String) (productions : List Production)
  /-- Makes a rule leave its nodes to its parent. -/
  | transparent (r : Nat)
  /-- Sets the start rule. -/
  | start (r : Nat)
  deriving DecidableEq, Repr

/-- A grammar that is being described. -/
structure GrammarDraft where
  rules : Array (Rule Production)
  /-- For each rule: does it have a body? -/
  defined : Array Bool
  start : Option Nat
  /-- The first misuse. -/
  error : Option GrammarError

namespace GrammarDraft

/-- Nothing described yet. -/
def empty : GrammarDraft := ⟨#[], #[], none, none⟩

/-- Remembers a misuse, if it is the first. -/
def fail (d : GrammarDraft) (e : GrammarError) : GrammarDraft :=
  { d with error := some (d.error.getD e) }

/-- Remembers a misuse if there is one. -/
def check (d : GrammarDraft) (e : Option GrammarError) : GrammarDraft :=
  match e with
  | some e => d.fail e
  | none => d

/-- What is wrong with declaring `name` now. -/
def declareError? (d : GrammarDraft) (name : String) : Option GrammarError :=
  if d.rules.any (·.name == name) then some (.duplicateRule name)
  else if 65536 ≤ d.rules.size then some (.tooManyRules (d.rules.size + 1))
  else none

/-- Gives the next number to a name. -/
def declare (d : GrammarDraft) (name : String) : GrammarDraft :=
  let d := d.check (d.declareError? name)
  { d with rules := d.rules.push ⟨name, .undefined, false⟩, defined := d.defined.push false }

/-- Gives a rule its body. -/
def define (d : GrammarDraft) (r : Nat) (body : RuleBody Production) : GrammarDraft :=
  match d.rules[r]? with
  | none => d.fail (.unknownRule r)
  | some rule =>
    if d.defined.getD r false then d.fail (.redefined rule.name)
    else
      { d with
        rules := d.rules.setIfInBounds r { rule with body }
        defined := d.defined.setIfInBounds r true }

/-- Makes a rule leave its nodes to its parent. -/
def setTransparent (d : GrammarDraft) (r : Nat) : GrammarDraft :=
  match d.rules[r]? with
  | none => d.fail (.unknownRule r)
  | some rule => { d with rules := d.rules.setIfInBounds r { rule with transparent := true } }

/-- The draft with one more declaration. -/
def add (d : GrammarDraft) : GrammarDecl → GrammarDraft
  | .declare name => d.declare name
  | .define r productions => d.define r (.sequence productions)
  | .defineExpression r ops => d.define r (.expression ops)
  | .rule name productions => (d.declare name).define d.rules.size (.sequence productions)
  | .transparent r => d.setTransparent r
  | .start r => { d with start := some r }

/-- The draft of a list of declarations. -/
def ofDecls (decls : List GrammarDecl) : GrammarDraft := decls.foldl add empty

/-- The rules that a body names, in order. -/
def references : RuleBody Production → List Nat
  | .undefined => []
  | .sequence ps => (ps.flatMap Production.symbols).filterMap Symbol.rule?
  | .expression ops => [ops.operand]

/-- The first number that the bodies name and no rule has. -/
def dangling? (d : GrammarDraft) : Option Nat :=
  (d.rules.toList.flatMap fun rule => references rule.body).find? (d.rules.size ≤ ·)

/-- The start rule, when every number in the draft is that of a rule. -/
def checkedStart (d : GrammarDraft) : Except GrammarError Nat :=
  match d.error, d.start with
  | some e, _ => .error e
  | none, none => .error .noStart
  | none, some start =>
    if d.rules.size ≤ start then .error (.unknownRule start)
    else match d.dangling? with
      | some r => .error (.unknownRule r)
      | none => .ok start

/-- The finished grammar. -/
def build (d : GrammarDraft) : Except GrammarError Grammar := do
  let start ← d.checkedStart
  let nullable := Analysis.nullables d.rules
  match Analysis.nullableRepetition? d.rules nullable with
  | some (rule, inner) =>
    .error (.nullableRepetition rule.name ((d.rules[inner]?.map Rule.name).getD "<rule>"))
  | none =>
    match Analysis.leftRecursive? d.rules nullable with
    | some r => .error (.leftRecursion ((d.rules[r]?.map Rule.name).getD "<rule>"))
    | none =>
      let first := Analysis.firsts d.rules nullable
      let rules := d.rules.map fun rule =>
        { rule with body := rule.body.map (Analysis.alternative nullable first) }
      .ok {
        rules
        byName := Std.HashMap.ofList (d.rules.toList.zipIdx.map fun (rule, r) => (rule.name, r))
        start
        nullable
        first
        conflicts := Analysis.conflicts rules
        lookahead := Analysis.lookahead d.rules }

end GrammarDraft

/-- The grammar of a list of declarations. -/
def Grammar.ofDecls (decls : List GrammarDecl) : Except GrammarError Grammar :=
  (GrammarDraft.ofDecls decls).build

end FrontEnd
