import FrontEnd.Token.Set
import Std.Data.HashMap

/-!
# Grammars

A grammar is a numbered list of named rules over token ids. A rule is either a choice between
sequences of symbols, or an operand with prefix and binary operators of given precedence.

- `Production`: a sequence as it is written down;
- `Alternative`: a sequence with what the parser has to know about it;
- `Operators`: the operators of an expression rule;
- `Grammar`: rules with their analysis.
-/

namespace FrontEnd

/-- One element of a production. Rules are named by number. -/
inductive Symbol where
  /-- This token. -/
  | token (id : TokenId)
  /-- The rule once. -/
  | rule (r : Nat)
  /-- The rule at most once. -/
  | opt (r : Nat)
  /-- The rule as often as the input allows. -/
  | many (r : Nat)
  deriving DecidableEq, Repr, Inhabited

/-- The rule that a symbol names. -/
def Symbol.rule? : Symbol → Option Nat
  | token _ => none
  | rule r | opt r | many r => some r

/-- One alternative of a rule. With a guard it is chosen only when the next tokens are exactly
those of the guard. -/
structure Production where
  symbols : List Symbol
  guard : List TokenId
  deriving DecidableEq, Repr, Inhabited

/-- A symbol of a production, with what may come behind it in the production. -/
structure Step where
  symbol : Symbol
  /-- The tokens that can begin the symbols behind this one. -/
  restFirst : TokenSet
  /-- Can the symbols behind this one all be empty? -/
  restNullable : Bool
  deriving DecidableEq, Repr, Inhabited

/-- A production with what the parser has to know about it. -/
structure Alternative extends Production where
  /-- The tokens that can begin the production. -/
  first : TokenSet
  /-- Can the production be empty? -/
  nullable : Bool
  /-- The symbols in order. -/
  steps : List Step
  deriving DecidableEq, Repr, Inhabited

/-- How operators of one precedence group. -/
inductive Associativity where
  | left
  | right
  deriving DecidableEq, Repr, Inhabited

/-- So that numerals stand for precedences. -/
instance precedences_neZero : @NeZero Nat Zero.ofOfNat0 256 := ⟨Nat.succ_ne_zero 255⟩

/-- A binary operator. The one with the higher precedence binds tighter. -/
structure BinaryOperator where
  token : TokenId
  precedence : Fin 256
  associativity : Associativity
  deriving DecidableEq, Repr

/-- A prefix operator. Its operand binds at the precedence. -/
structure PrefixOperator where
  token : TokenId
  precedence : Fin 256
  deriving DecidableEq, Repr

/-- The operators around the operands of an expression rule. -/
structure Operators where
  /-- The rule of the operands. -/
  operand : Nat
  prefixes : List PrefixOperator
  binaries : List BinaryOperator
  deriving DecidableEq, Repr, Inhabited

namespace Operators

/-- The precedence of a prefix operator; the first one of its token counts. -/
def prefixPrecedence? (ops : Operators) (id : TokenId) : Option (Fin 256) :=
  (ops.prefixes.find? (·.token == id)).map PrefixOperator.precedence

/-- The binary operator of a token; the first one counts. -/
def binary? (ops : Operators) (id : TokenId) : Option BinaryOperator :=
  ops.binaries.find? (·.token == id)

/-- The tokens of the binary operators. -/
def binaryTokens (ops : Operators) : TokenSet := .ofList (ops.binaries.map BinaryOperator.token)

end Operators

/-- What a rule consists of, for a type `α` of alternatives. -/
inductive RuleBody (α : Type) where
  /-- Declared and never defined. -/
  | undefined
  | sequence (alternatives : List α)
  | expression (ops : Operators)
  deriving DecidableEq, Repr, Inhabited

/-- The same body with other alternatives. -/
def RuleBody.map {α β : Type} (f : α → β) : RuleBody α → RuleBody β
  | undefined => undefined
  | sequence alternatives => sequence (alternatives.map f)
  | expression ops => expression ops

/-- The alternatives of a body. -/
def RuleBody.alternatives {α : Type} : RuleBody α → List α
  | sequence alternatives => alternatives
  | _ => []

/-- A named rule. -/
structure Rule (α : Type) where
  name : String
  body : RuleBody α
  /-- Its nodes go to the parent, and it has no node of its own. -/
  transparent : Bool
  deriving DecidableEq, Repr, Inhabited

/-- Alternatives of one rule that can begin with the same tokens. -/
structure Conflict where
  rule : Nat
  /-- The places of the alternatives among those of the rule, in ascending order. -/
  alternatives : List Nat
  tokens : TokenSet
  deriving DecidableEq, Repr, Inhabited

/-- Rules with their analysis. -/
structure Grammar where
  rules : Array (Rule Alternative)
  byName : Std.HashMap String Nat
  start : Nat
  /-- For each rule: can it be empty? -/
  nullable : Array Bool
  /-- For each rule: the tokens that can begin it. -/
  first : Array TokenSet
  conflicts : List Conflict
  /-- How many tokens the parser looks at: one, or as many as the longest guard has. -/
  lookahead : Nat

namespace Grammar

/-- Number of rules. -/
def size (g : Grammar) : Nat := g.rules.size

/-- What a rule is called. -/
def ruleName (g : Grammar) (r : Nat) : String := (g.rules[r]?.map Rule.name).getD "<rule>"

/-- The number of a rule by name. -/
def rule? (g : Grammar) (name : String) : Option Nat := g.byName[name]?

/-- Does the rule leave its nodes to its parent? -/
def isTransparent (g : Grammar) (r : Nat) : Bool :=
  (g.rules[r]?.map Rule.transparent).getD false

/-- What the rule consists of. -/
def body (g : Grammar) (r : Nat) : RuleBody Alternative :=
  (g.rules[r]?.map Rule.body).getD .undefined

/-- Was the rule never defined? -/
def isUndefined (g : Grammar) (r : Nat) : Bool := g.body r matches .undefined

/-- Can the rule be empty? -/
def isNullable (g : Grammar) (r : Nat) : Bool := g.nullable.getD r false

/-- The tokens that can begin the rule. -/
def firstOf (g : Grammar) (r : Nat) : TokenSet := g.first.getD r ∅

/-- Can the symbol begin with the token? -/
def canStart (g : Grammar) (symbol : Symbol) (id : TokenId) : Bool :=
  match symbol with
  | .token t => t == id
  | .rule r | .opt r | .many r => (g.firstOf r).contains id

end Grammar

end FrontEnd
