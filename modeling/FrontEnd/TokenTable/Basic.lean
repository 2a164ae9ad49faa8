import FrontEnd.Pattern.Reader
import FrontEnd.Pattern.Automaton
import FrontEnd.Text.Measure
import FrontEnd.Token.Basic
import Std.Data.HashMap

/-!
# Token tables

An ordered list of rules for lexemes. Rule number `n` makes tokens of kind `n`. At any place the
longest lexeme wins that some rule accepts, and **of equally long ones that of the earliest rule**,
which is how a keyword beats the identifier rule behind it.

- `TokenTable.name`, `TokenTable.id?`: rules and their names;
- `TokenTable.longestMatch`: the lexeme at the start of a text.
-/

namespace FrontEnd

/-- What the lexemes of a rule look like. -/
inductive LexemeForm where
  /-- One fixed text. -/
  | literal (text : List Char)
  /-- Whatever an automaton accepts. -/
  | pattern (automaton : Automaton)
  deriving Inhabited

/-- A rule of a token table. -/
structure LexemeRule where
  name : String
  form : LexemeForm
  /-- Blanks and comments, which are usually dropped. -/
  trivia : Bool
  deriving Inhabited

/-- A lexeme found at the start of a text. -/
structure LexemeMatch where
  /-- The number of the rule. -/
  rule : Fin 65536
  /-- Length in bytes. -/
  length : Nat
  trivia : Bool
  length_pos : 0 < length

/-- The token id of a match. -/
def LexemeMatch.id (m : LexemeMatch) : TokenId := .kind m.rule

/-- An ordered list of rules, with indexes into it. -/
structure TokenTable where
  rules : Array LexemeRule
  /-- Rules by name. -/
  byName : Std.HashMap String TokenId
  /-- The numbers of the literal rules by the code point of the first character, in ascending
  order. -/
  literals : Std.HashMap Nat (Array (Fin 65536))
  /-- The numbers of the pattern rules, in ascending order. -/
  patterns : Array (Fin 65536)
  size_le : rules.size ≤ 65535

namespace TokenTable

/-- No rules. -/
def empty : TokenTable := ⟨#[], ∅, ∅, #[], by simp⟩

instance : Inhabited TokenTable := ⟨empty⟩

/-- Number of rules. -/
def size (t : TokenTable) : Nat := t.rules.size

/-- The rule behind a token id. -/
def rule? (t : TokenTable) : TokenId → Option LexemeRule
  | .kind n => t.rules[n.val]?
  | _ => none

/-- What tokens of an unknown kind are called. -/
def unknownName : String := "<unknown>"

/-- What the end of the input is called. -/
def endName : String := "end of input"

/-- What a token id is called. -/
def name (t : TokenTable) (id : TokenId) : String :=
  match id with
  | .eof => endName
  | _ => ((t.rule? id).map LexemeRule.name).getD unknownName

/-- The id of a rule by name. -/
def id? (t : TokenTable) (name : String) : Option TokenId := t.byName[name]?

/-- Is the id that of a trivia rule? -/
def isTrivia (t : TokenTable) (id : TokenId) : Bool :=
  ((t.rule? id).map LexemeRule.trivia).getD false

/-- The text of a literal rule. -/
def literal? (t : TokenTable) (id : TokenId) : Option String :=
  match (t.rule? id).map LexemeRule.form with
  | some (.literal text) => some (String.ofList text)
  | _ => none

/-- Every rule id in order. -/
def ids (t : TokenTable) : List TokenId :=
  (List.range t.size).filterMap fun n => if h : n < 65536 then some (.kind ⟨n, h⟩) else none

/-- The number of states of the largest automaton. -/
def maxStates (t : TokenTable) : Nat :=
  t.rules.foldl (fun n rule =>
    match rule.form with
    | .pattern automaton => max n automaton.states.size
    | .literal _ => n) 0

/-! ## The longest lexeme -/

/-- Keeps the better of two lexemes: the longer one, or that of the earlier rule. An empty lexeme
is none. -/
def offer (best : Option LexemeMatch) (rule : Fin 65536) (length : Nat) (trivia : Bool) :
    Option LexemeMatch :=
  if h : 0 < length then
    match best with
    | none => some ⟨rule, length, trivia, h⟩
    | some b =>
      if b.length < length ∨ (length = b.length ∧ rule < b.rule) then some ⟨rule, length, trivia, h⟩
      else best
  else best

/-- Offers the lexeme of a literal rule, if the text starts with it. -/
def offerLiteral (t : TokenTable) (text : List Char) (best : Option LexemeMatch)
    (rule : Fin 65536) : Option LexemeMatch :=
  match t.rules[rule.val]? with
  | some ⟨_, .literal lexeme, trivia⟩ =>
    if lexeme.isPrefixOf text then offer best rule (Text.size lexeme) trivia else best
  | _ => best

/-- Offers the longest lexeme of a pattern rule, if it can start with the first character. -/
def offerPattern (t : TokenTable) (c : Char) (text : List Char)
    (state : Option LexemeMatch × Workspace) (rule : Fin 65536) :
    Option LexemeMatch × Workspace :=
  match t.rules[rule.val]? with
  | some ⟨_, .pattern automaton, trivia⟩ =>
    if automaton.canStartWith c then
      let (length, w) := automaton.longestMatch state.2 text
      (offer state.1 rule (length.getD 0) trivia, w)
    else state
  | _ => state

/-- The winning lexeme at the start of a text. -/
def longestMatch (t : TokenTable) (w : Workspace) (text : List Char) :
    Option LexemeMatch × Workspace :=
  match text with
  | [] => (none, w)
  | c :: _ =>
    let literal := (t.literals.getD c.toNat #[]).foldl (t.offerLiteral text) none
    t.patterns.foldl (t.offerPattern c text) (literal, w)

end TokenTable

end FrontEnd
