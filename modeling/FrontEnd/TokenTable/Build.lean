import FrontEnd.TokenTable.Basic

/-!
# Building token tables

A table is described by a list of declarations and checked as it is built.

- `LexemeDecl`: one rule as it is declared;
- `TokenTable.add`: a table with one more rule;
- `TokenTable.ofDecls`: the table of a list of declarations, or the first fault.
-/

namespace FrontEnd

/-- What is wrong with the declarations of a table. -/
inductive TableError where
  | pattern (rule : String) (error : PatternError)
  | nullablePattern (rule : String)
  | emptyLiteral (rule : String)
  | duplicateName (rule : String)
  | tooManyRules (count : Nat)
  deriving DecidableEq, Repr

/-- The message of an error. -/
def TableError.message : TableError → String
  | pattern rule error => "rule `" ++ rule ++ "`: " ++ error.message
  | nullablePattern rule => "rule `" ++ rule ++ "` matches the empty string"
  | emptyLiteral rule => "literal rule `" ++ rule ++ "` is empty"
  | duplicateName rule => "duplicate rule name `" ++ rule ++ "`"
  | tooManyRules count => s!"too many rules ({count}); at most 65535 are supported"

/-- A declared form. -/
inductive LexemeSource where
  | literal (text : String)
  | pattern (text : String)
  deriving DecidableEq, Repr

/-- A declared rule. -/
structure LexemeDecl where
  name : String
  source : LexemeSource
  trivia : Bool
  deriving DecidableEq, Repr

namespace LexemeDecl

/-- A fixed text, named after itself in backquotes. -/
def ofLiteral (text : String) : LexemeDecl := ⟨"`" ++ text ++ "`", .literal text, false⟩

/-- A fixed text with a name. -/
def ofNamedLiteral (name text : String) : LexemeDecl := ⟨name, .literal text, false⟩

/-- A pattern. -/
def ofPattern (name text : String) : LexemeDecl := ⟨name, .pattern text, false⟩

/-- A pattern for lexemes that are usually dropped. -/
def ofTrivia (name text : String) : LexemeDecl := ⟨name, .pattern text, true⟩

end LexemeDecl

namespace TokenTable

/-- Checks the declared form of the rule `name`. -/
def compile (name : String) : LexemeSource → Except TableError LexemeForm
  | .literal text => if text.isEmpty then .error (.emptyLiteral name) else .ok (.literal text.toList)
  | .pattern text =>
    match Pattern.ofString text with
    | .error e => .error (.pattern name e)
    | .ok p =>
      let automaton := Automaton.ofPattern p
      if automaton.matchesEmpty then .error (.nullablePattern name) else .ok (.pattern automaton)

/-- Adds a rule number to the index of literals. -/
def indexLiteral (literals : Std.HashMap Nat (Array (Fin 65536))) (form : LexemeForm)
    (number : Fin 65536) : Std.HashMap Nat (Array (Fin 65536)) :=
  match form with
  | .literal (c :: _) => literals.alter c.toNat fun found => some ((found.getD #[]).push number)
  | _ => literals

/-- Adds a rule number to the index of patterns. -/
def indexPattern (patterns : Array (Fin 65536)) (form : LexemeForm) (number : Fin 65536) :
    Array (Fin 65536) :=
  match form with
  | .pattern _ => patterns.push number
  | .literal _ => patterns

/-- Adds a rule behind the others. -/
def add (t : TokenTable) (d : LexemeDecl) : Except TableError TokenTable :=
  if h : t.rules.size < 65535 then
    if t.byName.contains d.name then .error (.duplicateName d.name)
    else do
      let form ← compile d.name d.source
      let number : Fin 65536 := ⟨t.rules.size, by omega⟩
      .ok {
        rules := t.rules.push ⟨d.name, form, d.trivia⟩
        byName := t.byName.insert d.name (.kind number)
        literals := indexLiteral t.literals form number
        patterns := indexPattern t.patterns form number
        size_le := by rw [Array.size_push]; omega }
  else .error (.tooManyRules (t.rules.size + 1))

/-- The table of a list of declarations. -/
def ofDecls (decls : List LexemeDecl) : Except TableError TokenTable :=
  if 65535 < decls.length then .error (.tooManyRules decls.length)
  else decls.foldlM add empty

end TokenTable

end FrontEnd
