import FrontEnd.Proofs.Demo.Rules

/-!
# Programs without faults

A text without a report is a list of statements. What is said here of a statement holds in front of
whatever follows it and wherever skipping has stopped before, so it can be carried over from a
program to the same program with a fault elsewhere.

- `Demo.Operand`, `Demo.operand_leaf`: lexemes that are read as an expression, single tokens first;
- `Demo.Spelled`: the spelling of statements, blocks and conditions;
- `Demo.Spelled.reads`: **what is spelled so is read without a report**;
- `Demo.spelled_of_quiet`: what is read without a report is spelled so.
-/

namespace FrontEnd

namespace Demo

variable {names : Names} {v : Prospect} {o : Errand.Outcome} {u w rest : List Lexeme} {follow : TokenSet}
  {steps : List Step} {s : Step} {t : Lexeme} {id : TokenId} {r : Nat}

/-! ## Spelling -/

/-- The lexemes are read as an expression in front of whatever does not go on with it. -/
structure Operand (names : Names) (u : List Lexeme) : Prop where
  nonempty : u ≠ []
  inside : ∀ t ∈ u, stops.contains t.id = false
  reads : ∃ items, ∀ follow rest d, operatorTable.binary? (⟨rest, d⟩ : Prospect).next = none →
    parser.Performs names (.rule expr follow) ⟨u ++ rest, d⟩ ⟨.proceeding, items, ⟨rest, false⟩, 0⟩

/-- A statement that ends with a semicolon. -/
inductive Simple (names : Names) : List Lexeme → Prop
  | definition {k n e c : Lexeme} {u : List Lexeme} (hk : k.id = letWord) (hn : n.id = identifier)
    (he : e.id = equalsSign) (hu : Operand names u) (hc : c.id = semicolon) :
    Simple names (k :: n :: e :: (u ++ [c]))
  | print {k c : Lexeme} {u : List Lexeme} (hk : k.id = printWord) (hu : Operand names u)
    (hc : c.id = semicolon) : Simple names (k :: (u ++ [c]))
  | assignment {n e c : Lexeme} {u : List Lexeme} (hn : n.id = identifier)
    (he : e.id = equalsSign) (hu : Operand names u) (hc : c.id = semicolon) :
    Simple names (n :: e :: (u ++ [c]))
  | value {c : Lexeme} {u : List Lexeme} (hu : Operand names u) (hc : c.id = semicolon)
    (hfirst : exprFirst.contains (⟨u, false⟩ : Prospect).next = true)
    (hother : ParseState.guardAhead ((u ++ [c]).map Lexeme.id) [identifier, equalsSign] = false) :
    Simple names (u ++ [c])

/-- What there is to spell. -/
inductive Phrase where
  | statements
  | statement
  | block
  /-- A statement with `if`. -/
  | conditional

/-- The spelling of a phrase. -/
inductive Spelled (names : Names) : Phrase → List Lexeme → Prop
  | nothing : Spelled names .statements []
  | more {s w : List Lexeme} (hs : Spelled names .statement s) (hw : Spelled names .statements w) :
    Spelled names .statements (s ++ w)
  | simple {s : List Lexeme} (hs : Simple names s) : Spelled names .statement s
  | loop {k : Lexeme} {u b : List Lexeme} (hk : k.id = whileWord) (hu : Operand names u)
    (hb : Spelled names .block b) : Spelled names .statement (k :: (u ++ b))
  | braces {b : List Lexeme} (hb : Spelled names .block b) : Spelled names .statement b
  | choice {b : List Lexeme} (hb : Spelled names .conditional b) : Spelled names .statement b
  | body {l c : Lexeme} {w : List Lexeme} (hl : l.id = openBrace)
    (hw : Spelled names .statements w) (hc : c.id = closeBrace) :
    Spelled names .block (l :: (w ++ [c]))
  | bare {k : Lexeme} {u b : List Lexeme} (hk : k.id = ifWord) (hu : Operand names u)
    (hb : Spelled names .block b) : Spelled names .conditional (k :: (u ++ b))
  | both {k e : Lexeme} {u b b' : List Lexeme} (hk : k.id = ifWord) (hu : Operand names u)
    (hb : Spelled names .block b) (he : e.id = elseWord) (hb' : Spelled names .block b') :
    Spelled names .conditional (k :: (u ++ (b ++ e :: b')))
  | chain {k e : Lexeme} {u b b' : List Lexeme} (hk : k.id = ifWord) (hu : Operand names u)
    (hb : Spelled names .block b) (he : e.id = elseWord) (hb' : Spelled names .conditional b') :
    Spelled names .conditional (k :: (u ++ (b ++ e :: b')))

/-! ## Reading what is spelled -/

/-- The end of statements. -/
def Ends (follow : TokenSet) (id : TokenId) : Prop :=
  id = .eof ∨ id = closeBrace ∧ follow.contains closeBrace = true

/-- What is read without a report, whatever comes behind it. -/
def Phrase.Reads (names : Names) : Phrase → List Lexeme → Prop
  | .statements, w => ∃ items,
    (w = [] ∨ stmtFirst.contains (⟨w, false⟩ : Prospect).next = true) ∧
    ∀ follow rest d, Ends follow (⟨rest, d⟩ : Prospect).next →
      parser.Performs names (.repetition stmt follow) ⟨w ++ rest, d⟩
        ⟨.proceeding, items, ⟨rest, d && w.isEmpty⟩, 0⟩
  | .statement, w => ∃ item, stmtFirst.contains (⟨w, false⟩ : Prospect).next = true ∧
    ∀ follow rest d, (⟨rest, d⟩ : Prospect).next ≠ elseWord ∨ ¬ Spelled names .conditional w →
      parser.Performs names (.rule stmt follow) ⟨w ++ rest, d⟩
        ⟨.proceeding, [item], ⟨rest, false⟩, 0⟩
  | .block, w => ∃ item, (⟨w, false⟩ : Prospect).next = openBrace ∧
    ∀ follow rest d, parser.Performs names (.rule Demo.block follow) ⟨w ++ rest, d⟩
      ⟨.proceeding, [item], ⟨rest, false⟩, 0⟩
  | .conditional, w => ∃ item, (⟨w, false⟩ : Prospect).next = ifWord ∧
    ∀ follow rest d, (⟨rest, d⟩ : Prospect).next ≠ elseWord →
      parser.Performs names (.rule ifStmt follow) ⟨w ++ rest, d⟩
        ⟨.proceeding, [item], ⟨rest, false⟩, 0⟩

/-- A rule is read when its steps are. -/
theorem reads_rule {as : List Alternative} {a : Alternative} {items : List Item} {v' : Prospect}
    (hb : parser.grammar.body r = .sequence as) (hs : ParseState.choose as v.ids = some a)
    (h : parser.Performs names (.steps a.steps follow .proceeding) v ⟨.proceeding, items, v', 0⟩) :
    parser.Performs names (.rule r follow) v ⟨.proceeding, parser.close names r items, v', 0⟩ :=
  .choose hb hs h

/-- An operand is read as an expression if no operator goes on with it. -/
theorem reads_expression {ops : Operators} {items : List Item} {v' : Prospect}
    (hb : parser.grammar.body r = .expression ops) (hop : ops.prefixPrecedence? v.next = none)
    (hfirst : (parser.grammar.firstOf ops.operand).contains v.next = true)
    (hread : ∀ follow, parser.Performs names (.rule ops.operand follow) v
      ⟨.proceeding, items, v', 0⟩) (hend : ops.binary? v'.next = none) :
    parser.Performs names (.rule r follow) v
      ⟨.proceeding, parser.close names r [Parser.operandItem names ops.operand items], v', 0⟩ :=
  .express hb (.operand hop hfirst (hread _)
    (.resume (.top fun op hop => by cases hend.symm.trans hop)))

/-- A token is read. -/
theorem reads_token {items : List Item} {v' : Prospect} {d : Bool} (hs : s.symbol = .token t.id)
    (h : parser.Performs names (.steps steps follow .proceeding) ⟨rest, false⟩
      ⟨.proceeding, items, v', 0⟩) :
    parser.Performs names (.steps (s :: steps) follow .proceeding) ⟨t :: rest, d⟩
      ⟨.proceeding, items ++ [t.item], v', 0⟩ :=
  .quiet_enter (hs ▸ .token rfl rfl) h

/-- The tokens that are operands by themselves. -/
def leaves : List TokenId := [number, string, identifier, trueWord, falseWord]

theorem choose_leaf (hid : id ∈ leaves) (ids : List TokenId) :
    ParseState.choose primaryAlternatives (id :: ids) = some (leaf id) := by
  have hall : ∀ id ∈ leaves, ParseState.choose primaryAlternatives [id] = some (leaf id) := by
    decide
  rw [← hall id hid, ParseState.choose_of_unguarded (by decide),
    ParseState.choose_of_unguarded (by decide)]
  rfl

/-- Such a token is an expression. -/
theorem operand_leaf (ht : t.id ∈ leaves) : Operand names [t] where
  nonempty := List.cons_ne_nil _ _
  inside := by
    have hall : ∀ id ∈ leaves, stops.contains id = false := by decide
    exact List.forall_mem_singleton.2 (hall t.id ht)
  reads := by
    have hall : ∀ id ∈ leaves, operatorTable.prefixPrecedence? id = none ∧
        (parser.grammar.firstOf operatorTable.operand).contains id = true := by
      rw [Grammar.firstOf, parser, first_built]
      decide
    obtain ⟨hsign, hbegins⟩ := hall t.id ht
    have hprimary : parser.grammar.body operatorTable.operand = .sequence primaryAlternatives :=
      body_grammar primary
    have hread : ∀ follow rest d, parser.Performs names (.rule operatorTable.operand follow)
        ⟨t :: rest, d⟩ ⟨.proceeding, parser.close names operatorTable.operand ([] ++ [t.item]),
          ⟨rest, false⟩, 0⟩ := fun follow rest d =>
      reads_rule hprimary (choose_leaf ht _) (reads_token rfl .finish)
    exact ⟨_, fun follow rest d hrest => reads_expression (body_grammar expr) hsign hbegins
      (fun follow => hread follow rest d) hrest⟩

/-- An expression is read in front of a symbol that ends it. -/
theorem reads_operand {items items' : List Item} {v' : Prospect} {d : Bool}
    (hs : s.symbol = .rule expr) (hrest : operatorTable.binary? (⟨rest, d⟩ : Prospect).next = none)
    (hread : ∀ follow rest d, operatorTable.binary? (⟨rest, d⟩ : Prospect).next = none →
      parser.Performs names (.rule expr follow) ⟨u ++ rest, d⟩
        ⟨.proceeding, items', ⟨rest, false⟩, 0⟩)
    (h : parser.Performs names (.steps steps follow .proceeding) ⟨rest, false⟩
      ⟨.proceeding, items, v', 0⟩) :
    parser.Performs names (.steps (s :: steps) follow .proceeding) ⟨u ++ rest, d⟩
      ⟨.proceeding, items ++ items', v', 0⟩ := by
  refine .quiet_enter ?_ h
  rw [hs]
  exact .once (hread _ rest d hrest)

/-- A rule is read where a symbol asks for it. -/
theorem reads_once {items items' : List Item} {v₂ v' : Prospect} (hs : s.symbol = .rule r)
    (hread : parser.Performs names (.rule r (Parser.followOf s follow)) v ⟨.proceeding, items', v₂, 0⟩)
    (h : parser.Performs names (.steps steps follow .proceeding) v₂ ⟨.proceeding, items, v', 0⟩) :
    parser.Performs names (.steps (s :: steps) follow .proceeding) v
      ⟨.proceeding, items ++ items', v', 0⟩ := by
  refine .quiet_enter ?_ h
  rw [hs]
  exact .once hread

/-- What ends an expression in a statement. -/
theorem binary?_eq_none {d : Bool} (ht : t.id ∈ [semicolon, openBrace, closeParen]) :
    operatorTable.binary? (⟨t :: rest, d⟩ : Prospect).next = none := by
  have hall : ∀ id ∈ [semicolon, openBrace, closeParen], operatorTable.binary? id = none := by
    decide
  exact hall t.id ht

/-- An expression and a semicolon are read. -/
theorem reads_exprSteps {items : List Item} {c : Lexeme} {d : Bool}
    (hread : ∀ follow rest d, operatorTable.binary? (⟨rest, d⟩ : Prospect).next = none →
      parser.Performs names (.rule expr follow) ⟨u ++ rest, d⟩
        ⟨.proceeding, items, ⟨rest, false⟩, 0⟩) (hc : c.id = semicolon) :
    parser.Performs names (.steps exprSteps follow .proceeding) ⟨u ++ [c] ++ rest, d⟩
      ⟨.proceeding, [c.item] ++ items, ⟨rest, false⟩, 0⟩ := by
  rw [List.append_assoc]
  exact reads_operand rfl (binary?_eq_none (by simp [hc])) hread
    (reads_token (congrArg _ hc.symm) .finish)

/-- A statement is read as the rule that is chosen for it. -/
theorem reads_stmt {a : Alternative} {item : Item} {v' : Prospect} (ha : a.steps = [⟨.rule r, ∅, true⟩])
    (hs : ParseState.choose stmtAlternatives v.ids = some a)
    (hread : ∀ follow, parser.Performs names (.rule r follow) v ⟨.proceeding, [item], v', 0⟩) :
    parser.Performs names (.rule stmt follow) v ⟨.proceeding, [item], v', 0⟩ := by
  have hnode : parser.close names stmt [item] = [item] := by
    rw [Parser.close, hasNode_grammar.1]
    rfl
  have hsteps : parser.Performs names (.steps a.steps follow .proceeding) v
      ⟨.proceeding, [item], v', 0⟩ := ha ▸ reads_once rfl (hread _) .finish
  have hrule := reads_rule (body_grammar stmt) hs hsteps
  rwa [hnode] at hrule

/-- A statement that begins with a token where skipping stops is read. -/
theorem reads_keyword {item : Item} {v' : Prospect} {d : Bool} (hr : (t.id, r) ∈ keywordRules)
    (hread : ∀ follow, parser.Performs names (.rule r follow) ⟨t :: rest, d⟩
      ⟨.proceeding, [item], v', 0⟩) :
    parser.Performs names (.rule stmt follow) ⟨t :: rest, d⟩ ⟨.proceeding, [item], v', 0⟩ :=
  reads_stmt rfl (choose_keyword hr _) hread

/-- A statement of a rule with a node of its own is read. -/
theorem reads_node {a : Alternative} {items : List Item} {v' : Prospect}
    (hr : r ∈ [assignStmt, letStmt, printStmt, ifStmt, whileStmt, block, exprStmt])
    (hb : parser.grammar.body r = .sequence [a]) (ha : a.guard = [])
    (h : parser.Performs names (.steps a.steps follow .proceeding) v ⟨.proceeding, items, v', 0⟩) :
    parser.Performs names (.rule r follow) v
      ⟨.proceeding, [.group names (.rule r) items.reverse], v', 0⟩ := by
  have hrule := reads_rule hb (Parser.choose_singleton ha _) h
  rwa [Parser.close, hasNode_grammar.2 r hr] at hrule

theorem begins_of_keyword (hr : (t.id, r) ∈ keywordRules) (w : List Lexeme) (d : Bool) :
    stmtFirst.contains (⟨t :: w, d⟩ : Prospect).next = true := by
  have hall : ∀ e ∈ keywordRules, stmtFirst.contains e.1 = true := by decide
  exact hall _ hr

theorem stmtFirst_of_exprFirst (h : exprFirst.contains id = true) :
    stmtFirst.contains id = true :=
  contains_of_union_eq (by decide) h

/-- A guard looks no further than it is long. -/
theorem guardAhead_append {ids guard : List TokenId} (h : guard.length ≤ ids.length)
    (ids' : List TokenId) :
    ParseState.guardAhead (ids ++ ids') guard = ParseState.guardAhead ids guard := by
  induction guard generalizing ids with
  | nil => rw [ParseState.guardAhead, ParseState.guardAhead]
  | cons id guard ih =>
    cases ids with
    | nil => cases h
    | cons id' ids =>
      have hrest := ih (Nat.le_of_succ_le_succ h)
      rw [ParseState.guardAhead, ParseState.guardAhead]
      exact congrArg (id' == id && ·) hrest

theorem Simple.reads (h : Simple names w) : Phrase.statement.Reads names w := by
  cases h with
  | @definition k n e c u hk hn he hu hc =>
    obtain ⟨items, hread⟩ := hu.reads
    have hkey : (k.id, letStmt) ∈ keywordRules := by rw [hk]; decide
    refine ⟨_, begins_of_keyword hkey _ _, fun follow rest d _ => reads_keyword hkey fun follow =>
      reads_node (by decide) (body_grammar letStmt) rfl (reads_token (congrArg _ hk.symm)
        (reads_token (congrArg _ hn.symm) (reads_token (congrArg _ he.symm) (reads_exprSteps hread hc))))⟩
  | @print k c u hk hu hc =>
    obtain ⟨items, hread⟩ := hu.reads
    have hkey : (k.id, printStmt) ∈ keywordRules := by rw [hk]; decide
    refine ⟨_, begins_of_keyword hkey _ _, fun follow rest d _ => reads_keyword hkey fun follow =>
      reads_node (by decide) (body_grammar printStmt) rfl (reads_token (congrArg _ hk.symm)
        (reads_exprSteps hread hc))⟩
  | @assignment n e c u hn he hu hc =>
    obtain ⟨items, hread⟩ := hu.reads
    have hfirst : exprFirst.contains n.id = true := by rw [hn]; decide
    have hguard : ∀ ids, ParseState.guardAhead (n.id :: e.id :: ids) [identifier, equalsSign]
        = true := by
      rw [hn, he]
      exact fun _ => rfl
    refine ⟨_, stmtFirst_of_exprFirst hfirst, fun follow rest d _ =>
      reads_stmt (a := assignAlternative) rfl ((choose_value _ hfirst).trans ?_) fun follow =>
        reads_node (by decide) (body_grammar assignStmt) rfl (reads_token (congrArg _ hn.symm)
          (reads_token (congrArg _ he.symm) (reads_exprSteps hread hc)))⟩
    exact congrArg some (if_pos (hguard _))
  | @value c u hu hc hfirst hother =>
    obtain ⟨items, hread⟩ := hu.reads
    obtain ⟨t, u', rfl⟩ := List.exists_cons_of_ne_nil hu.nonempty
    refine ⟨_, stmtFirst_of_exprFirst hfirst, fun follow rest d _ =>
      reads_stmt (a := relay exprStmt exprFirst) rfl ((choose_value _ hfirst).trans ?_) fun follow =>
        reads_node (by decide) (body_grammar exprStmt) rfl (reads_exprSteps hread hc)⟩
    refine congrArg some (if_neg ?_)
    have hlong : [identifier, equalsSign].length ≤ ((t :: u' ++ [c]).map Lexeme.id).length := by
      simp
    -- The guard looks at two tokens, and a statement has as many, so that the rest does not count.
    have hsame := guardAhead_append hlong (rest.map Lexeme.id)
    rw [← List.map_append, hother] at hsame
    exact Bool.eq_false_iff.1 hsame

theorem exists_cons_of_next {d : Bool} (h : (⟨w, d⟩ : Prospect).next = id) (hid : id ≠ .eof) :
    ∃ t w', w = t :: w' := by
  cases w with
  | nil => exact absurd h.symm hid
  | cons t w' => exact ⟨t, w', rfl⟩

/-- An expression and a block are read. -/
theorem reads_header {items items' : List Item} {ahead b : List Lexeme} {item : Item}
    {v' : Prospect} {s' : Step} {d : Bool} (hs : s.symbol = .rule expr)
    (hs' : s'.symbol = .rule block) (hahead : ahead = u ++ (b ++ rest))
    (hread : ∀ follow rest d, operatorTable.binary? (⟨rest, d⟩ : Prospect).next = none →
      parser.Performs names (.rule expr follow) ⟨u ++ rest, d⟩
        ⟨.proceeding, items', ⟨rest, false⟩, 0⟩)
    (hopen : (⟨b, false⟩ : Prospect).next = openBrace)
    (hblock : ∀ follow rest d, parser.Performs names (.rule block follow) ⟨b ++ rest, d⟩
      ⟨.proceeding, [item], ⟨rest, false⟩, 0⟩)
    (h : parser.Performs names (.steps steps follow .proceeding) ⟨rest, false⟩
      ⟨.proceeding, items, v', 0⟩) :
    parser.Performs names (.steps (s :: s' :: steps) follow .proceeding) ⟨ahead, d⟩
      ⟨.proceeding, items ++ [item] ++ items', v', 0⟩ := by
  have hb : b ≠ [] := by
    rintro rfl
    cases hopen
  have hnext : operatorTable.binary? (⟨b ++ rest, d⟩ : Prospect).next = none := by
    rw [Prospect.next_append d false, if_neg hb, hopen]
    decide
  rw [hahead]
  exact reads_operand hs hnext hread (reads_once hs' (hblock _ rest false) h)

/-- What follows `else` begins so. -/
def elseRules : List (TokenId × Nat) := [(openBrace, block), (ifWord, ifStmt)]

theorem choose_elseBody {id : TokenId} {r : Nat} (hr : (id, r) ∈ elseRules) (ids : List TokenId) :
    ParseState.choose elseAlternatives (id :: ids) = some (relay r (.single id)) := by
  rw [choose_else, List.headD_cons]
  rcases List.mem_cons.1 hr with heq | hr
  · cases heq
    rfl
  · cases List.mem_singleton.1 hr
    rfl

/-- A part with `else` is read when what follows is. -/
theorem reads_elseClause {e : Lexeme} {b : List Lexeme} {item : Item} {P : TokenId → Prop}
    (he : e.id = elseWord) (hr : ((⟨b, false⟩ : Prospect).next, r) ∈ elseRules)
    (hread : ∀ follow rest d, P (⟨rest, d⟩ : Prospect).next →
      parser.Performs names (.rule r follow) ⟨b ++ rest, d⟩
        ⟨.proceeding, [item], ⟨rest, false⟩, 0⟩) :
    ∃ items, ∀ follow rest d, P (⟨rest, d⟩ : Prospect).next →
      parser.Performs names (.steps [⟨.opt elseClause, ∅, true⟩] follow .proceeding)
        ⟨e :: (b ++ rest), d⟩ ⟨.proceeding, items, ⟨rest, false⟩, 0⟩ := by
  have hb : b ≠ [] := by
    rintro rfl
    have hall : ∀ e ∈ elseRules, e.1 ≠ TokenId.eof := by decide
    exact hall _ hr rfl
  obtain ⟨t, b', rfl⟩ := List.exists_cons_of_ne_nil hb
  have hfirst : ∀ ahead d, (parser.grammar.firstOf elseClause).contains
      (⟨e :: ahead, d⟩ : Prospect).next = true := by
    intro ahead d
    show (parser.grammar.firstOf elseClause).contains e.id = true
    rw [he, Grammar.firstOf, parser, first_built]
    decide
  refine ⟨_, fun follow rest d hrest => .quiet_enter (.opt (hfirst _ _)
    (reads_rule (body_grammar elseClause) (Parser.choose_singleton rfl _)
      (reads_token (congrArg _ he.symm) (reads_once rfl
        (reads_rule (body_grammar elseBody) (choose_elseBody hr _)
          (reads_once rfl (hread _ rest false hrest) .finish)) .finish)))) .finish⟩

/-- Where there is no `else`, none is read. -/
theorem reads_no_elseClause {d : Bool} (hrest : (⟨rest, d⟩ : Prospect).next ≠ elseWord) :
    parser.Performs names (.steps [⟨.opt elseClause, ∅, true⟩] follow .proceeding) ⟨rest, d⟩
      ⟨.proceeding, [], ⟨rest, d⟩, 0⟩ := by
  refine .quiet_enter (.skip ?_) .finish
  rw [Grammar.firstOf, parser, first_built]
  show (TokenSet.single elseWord).contains _ = false
  rw [TokenSet.contains_single]
  exact beq_eq_false_iff_ne.2 hrest.symm

/-- No statements are read where they end. -/
theorem reads_nothing {d : Bool} (hend : Ends follow (⟨rest, d⟩ : Prospect).next) :
    parser.Performs names (.repetition stmt follow) ⟨rest, d⟩ ⟨.proceeding, [], ⟨rest, d⟩, 0⟩ := by
  refine .close (hend.imp id fun ⟨hclose, hfollow⟩ => ?_)
  rw [firstOf_stmt]
  show stmtFirst.contains (⟨rest, d⟩ : Prospect).next = false ∧ _
  rw [hclose]
  exact ⟨by decide, hclose ▸ hfollow⟩

theorem next_of_statement (hfirst : stmtFirst.contains (⟨u, false⟩ : Prospect).next = true)
    (ahead : List Lexeme) {d : Bool} :
    stmtFirst.contains (⟨u ++ ahead, d⟩ : Prospect).next = true := by
  have hu : u ≠ [] := by
    rintro rfl
    exact absurd hfirst (by decide)
  rwa [Prospect.next_append d false, if_neg hu]

/-- A statement is read, and others behind it. -/
theorem reads_more {item : Item} {items : List Item} {d : Bool} {ahead : List Lexeme}
    {v' : Prospect} (hfirst : stmtFirst.contains (⟨u, false⟩ : Prospect).next = true)
    (hread : ∀ follow, parser.Performs names (.rule stmt follow) ⟨u ++ ahead, d⟩
      ⟨.proceeding, [item], ⟨ahead, false⟩, 0⟩)
    (h : parser.Performs names (.repetition stmt follow) ⟨ahead, false⟩
      ⟨.proceeding, items, v', 0⟩) :
    parser.Performs names (.repetition stmt follow) ⟨u ++ ahead, d⟩
      ⟨.proceeding, items ++ [item], v', 0⟩ := by
  have hu : u ≠ [] := by
    rintro rfl
    exact absurd hfirst (by decide)
  have hnext := next_of_statement hfirst ahead (d := d)
  refine .round ?_ ?_ (hread _) ?_ h
  · intro heof
    exact absurd (heof ▸ hnext) (by decide)
  · rwa [firstOf_stmt]
  · simpa using hu

/-- Behind statements, or where there are none, comes no `else`. -/
theorem next_ne_else {d : Bool}
    (hbegins : w = [] ∨ stmtFirst.contains (⟨w, false⟩ : Prospect).next = true)
    (hrest : (⟨rest, d⟩ : Prospect).next ≠ elseWord) :
    (⟨w ++ rest, d⟩ : Prospect).next ≠ elseWord := by
  rcases hbegins with rfl | hbegins
  · exact hrest
  · intro helse
    exact absurd (helse ▸ next_of_statement hbegins rest) (by decide)

/-- Statements behind a statement are read with it. -/
theorem reads_statements {item : Item} {items : List Item} {d : Bool}
    (hfirst : stmtFirst.contains (⟨u, false⟩ : Prospect).next = true)
    (hread : ∀ follow rest d, (⟨rest, d⟩ : Prospect).next ≠ elseWord ∨
      ¬ Spelled names .conditional u → parser.Performs names (.rule stmt follow) ⟨u ++ rest, d⟩
        ⟨.proceeding, [item], ⟨rest, false⟩, 0⟩)
    (hbegins : w = [] ∨ stmtFirst.contains (⟨w, false⟩ : Prospect).next = true)
    (hreads : ∀ follow rest d, Ends follow (⟨rest, d⟩ : Prospect).next →
      parser.Performs names (.repetition stmt follow) ⟨w ++ rest, d⟩
        ⟨.proceeding, items, ⟨rest, d && w.isEmpty⟩, 0⟩)
    (hend : Ends follow (⟨rest, d⟩ : Prospect).next) :
    parser.Performs names (.repetition stmt follow) ⟨u ++ w ++ rest, d⟩
      ⟨.proceeding, items ++ [item], ⟨rest, d && (u ++ w).isEmpty⟩, 0⟩ := by
  have hu : u ≠ [] := by
    rintro rfl
    exact absurd hfirst (by decide)
  have hempty : (d && (u ++ w).isEmpty) = (false && w.isEmpty) := by
    simp [hu]
  have hrest : (⟨rest, d⟩ : Prospect).next ≠ elseWord := by
    rcases hend with heof | ⟨hclose, -⟩
    · rw [heof]
      decide
    · rw [hclose]
      decide
  rw [List.append_assoc, hempty]
  exact reads_more hfirst (fun follow => hread follow _ d (.inl (next_ne_else hbegins hrest)))
    (hreads _ _ _ hend)

/-- What is spelled so is read without a report. -/
theorem Spelled.reads {phrase : Phrase} (h : Spelled names phrase w) : phrase.Reads names w := by
  -- By induction on the spelling. What the parts are read as is read in front of any rest, so that
  -- the next part can be that rest.
  induction h with
  | nothing =>
    refine ⟨[], .inl rfl, fun follow rest d hend => ?_⟩
    rw [List.isEmpty_nil, Bool.and_true]
    exact reads_nothing hend
  | @more s w hs hw ihs ihw =>
    obtain ⟨item, hfirst, hread⟩ := ihs
    obtain ⟨items, hbegins, hreads⟩ := ihw
    exact ⟨_, .inr (next_of_statement hfirst w), fun follow rest d hend =>
      reads_statements hfirst hread hbegins hreads hend⟩
  | simple hs => exact hs.reads
  | @loop k u b hk hu hb ih =>
    obtain ⟨items, hread⟩ := hu.reads
    obtain ⟨item, hopen, hblock⟩ := ih
    have hkey : (k.id, whileStmt) ∈ keywordRules := by rw [hk]; decide
    exact ⟨_, begins_of_keyword hkey _ _, fun follow rest d _ => reads_keyword hkey fun follow =>
      reads_node (by decide) (body_grammar whileStmt) rfl (reads_token (congrArg _ hk.symm)
        (reads_header rfl rfl (List.append_assoc ..) hread hopen hblock .finish))⟩
  | @braces b hb ih =>
    obtain ⟨item, hopen, hblock⟩ := ih
    obtain ⟨t, b', rfl⟩ := exists_cons_of_next hopen (by decide)
    have hkey : (t.id, block) ∈ keywordRules := by rw [show t.id = openBrace from hopen]; decide
    exact ⟨_, begins_of_keyword hkey _ _, fun follow rest d _ =>
      reads_keyword hkey fun follow => hblock follow rest d⟩
  | @choice b hb ih =>
    obtain ⟨item, hif, hread⟩ := ih
    obtain ⟨t, b', rfl⟩ := exists_cons_of_next hif (by decide)
    have hkey : (t.id, ifStmt) ∈ keywordRules := by rw [show t.id = ifWord from hif]; decide
    exact ⟨_, begins_of_keyword hkey _ _, fun follow rest d hrest =>
      reads_keyword hkey fun follow => hread follow rest d (hrest.resolve_right (not_not_intro hb))⟩
  | @body l c w hl hw hc ih =>
    obtain ⟨items, -, hreads⟩ := ih
    have hmany : ∀ rest d, parser.Performs names (.repetition stmt (.single closeBrace))
        ⟨w ++ [c] ++ rest, d⟩ ⟨.proceeding, items, ⟨c :: rest, d && w.isEmpty⟩, 0⟩ := by
      intro rest d
      rw [List.append_assoc]
      exact hreads _ _ d (.inr ⟨hc, by decide⟩)
    exact ⟨_, hl, fun follow rest d => reads_node (by decide) (body_grammar Demo.block) rfl
      (reads_token (congrArg _ hl.symm) (.quiet_enter (.many (hmany rest false))
        (reads_token (congrArg _ hc.symm) .finish)))⟩
  | @bare k u b hk hu hb ih =>
    obtain ⟨items, hread⟩ := hu.reads
    obtain ⟨item, hopen, hblock⟩ := ih
    exact ⟨_, hk, fun follow rest d hrest => reads_node (by decide) (body_grammar ifStmt) rfl
      (reads_token (congrArg _ hk.symm) (reads_header rfl rfl (List.append_assoc ..) hread hopen
        hblock (reads_no_elseClause hrest)))⟩
  | @both k e u b b' hk hu hb he hb' ih ih' =>
    obtain ⟨items, hread⟩ := hu.reads
    obtain ⟨item, hopen, hblock⟩ := ih
    obtain ⟨item', hopen', hblock'⟩ := ih'
    obtain ⟨items', helse⟩ := reads_elseClause (r := block) (P := fun _ => True) he
      (by rw [hopen']; decide) fun follow rest d _ => hblock' follow rest d
    exact ⟨_, hk, fun follow rest d hrest => reads_node (by decide) (body_grammar ifStmt) rfl
      (reads_token (congrArg _ hk.symm) (reads_header rfl rfl (by simp) hread hopen
        hblock (helse _ rest false trivial)))⟩
  | @chain k e u b b' hk hu hb he hb' ih ih' =>
    obtain ⟨items, hread⟩ := hu.reads
    obtain ⟨item, hopen, hblock⟩ := ih
    obtain ⟨item', hif, hrest'⟩ := ih'
    obtain ⟨items', helse⟩ := reads_elseClause (P := (· ≠ elseWord)) he
      (show (_, ifStmt) ∈ elseRules by rw [hif]; decide) hrest'
    exact ⟨_, hk, fun follow rest d hrest => reads_node (by decide) (body_grammar ifStmt) rfl
      (reads_token (congrArg _ hk.symm) (reads_header rfl rfl (by simp) hread hopen
        hblock (helse _ rest false hrest)))⟩

/-- Statements begin as a statement does, unless there are none. -/
theorem Spelled.begins (h : Spelled names .statements w) :
    w = [] ∨ stmtFirst.contains (⟨w, false⟩ : Prospect).next = true := by
  obtain ⟨items, hbegins, -⟩ := h.reads
  exact hbegins

/-! ## What a quiet parse has read -/

/-- Both leave the same behind, apart from nodes and reports. -/
structure Alike (o o' : Errand.Outcome) : Prop where
  flow : o.flow = o'.flow
  after : o.after = o'.after

theorem Alike.trans {o' o'' : Errand.Outcome} (h : Alike o o') (h' : Alike o' o'') : Alike o o'' :=
  ⟨h.flow.trans h'.flow, h.after.trans h'.after⟩

/-- A phrase has been read. -/
def Found (names : Names) (phrase : Phrase) (w : List Lexeme) (o : Errand.Outcome) : Prop :=
  ∃ u w', w = u ++ w' ∧ Spelled names phrase u ∧ Alike o ⟨.proceeding, [], ⟨w', false⟩, 0⟩

theorem Found.alike {phrase : Phrase} {o' : Errand.Outcome} (h : Found names phrase w o')
    (halike : Alike o o') : Found names phrase w o := by
  obtain ⟨u, w', hw, hu, h⟩ := h
  exact ⟨u, w', hw, hu, halike.trans h⟩

theorem Found.imp {phrase phrase' : Phrase} (h : Found names phrase w o)
    (himp : ∀ {u}, Spelled names phrase u → Spelled names phrase' u) :
    Found names phrase' w o := by
  obtain ⟨u, w', hw, hu, h⟩ := h
  exact ⟨u, w', hw, himp hu, h⟩

/-- A production that is another rule leaves the same behind as that rule. -/
theorem of_relay (h : parser.Performs names (.steps [⟨.rule r, ∅, true⟩] follow .proceeding) v o) :
    ∃ follow, parser.Performs names (.rule r follow) v o := by
  obtain ⟨o₁, o₂, hfirst, hrest, rfl⟩ := h.of_cons
  rw [hrest.of_nil]
  exact ⟨_, hfirst.of_once⟩

/-- A rule for which another one is chosen leaves the same behind as that rule. -/
theorem of_chosen {as : List Alternative} {a : Alternative} {r' : Nat}
    (hb : parser.grammar.body r = .sequence as) (hs : ParseState.choose as v.ids = some a)
    (ha : a.steps = [⟨.rule r', ∅, true⟩]) (h : parser.Performs names (.rule r follow) v o) :
    ∃ follow o₁, parser.Performs names (.rule r' follow) v o₁ ∧ o.reports = o₁.reports ∧
      Alike o o₁ := by
  obtain ⟨o₁, h₁, rfl⟩ := h.of_choice hb hs
  obtain ⟨follow', h₁⟩ := of_relay (ha ▸ h₁)
  exact ⟨follow', o₁, h₁, rfl, rfl, rfl⟩

/-- The only production of a rule. -/
theorem of_production {a : Alternative} (hb : parser.grammar.body r = .sequence [a])
    (ha : a.guard = []) (h : parser.Performs names (.rule r follow) v o) :
    ∃ o₁, parser.Performs names (.steps a.steps follow .proceeding) v o₁ ∧
      o.reports = o₁.reports ∧ Alike o o₁ := by
  obtain ⟨o₁, hsteps, rfl⟩ := h.of_choice hb (Parser.choose_singleton ha _)
  exact ⟨o₁, hsteps, rfl, rfl, rfl⟩

/-- The token of a quiet production is there. -/
theorem quiet_token (hs : s.symbol = .token id) (hq : o.reports = 0)
    (h : parser.Performs names (.steps (s :: steps) follow .proceeding) ⟨w, false⟩ o) :
    ∃ t w' o', w = t :: w' ∧ t.id = id ∧
      parser.Performs names (.steps steps follow .proceeding) ⟨w', false⟩ o' ∧ o'.reports = 0 ∧
      Alike o o' := by
  obtain ⟨o₁, o₂, hfirst, hrest, rfl⟩ := h.of_cons
  rw [hs] at hfirst
  have hblamed : ((⟨w, false⟩ : Prospect).blamed names parser.sync).reports = 1 :=
    Prospect.reports_blamed rfl
  cases hfirst with
  | @token _ _ _ t w' hw ht =>
    exact ⟨t, w', o₂, hw, ht, hrest, (Nat.zero_add _).symm.trans hq, rfl, rfl⟩
  | late | absent =>
    simp only [Errand.Outcome.reports_andThen, hblamed] at hq
    omega

/-- The expression of a quiet production is there. -/
theorem quiet_operand (hs : s.symbol = .rule expr) (hq : o.reports = 0)
    (h : parser.Performs names (.steps (s :: steps) follow .proceeding) ⟨w, false⟩ o) :
    ∃ u w' o', w = u ++ w' ∧ Operand names u ∧
      parser.Performs names (.steps steps follow .proceeding) ⟨w', false⟩ o' ∧ o'.reports = 0 ∧
      Alike o o' := by
  obtain ⟨o₁, o₂, hfirst, hrest, rfl⟩ := h.of_cons
  rw [hs] at hfirst
  rcases hfirst.of_once.clean_or_spoiled shelters (.inl rfl) rfl with ⟨u, hu⟩ | hspoiled
  · have hafter : o₁.after = ⟨o₁.after.ahead, false⟩ := by rw [← hu.fresh]
    rw [hu.flow, hafter] at hrest
    refine ⟨u, o₁.after.ahead, o₂, hu.ahead, ⟨hu.takes trivial, hu.inside, o₁.items,
      fun follow rest d hrest => ?_⟩, hrest, ?_, rfl, rfl⟩
    · have hempty : (d && u.isEmpty) = false := by simp [hu.takes trivial]
      rw [← hempty]
      refine hu.reads follow rest d (.inr fun r ops hr hb => ?_)
      rw [expression_of_inner hr hb]
      exact hrest
    · rw [Errand.Outcome.reports_andThen, hu.quiet, Nat.zero_add] at hq
      exact hq
  · rw [Errand.Outcome.reports_andThen, hspoiled.reports] at hq
    omega

/-- The phrase of a quiet production is there. -/
theorem quiet_phrase {phrase : Phrase} (hs : s.symbol = .rule r) (hq : o.reports = 0)
    (hfound : ∀ follow o₁, parser.Performs names (.rule r follow) ⟨w, false⟩ o₁ →
      o₁.reports = 0 → Found names phrase w o₁)
    (h : parser.Performs names (.steps (s :: steps) follow .proceeding) ⟨w, false⟩ o) :
    ∃ u w' o', w = u ++ w' ∧ Spelled names phrase u ∧
      parser.Performs names (.steps steps follow .proceeding) ⟨w', false⟩ o' ∧ o'.reports = 0 ∧
      Alike o o' := by
  obtain ⟨o₁, o₂, hfirst, hrest, rfl⟩ := h.of_cons
  rw [hs] at hfirst
  obtain ⟨h₁, h₂⟩ := Nat.add_eq_zero_iff.1 hq
  obtain ⟨u, w', hw, hu, halike⟩ := hfound _ o₁ hfirst.of_once h₁
  rw [halike.flow, halike.after] at hrest
  exact ⟨u, w', o₂, hw, hu, hrest, h₂, rfl, rfl⟩

/-- The end of a quiet statement. -/
theorem quiet_exprSteps (hq : o.reports = 0)
    (h : parser.Performs names (.steps exprSteps follow .proceeding) ⟨w, false⟩ o) :
    ∃ u c w', w = u ++ c :: w' ∧ Operand names u ∧ c.id = semicolon ∧
      Alike o ⟨.proceeding, [], ⟨w', false⟩, 0⟩ := by
  obtain ⟨u, w₁, o₁, rfl, hu, h₁, hq₁, halike₁⟩ := quiet_operand rfl hq h
  obtain ⟨c, w₂, o₂, rfl, hc, h₂, -, halike₂⟩ := quiet_token rfl hq₁ h₁
  rw [h₂.of_nil] at halike₂
  exact ⟨u, c, w₂, rfl, hu, hc, halike₁.trans halike₂⟩

theorem found_let (hq : o.reports = 0)
    (h : parser.Performs names (.rule letStmt follow) ⟨w, false⟩ o) :
    Found names .statement w o := by
  obtain ⟨o₁, h₁, hreports, halike₁⟩ := of_production (body_grammar letStmt) rfl h
  obtain ⟨k, w₁, o₂, rfl, hk, h₂, hq₂, halike₂⟩ := quiet_token rfl (hreports.symm.trans hq) h₁
  obtain ⟨n, w₂, o₃, rfl, hn, h₃, hq₃, halike₃⟩ := quiet_token rfl hq₂ h₂
  obtain ⟨e, w₃, o₄, rfl, he, h₄, hq₄, halike₄⟩ := quiet_token rfl hq₃ h₃
  obtain ⟨u, c, w', rfl, hu, hc, halike₅⟩ := quiet_exprSteps hq₄ h₄
  exact ⟨_, w', by simp, .simple (.definition hk hn he hu hc),
    (((halike₁.trans halike₂).trans halike₃).trans halike₄).trans halike₅⟩

theorem found_print (hq : o.reports = 0)
    (h : parser.Performs names (.rule printStmt follow) ⟨w, false⟩ o) :
    Found names .statement w o := by
  obtain ⟨o₁, h₁, hreports, halike₁⟩ := of_production (body_grammar printStmt) rfl h
  obtain ⟨k, w₁, o₂, rfl, hk, h₂, hq₂, halike₂⟩ := quiet_token rfl (hreports.symm.trans hq) h₁
  obtain ⟨u, c, w', rfl, hu, hc, halike₃⟩ := quiet_exprSteps hq₂ h₂
  exact ⟨_, w', by simp, .simple (.print hk hu hc), (halike₁.trans halike₂).trans halike₃⟩

theorem found_assignment (hq : o.reports = 0)
    (h : parser.Performs names (.rule assignStmt follow) ⟨w, false⟩ o) :
    Found names .statement w o := by
  obtain ⟨o₁, h₁, hreports, halike₁⟩ := of_production (body_grammar assignStmt) rfl h
  obtain ⟨n, w₁, o₂, rfl, hn, h₂, hq₂, halike₂⟩ := quiet_token rfl (hreports.symm.trans hq) h₁
  obtain ⟨e, w₂, o₃, rfl, he, h₃, hq₃, halike₃⟩ := quiet_token rfl hq₂ h₂
  obtain ⟨u, c, w', rfl, hu, hc, halike₄⟩ := quiet_exprSteps hq₃ h₃
  exact ⟨_, w', by simp, .simple (.assignment hn he hu hc),
    ((halike₁.trans halike₂).trans halike₃).trans halike₄⟩

theorem found_value (hq : o.reports = 0)
    (hfirst : exprFirst.contains (⟨w, false⟩ : Prospect).next = true)
    (hother : ParseState.guardAhead (⟨w, false⟩ : Prospect).ids [identifier, equalsSign] = false)
    (h : parser.Performs names (.rule exprStmt follow) ⟨w, false⟩ o) :
    Found names .statement w o := by
  obtain ⟨o₁, h₁, hreports, halike₁⟩ := of_production (body_grammar exprStmt) rfl h
  obtain ⟨u, c, w', rfl, hu, hc, halike₂⟩ := quiet_exprSteps (hreports.symm.trans hq) h₁
  obtain ⟨t, u', rfl⟩ := List.exists_cons_of_ne_nil hu.nonempty
  refine ⟨_, w', by simp, .simple (.value hu hc hfirst ?_), halike₁.trans halike₂⟩
  have hlong : [identifier, equalsSign].length ≤ ((t :: u' ++ [c]).map Lexeme.id).length := by
    simp
  rw [← guardAhead_append hlong (w'.map Lexeme.id), ← List.map_append, List.append_assoc]
  exact hother

/-- What a statement can begin with. -/
theorem keyword_or_value (h : stmtFirst.contains id = true) :
    (∃ r, (id, r) ∈ keywordRules) ∨ exprFirst.contains id = true := by
  rw [stmtFirst, TokenSet.contains_insertMany, Bool.or_eq_true] at h
  rcases h with h | h
  · exact .inr h
  · have hall : ∀ id ∈ [letWord, printWord, ifWord, whileWord, openBrace],
        ∃ e ∈ keywordRules, e.1 = id := by decide
    obtain ⟨⟨id', r⟩, hr, rfl⟩ := hall id (List.contains_iff_mem.1 h)
    exact .inl ⟨r, hr⟩

/-- Quiet statements, blocks and conditions in front of the end, shorter than `n`. -/
structure FoundBelow (names : Names) (n : Nat) : Prop where
  statements : ∀ {w follow o}, w.length < n →
    parser.Performs names (.repetition stmt follow) ⟨w, false⟩ o → o.reports = 0 →
    Found names .statements w o
  block : ∀ {w follow o}, w.length < n →
    parser.Performs names (.rule block follow) ⟨w, false⟩ o → o.reports = 0 →
    Found names .block w o
  conditional : ∀ {w follow o}, w.length < n →
    parser.Performs names (.rule ifStmt follow) ⟨w, false⟩ o → o.reports = 0 →
    Found names .conditional w o

theorem found_block {n : Nat} (ih : FoundBelow names n) (hn : w.length ≤ n) (hq : o.reports = 0)
    (h : parser.Performs names (.rule block follow) ⟨w, false⟩ o) :
    Found names .block w o := by
  obtain ⟨o₁, h₁, hreports, halike₁⟩ := of_production (body_grammar block) rfl h
  obtain ⟨l, w₁, o₂, rfl, hl, h₂, hq₂, halike₂⟩ := quiet_token rfl (hreports.symm.trans hq) h₁
  obtain ⟨o₃, o₄, hmany, hrest, rfl⟩ := h₂.of_cons
  obtain ⟨hq₃, hq₄⟩ := Nat.add_eq_zero_iff.1 hq₂
  obtain ⟨u, w₂, rfl, hu, halike₃⟩ := ih.statements (Nat.lt_of_succ_le hn) hmany.of_many hq₃
  rw [halike₃.flow, halike₃.after] at hrest
  obtain ⟨c, w', o₅, rfl, hc, h₅, -, halike₅⟩ := quiet_token rfl hq₄ hrest
  rw [h₅.of_nil] at halike₅
  exact ⟨_, w', by simp, .body hl hu hc,
    (halike₁.trans halike₂).trans ⟨halike₅.flow, halike₅.after⟩⟩

theorem found_loop {n : Nat} (ih : FoundBelow names n) (hn : w.length ≤ n) (hq : o.reports = 0)
    (h : parser.Performs names (.rule whileStmt follow) ⟨w, false⟩ o) :
    Found names .statement w o := by
  obtain ⟨o₁, h₁, hreports, halike₁⟩ := of_production (body_grammar whileStmt) rfl h
  obtain ⟨k, w₁, o₂, rfl, hk, h₂, hq₂, halike₂⟩ := quiet_token rfl (hreports.symm.trans hq) h₁
  obtain ⟨u, w₂, o₃, rfl, hu, h₃, hq₃, halike₃⟩ := quiet_operand rfl hq₂ h₂
  have hlt : w₂.length < n := by
    simp only [List.length_cons, List.length_append] at hn
    omega
  obtain ⟨b, w', o₄, rfl, hb, h₄, -, halike₄⟩ :=
    quiet_phrase rfl hq₃ (fun _ _ h => ih.block hlt h) h₃
  rw [h₄.of_nil] at halike₄
  exact ⟨_, w', by simp, .loop hk hu hb,
    ((halike₁.trans halike₂).trans halike₃).trans halike₄⟩

/-- What has been read behind `else`. -/
theorem found_elseBody {n : Nat} (ih : FoundBelow names n) (hn : w.length < n)
    (hq : o.reports = 0) (h : parser.Performs names (.rule elseBody follow) ⟨w, false⟩ o) :
    Found names .block w o ∨ Found names .conditional w o := by
  have hnext : (⟨w, false⟩ : Prospect).ids.headD .eof = (⟨w, false⟩ : Prospect).next := rfl
  by_cases hbrace : (⟨w, false⟩ : Prospect).next = openBrace
  · have hchoose := (choose_else (⟨w, false⟩ : Prospect).ids).trans (if_pos (hnext.trans hbrace))
    obtain ⟨follow', o₁, h₁, hreports, halike⟩ := of_chosen (body_grammar elseBody) hchoose rfl h
    exact .inl ((ih.block hn h₁ (hreports.symm.trans hq)).alike halike)
  by_cases hif : (⟨w, false⟩ : Prospect).next = ifWord
  · have hchoose := (choose_else (⟨w, false⟩ : Prospect).ids).trans
      ((if_neg (hnext ▸ hbrace)).trans (if_pos (hnext.trans hif)))
    obtain ⟨follow', o₁, h₁, hreports, halike⟩ := of_chosen (body_grammar elseBody) hchoose rfl h
    exact .inr ((ih.conditional hn h₁ (hreports.symm.trans hq)).alike halike)
  -- Anything else has been reported.
  · have hchoose := (choose_else (⟨w, false⟩ : Prospect).ids).trans
      ((if_neg (hnext ▸ hbrace)).trans (if_neg (hnext ▸ hif)))
    have hblamed : ((⟨w, false⟩ : Prospect).blamed names parser.sync).reports = 1 :=
      Prospect.reports_blamed rfl
    rcases h.of_no_choice (body_grammar elseBody) hchoose with ⟨a, o₁, -, -, -, -, rfl⟩ | ⟨-, rfl⟩
    · simp only [Parser.closed, Errand.Outcome.reports_andThen, hblamed] at hq
      omega
    · simp only [Parser.closed, hblamed] at hq
      omega

theorem found_conditional {n : Nat} (ih : FoundBelow names n) (hn : w.length ≤ n)
    (hq : o.reports = 0) (h : parser.Performs names (.rule ifStmt follow) ⟨w, false⟩ o) :
    Found names .conditional w o := by
  obtain ⟨o₁, h₁, hreports, halike₁⟩ := of_production (body_grammar ifStmt) rfl h
  obtain ⟨k, w₁, o₂, rfl, hk, h₂, hq₂, halike₂⟩ := quiet_token rfl (hreports.symm.trans hq) h₁
  obtain ⟨u, w₂, o₃, rfl, hu, h₃, hq₃, halike₃⟩ := quiet_operand rfl hq₂ h₂
  have hlt : w₂.length < n := by
    simp only [List.length_cons, List.length_append] at hn
    omega
  obtain ⟨b, w₃, o₄, rfl, hb, h₄, hq₄, halike₄⟩ :=
    quiet_phrase rfl hq₃ (fun _ _ h => ih.block hlt h) h₃
  have halike := ((halike₁.trans halike₂).trans halike₃).trans halike₄
  obtain ⟨o₅, o₆, hopt, hrest, rfl⟩ := h₄.of_cons
  rw [hrest.of_nil] at halike hq₄
  rcases hopt.of_opt with ⟨-, helse⟩ | ⟨-, rfl⟩
  · obtain ⟨o₇, h₇, hreports₇, halike₇⟩ := of_production (body_grammar elseClause) rfl helse
    obtain ⟨e, w₄, o₈, rfl, he, h₈, hq₈, halike₈⟩ := quiet_token rfl (hreports₇.symm.trans hq₄) h₇
    obtain ⟨follow', h₉⟩ := of_relay h₈
    have hlt' : w₄.length < n := by
      simp only [List.length_cons, List.length_append] at hlt
      omega
    rcases found_elseBody ih hlt' hq₈ h₉ with ⟨b', w', rfl, hb', halike₉⟩ | ⟨b', w', rfl, hb', halike₉⟩
    · exact ⟨_, w', by simp, .both hk hu hb he hb',
        halike.trans (halike₇.trans (halike₈.trans halike₉))⟩
    · exact ⟨_, w', by simp, .chain hk hu hb he hb',
        halike.trans (halike₇.trans (halike₈.trans halike₉))⟩
  · exact ⟨_, w₃, by simp, .bare hk hu hb, halike⟩

theorem found_statement {n : Nat} (ih : FoundBelow names n) (hn : w.length ≤ n)
    (hfirst : stmtFirst.contains (⟨w, false⟩ : Prospect).next = true) (hq : o.reports = 0)
    (h : parser.Performs names (.rule stmt follow) ⟨w, false⟩ o) :
    Found names .statement w o := by
  obtain ⟨t, w₁, rfl⟩ := exists_cons_of_next (w := w) (d := false) rfl (by
    intro heof
    rw [heof] at hfirst
    exact absurd hfirst (by decide))
  rcases keyword_or_value hfirst with ⟨r, hr⟩ | hvalue
  · obtain ⟨follow', o₁, h₁, hreports, halike⟩ :=
      of_chosen (v := ⟨t :: w₁, false⟩) (body_grammar stmt) (choose_keyword hr _) rfl h
    refine Found.alike ?_ halike
    replace hq := hreports.symm.trans hq
    rcases (by simpa [keywordRules] using hr : _) with
      ⟨-, rfl⟩ | ⟨-, rfl⟩ | ⟨-, rfl⟩ | ⟨-, rfl⟩ | ⟨-, rfl⟩
    · exact found_let hq h₁
    · exact found_print hq h₁
    · exact (found_conditional ih hn hq h₁).imp .choice
    · exact found_loop ih hn hq h₁
    · exact (found_block ih hn hq h₁).imp .braces
  · have hchoose := choose_value (w₁.map Lexeme.id) hvalue
    cases hguard : ParseState.guardAhead (⟨t :: w₁, false⟩ : Prospect).ids
        [identifier, equalsSign] with
    | true =>
      obtain ⟨follow', o₁, h₁, hreports, halike⟩ := of_chosen (v := ⟨t :: w₁, false⟩)
        (a := assignAlternative) (body_grammar stmt) (hchoose.trans (congrArg some (if_pos hguard))) rfl h
      exact (found_assignment (hreports.symm.trans hq) h₁).alike halike
    | false =>
      obtain ⟨follow', o₁, h₁, hreports, halike⟩ := of_chosen (v := ⟨t :: w₁, false⟩)
        (a := relay exprStmt exprFirst) (body_grammar stmt)
        (hchoose.trans (congrArg some (if_neg (Bool.eq_false_iff.1 hguard)))) rfl h
      exact (found_value (hreports.symm.trans hq) hvalue hguard h₁).alike halike

/-- Statements are not empty. -/
theorem Spelled.nonempty (h : Spelled names .statement u) : u ≠ [] := by
  rintro rfl
  obtain ⟨item, hfirst, -⟩ := h.reads
  exact absurd hfirst (by decide)

theorem found_statements {n : Nat} (ih : FoundBelow names n) (hn : w.length ≤ n)
    (hq : o.reports = 0) (h : parser.Performs names (.repetition stmt follow) ⟨w, false⟩ o) :
    Found names .statements w o := by
  rcases h.of_repetition with ⟨-, rfl⟩ | ⟨-, hf, o₁, o₂, h₁, h₂⟩ | ⟨-, -, -, o₁, -, rfl⟩
  · exact ⟨[], w, rfl, .nothing, rfl, rfl⟩
  · have hq₁ : o₁.reports = 0 := by
      rcases h₂ with ⟨-, -, rfl⟩ | ⟨-, -, rfl⟩ <;> simp only [Errand.Outcome.reports_andThen] at hq <;>
        omega
    rw [firstOf_stmt] at hf
    obtain ⟨u, w', rfl, hu, halike⟩ := found_statement ih hn hf hq₁ h₁
    have hlt : w'.length < n := by
      have hpos := List.length_pos_iff.2 hu.nonempty
      simp only [List.length_append] at hn
      omega
    rcases h₂ with ⟨-, h₂, rfl⟩ | ⟨hsame, -, -⟩
    · rw [Errand.Outcome.reports_andThen, hq₁, Nat.zero_add] at hq
      rw [halike.after] at h₂
      obtain ⟨u', w'', rfl, hu', halike'⟩ := ih.statements hlt h₂ hq
      exact ⟨u ++ u', w'', by simp, .more hu hu', halike'.flow, halike'.after⟩
    · rw [halike.after] at hsame
      simp [hu.nonempty] at hsame
  · rw [Errand.Outcome.reports_andThen, Prospect.reports_blamed rfl] at hq
    omega

/-- What is read without a report is spelled as statements are. -/
theorem spelled_of_quiet (hq : o.reports = 0)
    (h : parser.Performs names (.repetition stmt follow) ⟨w, false⟩ o) :
    Found names .statements w o := by
  have hbelow : ∀ n, FoundBelow names n := by
    intro n
    induction n with
    | zero => exact ⟨nofun, nofun, nofun⟩
    | succ n ih =>
      exact ⟨fun hn h hq => found_statements ih (Nat.le_of_lt_succ hn) hq h,
        fun hn h hq => found_block ih (Nat.le_of_lt_succ hn) hq h,
        fun hn h hq => found_conditional ih (Nat.le_of_lt_succ hn) hq h⟩
  exact found_statements (hbelow w.length) (Nat.le_refl _) hq h

end Demo

end FrontEnd
