import FrontEnd.Proofs.Parser.Moves
import FrontEnd.Proofs.Tree.Expressions

/-!
# Parsing as a recursion

The machine keeps on a stack what is still to be done. Seen from one task to the moment when its
part is over, a parse is a recursion over rules and symbols: what comes out depends on the tokens to
come and on whether tokens were skipped right before, and on nothing below on the stack.

- `Prospect`, `Errand.Outcome`: what an errand starts from, and what it leaves behind;
- `Errand`: a task without the nodes that it carries;
- `Parser.Performs`: **what comes out of an errand**, one case for each thing the parser can do;
- `Parser.Performs.unique`: an errand has one outcome.
-/

namespace FrontEnd

/-- The leaf of a token. -/
def Lexeme.item (t : Lexeme) : Item := .leaf t.text

/-- What decides the course of a parse from some moment on. -/
structure Prospect where
  /-- The tokens to come. -/
  ahead : List Lexeme
  /-- Were tokens skipped right before? -/
  damaged : Bool
  deriving DecidableEq, Repr

/-- What an errand leaves behind. -/
structure Errand.Outcome where
  flow : Flow
  /-- The nodes that were made, latest first. -/
  items : List Item
  after : Prospect
  /-- The number of reports. -/
  reports : Nat

namespace Errand.Outcome

/-- One outcome behind another. -/
def andThen (o o' : Errand.Outcome) : Errand.Outcome :=
  ⟨o'.flow, o'.items ++ o.items, o'.after, o.reports + o'.reports⟩

/-- The reports of an earlier part are counted as well. -/
def reported (n : Nat) (o : Errand.Outcome) : Errand.Outcome := { o with reports := n + o.reports }

variable (o o' : Errand.Outcome) (n : Nat)

@[simp] theorem flow_andThen : (o.andThen o').flow = o'.flow := rfl

@[simp] theorem items_andThen : (o.andThen o').items = o'.items ++ o.items := rfl

@[simp] theorem after_andThen : (o.andThen o').after = o'.after := rfl

@[simp] theorem reports_andThen : (o.andThen o').reports = o.reports + o'.reports := rfl

@[simp] theorem reports_reported : (o.reported n).reports = n + o.reports := rfl

end Errand.Outcome

namespace Prospect

/-- The ids of the tokens to come. -/
def ids (v : Prospect) : List TokenId := v.ahead.map Lexeme.id

/-- The id of the next token. -/
def next (v : Prospect) : TokenId := v.ids.headD .eof

theorem next_of_cons {v : Prospect} {t : Lexeme} {rest : List Lexeme} (h : v.ahead = t :: rest) :
    v.next = t.id := by
  rw [next, ids, h]
  rfl

/-- Nothing is done. -/
def idle (v : Prospect) (items : List Item) : Errand.Outcome := ⟨.proceeding, items, v, 0⟩

/-- The next token goes under an error node, unless the input has ended. -/
def absorbed (names : Names) (v : Prospect) : Errand.Outcome :=
  match v.ahead with
  | [] => ⟨.recovering, [], v, 0⟩
  | t :: rest => ⟨.recovering, [.group names .error [t.item]], ⟨rest, true⟩, 0⟩

/-- The next token cannot be used: the tokens before the next one of `sync` go under an error node,
with a report; where this happened before, one token does, without a report. -/
def blamed (names : Names) (sync : TokenSet) (v : Prospect) : Errand.Outcome :=
  if v.damaged then v.absorbed names
  else
    let skipped := v.ahead.takeWhile fun t => !sync.contains t.id
    ⟨.recovering, [.group names .error (skipped.map Lexeme.item)],
      ⟨v.ahead.dropWhile fun t => !sync.contains t.id, true⟩, 1⟩

theorem flow_absorbed (names : Names) (v : Prospect) : (v.absorbed names).flow = .recovering := by
  unfold absorbed
  split <;> rfl

theorem flow_blamed (names : Names) (sync : TokenSet) (v : Prospect) :
    (v.blamed names sync).flow = .recovering := by
  unfold blamed
  split
  · exact v.flow_absorbed names
  · rfl

theorem absorbed_suffix (names : Names) (v : Prospect) :
    (v.absorbed names).after.ahead <:+ v.ahead := by
  unfold absorbed
  split
  · exact List.suffix_rfl
  · next t rest hv => exact hv ▸ List.suffix_cons t rest

theorem blamed_suffix (names : Names) (sync : TokenSet) (v : Prospect) :
    (v.blamed names sync).after.ahead <:+ v.ahead := by
  unfold blamed
  split
  · exact v.absorbed_suffix names
  · exact List.dropWhile_suffix _

end Prospect

/-- Something to be parsed. -/
inductive Errand where
  | rule (r : Nat) (follow : TokenSet)
  | symbol (s : Symbol) (follow : TokenSet)
  | steps (rest : List Step) (follow : TokenSet) (flow : Flow)
  | repetition (r : Nat) (follow : TokenSet)
  | expression (ctx : ExpressionContext)
  /-- What comes behind an operand. -/
  | climb (ctx : ExpressionContext) (lhs : Item)
  /-- What comes behind an operand that may have been skipped over. -/
  | behind (ctx : ExpressionContext) (flow : Flow) (lhs : Item)

namespace Parser

/-- The nodes of a rule go under a node of its own, or to the surrounding part. -/
def close (p : Parser) (names : Names) (r : Nat) (items : List Item) : List Item :=
  if p.hasNode r then [.group names (.rule r) items.reverse] else items

/-- What a rule leaves behind when its body has left this behind. -/
def closed (p : Parser) (names : Names) (r : Nat) (o : Errand.Outcome) : Errand.Outcome :=
  { o with items := p.close names r o.items }

/-- The only node of an operand, or one made for it. -/
def operandItem (names : Names) (r : Nat) (items : List Item) : Item :=
  match items with
  | [item] => item
  | _ => .group names (.rule r) items.reverse

/-- What comes out of an errand. -/
inductive Performs (p : Parser) (names : Names) : Errand → Prospect → Errand.Outcome → Prop where
  /-- A rule of operands and operators. -/
  | express {r : Nat} {follow : TokenSet} {ops : Operators} {v : Prospect} {o : Errand.Outcome}
    (hb : p.grammar.body r = .expression ops)
    (h : Performs p names (.expression ⟨r, ops, 0, follow.union ops.binaryTokens⟩) v o) :
    Performs p names (.rule r follow) v (p.closed names r o)
  /-- A rule with an alternative for the tokens to come. -/
  | choose {r : Nat} {follow : TokenSet} {as : List Alternative} {a : Alternative} {v : Prospect}
    {o : Errand.Outcome} (hb : p.grammar.body r = .sequence as)
    (hs : ParseState.choose as v.ids = some a)
    (h : Performs p names (.steps a.steps follow .proceeding) v o) :
    Performs p names (.rule r follow) v (p.closed names r o)
  /-- A rule with an alternative for the token where skipping stopped. -/
  | retry {r : Nat} {follow : TokenSet} {as : List Alternative} {a : Alternative} {v : Prospect}
    {o : Errand.Outcome} (hb : p.grammar.body r = .sequence as)
    (hs : ParseState.choose as v.ids = none) (hd : v.damaged = false)
    (hs₂ : ParseState.choose as (v.blamed names p.sync).after.ids = some a)
    (ha : a.first.contains (v.blamed names p.sync).after.next = true)
    (h : Performs p names (.steps a.steps follow .proceeding) (v.blamed names p.sync).after o) :
    Performs p names (.rule r follow) v (p.closed names r ((v.blamed names p.sync).andThen o))
  /-- A rule without an alternative for the tokens to come. -/
  | refuse {r : Nat} {follow : TokenSet} {as : List Alternative} {v : Prospect}
    (hb : p.grammar.body r = .sequence as) (hs : ParseState.choose as v.ids = none)
    (ha : ∀ a, ParseState.choose as (v.blamed names p.sync).after.ids = some a →
      v.damaged = false → a.first.contains (v.blamed names p.sync).after.next = false) :
    Performs p names (.rule r follow) v (p.closed names r (v.blamed names p.sync))
  /-- A token that is there. -/
  | token {id : TokenId} {follow : TokenSet} {v : Prospect} {t : Lexeme} {rest : List Lexeme}
    (hv : v.ahead = t :: rest) (ht : t.id = id) :
    Performs p names (.symbol (.token id) follow) v ⟨.proceeding, [t.item], ⟨rest, false⟩, 0⟩
  /-- A token that is where skipping stopped. -/
  | late {id : TokenId} {follow : TokenSet} {v : Prospect} {t : Lexeme} {rest : List Lexeme}
    (hid : v.next ≠ id) (hv : (v.blamed names p.sync).after.ahead = t :: rest) (ht : t.id = id) :
    Performs p names (.symbol (.token id) follow) v
      ((v.blamed names p.sync).andThen ⟨.proceeding, [t.item], ⟨rest, false⟩, 0⟩)
  /-- A token that is not there. -/
  | absent {id : TokenId} {follow : TokenSet} {v : Prospect} (hid : v.next ≠ id)
    (hid₁ : (v.blamed names p.sync).after.next ≠ id) :
    Performs p names (.symbol (.token id) follow) v (v.blamed names p.sync)
  | once {r : Nat} {follow : TokenSet} {v : Prospect} {o : Errand.Outcome}
    (h : Performs p names (.rule r follow) v o) :
    Performs p names (.symbol (.rule r) follow) v o
  /-- An optional rule that can begin with the next token. -/
  | opt {r : Nat} {follow : TokenSet} {v : Prospect} {o : Errand.Outcome}
    (hf : (p.grammar.firstOf r).contains v.next = true)
    (h : Performs p names (.rule r follow) v o) :
    Performs p names (.symbol (.opt r) follow) v o
  /-- An optional rule that is left out. -/
  | skip {r : Nat} {follow : TokenSet} {v : Prospect}
    (hf : (p.grammar.firstOf r).contains v.next = false) :
    Performs p names (.symbol (.opt r) follow) v (v.idle [])
  | many {r : Nat} {follow : TokenSet} {v : Prospect} {o : Errand.Outcome}
    (h : Performs p names (.repetition r follow) v o) :
    Performs p names (.symbol (.many r) follow) v o
  /-- A production at its end. -/
  | finish {follow : TokenSet} {flow : Flow} {v : Prospect} :
    Performs p names (.steps [] follow flow) v ⟨flow, [], v, 0⟩
  /-- A symbol that is left out after skipping. -/
  | pass {s : Step} {rest : List Step} {follow : TokenSet} {v : Prospect} {o : Errand.Outcome}
    (hc : p.grammar.canStart s.symbol v.next = false)
    (h : Performs p names (.steps rest follow .recovering) v o) :
    Performs p names (.steps (s :: rest) follow .recovering) v o
  /-- A symbol that is parsed. -/
  | enter {s : Step} {rest : List Step} {follow : TokenSet} {flow : Flow} {v : Prospect}
    {o o' : Errand.Outcome} (hc : flow = .recovering → p.grammar.canStart s.symbol v.next = true)
    (h : Performs p names (.symbol s.symbol (followOf s follow)) v o)
    (h' : Performs p names (.steps rest follow o.flow) o.after o') :
    Performs p names (.steps (s :: rest) follow flow) v (o.andThen o')
  /-- A repetition that ends. -/
  | close {r : Nat} {follow : TokenSet} {v : Prospect}
    (hn : v.next = .eof ∨
      (p.grammar.firstOf r).contains v.next = false ∧ follow.contains v.next = true) :
    Performs p names (.repetition r follow) v (v.idle [])
  /-- Another round. -/
  | round {r : Nat} {follow : TokenSet} {v : Prospect} {o o' : Errand.Outcome} (hn : v.next ≠ .eof)
    (hf : (p.grammar.firstOf r).contains v.next = true)
    (h : Performs p names (.rule r ((p.grammar.firstOf r).union follow)) v o)
    (htook : o.after.ahead.length ≠ v.ahead.length)
    (h' : Performs p names (.repetition r follow) o.after o') :
    Performs p names (.repetition r follow) v (o.andThen o')
  /-- A round that took nothing. -/
  | stall {r : Nat} {follow : TokenSet} {v : Prospect} {o o' : Errand.Outcome} (hn : v.next ≠ .eof)
    (hf : (p.grammar.firstOf r).contains v.next = true)
    (h : Performs p names (.rule r ((p.grammar.firstOf r).union follow)) v o)
    (htook : o.after.ahead.length = v.ahead.length)
    (h' : Performs p names (.repetition r follow) (o.after.absorbed names).after o') :
    Performs p names (.repetition r follow) v ((o.andThen (o.after.absorbed names)).andThen o')
  /-- A token that begins no round and cannot follow either. -/
  | stray {r : Nat} {follow : TokenSet} {v : Prospect} {o : Errand.Outcome} (hn : v.next ≠ .eof)
    (hf : (p.grammar.firstOf r).contains v.next = false)
    (hfollow : follow.contains v.next = false)
    (h : Performs p names (.repetition r follow) (v.blamed names p.sync).after o) :
    Performs p names (.repetition r follow) v ((v.blamed names p.sync).andThen o)
  /-- A prefix operator. -/
  | sign {ctx : ExpressionContext} {v : Prospect} {t : Lexeme} {rest : List Lexeme}
    {level : Fin 256} {o o' : Errand.Outcome} (hv : v.ahead = t :: rest)
    (hop : ctx.ops.prefixPrecedence? t.id = some level)
    (h : Performs p names (.expression { ctx with level := level.val }) ⟨rest, false⟩ o)
    (h' : Performs p names
      (.behind ctx o.flow (.group names (.unary t.id) (t.item :: o.items.reverse))) o.after o') :
    Performs p names (.expression ctx) v (o'.reported o.reports)
  /-- An operand. -/
  | operand {ctx : ExpressionContext} {v : Prospect} {o o' : Errand.Outcome}
    (hop : ctx.ops.prefixPrecedence? v.next = none)
    (hf : (p.grammar.firstOf ctx.ops.operand).contains v.next = true)
    (h : Performs p names (.rule ctx.ops.operand ctx.follow) v o)
    (h' : Performs p names (.behind ctx o.flow (operandItem names ctx.ops.operand o.items))
      o.after o') :
    Performs p names (.expression ctx) v (o'.reported o.reports)
  /-- No operand. -/
  | lack {ctx : ExpressionContext} {v : Prospect}
    (hop : ctx.ops.prefixPrecedence? v.next = none)
    (hf : (p.grammar.firstOf ctx.ops.operand).contains v.next = false) :
    Performs p names (.expression ctx) v (v.blamed names p.sync)
  /-- A binary operator. -/
  | climb {ctx : ExpressionContext} {lhs : Item} {v : Prospect} {t : Lexeme} {rest : List Lexeme}
    {op : BinaryOperator} {o o' : Errand.Outcome} (hv : v.ahead = t :: rest)
    (hop : ctx.ops.binary? t.id = some op) (hlevel : ctx.level ≤ op.precedence.val)
    (h : Performs p names (.expression { ctx with level := op.rightLevel }) ⟨rest, false⟩ o)
    (h' : Performs p names (.behind ctx o.flow
      (.group names (.binary t.id) (lhs :: t.item :: o.items.reverse))) o.after o') :
    Performs p names (.climb ctx lhs) v (o'.reported o.reports)
  /-- No operator that belongs to this expression. -/
  | top {ctx : ExpressionContext} {lhs : Item} {v : Prospect}
    (hop : ∀ op, ctx.ops.binary? v.next = some op → op.precedence.val < ctx.level) :
    Performs p names (.climb ctx lhs) v (v.idle [lhs])
  | resume {ctx : ExpressionContext} {lhs : Item} {v : Prospect} {o : Errand.Outcome}
    (h : Performs p names (.climb ctx lhs) v o) :
    Performs p names (.behind ctx .proceeding lhs) v o
  /-- Behind an operand in which tokens were skipped nothing is tried. -/
  | abandon {ctx : ExpressionContext} {lhs : Item} {v : Prospect} :
    Performs p names (.behind ctx .recovering lhs) v ⟨.recovering, [lhs], v, 0⟩

namespace Performs

variable {p : Parser} {names : Names} {r : Nat} {follow : TokenSet} {as : List Alternative}
  {a : Alternative} {ops : Operators} {id : TokenId} {s : Step} {rest : List Step} {flow : Flow}
  {ctx : ExpressionContext} {lhs : Item} {e : Errand} {v : Prospect} {o o' : Errand.Outcome}

/-! ## What an errand consists of -/

theorem of_choice (h : p.Performs names (.rule r follow) v o)
    (hb : p.grammar.body r = .sequence as) (hs : ParseState.choose as v.ids = some a) :
    ∃ o₁, p.Performs names (.steps a.steps follow .proceeding) v o₁ ∧ o = p.closed names r o₁ := by
  cases h with
  | express hb' _ =>
    rw [hb] at hb'
    cases hb'
  | @choose _ _ _ _ _ o₁ hb' hs' h =>
    rw [hb] at hb'
    cases hb'
    rw [hs] at hs'
    cases hs'
    exact ⟨o₁, h, rfl⟩
  | retry hb' hs' _ _ _ _ | refuse hb' hs' _ =>
    rw [hb] at hb'
    cases hb'
    rw [hs] at hs'
    cases hs'

/-- Where no alternative fits, one may fit the token where skipping stops. -/
theorem of_no_choice (h : p.Performs names (.rule r follow) v o)
    (hb : p.grammar.body r = .sequence as) (hs : ParseState.choose as v.ids = none) :
    (∃ a o₁, v.damaged = false ∧
      ParseState.choose as (v.blamed names p.sync).after.ids = some a ∧
      a.first.contains (v.blamed names p.sync).after.next = true ∧
      p.Performs names (.steps a.steps follow .proceeding) (v.blamed names p.sync).after o₁ ∧
      o = p.closed names r ((v.blamed names p.sync).andThen o₁)) ∨
    (∀ a, ParseState.choose as (v.blamed names p.sync).after.ids = some a →
      v.damaged = false → a.first.contains (v.blamed names p.sync).after.next = false) ∧
      o = p.closed names r (v.blamed names p.sync) := by
  cases h with
  | express hb' _ =>
    rw [hb] at hb'
    cases hb'
  | choose hb' hs' _ =>
    rw [hb] at hb'
    cases hb'
    rw [hs] at hs'
    cases hs'
  | retry hb' hs' hd hs₂ ha h =>
    rw [hb] at hb'
    cases hb'
    exact .inl ⟨_, _, hd, hs₂, ha, h, rfl⟩
  | refuse hb' hs' ha =>
    rw [hb] at hb'
    cases hb'
    exact .inr ⟨ha, rfl⟩

theorem of_token {t : Lexeme} {ahead : List Lexeme}
    (h : p.Performs names (.symbol (.token id) follow) v o) (hv : v.ahead = t :: ahead)
    (ht : t.id = id) : o = ⟨.proceeding, [t.item], ⟨ahead, false⟩, 0⟩ := by
  have hnext : v.next = id := (Prospect.next_of_cons hv).trans ht
  cases h with
  | token hv' _ =>
    rw [hv] at hv'
    cases hv'
    rfl
  | late hid _ _ | absent hid _ => exact absurd hnext hid

theorem of_once (h : p.Performs names (.symbol (.rule r) follow) v o) :
    p.Performs names (.rule r follow) v o := by
  cases h with
  | once h => exact h

theorem of_many (h : p.Performs names (.symbol (.many r) follow) v o) :
    p.Performs names (.repetition r follow) v o := by
  cases h with
  | many h => exact h

theorem of_opt (h : p.Performs names (.symbol (.opt r) follow) v o) :
    (p.grammar.firstOf r).contains v.next = true ∧ p.Performs names (.rule r follow) v o ∨
      (p.grammar.firstOf r).contains v.next = false ∧ o = v.idle [] := by
  cases h with
  | opt hf h => exact .inl ⟨hf, h⟩
  | skip hf => exact .inr ⟨hf, rfl⟩

theorem of_nil (h : p.Performs names (.steps [] follow flow) v o) : o = ⟨flow, [], v, 0⟩ := by
  cases h with
  | finish => rfl

theorem of_cons (h : p.Performs names (.steps (s :: rest) follow .proceeding) v o) :
    ∃ o₁ o₂, p.Performs names (.symbol s.symbol (followOf s follow)) v o₁ ∧
      p.Performs names (.steps rest follow o₁.flow) o₁.after o₂ ∧ o = o₁.andThen o₂ := by
  cases h with
  | enter _ h h' => exact ⟨_, _, h, h', rfl⟩

theorem of_cons_recovering (h : p.Performs names (.steps (s :: rest) follow .recovering) v o) :
    p.grammar.canStart s.symbol v.next = false ∧
      p.Performs names (.steps rest follow .recovering) v o ∨
    p.grammar.canStart s.symbol v.next = true ∧
      p.Performs names (.steps (s :: rest) follow .proceeding) v o := by
  cases h with
  | pass hc h => exact .inl ⟨hc, h⟩
  | enter hc h h' => exact .inr ⟨hc rfl, .enter nofun h h'⟩

theorem of_repetition (h : p.Performs names (.repetition r follow) v o) :
    ((v.next = .eof ∨ (p.grammar.firstOf r).contains v.next = false ∧
      follow.contains v.next = true) ∧ o = v.idle []) ∨
    (v.next ≠ .eof ∧ (p.grammar.firstOf r).contains v.next = true ∧
      ∃ o₁ o₂, p.Performs names (.rule r ((p.grammar.firstOf r).union follow)) v o₁ ∧
        (o₁.after.ahead.length ≠ v.ahead.length ∧
          p.Performs names (.repetition r follow) o₁.after o₂ ∧ o = o₁.andThen o₂ ∨
        o₁.after.ahead.length = v.ahead.length ∧
          p.Performs names (.repetition r follow) (o₁.after.absorbed names).after o₂ ∧
          o = (o₁.andThen (o₁.after.absorbed names)).andThen o₂)) ∨
    (v.next ≠ .eof ∧ (p.grammar.firstOf r).contains v.next = false ∧
      follow.contains v.next = false ∧
      ∃ o₁, p.Performs names (.repetition r follow) (v.blamed names p.sync).after o₁ ∧
        o = (v.blamed names p.sync).andThen o₁) := by
  cases h with
  | close hn => exact .inl ⟨hn, rfl⟩
  | round hn hf h htook h' => exact .inr (.inl ⟨hn, hf, _, _, h, .inl ⟨htook, h', rfl⟩⟩)
  | stall hn hf h htook h' => exact .inr (.inl ⟨hn, hf, _, _, h, .inr ⟨htook, h', rfl⟩⟩)
  | stray hn hf hfollow h => exact .inr (.inr ⟨hn, hf, hfollow, _, h, rfl⟩)

/-- Where a round can begin, one is begun. -/
theorem of_repetition_first (h : p.Performs names (.repetition r follow) v o) (hn : v.next ≠ .eof)
    (hf : (p.grammar.firstOf r).contains v.next = true) :
    ∃ o₁ o₂, p.Performs names (.rule r ((p.grammar.firstOf r).union follow)) v o₁ ∧
      (o₁.after.ahead.length ≠ v.ahead.length ∧
        p.Performs names (.repetition r follow) o₁.after o₂ ∧ o = o₁.andThen o₂ ∨
      o₁.after.ahead.length = v.ahead.length ∧
        p.Performs names (.repetition r follow) (o₁.after.absorbed names).after o₂ ∧
        o = (o₁.andThen (o₁.after.absorbed names)).andThen o₂) := by
  rcases h.of_repetition with ⟨hn' | ⟨hf', -⟩, -⟩ | ⟨-, -, hround⟩ | ⟨-, hf', -⟩
  · exact absurd hn' hn
  · exact absurd (hf'.symm.trans hf) nofun
  · exact hround
  · exact absurd (hf'.symm.trans hf) nofun

/-- A token that begins no round and cannot follow is blamed. -/
theorem of_repetition_stray (h : p.Performs names (.repetition r follow) v o)
    (hn : v.next ≠ .eof) (hf : (p.grammar.firstOf r).contains v.next = false)
    (hfollow : follow.contains v.next = false) :
    ∃ o₁, p.Performs names (.repetition r follow) (v.blamed names p.sync).after o₁ ∧
      o = (v.blamed names p.sync).andThen o₁ := by
  rcases h.of_repetition with ⟨hn' | ⟨-, hin⟩, -⟩ | ⟨-, hf', -⟩ | ⟨-, -, -, hlater⟩
  · exact absurd hn' hn
  · exact absurd (hin.symm.trans hfollow) nofun
  · exact absurd (hf.symm.trans hf') nofun
  · exact hlater

/-! ## One outcome -/

/-- An errand has one outcome. -/
theorem unique (h : p.Performs names e v o) (h' : p.Performs names e v o') : o = o' := by
  -- What decides between two ways to perform an errand is seen in the prospect before anything is
  -- done, or by the outcome of a first part, which is one by induction.
  induction h generalizing o' with
  | express hb _ ih =>
    cases h' with
    | express hb' h' =>
      rw [hb] at hb'
      cases hb'
      rw [ih h']
    | choose hb' | retry hb' | refuse hb' =>
      rw [hb] at hb'
      cases hb'
  | choose hb hs _ ih =>
    obtain ⟨o₁, h₁, rfl⟩ := h'.of_choice hb hs
    rw [ih h₁]
  | retry hb hs hd hs₂ ha _ ih =>
    rcases h'.of_no_choice hb hs with ⟨a', o₁, -, hs', -, h₁, rfl⟩ | ⟨hnone, -⟩
    · rw [hs₂] at hs'
      cases hs'
      rw [ih h₁]
    · exact absurd (ha.symm.trans (hnone _ hs₂ hd)) nofun
  | refuse hb hs ha =>
    rcases h'.of_no_choice hb hs with ⟨a', o₁, hd, hs₂, ha', -, -⟩ | ⟨-, rfl⟩
    · exact absurd (ha'.symm.trans (ha a' hs₂ hd)) nofun
    · rfl
  | token hv ht => exact (h'.of_token hv ht).symm
  | late hid hv ht =>
    cases h' with
    | token hv' ht' => exact absurd ((Prospect.next_of_cons hv').trans ht') hid
    | late _ hv' _ =>
      rw [hv] at hv'
      cases hv'
      rfl
    | absent _ hid₁ => exact absurd ((Prospect.next_of_cons hv).trans ht) hid₁
  | absent hid hid₁ =>
    cases h' with
    | token hv' ht' => exact absurd ((Prospect.next_of_cons hv').trans ht') hid
    | late _ hv' ht' => exact absurd ((Prospect.next_of_cons hv').trans ht') hid₁
    | absent _ _ => rfl
  | once _ ih => exact ih h'.of_once
  | many _ ih => exact ih h'.of_many
  | opt hf _ ih =>
    rcases h'.of_opt with ⟨-, h₁⟩ | ⟨hf', -⟩
    · exact ih h₁
    · exact absurd (hf.symm.trans hf') nofun
  | skip hf =>
    rcases h'.of_opt with ⟨hf', -⟩ | ⟨-, rfl⟩
    · exact absurd (hf.symm.trans hf') nofun
    · rfl
  | finish => exact h'.of_nil.symm
  | pass hc _ ih =>
    rcases h'.of_cons_recovering with ⟨-, h₁⟩ | ⟨hc', -⟩
    · exact ih h₁
    · exact absurd (hc.symm.trans hc') nofun
  | enter hc _ _ ih₁ ih₂ =>
    cases h' with
    | pass hc' => exact absurd (hc'.symm.trans (hc rfl)) nofun
    | enter _ h₁ h₂ =>
      cases ih₁ h₁
      rw [ih₂ h₂]
  | close hn =>
    rcases h'.of_repetition with ⟨-, rfl⟩ | ⟨hn', hf', -⟩ | ⟨hn', -, hfollow, -⟩
    · rfl
    · rcases hn with hn | ⟨hf, -⟩
      · exact absurd hn hn'
      · exact absurd (hf.symm.trans hf') nofun
    · rcases hn with hn | ⟨-, hin⟩
      · exact absurd hn hn'
      · exact absurd (hin.symm.trans hfollow) nofun
  | round hn hf _ htook _ ih₁ ih₂ =>
    obtain ⟨o₁, o₂, h₁, hways⟩ := h'.of_repetition_first hn hf
    cases ih₁ h₁
    rcases hways with ⟨-, h₂, rfl⟩ | ⟨htook', -⟩
    · rw [ih₂ h₂]
    · exact absurd htook' htook
  | stall hn hf _ htook _ ih₁ ih₂ =>
    obtain ⟨o₁, o₂, h₁, hways⟩ := h'.of_repetition_first hn hf
    cases ih₁ h₁
    rcases hways with ⟨htook', -⟩ | ⟨-, h₂, rfl⟩
    · exact absurd htook htook'
    · rw [ih₂ h₂]
  | stray hn hf hfollow _ ih =>
    obtain ⟨o₁, h₁, rfl⟩ := h'.of_repetition_stray hn hf hfollow
    rw [ih h₁]
  | sign hv hop _ _ ih₁ ih₂ =>
    cases h' with
    | sign hv' hop' h₁ h₂ =>
      rw [hv] at hv'
      cases hv'
      rw [hop] at hop'
      cases hop'
      cases ih₁ h₁
      rw [ih₂ h₂]
    | operand hop' | lack hop' =>
      rw [Prospect.next_of_cons hv, hop] at hop'
      cases hop'
  | operand hop hf _ _ ih₁ ih₂ =>
    cases h' with
    | sign hv' hop' =>
      rw [Prospect.next_of_cons hv', hop'] at hop
      cases hop
    | operand _ _ h₁ h₂ =>
      cases ih₁ h₁
      rw [ih₂ h₂]
    | lack _ hf' => exact absurd (hf.symm.trans hf') nofun
  | lack hop hf =>
    cases h' with
    | sign hv' hop' =>
      rw [Prospect.next_of_cons hv', hop'] at hop
      cases hop
    | operand _ hf' => exact absurd (hf.symm.trans hf') nofun
    | lack => rfl
  | climb hv hop hlevel _ _ ih₁ ih₂ =>
    cases h' with
    | climb hv' hop' _ h₁ h₂ =>
      rw [hv] at hv'
      cases hv'
      rw [hop] at hop'
      cases hop'
      cases ih₁ h₁
      rw [ih₂ h₂]
    | top hop' =>
      exact absurd hlevel (Nat.not_le_of_lt (hop' _ ((Prospect.next_of_cons hv).symm ▸ hop)))
  | top hop =>
    cases h' with
    | climb hv' hop' hlevel' =>
      exact absurd hlevel' (Nat.not_le_of_lt (hop _ ((Prospect.next_of_cons hv').symm ▸ hop')))
    | top => rfl
  | resume _ ih =>
    cases h' with
    | resume h' => exact ih h'
  | abandon =>
    cases h' with
    | abandon => rfl

/-! ## What is left -/

/-- Tokens are only taken off the front. -/
theorem ahead_suffix (h : p.Performs names e v o) : o.after.ahead <:+ v.ahead := by
  have htail : ∀ {v : Prospect} {t : Lexeme} {rest : List Lexeme}, v.ahead = t :: rest →
      rest <:+ v.ahead := fun hv => hv ▸ List.suffix_cons _ _
  induction h with
  | express _ _ ih | choose _ _ _ ih | once _ ih | opt _ _ ih | many _ ih | pass _ _ ih
  | resume _ ih => exact ih
  | retry _ _ _ _ _ _ ih | stray _ _ _ _ ih => exact ih.trans (Prospect.blamed_suffix ..)
  | refuse | absent | lack => exact Prospect.blamed_suffix ..
  | token hv => exact htail hv
  | late _ hv => exact (htail hv).trans (Prospect.blamed_suffix ..)
  | skip | finish | close | top | abandon => exact List.suffix_rfl
  | enter _ _ _ ih ih' | round _ _ _ _ _ ih ih' | operand _ _ _ _ ih ih' => exact ih'.trans ih
  | stall _ _ _ _ _ ih ih' => exact ih'.trans ((Prospect.absorbed_suffix ..).trans ih)
  | sign hv _ _ _ ih ih' | climb hv _ _ _ _ ih ih' => exact ih'.trans (ih.trans (htail hv))

/-- A repetition that nothing can follow goes on to the end of the input. -/
theorem next_of_repetition (h : p.Performs names (.repetition r follow) v o)
    (hfollow : ∀ id, follow.contains id = true → id = .eof) : o.after.next = .eof := by
  generalize he : Errand.repetition r follow = e at h
  induction h with
  | close hn =>
    cases he
    rcases hn with hn | ⟨-, hn⟩
    · exact hn
    · exact hfollow _ hn
  | round _ _ _ _ _ _ ih | stall _ _ _ _ _ _ ih => exact ih he
  | stray _ _ _ _ ih => exact ih he
  | _ => cases he

end Performs

end Parser

end FrontEnd
