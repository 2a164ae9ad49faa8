import FrontEnd.Compiler
import FrontEnd.Proofs.Grammar.Checked
import FrontEnd.Proofs.Parser.Routines
import FrontEnd.Proofs.Parser.Start

/-!
# How far a parser looks ahead

A parser looks behind the next token only to compare the tokens with a guard. The longest guard is
known when the grammar is built, and a configuration is accepted only if it allows for it. So
**no request looks as far ahead as the grammar says**, whatever the text is, in the middle of it or
at its end, before and after tokens were skipped.

- `Analysis.lookahead_le_iff`, `Grammar.guarded_iff`: the least bound on the guards;
- `Routine.Within`, `Parser.within_reader`: the requests of a parser;
- `Config.lookahead_suffices`: **the buffer never holds more tokens than that**, and no more have
  been made and not been taken.
-/

namespace FrontEnd

open TokenStream (Reader Request Visit)

/-! ## The longest guard -/

namespace Analysis

theorem foldl_guards_le_iff {ps : List Production} {m n : Nat} :
    ps.foldl (fun n p => max n p.guard.length) m ≤ n ↔ m ≤ n ∧ ∀ p ∈ ps, p.guard.length ≤ n := by
  induction ps generalizing m with
  | nil => simp
  | cons p ps ih => simp only [List.foldl_cons, ih, max_le_iff, List.forall_mem_cons, and_assoc]

/-- The lookahead is the least bound on one and on the lengths of the guards. -/
theorem lookahead_le_iff {rules : Rules} {n : Nat} :
    lookahead rules ≤ n ↔
      1 ≤ n ∧ ∀ rule ∈ rules.toList, ∀ p ∈ rule.body.alternatives, p.guard.length ≤ n := by
  rw [lookahead, ← Array.foldl_toList]
  -- what has been found so far takes the place of the one, rule by rule
  generalize (1 : Nat) = m
  induction rules.toList generalizing m with
  | nil => simp
  | cons rule rest ih =>
    simp only [List.foldl_cons, ih, foldl_guards_le_iff, List.forall_mem_cons, and_assoc]

end Analysis

/-- The parser looks at one token at least, and no guard is longer than `n`. -/
structure Grammar.Guarded (g : Grammar) (n : Nat) : Prop where
  pos : 0 < n
  guard_le : ∀ {r as a}, g.body r = .sequence as → a ∈ as → a.guard.length ≤ n

/-- The lookahead of a grammar that was built is the least bound on its guards. -/
theorem Grammar.guarded_iff {decls : List GrammarDecl} {g : Grammar} (hg : ofDecls decls = .ok g)
    {n : Nat} : g.Guarded n ↔ g.lookahead ≤ n := by
  obtain ⟨start, hstart, hrep, hleft, rfl⟩ := GrammarDraft.build_eq_ok_iff.1 hg
  generalize GrammarDraft.ofDecls decls = d at hstart hrep hleft
  obtain ⟨hlt, hdangling⟩ := GrammarDraft.checkedStart_spec hstart
  have hfinishes : (d.finished start).Finishes d.rules :=
    ⟨rfl, rfl, rfl, hlt, hdangling, hrep, hleft⟩
  show _ ↔ Analysis.lookahead d.rules ≤ n
  rw [Analysis.lookahead_le_iff]
  constructor
  · refine fun h => ⟨h.pos, fun rule hrule p hp => ?_⟩
    obtain ⟨r, hr⟩ := List.mem_iff_getElem?.1 hrule
    rw [Array.getElem?_toList] at hr
    cases hbody : rule.body with
    | sequence ps =>
      rw [hbody] at hp
      obtain ⟨hb, ha⟩ := hfinishes.alternative_mem hr hbody hp
      exact h.guard_le hb ha
    | undefined | expression ops =>
      rw [hbody] at hp
      cases hp
  · rintro ⟨hpos, hguards⟩
    refine ⟨hpos, fun hb ha => ?_⟩
    obtain ⟨rule, ps, hr, hbody, hp, -⟩ := hfinishes.sequence hb ha
    exact hguards rule (Grammar.Finishes.mem_toList hr) _ (hbody ▸ hp)

/-! ## Requests of a routine -/

/-- Whatever is on the desk and whatever is answered, the routine looks less than `n` tokens
ahead. -/
def Routine.Within {α : Type} (n : Nat) (x : Routine α) : Prop := ∀ desk, (x desk).Within n

namespace Routine

variable {α β : Type} {n : Nat}

theorem Within.bind {x : Routine α} {f : α → Routine β} (hx : x.Within n)
    (hf : ∀ a, (f a).Within n) : (x >>= f).Within n :=
  fun desk => TokenStream.Reader.Within.bind (hx desk) fun y => hf y.1 y.2

theorem within_ask {r : Request} (hr : ∀ k, r.sight = some k → k < n) : (ask r).Within n :=
  fun _ => ⟨hr, fun _ => trivial⟩

theorem within_pure (x : α) : (pure x : Routine α).Within n := fun _ => trivial

theorem within_get : (get : Routine Desk).Within n := fun _ => trivial

theorem within_modify (f : Desk → Desk) : (modify f : Routine Unit).Within n := fun _ => trivial

theorem within_table : table.Within n := fun _ _ => trivial

theorem within_consumed : consumed.Within n := within_ask nofun

theorem within_takeDiagnostics : takeDiagnostics.Within n := within_ask nofun

theorem within_pushNode (kind : NodeKind) (children : List NodeId) (place : Position) :
    (pushNode kind children place).Within n := fun _ => trivial

theorem within_pushError (tokens : List Token) (place : Position) :
    (pushError tokens place).Within n := fun _ => trivial

theorem within_atDamage : atDamage.Within n :=
  within_consumed.bind fun _ => within_get.bind fun _ => within_pure _

theorem within_markDamage : markDamage.Within n :=
  within_consumed.bind fun _ => within_modify _

theorem within_report (d : Diagnostic) : (report d).Within n :=
  within_takeDiagnostics.bind fun _ => within_modify _

theorem within_allReports : allReports.Within n :=
  within_takeDiagnostics.bind fun _ => within_get.bind fun _ => within_pure _

theorem within_reportUnexpected (g : Grammar) (expected : TokenSet) (t : Token) :
    (reportUnexpected g expected t).Within n := by
  rw [reportUnexpected]
  split
  · exact within_pure _
  · exact within_table.bind fun _ => within_report _

theorem within_reportMissing (g : Grammar) (r : Nat) (t : Token) :
    (reportMissing g r t).Within n := by
  refine within_get.bind fun desk => ?_
  split
  · exact within_pure _
  · exact (within_report _).bind fun _ => within_modify _

theorem within_reportTrailing (t : Token) : (reportTrailing t).Within n := by
  refine within_atDamage.bind fun damaged => ?_
  split
  · exact within_pure _
  · exact within_table.bind fun _ => within_report _

theorem within_reportAmbiguous (g : Grammar) (r : Nat) (t : Token) :
    (reportAmbiguous g r t).Within n := by
  refine within_get.bind fun desk => ?_
  split
  · exact within_pure _
  · exact (within_report _).bind fun _ => within_modify _

/-- A guard is compared with as many tokens as it has, and none behind them is looked at. -/
theorem within_matchesGuard {k : Nat} {guard : List TokenId} (hguard : k + guard.length ≤ n) :
    (matchesGuard k guard).Within n := by
  induction guard generalizing k with
  | nil => exact within_pure _
  | cons id guard ih =>
    rw [List.length_cons] at hguard
    refine (within_ask fun j hj => ?_).bind fun t => ?_
    · -- one more token of the guard is left, so the look at `k` stays below its end
      cases hj
      omega
    · split
      · exact ih (by omega)
      · exact within_pure _

theorem within_selectGuarded {as : List Alternative} (has : ∀ a ∈ as, a.guard.length ≤ n) :
    (selectGuarded as).Within n := by
  induction as with
  | nil => exact within_pure _
  | cons a rest ih =>
    obtain ⟨ha, hrest⟩ := List.forall_mem_cons.1 has
    rw [selectGuarded]
    split
    · exact ih hrest
    · refine (within_matchesGuard (by omega)).bind fun matched => ?_
      split
      · exact within_pure _
      · exact ih hrest

section

/-! There is always room for one token. -/

variable (hn : 0 < n)
include hn

theorem within_look : look.Within n := within_ask fun _ hk => Option.some.inj hk ▸ hn

theorem within_takeLeaf : takeLeaf.Within n :=
  (within_ask fun _ hk => Option.some.inj hk ▸ hn).bind fun _ _ => trivial

theorem within_synchronize (sync : TokenSet) : (synchronize sync).Within n :=
  within_ask fun _ hk => Option.some.inj hk ▸ hn

theorem within_absorb : absorb.Within n := by
  refine (within_look hn).bind fun t => ?_
  split
  · exact within_pure _
  · exact (within_takeLeaf hn).bind fun leaf => (within_pushNode _ _ _).bind fun node =>
      within_markDamage.bind fun _ => within_pure _

theorem within_skipTo (sync : TokenSet) (place : Position) : (skipTo sync place).Within n :=
  (within_synchronize hn sync).bind fun _ => (within_pushError _ _).bind fun _ =>
    within_markDamage.bind fun _ => within_pure _

theorem within_unexpected (g : Grammar) (sync expected : TokenSet) :
    (unexpected g sync expected).Within n := by
  refine (within_look hn).bind fun t => within_atDamage.bind fun damaged => ?_
  split
  · exact within_absorb hn
  · exact (within_reportUnexpected _ _ _).bind fun _ => (within_skipTo hn _ _).bind fun _ =>
      within_pure _

theorem within_missingRule (g : Grammar) (r : Nat) : (missingRule g r).Within n :=
  (within_look hn).bind fun _ => (within_reportMissing _ _ _).bind fun _ =>
    (within_pushNode _ _ _).bind fun _ => within_markDamage.bind fun _ => within_pure _

theorem within_trailing : trailing.Within n :=
  (within_look hn).bind fun _ => (within_reportTrailing _).bind fun _ =>
    (within_synchronize hn ∅).bind fun _ => within_pushError _ _

theorem within_select (g : Grammar) (r : Nat) {as : List Alternative}
    (has : ∀ a ∈ as, a.guard.length ≤ n) : (select g r as).Within n := by
  refine (within_selectGuarded has).bind fun chosen => ?_
  split
  · exact within_pure _
  · refine (within_look hn).bind fun t => ?_
    split
    · exact within_pure _
    · exact within_pure _
    · exact (within_reportAmbiguous _ _ _).bind fun _ => within_pure _

end

end Routine

/-! ## Requests of a parser -/

namespace Parser

open Routine

variable {p : Parser} {n : Nat}

theorem within_beginRule (h : p.grammar.Guarded n) (r : Nat) (follow : TokenSet)
    (frames : List Frame) (nodes : List NodeId) :
    (p.beginRule r follow frames nodes).Within n := by
  rw [beginRule]
  split
  · exact (within_missingRule h.pos _ _).bind fun _ => within_pure _
  · exact within_consumed.bind fun _ => within_pure _
  · next as hb =>
    have hselect := within_select h.pos p.grammar r fun a ha => h.guard_le hb ha
    refine within_consumed.bind fun taken => hselect.bind fun chosen => ?_
    split
    · exact within_pure _
    · -- after skipping, all guards are compared once more
      refine within_atDamage.bind fun damaged => (within_unexpected h.pos _ _ _).bind fun errors =>
        (within_look h.pos).bind fun t => hselect.bind fun chosen => ?_
      split
      · split <;> exact within_pure _
      · exact within_pure _

theorem within_beginToken (hn : 0 < n) (id : TokenId) (frames : List Frame)
    (nodes : List NodeId) : (p.beginToken id frames nodes).Within n := by
  refine (within_look hn).bind fun t => ?_
  split
  · exact (within_takeLeaf hn).bind fun _ => within_pure _
  · refine (within_unexpected hn _ _ _).bind fun errors => (within_look hn).bind fun t => ?_
    split
    · exact (within_takeLeaf hn).bind fun _ => within_pure _
    · exact within_pure _

theorem within_beginSymbol (hn : 0 < n) (symbol : Symbol) (follow : TokenSet)
    (frames : List Frame) (nodes : List NodeId) :
    (p.beginSymbol symbol follow frames nodes).Within n := by
  cases symbol with
  | token id => exact within_beginToken hn id frames nodes
  | rule r | many r => exact within_pure _
  | opt r =>
    refine (within_look hn).bind fun t => ?_
    split <;> exact within_pure _

theorem within_beginSteps (hn : 0 < n) (steps : List Step) (follow : TokenSet) (flow : Flow)
    (frames : List Frame) (nodes : List NodeId) :
    (p.beginSteps steps follow flow frames nodes).Within n := by
  match steps, flow with
  | [], flow => exact within_pure _
  | s :: rest, .proceeding => exact within_beginSymbol hn _ _ _ _
  | s :: rest, .recovering =>
    refine (within_look hn).bind fun t => ?_
    split
    · exact within_beginSymbol hn _ _ _ _
    · exact within_pure _

theorem within_beginRound (hn : 0 < n) (r : Nat) (follow : TokenSet) (frames : List Frame)
    (nodes : List NodeId) : (p.beginRound r follow frames nodes).Within n := by
  refine (within_look hn).bind fun t => ?_
  dsimp only
  split
  · exact within_pure _
  · split
    · exact within_consumed.bind fun _ => within_pure _
    · split
      · exact within_pure _
      · exact (within_unexpected hn _ _ _).bind fun _ => within_pure _

theorem within_beginExpression (hn : 0 < n) (ctx : ExpressionContext) (frames : List Frame)
    (nodes : List NodeId) : (p.beginExpression ctx frames nodes).Within n := by
  refine (within_look hn).bind fun t => ?_
  split
  · exact (within_takeLeaf hn).bind fun _ => within_pure _
  · split
    · exact within_pure _
    · exact (within_unexpected hn _ _ _).bind fun _ => within_pure _

theorem within_beginOperator (hn : 0 < n) (ctx : ExpressionContext) (lhs : NodeId)
    (frames : List Frame) (nodes : List NodeId) :
    (beginOperator ctx lhs frames nodes).Within n := by
  refine (within_look hn).bind fun t => ?_
  split
  · exact within_pure _
  · split
    · exact within_pure _
    · exact (within_takeLeaf hn).bind fun _ => within_pure _

theorem within_soleNode (hn : 0 < n) (r : Nat) (nodes : List NodeId) :
    (soleNode r nodes).Within n := by
  have hmade : Routine.Within n (do let t ← look; pushNode (.rule r) nodes.reverse t.position) :=
    (within_look hn).bind fun _ => within_pushNode _ _ _
  match nodes with
  | [node] => exact within_pure _
  | [] | _ :: _ :: _ => exact hmade

theorem within_goBack (hn : 0 < n) (frame : Frame) (flow : Flow) (frames : List Frame)
    (nodes : List NodeId) : (p.goBack frame flow frames nodes).Within n := by
  cases frame with
  | rule r entered outer =>
    rw [goBack]
    split
    · exact (within_look hn).bind fun _ => (within_pushNode _ _ _).bind fun _ => within_pure _
    · exact within_pure _
  | steps rest follow => exact within_pure _
  | repetition r follow before =>
    refine within_consumed.bind fun taken => ?_
    split
    · exact (within_absorb hn).bind fun _ => within_pure _
    · exact within_pure _
  | operand ctx outer => exact (within_soleNode hn _ _).bind fun _ => within_pure _
  | unary ctx op outer | binary ctx op outer =>
    exact (within_pushNode _ _ _).bind fun _ => within_pure _

/-- One step looks no further ahead than the guards of the grammar need. -/
theorem within_proceed (h : p.grammar.Guarded n) (a : Agenda) : (p.proceed a).Within n := by
  obtain ⟨task, frames, nodes⟩ := a
  cases task with
  | rule r follow => exact within_beginRule h r follow frames nodes
  | steps rest follow flow => exact within_beginSteps h.pos rest follow flow frames nodes
  | repetition r follow => exact within_beginRound h.pos r follow frames nodes
  | expression ctx => exact within_beginExpression h.pos ctx frames nodes
  | climb ctx lhs => exact within_beginOperator h.pos ctx lhs frames nodes
  | done flow =>
    cases frames with
    | nil => exact within_pure _
    | cons frame frames => exact within_goBack h.pos frame flow frames nodes

/-- All steps look no further ahead than one. -/
theorem within_advance (h : p.grammar.Guarded n) (m : Nat) (a : Agenda) :
    (p.advance m a).Within n := by
  induction m generalizing a with
  | zero => exact within_pure _
  | succ m ih => exact (within_proceed h a).bind ih

theorem within_answer (hn : 0 < n) (a : Agenda) : (answer a).Within n := by
  have hclear : ∀ nodes, (clear nodes).Within n := by
    intro nodes
    refine (within_look hn).bind fun t => ?_
    split
    · exact within_pure _
    · exact (within_trailing hn).bind fun _ => within_pure _
  have hconclude : ∀ nodes, (conclude nodes).Within n := fun nodes =>
    (hclear nodes).bind fun _ => (within_look hn).bind fun _ => within_get.bind fun _ =>
      within_allReports.bind fun _ => within_pure _
  rw [answer]
  split
  · exact (hconclude _).bind fun _ => within_pure _
  · exact within_pure _

/-- **A parser looks no further ahead than the guards of its grammar need.** -/
theorem within_reader (h : p.grammar.Guarded n) (k : Nat) : (p.reader k).Within n := by
  have hembark : p.embark.Within n := (within_look h.pos).bind fun _ => within_pure _
  have hroutine : (p.routine (2 ^ k)).Within n :=
    hembark.bind fun a => (within_advance h _ a).bind fun b => within_answer h.pos b
  exact (hroutine _).bind fun _ => trivial

end Parser

/-! ## A guard of two tokens -/

namespace Grammar

/-- A list of names; a name with a plus behind it is one item by its guard. -/
def pairedDecls : List GrammarDecl :=
  [.rule "list" [⟨[.many 1], []⟩],
    .rule "item" [⟨[.token (.kind 0), .token (.kind 2)], [.kind 0, .kind 2]⟩,
      ⟨[.token (.kind 0)], []⟩],
    .start 0]

/-- The grammar of these declarations. -/
def paired : Grammar := (GrammarDraft.ofDecls pairedDecls).finished 0

theorem ofDecls_paired : ofDecls pairedDecls = .ok paired := by
  refine GrammarDraft.build_eq_ok_iff.2 ⟨0, ?_, ?_, ?_, rfl⟩
  · decide +kernel
  · decide +kernel
  · cbv

theorem lookahead_paired : paired.lookahead = 2 := by decide +kernel

end Grammar

/-! ## Configurations -/

namespace ConfigDraft

/-- The depth is the one that was given, if any, and enough. -/
theorem checkedLookahead_eq_ok {given : Option Nat} {needed n : Nat}
    (h : checkedLookahead given needed = .ok n) : n = given.getD needed ∧ needed ≤ n := by
  match given with
  | none =>
    cases h
    exact ⟨rfl, Nat.le_refl _⟩
  | some 0 => cases h
  | some (d + 1) =>
    rw [checkedLookahead] at h
    split at h
    · cases h
    · next hdeep =>
      cases h
      exact ⟨rfl, Nat.le_of_not_lt hdeep⟩
    · nofun

/-- An accepted configuration looks as far ahead as its grammar needs. -/
theorem lookahead_of_build {d : ConfigDraft} {c : Config} (h : d.build = .ok c) :
    c.lookahead = d.lookahead.getD c.grammar.lookahead ∧ c.grammar.lookahead ≤ c.lookahead := by
  rw [build] at h
  split at h
  · cases h
  · cases h
  · next table g _ _ =>
    cases hdepth : checkedLookahead d.lookahead g.lookahead with
    | error e =>
      rw [hdepth] at h
      cases h
    | ok n =>
      rw [hdepth] at h
      simp only [bind, Except.bind] at h
      split at h
      · cases h
      · cases h
        exact checkedLookahead_eq_ok hdepth

end ConfigDraft

namespace Config

/-- All requests that are made of the stream in the first `2 ^ k` steps of compiling a text, and at
the end if it is reached by then. -/
def visits (c : Config) (k : Nat) (source : SourceBuffer) : List Visit :=
  (c.parser.reader k).visits (c.stream source)

/-- All streams there are while these requests are served. -/
def moments (c : Config) (k : Nat) (source : SourceBuffer) : List TokenStream :=
  (c.visits k source).flatMap Visit.moments

/-- **The lookahead of an accepted configuration is enough.** A text is compiled by asking the
stream, and the stream in every moment of the machine is one of those while the requests are served.
No request looks as far ahead as the grammar says, which is no more than the depth, and at no time
there are more tokens in the buffer, or more that have been made and not been taken. -/
theorem lookahead_suffices {decls : List GrammarDecl} {draft : ConfigDraft} {c : Config}
    (hg : Grammar.ofDecls decls = .ok c.grammar) (hc : draft.build = .ok c)
    (source : SourceBuffer) :
    c.lookahead = draft.lookahead.getD c.grammar.lookahead ∧
      c.grammar.lookahead ≤ c.lookahead ∧
      c.compile? source =
        (((c.parser.reader Parser.patience).read (c.stream source)).1.map fun p =>
          ⟨p.tree, DiagnosticLog.empty.extend p.diagnostics⟩) ∧
      ∀ k,
        (∀ n ≤ 2 ^ k,
          (c.parser.run n (c.parser.start (c.stream source))).state.stream ∈ c.moments k source) ∧
        (∀ v ∈ c.visits k source, ∀ j, v.request.sight = some j → j < c.grammar.lookahead) ∧
        ∀ s ∈ c.moments k source,
          s.buffer.length ≤ c.grammar.lookahead ∧
            s.lexer.produced ≤ s.consumed + c.grammar.lookahead := by
  obtain ⟨hgiven, hdepth⟩ := ConfigDraft.lookahead_of_build hc
  have hguarded : c.parser.grammar.Guarded c.grammar.lookahead :=
    (Grammar.guarded_iff hg).2 (Nat.le_refl _)
  have hsettled : (c.stream source).Settled c.grammar.lookahead := .ofText _ _ _ _ _
  refine ⟨hgiven, hdepth, ?_, fun k => ?_⟩
  · rw [Parser.read_reader]
    rfl
  · have hholds := (Parser.within_reader hguarded k).holds hsettled
    refine ⟨fun n hn => ?_, fun v hv => (hholds v hv).1, fun s hs => ?_⟩
    · obtain ⟨v, hv, hmem⟩ := c.parser.exists_visit_of_run hn (c.stream source)
      exact List.mem_flatMap.2 ⟨v, hv, hmem⟩
    · obtain ⟨v, hv, hmem⟩ := List.mem_flatMap.1 hs
      have hs := (hholds v hv).2 s hmem
      exact ⟨hs.length_le, hs.produced_le⟩

/-- The names and pluses of the small grammar above, with a depth of three. -/
def pairing : Config := ⟨sampleTable, .paired, .single (.kind 2), 3⟩

theorem build_pairing :
    ConfigDraft.build ⟨some sampleTable, some .paired, .single (.kind 2), some 3⟩
      = .ok pairing := by
  have hdeep : ¬ 3 < 2 := by decide
  have hsync : (TokenSet.single (.kind 2)).members.find?
      (fun id => !ConfigDraft.defines sampleTable id) = none := by decide +kernel
  rw [ConfigDraft.build]
  simp only [ConfigDraft.checkedLookahead, Grammar.lookahead_paired, if_neg hdeep, hsync]
  rfl

theorem pairing_suffices :
    Grammar.ofDecls Grammar.pairedDecls = .ok pairing.grammar ∧
      ConfigDraft.build ⟨some sampleTable, some .paired, .single (.kind 2), some 3⟩
        = .ok pairing ∧
      (∀ v ∈ pairing.visits Parser.patience (.ofText none "x+x"),
        ∀ j, v.request.sight = some j → j < 2) ∧
      ∀ s ∈ pairing.moments Parser.patience (.ofText none "x+x"),
        s.buffer.length ≤ 2 ∧ s.lexer.produced ≤ s.consumed + 2 := by
  have hlookahead : pairing.grammar.lookahead = 2 := Grammar.lookahead_paired
  obtain ⟨-, -, -, h⟩ :=
    lookahead_suffices Grammar.ofDecls_paired build_pairing (.ofText none "x+x")
  rw [hlookahead] at h
  exact ⟨Grammar.ofDecls_paired, build_pairing, (h Parser.patience).2⟩

end Config

end FrontEnd
