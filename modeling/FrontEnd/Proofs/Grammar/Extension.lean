import FrontEnd.Proofs.Grammar.Cycles

/-!
# One more rule

A rule that is declared behind the others may name all of them, and none of them names it. **Nothing
changes about the others then**: neither what can be empty and what they begin with, nor what the
parser knows of their productions. Where nothing was wrong with them, nothing is wrong with the new
ones, unless the last rule itself makes something optional that can be empty.

- `Analysis.Extends`: rules with more behind them that they do not name;
- `Analysis.Extends.nullables`, `Analysis.Extends.firsts`: the analysis of the first ones;
- `Analysis.Extends.not_leftRecursive`: there is no new way around;
- `Grammar.exists_continues`: **a grammar that goes on with one rule more, and starts with it**.
-/

namespace FrontEnd

namespace Analysis

/-- The rules of the first list and more, all of which name only the former. -/
structure Extends (rules rules' : Rules) : Prop where
  size_le : rules.size ≤ rules'.size
  same : ∀ r < rules.size, rules'[r]? = rules[r]?
  references_lt : ∀ rule ∈ rules'.toList, ∀ s ∈ GrammarDraft.references rule.body, s < rules.size

variable {rules rules' : Rules} {r s : Nat} {t : TokenId} {symbols : List Symbol}
  {rule : Rule Production}

theorem blank_congr {Q Q' : Nat → Prop} {symbol : Symbol}
    (h : ∀ s, symbol.rule? = some s → (Q s ↔ Q' s)) : Blank Q symbol ↔ Blank Q' symbol := by
  cases symbol with
  | token t => exact Iff.rfl
  | rule s => exact h s rfl
  | opt s | many s => exact Iff.rfl

/-! ## What the analysis of a production depends on -/

section Congruence

variable {n : Nat} {nullable nullable' : Array Bool} {first first' : Array TokenSet}
  {symbol : Symbol}

theorem names_before {before behind : List Symbol} {symbol : Symbol}
    (hn : Names n symbols) (hsplit : symbols = before ++ symbol :: behind) :
    Names n before ∧ ∀ s, symbol.rule? = some s → s < n := by
  subst hsplit
  refine ⟨fun s hs => hn s ?_, hn.of_mem (List.mem_append_right _ List.mem_cons_self)⟩
  rw [List.filterMap_append]
  exact List.mem_append_left _ hs

theorem symbolNullable_congr
    (hnull : ∀ s < n, nullable'.getD s false = nullable.getD s false)
    (hn : ∀ s, symbol.rule? = some s → s < n) :
    symbolNullable nullable' symbol = symbolNullable nullable symbol := by
  cases symbol with
  | token t => rfl
  | rule s => exact hnull s (hn s rfl)
  | opt s | many s => rfl

theorem symbolFirst_congr (hfirst : ∀ s < n, first'.getD s ∅ = first.getD s ∅)
    (hn : ∀ s, symbol.rule? = some s → s < n) :
    symbolFirst first' symbol = symbolFirst first symbol := by
  cases symbol with
  | token t => rfl
  | rule s | opt s | many s => exact hfirst s (hn s rfl)

variable (hnull : ∀ s < n, nullable'.getD s false = nullable.getD s false)
  (hfirst : ∀ s < n, first'.getD s ∅ = first.getD s ∅)

include hnull hfirst

theorem sequenceFirst_congr (hn : Names n symbols) :
    sequenceFirst nullable' first' symbols = sequenceFirst nullable first symbols := by
  induction symbols with
  | nil => rfl
  | cons symbol rest ih =>
    obtain ⟨hsymbol, hrest⟩ := hn.cons
    rw [sequenceFirst, sequenceFirst, symbolNullable_congr hnull hsymbol,
      symbolFirst_congr hfirst hsymbol, ih hrest]

theorem steps_congr (hn : Names n symbols) :
    steps nullable' first' symbols = steps nullable first symbols := by
  induction symbols with
  | nil => rfl
  | cons symbol rest ih =>
    obtain ⟨-, hrest⟩ := hn.cons
    rw [steps, steps, sequenceFirst_congr hnull hfirst hrest, ih hrest]

/-- What is noted of a production depends on the rules that it names. -/
theorem alternative_congr {p : Production} (hn : Names n p.symbols) :
    alternative nullable' first' p = alternative nullable first p := by
  rw [alternative, alternative, sequenceFirst_congr hnull hfirst hn, steps_congr hnull hfirst hn]

end Congruence

/-! ## Rules with more behind them -/

/-- An edge leads to a rule that is named. -/
theorem LeftEdge.mem_references (h : LeftEdge rules r s) :
    ∃ rule ∈ rules.toList, s ∈ GrammarDraft.references rule.body := by
  rcases h with ⟨hr, hbody, hp, hsplit, -, hs⟩ | ⟨hr, hbody, rfl⟩
  · refine ⟨_, Grammar.Finishes.mem_toList hr, ?_⟩
    rw [hbody]
    refine List.mem_filterMap.2 ⟨_, List.mem_flatMap.2 ⟨_, hp, ?_⟩, hs⟩
    rw [hsplit]
    exact List.mem_append_right _ List.mem_cons_self
  · refine ⟨_, Grammar.Finishes.mem_toList hr, ?_⟩
    rw [hbody]
    exact List.mem_singleton_self _

namespace Extends

/-- One rule more is there. -/
theorem push (hc : Closed rules)
    (h : ∀ s ∈ GrammarDraft.references rule.body, s < rules.size) :
    Extends rules (rules.push rule) where
  size_le := by
    rw [Array.size_push]
    exact Nat.le_succ _
  same := fun r hr => by rw [Array.getElem?_push_lt hr, Array.getElem?_eq_getElem hr]
  references_lt := by
    intro rule' hrule'
    rw [Array.toList_push, List.mem_append] at hrule'
    rcases hrule' with hold | hnew
    · exact hc rule' hold
    · obtain rfl := List.mem_singleton.1 hnew
      exact h

variable (h : Extends rules rules')

include h

theorem getElem? (hr : rules[r]? = some rule) : rules'[r]? = some rule := by
  obtain ⟨hlt, -⟩ := Array.getElem?_eq_some_iff.1 hr
  rw [h.same r hlt, hr]

theorem of_getElem? (hr : rules'[r]? = some rule) (hlt : r < rules.size) :
    rules[r]? = some rule := by
  rw [← h.same r hlt, hr]

theorem closed : Closed rules := by
  intro rule hrule
  obtain ⟨r, hr⟩ := List.getElem?_of_mem hrule
  rw [Array.getElem?_toList] at hr
  exact h.references_lt rule (Grammar.Finishes.mem_toList (h.getElem? hr))

theorem closed_extended : Closed rules' :=
  fun rule hrule s hs => Nat.lt_of_lt_of_le (h.references_lt rule hrule s hs) h.size_le

/-! ## What can be empty -/

theorem canBeEmpty_iff (hr : r < rules.size) : CanBeEmpty rules' r ↔ CanBeEmpty rules r := by
  constructor
  · intro hempty
    induction hempty with
    | sequence hrule hbody hp htoken _ ih =>
      have hnames := h.references_lt _ (Grammar.Finishes.mem_toList hrule)
      rw [hbody] at hnames
      refine .sequence (h.of_getElem? hrule hr) hbody hp htoken fun s hs => ih s hs ?_
      exact (names_of_mem hnames hp).of_mem hs s rfl
    | expression hrule hbody _ ih =>
      have hnames := h.references_lt _ (Grammar.Finishes.mem_toList hrule)
      rw [hbody] at hnames
      exact .expression (h.of_getElem? hrule hr) hbody (ih (operand_lt_of_references hnames))
  · intro hempty
    clear hr
    induction hempty with
    | sequence hrule hbody hp htoken _ ih => exact .sequence (h.getElem? hrule) hbody hp htoken ih
    | expression hrule hbody _ ih => exact .expression (h.getElem? hrule) hbody ih

theorem vacant_iff (hn : Names rules.size symbols) :
    Vacant rules' symbols ↔ Vacant rules symbols :=
  forall₂_congr fun _ hsymbol => blank_congr fun s hs => h.canBeEmpty_iff (hn.of_mem hsymbol s hs)

/-- The first rules are found to be empty as they were. -/
theorem nullables (hr : r < rules.size) :
    (nullables rules').getD r false = (Analysis.nullables rules).getD r false := by
  rw [Bool.eq_iff_iff, nullables_iff, nullables_iff]
  exact h.canBeEmpty_iff hr

/-! ## What rules begin with -/

theorem names_production {ps : List Production} {p : Production} (hr : rules'[r]? = some rule)
    (hbody : rule.body = .sequence ps) (hp : p ∈ ps) : Names rules.size p.symbols := by
  have hnames := h.references_lt _ (Grammar.Finishes.mem_toList hr)
  rw [hbody] at hnames
  exact names_of_mem hnames hp

theorem canBegin_iff (hr : r < rules.size) : CanBegin rules' r t ↔ CanBegin rules r t := by
  constructor
  · intro hbegin
    induction hbegin with
    | token hrule hbody hp hsplit hbefore =>
      obtain ⟨hn, -⟩ := names_before (h.names_production hrule hbody hp) hsplit
      exact .token (h.of_getElem? hrule hr) hbody hp hsplit ((h.vacant_iff hn).1 hbefore)
    | symbol hrule hbody hp hsplit hbefore hs _ ih =>
      obtain ⟨hn, hlt⟩ := names_before (h.names_production hrule hbody hp) hsplit
      exact .symbol (h.of_getElem? hrule hr) hbody hp hsplit ((h.vacant_iff hn).1 hbefore) hs
        (ih (hlt _ hs))
    | operand hrule hbody _ ih =>
      have hnames := h.references_lt _ (Grammar.Finishes.mem_toList hrule)
      rw [hbody] at hnames
      exact .operand (h.of_getElem? hrule hr) hbody (ih (operand_lt_of_references hnames))
    | sign hrule hbody ht => exact .sign (h.of_getElem? hrule hr) hbody ht
  · intro hbegin
    clear hr
    induction hbegin with
    | token hrule hbody hp hsplit hbefore =>
      have hrule' := h.getElem? hrule
      obtain ⟨hn, -⟩ := names_before (h.names_production hrule' hbody hp) hsplit
      exact .token hrule' hbody hp hsplit ((h.vacant_iff hn).2 hbefore)
    | symbol hrule hbody hp hsplit hbefore hs _ ih =>
      have hrule' := h.getElem? hrule
      obtain ⟨hn, -⟩ := names_before (h.names_production hrule' hbody hp) hsplit
      exact .symbol hrule' hbody hp hsplit ((h.vacant_iff hn).2 hbefore) hs ih
    | operand hrule hbody _ ih => exact .operand (h.getElem? hrule) hbody ih
    | sign hrule hbody ht => exact .sign (h.getElem? hrule) hbody ht

/-- The first sets are what they were. -/
theorem firsts (hr : r < rules.size) :
    (firsts rules' (Analysis.nullables rules')).getD r ∅
      = (Analysis.firsts rules (Analysis.nullables rules)).getD r ∅ := by
  refine TokenSet.ext_of_tight ((fits_firsts _ _).2 r) ((fits_firsts _ _).2 r) fun i hi => ?_
  obtain ⟨t, ht⟩ := TokenId.exists_ofIndex? hi
  obtain rfl := TokenId.index_of_ofIndex? ht
  rw [← TokenSet.contains_eq_bit, ← TokenSet.contains_eq_bit, Bool.eq_iff_iff, firsts_iff,
    firsts_iff]
  exact h.canBegin_iff hr

/-- What is noted of a production is what was noted. -/
theorem alternative {p : Production} (hn : Names rules.size p.symbols) :
    Analysis.alternative (Analysis.nullables rules')
        (Analysis.firsts rules' (Analysis.nullables rules')) p
      = Analysis.alternative (Analysis.nullables rules)
        (Analysis.firsts rules (Analysis.nullables rules)) p :=
  alternative_congr (fun _ => h.nullables) (fun _ => h.firsts) hn

/-! ## What can be wrong -/

/-- What is optional or repeated was not empty and is not, if the last rule does nothing new. -/
theorem nullableRepetition?_eq_none
    (hrep : nullableRepetition? rules (Analysis.nullables rules) = none)
    (hplain : ∀ rule ∈ rules'.toList, rule ∈ rules.toList ∨
      ∀ p ∈ rule.body.alternatives, ∀ s, .opt s ∉ p.symbols ∧ .many s ∉ p.symbols) :
    nullableRepetition? rules' (Analysis.nullables rules') = none := by
  refine List.findSome?_eq_none_iff.2 fun rule hrule => ?_
  refine List.findSome?_eq_none_iff.2 fun symbol hsymbol => ?_
  obtain ⟨p, hp, hmem⟩ := List.mem_flatMap.1 hsymbol
  rcases hplain rule hrule with hold | hplain
  · have hnone := List.findSome?_eq_none_iff.1 (List.findSome?_eq_none_iff.1 hrep rule hold)
      symbol hsymbol
    have hsame : ∀ s, symbol.rule? = some s → (Analysis.nullables rules').getD s false
        = (Analysis.nullables rules).getD s false := by
      intro s hs
      refine h.nullables (h.references_lt rule hrule s ?_)
      cases hbody : rule.body with
      | sequence ps =>
        rw [hbody] at hsymbol
        exact List.mem_filterMap.2 ⟨symbol, hsymbol, hs⟩
      | undefined | expression ops =>
        rw [hbody] at hp
        exact absurd hp List.not_mem_nil
    cases symbol with
    | token t | rule s => rfl
    | opt s | many s =>
      dsimp only at hnone ⊢
      rwa [hsame s rfl]
  · cases symbol with
    | token t | rule s => rfl
    | opt s => exact absurd hmem (hplain p hp s).1
    | many s => exact absurd hmem (hplain p hp s).2

theorem leftEdge (hedge : LeftEdge rules' r s) (hr : r < rules.size) : LeftEdge rules r s := by
  rcases hedge with ⟨hrule, hbody, hp, hsplit, hbefore, hs⟩ | ⟨hrule, hbody, hs⟩
  · obtain ⟨hn, -⟩ := names_before (h.names_production hrule hbody hp) hsplit
    exact .symbol (h.of_getElem? hrule hr) hbody hp hsplit ((h.vacant_iff hn).1 hbefore) hs
  · exact .operand (h.of_getElem? hrule hr) hbody hs

theorem leftEdge_lt (hedge : LeftEdge rules' r s) : s < rules.size := by
  obtain ⟨rule, hrule, hs⟩ := hedge.mem_references
  exact h.references_lt rule hrule s hs

/-- A way along edges that begins at one of the first rules stays among them. -/
theorem way (hway : Relation.TransGen (LeftEdge rules') r s) (hr : r < rules.size) :
    Relation.TransGen (LeftEdge rules) r s := by
  induction hway using Relation.TransGen.head_induction_on with
  | single hedge => exact .single (h.leftEdge hedge hr)
  | head hedge _ ih => exact .head (h.leftEdge hedge hr) (ih (h.leftEdge_lt hedge))

/-- There is no new left recursion, since no edge leads to a new rule. -/
theorem not_leftRecursive (hleft : leftRecursive? rules (Analysis.nullables rules) = none) :
    leftRecursive? rules' (Analysis.nullables rules') = none := by
  rw [← Option.not_isSome_iff_eq_none, leftRecursive?_isSome_iff h.closed_extended]
  rintro ⟨r, hcycle⟩
  have hr : r < rules.size := by
    obtain ⟨s, -, hedge⟩ := Relation.TransGen.tail'_iff.1 hcycle
    exact h.leftEdge_lt hedge
  exact not_cycle_of_not_found h.closed hleft (h.way hcycle hr)

end Extends

end Analysis

/-! ## Declarations -/

namespace GrammarDraft

theorem checkedStart_eq {d : GrammarDraft} (herror : d.error = none) {start : Nat}
    (hstart : d.start = some start) (hlt : start < d.rules.size) (hc : Analysis.Closed d.rules) :
    d.checkedStart = .ok start := by
  have hnone : d.dangling? = none := by
    refine List.find?_eq_none.2 fun s hs => ?_
    obtain ⟨rule, hrule, hs⟩ := List.mem_flatMap.1 hs
    rw [decide_eq_true_eq]
    exact Nat.not_le.2 (hc rule hrule s hs)
  simp only [checkedStart, herror, hstart, hnone, if_neg (Nat.not_le.2 hlt)]

end GrammarDraft

namespace Grammar

open Analysis

/-- The grammar has one rule more, with which it starts, and the others are as they were. -/
structure Continues (g g' : Grammar) (ps : List Production) : Prop where
  size : g'.size = g.size + 1
  start : g'.start = g.size
  body : ∀ r < g.size, g'.body r = g.body r
  nullable : ∀ r < g.size, g'.isNullable r = g.isNullable r
  first : ∀ r < g.size, g'.firstOf r = g.firstOf r
  last : g'.body g.size = .sequence (ps.map (alternative g'.nullable g'.first))

/-- A draft with one rule more becomes a grammar with one rule more. -/
theorem continues_finished {d d' : GrammarDraft} {name : String} {ps : List Production}
    (hrules : d'.rules = d.rules.push ⟨name, .sequence ps, false⟩)
    (h : Extends d.rules d'.rules) (start : Nat) :
    (d.finished start).Continues (d'.finished d.rules.size) ps := by
  have hsize : (d.finished start).size = d.rules.size := Array.size_map
  refine ⟨?_, hsize.symm, fun r hr => ?_, fun r hr => h.nullables (hsize ▸ hr),
    fun r hr => h.firsts (hsize ▸ hr), ?_⟩
  · rw [hsize, Grammar.size, GrammarDraft.finished, Array.size_map, hrules, Array.size_push]
  · obtain ⟨rule, hrule⟩ := exists_rule (hsize ▸ hr)
    rw [GrammarDraft.body_finished, GrammarDraft.body_finished, h.getElem? hrule, hrule]
    cases hbody : rule.body with
    | undefined | expression ops =>
      rw [Option.map_some, Option.getD_some, hbody, RuleBody.map, RuleBody.map]
    | sequence ps =>
      rw [Option.map_some, Option.getD_some, hbody, RuleBody.map, RuleBody.map]
      refine congrArg RuleBody.sequence (List.map_congr_left fun p hp => ?_)
      exact h.alternative (h.names_production (h.getElem? hrule) hbody hp)
  · rw [hsize, GrammarDraft.body_finished, hrules, Array.getElem?_push_size]
    rfl

/-- Behind the declarations of a grammar there is room for one rule more that names the others and
makes none of them optional. It can be the start rule, and it changes nothing about the others. -/
theorem exists_continues {decls : List GrammarDecl} {g : Grammar} (hg : ofDecls decls = .ok g)
    {name : String} (hname : ∀ rule ∈ g.rules, rule.name ≠ name) (hroom : g.size < 65536)
    {ps : List Production} (hnames : ∀ p ∈ ps, Analysis.Names g.size p.symbols)
    (hplain : ∀ p ∈ ps, ∀ s, .opt s ∉ p.symbols ∧ .many s ∉ p.symbols) :
    ∃ g', ofDecls (decls ++ [.rule name ps, .start g.size]) = .ok g' ∧ g.Continues g' ps := by
  obtain ⟨start, hstart, hrep, hleft, rfl⟩ := GrammarDraft.build_eq_ok_iff.1 hg
  obtain ⟨-, hclosed⟩ := GrammarDraft.checkedStart_spec hstart
  have hsize : ((GrammarDraft.ofDecls decls).finished start).size
      = (GrammarDraft.ofDecls decls).rules.size := Array.size_map
  rw [hsize] at hroom hnames ⊢
  -- The rule comes in behind the others, which keep their numbers.
  have hfresh : name ∉ (GrammarDraft.ofDecls decls).names := by
    intro hmem
    obtain ⟨rule, hrule, hmem⟩ := List.mem_map.1 hmem
    exact hname _ (Array.mem_map.2 ⟨rule, Array.mem_toList_iff.1 hrule, rfl⟩) hmem
  obtain ⟨hrules, hstart', herror⟩ := GrammarDraft.ofDecls_rule_start hfresh hroom ps
    (GrammarDraft.ofDecls decls).rules.size
  have herror' := herror.trans (GrammarDraft.error_of_checkedStart hstart)
  have hextends : Extends (GrammarDraft.ofDecls decls).rules
      ((GrammarDraft.ofDecls decls).rules.push ⟨name, .sequence ps, false⟩) := by
    refine .push hclosed fun s hs => ?_
    obtain ⟨symbol, hsymbol, hs⟩ := List.mem_filterMap.1 hs
    obtain ⟨p, hp, hsymbol⟩ := List.mem_flatMap.1 hsymbol
    exact (hnames p hp).of_mem hsymbol s hs
  rw [← hrules] at hextends
  have hlt : (GrammarDraft.ofDecls decls).rules.size <
      (GrammarDraft.ofDecls (decls ++ [.rule name ps,
        .start (GrammarDraft.ofDecls decls).rules.size])).rules.size := by
    rw [hrules, Array.size_push]
    exact Nat.lt_succ_self _
  have hrep' := hextends.nullableRepetition?_eq_none hrep fun rule hrule => by
    rw [hrules, Array.toList_push, List.mem_append] at hrule
    refine hrule.imp_right fun hnew => ?_
    obtain rfl := List.mem_singleton.1 hnew
    exact hplain
  have hstart'' := GrammarDraft.checkedStart_eq herror' hstart' hlt hextends.closed_extended
  exact ⟨_, GrammarDraft.build_eq_ok_iff.2
    ⟨_, hstart'', hrep', hextends.not_leftRecursive hleft, rfl⟩,
    continues_finished hrules hextends start⟩

end Grammar

end FrontEnd
