import FrontEnd.Proofs.Grammar.Drafts
import FrontEnd.Proofs.Grammar.LeastSolutions
import FrontEnd.Proofs.Grammar.Lookups

/-!
# Left recursion is found just where there is some

A rule is left-recursive when it can come back to itself without a token being read. By the bodies
of the rules alone this is a **cycle of edges from a rule to those that it can begin with**. The
search goes through the rules with one stack and one mark for each of them; it ends, it fails just
when there is such a cycle, and the rule that it names is on one.

- `Analysis.LeftEdge`: the edges, said of the bodies;
- `Analysis.mem_leftEdges_iff`: the edges that are followed are these;
- `Analysis.leftRecursive?_isSome_iff`: the search fails just when there is a cycle;
- `Grammar.leftRecursion_found`: what becomes of declarations with nothing else wrong.
-/

namespace FrontEnd

namespace Analysis

variable {rules : Rules} {r s : Nat}

/-! ## Edges -/

/-- The rule `r` can begin with the rule `s`. -/
inductive LeftEdge (rules : Rules) (r s : Nat) : Prop
  /-- A production names it where all before it can be empty. -/
  | symbol {rule : Rule Production} {ps : List Production} {p : Production}
    {before behind : List Symbol} {symbol : Symbol} (hr : rules[r]? = some rule)
    (hbody : rule.body = .sequence ps) (hp : p ∈ ps)
    (hsplit : p.symbols = before ++ symbol :: behind) (hbefore : Vacant rules before)
    (hs : symbol.rule? = some s) : LeftEdge rules r s
  | operand {rule : Rule Production} {ops : Operators} (hr : rules[r]? = some rule)
    (hbody : rule.body = .expression ops) (hs : ops.operand = s) : LeftEdge rules r s

theorem mem_leading_iff {symbols : List Symbol} :
    s ∈ leading (nullables rules) symbols ↔
      AtFront rules (fun symbol => symbol.rule? = some s) symbols := by
  induction symbols with
  | nil => exact ⟨fun h => absurd h List.not_mem_nil, fun h => absurd h not_atFront_nil⟩
  | cons symbol rest ih =>
    rw [leading, List.mem_append, Option.mem_toList, atFront_cons, ← symbolNullable_iff, ← ih]
    refine or_congr Iff.rfl ?_
    split
    · next hempty => exact (and_iff_right hempty).symm
    · next hempty => exact ⟨fun h => absurd h List.not_mem_nil, fun h => absurd h.1 hempty⟩

/-- The search follows the edges that the bodies say. -/
theorem mem_leftEdges_iff : s ∈ leftEdges rules (nullables rules) r ↔ LeftEdge rules r s := by
  constructor
  · intro h
    rw [leftEdges] at h
    cases hrule : rules[r]? with
    | none =>
      rw [hrule] at h
      exact absurd h List.not_mem_nil
    | some rule =>
      rw [hrule, Option.map_some] at h
      cases hbody : rule.body with
      | undefined =>
        rw [hbody] at h
        exact absurd h List.not_mem_nil
      | sequence ps =>
        rw [hbody] at h
        obtain ⟨p, hp, hs⟩ := List.mem_flatMap.1 h
        obtain ⟨before, symbol, behind, hsplit, hbefore, hsymbol⟩ := mem_leading_iff.1 hs
        exact .symbol hrule hbody hp hsplit hbefore hsymbol
      | expression ops =>
        rw [hbody] at h
        exact .operand hrule hbody (List.mem_singleton.1 h).symm
  · rintro (⟨hrule, hbody, hp, hsplit, hbefore, hs⟩ | ⟨hrule, hbody, rfl⟩)
    · rw [leftEdges, hrule, Option.map_some, hbody]
      exact List.mem_flatMap.2 ⟨_, hp, mem_leading_iff.2 ⟨_, _, _, hsplit, hbefore, hs⟩⟩
    · rw [leftEdges, hrule, Option.map_some, hbody]
      exact List.mem_singleton_self _

/-! ## Cycles -/

theorem cycle_of_found (h : leftRecursive? rules (nullables rules) = some r) :
    Relation.TransGen (LeftEdge rules) r r :=
  Relation.TransGen.mono (fun _ _ => mem_leftEdges_iff.1) _ _ (cycle_of_leftRecursive? h)

/-- Where the search does not fail, edges do not lead back: there are ranks that fall along them. -/
theorem not_cycle_of_not_found (hc : Closed rules)
    (h : leftRecursive? rules (nullables rules) = none) :
    ¬ Relation.TransGen (LeftEdge rules) r r := by
  obtain ⟨rank, -, hfall⟩ := exists_rank h
  have hrank : ∀ r, ∀ s ∈ leftEdges rules (nullables rules) r, rank s < rank r := by
    intro r s hs
    refine hfall r (Nat.lt_of_not_le fun hr => ?_) s (lt_of_mem_leftEdges hc hs) hs
    rw [leftEdges_of_size_le _ hr] at hs
    exact List.not_mem_nil hs
  intro hcycle
  exact not_cycle_of_rank hrank
    (Relation.TransGen.mono (fun _ _ => mem_leftEdges_iff.2) _ _ hcycle)

theorem leftRecursive?_isSome_iff (hc : Closed rules) :
    (leftRecursive? rules (nullables rules)).isSome ↔
      ∃ r, Relation.TransGen (LeftEdge rules) r r := by
  constructor
  · intro h
    obtain ⟨r, hr⟩ := Option.isSome_iff_exists.1 h
    exact ⟨r, cycle_of_found hr⟩
  · rintro ⟨r, hcycle⟩
    refine Option.ne_none_iff_isSome.1 fun hnone => ?_
    exact not_cycle_of_not_found hc hnone hcycle

end Analysis

/-! ## Drafts -/

namespace GrammarDraft

open Analysis

variable {d : GrammarDraft} {start : Nat}

/-- What is built when the search for left recursion is all that is left to be done. -/
theorem build_eq (hstart : d.checkedStart = .ok start)
    (hrep : nullableRepetition? d.rules (nullables d.rules) = none) :
    d.build = match leftRecursive? d.rules (nullables d.rules) with
      | some r => .error (.leftRecursion ((d.rules[r]?.map Rule.name).getD "<rule>"))
      | none => .ok (d.finished start) := by
  rw [build, hstart]
  simp only [bind, Except.bind, hrep]
  rfl

end GrammarDraft

namespace Grammar

open Analysis

variable {decls : List GrammarDecl} {d : GrammarDraft} {start : Nat}

/-- **Left recursion is found just where there is some.** When declarations pass all that is looked
at before, the search ends; there is a grammar unless some rule leads back to itself along edges to
what rules can begin with; and if so the fault names such a rule, and no other rule has its name. -/
theorem leftRecursion_found (hd : GrammarDraft.ofDecls decls = d)
    (hstart : d.checkedStart = .ok start)
    (hrep : nullableRepetition? d.rules (nullables d.rules) = none) :
    recursionIn? d.rules (nullables d.rules) =
        some (leftRecursive? d.rules (nullables d.rules)) ∧
      ((∃ name, ofDecls decls = .error (.leftRecursion name)) ↔
        ∃ r, Relation.TransGen (LeftEdge d.rules) r r) ∧
      ((∃ g, ofDecls decls = .ok g) ↔ ¬ ∃ r, Relation.TransGen (LeftEdge d.rules) r r) ∧
      ∀ name, ofDecls decls = .error (.leftRecursion name) →
        ∃ r rule, d.rules[r]? = some rule ∧ rule.name = name ∧
          Relation.TransGen (LeftEdge d.rules) r r ∧
          ∀ r' rule', d.rules[r']? = some rule' → rule'.name = name → r' = r := by
  obtain ⟨-, hclosed⟩ := GrammarDraft.checkedStart_spec hstart
  have hbuild : ofDecls decls = _ :=
    (congrArg GrammarDraft.build hd).trans (GrammarDraft.build_eq hstart hrep)
  obtain ⟨hends, hlt⟩ := recursionIn?_eq hclosed (size_nullables d.rules)
  refine ⟨hends, ?_⟩
  rw [hbuild, ← leftRecursive?_isSome_iff hclosed]
  cases hfound : leftRecursive? d.rules (nullables d.rules) with
  | none => simp
  | some r =>
    refine ⟨⟨fun _ => rfl, fun _ => ⟨_, rfl⟩⟩, by simp, fun name hname => ?_⟩
    obtain ⟨rule, hrule⟩ := exists_rule (hlt r hfound)
    dsimp only at hname
    rw [hrule] at hname
    cases hname
    refine ⟨r, rule, hrule, rfl, cycle_of_found hfound, fun r' rule' hrule' hname => ?_⟩
    subst hd
    exact GrammarDraft.eq_of_name (GrammarDraft.error_of_checkedStart hstart) hrule hrule' hname

/-- Items that may be left out, and a list that can begin with itself behind one. -/
def sampleList : List GrammarDecl :=
  [.rule "item" [⟨[.token (.kind 0)], []⟩], .declare "list", .define 1 [⟨[.opt 0, .rule 1], []⟩],
    .start 1]

theorem leftRecursion_found_sample :
    (GrammarDraft.ofDecls sampleList).checkedStart = .ok 1 ∧
      nullableRepetition? (GrammarDraft.ofDecls sampleList).rules
        (nullables (GrammarDraft.ofDecls sampleList).rules) = none ∧
      ∃ name, ofDecls sampleList = .error (.leftRecursion name) := by
  have hstart : (GrammarDraft.ofDecls sampleList).checkedStart = .ok 1 := by cbv
  have hrep : nullableRepetition? (GrammarDraft.ofDecls sampleList).rules
      (nullables (GrammarDraft.ofDecls sampleList).rules) = none := by decide +kernel
  have hrule : (GrammarDraft.ofDecls sampleList).rules[1]? =
      some ⟨"list", .sequence [⟨[.opt 0, .rule 1], []⟩], false⟩ := by cbv
  have hitem : Vacant (GrammarDraft.ofDecls sampleList).rules [.opt 0] :=
    List.forall_mem_singleton.2 trivial
  have hsplit : [Symbol.opt 0, .rule 1] = [.opt 0] ++ .rule 1 :: [] := rfl
  have hedge : LeftEdge (GrammarDraft.ofDecls sampleList).rules 1 1 :=
    .symbol hrule rfl List.mem_cons_self hsplit hitem rfl
  exact ⟨hstart, hrep, (leftRecursion_found rfl hstart hrep).2.1.2 ⟨1, .single hedge⟩⟩

end Grammar

end FrontEnd
