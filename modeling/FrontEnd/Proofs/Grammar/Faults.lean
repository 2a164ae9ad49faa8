import FrontEnd.Proofs.Grammar.Cycles
import FrontEnd.Proofs.Grammar.Declarations

/-!
# The first fault

Declarations are looked at in stages: for a misuse, for a rule to start with, for the rules that the
bodies name, for what is made optional though it can be empty, and for rules that begin with
themselves. **They become a grammar just when every stage is passed; else what is reported is the
first fault**. The grammar says what the declarations said.

- `Declarations.Sound`: declarations that pass every stage;
- `Declarations.FirstFault`: what is wrong first, read off from the declarations;
- `Declarations.Kept`: a grammar that says what they said;
- `Grammar.ofDecls_first_fault`: what becomes of declarations.
-/

namespace FrontEnd

/-- The same fault, but for which rule it is that begins with itself. -/
def GrammarError.Alike (e e' : GrammarError) : Prop :=
  e' = e ∨ ∃ name name', e = .leftRecursion name ∧ e' = .leftRecursion name'

namespace Declarations

open Analysis

/-! ## Stages -/

/-- The first in a list that is like this. -/
def Foremost {α : Type} (P : α → Prop) (xs : List α) (x : α) : Prop :=
  ∃ before behind, xs = before ++ x :: behind ∧ P x ∧ ∀ y ∈ before, ¬ P y

/-- The numbers that the bodies of rules name, in order. -/
def named (rules : Rules) : List Nat :=
  rules.toList.flatMap fun rule => GrammarDraft.references rule.body

/-- The symbols of the productions in order, each with its rule. -/
def symbols (rules : Rules) : List (Rule Production × Symbol) :=
  rules.toList.flatMap fun rule =>
    (rule.body.alternatives.flatMap Production.symbols).map fun symbol => (rule, symbol)

/-- A symbol that makes optional or repeats what can be empty. -/
def Hollow (rules : Rules) (symbol : Symbol) : Prop :=
  ∃ s, (symbol = .opt s ∨ symbol = .many s) ∧ CanBeEmpty rules s

/-- There is a rule with which to start. -/
structure Started (decls : List GrammarDecl) : Prop extends Orderly decls where
  started : ∃ s, start? decls = some s ∧ s < (names decls).length

/-- The bodies name rules that are there. -/
structure Linked (decls : List GrammarDecl) : Prop extends Started decls where
  linked : ∀ s ∈ named (rules decls), s < (names decls).length

/-- Nothing is made optional or repeated that can be empty. -/
structure Solid (decls : List GrammarDecl) : Prop extends Linked decls where
  solid : ∀ place ∈ symbols (rules decls), ¬ Hollow (rules decls) place.2

/-- No rule comes back to itself before a token is read. -/
structure Sound (decls : List GrammarDecl) : Prop extends Solid decls where
  acyclic : ∀ r, ¬ Relation.TransGen (LeftEdge (rules decls)) r r

/-- What is wrong first. Among rules that begin with themselves none comes first. -/
inductive FirstFault (decls : List GrammarDecl) : GrammarError → Prop
  | misuse {e : GrammarError} (h : FirstMisuse decls e) : FirstFault decls e
  | noStart (h : Orderly decls) (hstart : start? decls = none) : FirstFault decls .noStart
  | start {s : Nat} (h : Orderly decls) (hstart : start? decls = some s)
    (hs : (names decls).length ≤ s) : FirstFault decls (.unknownRule s)
  | reference {s : Nat} (h : Started decls)
    (hs : Foremost ((names decls).length ≤ ·) (named (rules decls)) s) :
    FirstFault decls (.unknownRule s)
  | repetition {rule : Rule Production} {symbol : Symbol} {s : Nat} {inner : String}
    (h : Linked decls)
    (hfirst : Foremost (fun place => Hollow (rules decls) place.2) (symbols (rules decls))
      (rule, symbol))
    (hs : symbol.rule? = some s) (hinner : (names decls)[s]? = some inner) :
    FirstFault decls (.nullableRepetition rule.name inner)
  | leftRecursion {r : Nat} {name : String} (h : Solid decls)
    (hcycle : Relation.TransGen (LeftEdge (rules decls)) r r)
    (hname : (names decls)[r]? = some name) : FirstFault decls (.leftRecursion name)

variable {decls : List GrammarDecl} {d : GrammarDraft} {e : GrammarError} {r s : Nat}
  {symbol : Symbol}

/-! ## Searching a list -/

theorem Foremost.mem {α : Type} {P : α → Prop} {xs : List α} {x : α} (h : Foremost P xs x) :
    x ∈ xs := by
  obtain ⟨before, behind, rfl, -⟩ := h
  exact List.mem_append_right _ List.mem_cons_self

theorem Foremost.holds {α : Type} {P : α → Prop} {xs : List α} {x : α} (h : Foremost P xs x) :
    P x := by
  obtain ⟨-, -, -, hx, -⟩ := h
  exact hx

theorem exists_foremost {α : Type} {P : α → Prop} {xs : List α} (h : ¬ ∀ x ∈ xs, ¬ P x) :
    ∃ x, Foremost P xs x := by
  classical
  cases hfind : xs.find? (fun x => decide (P x)) with
  | none =>
    refine absurd (fun x hx hP => ?_) h
    exact List.find?_eq_none.1 hfind x hx (decide_eq_true hP)
  | some x =>
    obtain ⟨hx, before, behind, hxs, hbefore⟩ := List.find?_eq_some_iff_append.1 hfind
    refine ⟨x, before, behind, hxs, of_decide_eq_true hx, fun y hy hP => ?_⟩
    have := hbefore y hy
    simp [hP] at this

theorem findSome?_flatMap {α β γ : Type} (f : α → List β) (g : β → Option γ) (xs : List α) :
    (xs.flatMap f).findSome? g = xs.findSome? fun x => (f x).findSome? g := by
  induction xs with
  | nil => rfl
  | cons x xs ih =>
    rw [List.flatMap_cons, List.findSome?_append, ih, List.findSome?_cons]
    cases (f x).findSome? g <;> rfl

/-! ## What is made optional -/

/-- The rule that a symbol makes optional or repeats, if it is marked as one that can be empty. -/
def hollow? (nullable : Array Bool) : Symbol → Option Nat
  | .opt s | .many s => if nullable.getD s false then some s else none
  | .token _ | .rule _ => none

theorem exists_rule?_of_hollow {rules : Rules} (h : Hollow rules symbol) :
    ∃ s, symbol.rule? = some s := by
  rcases h with ⟨s, rfl | rfl, -⟩
  · exact ⟨s, rfl⟩
  · exact ⟨s, rfl⟩

theorem hollow?_eq_some_iff {rules : Rules} :
    hollow? (nullables rules) symbol = some s ↔ symbol.rule? = some s ∧ Hollow rules symbol := by
  cases symbol with
  | token t | rule t => simp [hollow?, Hollow]
  | opt t | many t =>
    simp only [hollow?, nullables_iff, Option.ite_none_right_eq_some, Option.some.injEq,
      Symbol.rule?, Hollow, Symbol.opt.injEq, Symbol.many.injEq, reduceCtorEq, or_false, false_or,
      exists_eq_left']
    exact and_comm

theorem hollow?_eq_none_iff {rules : Rules} :
    hollow? (nullables rules) symbol = none ↔ ¬ Hollow rules symbol := by
  rw [Option.eq_none_iff_forall_ne_some]
  constructor
  · intro h hhollow
    obtain ⟨s, hs⟩ := exists_rule?_of_hollow hhollow
    exact h s (hollow?_eq_some_iff.2 ⟨hs, hhollow⟩)
  · exact fun h s hs => h (hollow?_eq_some_iff.1 hs).2

theorem nullableRepetition?_eq (rules : Rules) (nullable : Array Bool) :
    nullableRepetition? rules nullable = (symbols rules).findSome? fun place =>
      (hollow? nullable place.2).map (place.1, ·) := by
  rw [nullableRepetition?, symbols, findSome?_flatMap]
  congr 1
  funext rule
  rw [List.findSome?_map]
  congr 1
  funext symbol
  cases symbol with
  | token t | rule t => rfl
  | opt t | many t =>
    show ite _ _ _ = Option.map _ (ite _ _ _)
    split <;> rfl

/-- The fault that is reported is the first one. -/
theorem nullableRepetition?_of_foremost {rules : Rules} {rule : Rule Production}
    (h : Foremost (fun place => Hollow rules place.2) (symbols rules) (rule, symbol))
    (hs : symbol.rule? = some s) :
    nullableRepetition? rules (nullables rules) = some (rule, s) := by
  obtain ⟨before, behind, hsplit, hhollow, hbefore⟩ := h
  rw [nullableRepetition?_eq]
  refine List.findSome?_eq_some_iff.2 ⟨before, _, behind, hsplit, ?_, fun place hplace => ?_⟩
  · rw [hollow?_eq_some_iff.2 ⟨hs, hhollow⟩, Option.map_some]
  · rw [hollow?_eq_none_iff.2 (hbefore place hplace), Option.map_none]

theorem nullableRepetition?_eq_none {rules : Rules}
    (h : ∀ place ∈ symbols rules, ¬ Hollow rules place.2) :
    nullableRepetition? rules (nullables rules) = none := by
  rw [nullableRepetition?_eq, List.findSome?_eq_none_iff]
  intro place hplace
  rw [hollow?_eq_none_iff.2 (h place hplace), Option.map_none]

/-- The rule of a symbol is named by a body. -/
theorem mem_named_of_mem_symbols {rules : Rules} {place : Rule Production × Symbol}
    (h : place ∈ symbols rules) (hs : place.2.rule? = some s) : s ∈ named rules := by
  obtain ⟨rule, hrule, hplace⟩ := List.mem_flatMap.1 h
  obtain ⟨symbol, hsymbol, rfl⟩ := List.mem_map.1 hplace
  refine List.mem_flatMap.2 ⟨rule, hrule, ?_⟩
  cases hbody : rule.body with
  | undefined | expression ops =>
    rw [hbody] at hsymbol
    exact absurd hsymbol List.not_mem_nil
  | sequence ps =>
    rw [hbody] at hsymbol
    exact List.mem_filterMap.2 ⟨symbol, hsymbol, hs⟩

/-! ## From the stages to the draft -/

theorem closed_of_linked (h : Linked decls) : Closed (rules decls) := by
  intro rule hrule s hs
  rw [size_rules]
  exact h.linked s (List.mem_flatMap.2 ⟨rule, hrule, hs⟩)

/-- What is looked at in a draft that holds what has been said. -/
theorem Holds.checkedStart_eq (h : Holds decls d) (hstart : d.start = start? decls) :
    d.checkedStart = match start? decls with
      | none => .error .noStart
      | some s =>
        if (names decls).length ≤ s then .error (.unknownRule s)
        else match (named (rules decls)).find? ((names decls).length ≤ ·) with
          | some r => .error (.unknownRule r)
          | none => .ok s := by
  rw [GrammarDraft.checkedStart, h.error, hstart, GrammarDraft.dangling?, h.size_eq, h.rules_eq]
  cases start? decls with
  | none | some s => rfl

/-- A draft with a rule to start with, all of whose names are those of rules. -/
theorem Holds.checkedStart_of_linked (h : Holds decls d) (hd : d.start = start? decls)
    (hlinked : Linked decls) (hstart : start? decls = some s) : d.checkedStart = .ok s := by
  obtain ⟨s', hs', hlt⟩ := hlinked.started
  obtain rfl := Option.some.inj (hs'.symm.trans hstart)
  have hnone : (named (rules decls)).find? ((names decls).length ≤ ·) = none := by
    refine List.find?_eq_none.2 fun r hr => ?_
    exact fun hle => Nat.not_le.2 (hlinked.linked r hr) (of_decide_eq_true hle)
  rw [h.checkedStart_eq hd, hstart, hnone]
  dsimp only
  rw [if_neg (Nat.not_le.2 hlt)]

/-- A draft that names what is no rule. -/
theorem Holds.checkedStart_of_foremost (h : Holds decls d) (hd : d.start = start? decls)
    (hstarted : Started decls)
    (hr : Foremost ((names decls).length ≤ ·) (named (rules decls)) r) :
    d.checkedStart = .error (.unknownRule r) := by
  obtain ⟨s, hstart, hlt⟩ := hstarted.started
  obtain ⟨before, behind, hsplit, hle, hbefore⟩ := hr
  have hsome : (named (rules decls)).find? ((names decls).length ≤ ·) = some r := by
    refine List.find?_eq_some_iff_append.2 ⟨decide_eq_true hle, before, behind, hsplit, ?_⟩
    exact fun y hy => by simpa using hbefore y hy
  rw [h.checkedStart_eq hd, hstart, hsome]
  dsimp only
  rw [if_neg (Nat.not_le.2 hlt)]

end Declarations

namespace GrammarDraft

variable {d : GrammarDraft} {e : GrammarError}

theorem build_of_checkedStart (h : d.checkedStart = .error e) : d.build = .error e := by
  rw [build, h]
  rfl

theorem checkedStart_of_error (h : d.error = some e) : d.checkedStart = .error e := by
  rw [checkedStart, h]

theorem build_of_nullableRepetition? {start inner : Nat} {rule : Rule Production}
    (hstart : d.checkedStart = .ok start)
    (h : Analysis.nullableRepetition? d.rules (Analysis.nullables d.rules) = some (rule, inner)) :
    d.build = .error (.nullableRepetition rule.name
      ((d.rules[inner]?.map Rule.name).getD "<rule>")) := by
  rw [build, hstart]
  simp only [bind, Except.bind, h]

end GrammarDraft

namespace Declarations

open Analysis

section Verdict

variable {decls : List GrammarDecl} {e : GrammarError} {r s : Nat} {symbol : Symbol}
  (hroom : (names decls).length ≤ 65536)

include hroom

/-- Among rules that begin with themselves one is reported. -/
theorem ofDecls_of_cycle (h : Solid decls)
    (hcycle : Relation.TransGen (LeftEdge (rules decls)) r r) :
    ∃ name, Grammar.ofDecls decls = .error (.leftRecursion name) ∧
      FirstFault decls (.leftRecursion name) := by
  have hholds := holds_ofDecls h.toOrderly hroom
  have hclosed := closed_of_linked h.toLinked
  obtain ⟨start, hstart, -⟩ := h.started
  have hchecked := hholds.checkedStart_of_linked (start_ofDecls decls) h.toLinked hstart
  have hrep := nullableRepetition?_eq_none h.solid
  obtain ⟨s, hs⟩ := Option.isSome_iff_exists.1 ((leftRecursive?_isSome_iff hclosed).2 ⟨r, hcycle⟩)
  obtain ⟨-, hlt⟩ := recursionIn?_eq hclosed (size_nullables (rules decls))
  have hname := List.getElem?_eq_getElem (size_rules decls ▸ hlt s hs)
  rw [← hholds.rules_eq] at hrep
  have hbuild := GrammarDraft.build_eq hchecked hrep
  rw [hholds.rules_eq, hs] at hbuild
  dsimp only at hbuild
  rw [getElem?_rules, hname] at hbuild
  exact ⟨_, hbuild, .leftRecursion h (cycle_of_found hs) hname⟩

/-- What is wrong first is reported, or with left recursion some left recursion. -/
theorem ofDecls_of_firstFault (h : FirstFault decls e) :
    ∃ e', Grammar.ofDecls decls = .error e' ∧ FirstFault decls e' ∧ e.Alike e' := by
  have hd := start_ofDecls decls
  have hreported (herror : Grammar.ofDecls decls = .error e) :
      ∃ e', Grammar.ofDecls decls = .error e' ∧ FirstFault decls e' ∧ e.Alike e' :=
    ⟨e, herror, h, .inl rfl⟩
  cases h with
  | misuse h =>
    have herror := (error_ofDecls_iff hroom).2 h
    exact hreported (GrammarDraft.build_of_checkedStart (GrammarDraft.checkedStart_of_error herror))
  | noStart ho hstart =>
    refine hreported (GrammarDraft.build_of_checkedStart ?_)
    rw [(holds_ofDecls ho hroom).checkedStart_eq hd, hstart]
  | start ho hstart hs =>
    refine hreported (GrammarDraft.build_of_checkedStart ?_)
    rw [(holds_ofDecls ho hroom).checkedStart_eq hd, hstart]
    exact if_pos hs
  | reference h hs =>
    have hholds := holds_ofDecls h.toOrderly hroom
    exact hreported (GrammarDraft.build_of_checkedStart (hholds.checkedStart_of_foremost hd h hs))
  | @repetition rule symbol s inner h hfirst hs hinner =>
    have hholds := holds_ofDecls h.toOrderly hroom
    obtain ⟨start, hstart, -⟩ := h.started
    have hchecked := hholds.checkedStart_of_linked hd h hstart
    have hrep := nullableRepetition?_of_foremost hfirst hs
    rw [← hholds.rules_eq] at hrep
    have hbuild := GrammarDraft.build_of_nullableRepetition? hchecked hrep
    rw [hholds.getElem?_eq, hinner] at hbuild
    exact hreported hbuild
  | @leftRecursion r name h hcycle hname =>
    obtain ⟨name', herror, hfirst⟩ := ofDecls_of_cycle hroom h hcycle
    exact ⟨_, herror, hfirst, .inr ⟨name, name', rfl, rfl⟩⟩

theorem ofDecls_of_sound (h : Sound decls) :
    ∃ start, start? decls = some start ∧
      Grammar.ofDecls decls = .ok ((GrammarDraft.ofDecls decls).finished start) := by
  have hholds := holds_ofDecls h.toOrderly hroom
  obtain ⟨start, hstart, -⟩ := h.started
  have hchecked := hholds.checkedStart_of_linked (start_ofDecls decls) h.toLinked hstart
  have hrep := nullableRepetition?_eq_none h.solid
  have hleft : leftRecursive? (rules decls) (nullables (rules decls)) = none := by
    cases hfound : leftRecursive? (rules decls) (nullables (rules decls)) with
    | none => rfl
    | some r => exact absurd (cycle_of_found hfound) (h.acyclic r)
  rw [← hholds.rules_eq] at hrep hleft
  exact ⟨start, hstart, GrammarDraft.build_eq_ok_iff.2 ⟨start, hchecked, hrep, hleft, rfl⟩⟩

/-- Every stage is passed, or something is wrong first. -/
theorem sound_or_firstFault : Sound decls ∨ ∃ e, FirstFault decls e := by
  rcases orderly_or_firstMisuse decls with horderly | ⟨e, he⟩
  case inr => exact .inr ⟨e, .misuse he⟩
  cases hstart : start? decls with
  | none => exact .inr ⟨_, .noStart horderly hstart⟩
  | some start =>
    by_cases hlt : start < (names decls).length
    case neg => exact .inr ⟨_, .start horderly hstart (Nat.le_of_not_lt hlt)⟩
    have hstarted : Started decls := ⟨horderly, start, hstart, hlt⟩
    by_cases hlinked : ∀ s ∈ named (rules decls), ¬ (names decls).length ≤ s
    case neg =>
      obtain ⟨s, hs⟩ := exists_foremost hlinked
      exact .inr ⟨_, .reference hstarted hs⟩
    have hlinked : Linked decls := ⟨hstarted, fun s hs => Nat.lt_of_not_le (hlinked s hs)⟩
    by_cases hsolid : ∀ place ∈ symbols (rules decls), ¬ Hollow (rules decls) place.2
    case neg =>
      obtain ⟨⟨rule, symbol⟩, hfirst⟩ := exists_foremost hsolid
      obtain ⟨s, hs⟩ := exists_rule?_of_hollow hfirst.holds
      have hlt := hlinked.linked s (mem_named_of_mem_symbols hfirst.mem hs)
      exact .inr ⟨_, .repetition hlinked hfirst hs (List.getElem?_eq_getElem hlt)⟩
    have hsolid : Solid decls := ⟨hlinked, hsolid⟩
    by_cases hacyclic : ∀ r, ¬ Relation.TransGen (LeftEdge (rules decls)) r r
    case pos => exact .inl ⟨hsolid, hacyclic⟩
    obtain ⟨r, hcycle⟩ := not_forall_not.1 hacyclic
    obtain ⟨name, -, hfault⟩ := ofDecls_of_cycle hroom hsolid hcycle
    exact .inr ⟨_, hfault⟩

end Verdict

/-! ## What a grammar keeps -/

/-- The grammar says what the declarations said: it starts where they start, its rules have their
names in order, numbers and names lead to each other, and every rule has the body that it was given,
or none. -/
structure Kept (g : Grammar) (decls : List GrammarDecl) : Prop where
  start : start? decls = some g.start
  names_eq : g.rules.toList.map Rule.name = names decls
  rule?_iff : ∀ name r, g.rule? name = some r ↔ r < g.size ∧ g.ruleName r = name
  body : ∀ r body, (r, body) ∈ bodies decls → (g.body r).map Alternative.toProduction = body
  undefined : ∀ r, r ∉ (bodies decls).map Prod.fst → g.body r = .undefined
  transparent : ∀ r, g.isTransparent r = true ↔ .transparent r ∈ decls

end Declarations

namespace Grammar

variable {g : Grammar} {name : String} {r : Nat}

theorem ruleName_iff :
    r < g.size ∧ g.ruleName r = name ↔ (g.rules.toList.map Rule.name)[r]? = some name := by
  rw [List.getElem?_map, Array.getElem?_toList, ruleName]
  cases hrule : g.rules[r]? with
  | none =>
    have hle : g.size ≤ r := Array.getElem?_eq_none_iff.1 hrule
    simp [Nat.not_lt.2 hle]
  | some rule =>
    obtain ⟨hlt, -⟩ := Array.getElem?_eq_some_iff.1 hrule
    simp [hlt, Grammar.size]

end Grammar

/-- The productions of a body that has been analysed. -/
theorem RuleBody.map_toProduction {f : Production → Alternative}
    (hf : ∀ p, (f p).toProduction = p) (body : RuleBody Production) :
    (body.map f).map Alternative.toProduction = body := by
  cases body with
  | undefined | expression ops => rfl
  | sequence ps =>
    have hid : Alternative.toProduction ∘ f = id := funext hf
    rw [RuleBody.map, RuleBody.map, List.map_map, hid, List.map_id]

theorem RuleBody.map_eq_undefined_iff {α β : Type} {f : α → β} {body : RuleBody α} :
    body.map f = .undefined ↔ body = .undefined := by
  cases body with
  | undefined => exact iff_of_true rfl rfl
  | sequence as | expression ops => exact iff_of_false nofun nofun

namespace GrammarDraft

variable {d : GrammarDraft} {name : String} {start r : Nat}

theorem isTransparent_finished (d : GrammarDraft) (start r : Nat) :
    (d.finished start).isTransparent r = (d.rules[r]?.map Rule.transparent).getD false := by
  rw [Grammar.isTransparent, finished, Array.getElem?_map, Option.map_map]
  rfl

theorem names_finished (d : GrammarDraft) (start : Nat) :
    (d.finished start).rules.toList.map Rule.name = d.names := by
  rw [finished, Array.toList_map, List.map_map]
  rfl

/-- The names of the rules, each with its number. -/
def numbered (d : GrammarDraft) : List (String × Nat) :=
  d.rules.toList.zipIdx.map fun place => (place.1.name, place.2)

theorem mem_numbered_iff : (name, r) ∈ d.numbered ↔ d.names[r]? = some name := by
  simp [numbered, names, List.mk_mem_zipIdx_iff_getElem?]

theorem map_fst_numbered (d : GrammarDraft) : d.numbered.map Prod.fst = d.names := by
  refine List.ext_getElem? fun i => ?_
  simp [numbered, names, Function.comp_def]

/-- The number of a name is its place, when no name is there twice. -/
theorem rule?_finished (h : d.names.Nodup) :
    (d.finished start).rule? name = some r ↔ d.names[r]? = some name := by
  have hdistinct : d.numbered.Pairwise fun a b => (a.1 == b.1) = false := by
    rw [← map_fst_numbered] at h
    exact (List.pairwise_map.1 h).imp fun hne => beq_false_of_ne hne
  have hof : ∀ {r}, d.names[r]? = some name → (d.finished start).rule? name = some r :=
    fun hr => Std.HashMap.getElem?_ofList_of_mem (beq_self_eq_true name) hdistinct
      (mem_numbered_iff.2 hr)
  refine ⟨fun hrule => ?_, hof⟩
  by_cases hname : name ∈ d.names
  · obtain ⟨s, hs⟩ := List.mem_iff_getElem?.1 hname
    rw [hof hs] at hrule
    rwa [← Option.some.inj hrule]
  · have hnone : (d.finished start).rule? name = none := by
      refine Std.HashMap.getElem?_ofList_of_contains_eq_false (l := d.numbered) ?_
      rw [map_fst_numbered]
      exact Bool.eq_false_iff.2 fun hcontains => hname (List.contains_iff_mem.1 hcontains)
    rw [hnone] at hrule
    cases hrule

end GrammarDraft

namespace Declarations

variable {decls : List GrammarDecl} {d : GrammarDraft} {start : Nat}

theorem lookup_bodies_of_mem (h : ((bodies decls).map Prod.fst).Nodup) {r : Nat}
    {body : RuleBody Production} (hmem : (r, body) ∈ bodies decls) :
    (bodies decls).lookup r = some body := by
  obtain ⟨before, behind, hsplit⟩ := List.append_of_mem hmem
  refine List.lookup_eq_some_iff.2 ⟨before, behind, hsplit, fun pair hpair => ?_⟩
  rw [hsplit, List.map_append, List.nodup_append] at h
  exact bne_iff_ne.2 fun heq => h.2.2 _ (List.mem_map_of_mem hpair) r List.mem_cons_self heq.symm

/-- The body of a rule of the grammar is the one that is said. -/
theorem Holds.body_finished (h : Holds decls d) (ho : Orderly decls) (start r : Nat) :
    ((d.finished start).body r).map Alternative.toProduction =
      ((bodies decls).lookup r).getD .undefined := by
  rw [GrammarDraft.body_finished, RuleBody.map_toProduction fun _ => rfl, h.getElem?_eq]
  cases hname : (names decls)[r]? with
  | some name => rfl
  | none =>
    have hle := List.getElem?_eq_none_iff.1 hname
    rw [lookup_bodies_eq_none_iff.2 fun hmem => Nat.not_lt.2 hle (ho.lt_of_mem_bodies hmem)]
    rfl

/-- The grammar of declarations keeps what they say. -/
theorem Holds.kept (h : Holds decls d) (ho : Orderly decls) (hstart : start? decls = some start) :
    Kept (d.finished start) decls where
  start := hstart
  names_eq := by rw [GrammarDraft.names_finished, h.names_eq]
  rule?_iff := by
    intro name r
    rw [Grammar.ruleName_iff, GrammarDraft.names_finished]
    exact GrammarDraft.rule?_finished (h.names_eq ▸ ho.names_nodup)
  body := by
    intro r body hmem
    rw [h.body_finished ho, lookup_bodies_of_mem ho.bodies_nodup hmem, Option.getD_some]
  undefined := by
    intro r hr
    have hbody := h.body_finished ho start r
    rw [lookup_bodies_eq_none_iff.2 hr, Option.getD_none] at hbody
    exact RuleBody.map_eq_undefined_iff.1 hbody
  transparent := by
    intro r
    rw [GrammarDraft.isTransparent_finished, h.getElem?_eq]
    cases hname : (names decls)[r]? with
    | some name => exact decide_eq_true_iff
    | none =>
      have hle := List.getElem?_eq_none_iff.1 hname
      refine ⟨nofun, fun hmem => absurd (ho.lt_of_subject? hmem rfl) (Nat.not_lt.2 hle)⟩

end Declarations

namespace Grammar

open Declarations

variable {decls : List GrammarDecl}

/-- **What becomes of declarations.** Of at most 65536 rules there is a grammar just when all stages
are passed. Else what is reported is wrong first, and what is wrong first is reported, but for which
of several rules that begin with themselves. A grammar keeps all that the declarations said. -/
theorem ofDecls_first_fault (hroom : (Declarations.names decls).length ≤ 65536) :
    ((∃ g, ofDecls decls = .ok g) ↔ Sound decls) ∧
      (∀ e, ofDecls decls = .error e → FirstFault decls e) ∧
      (∀ e, FirstFault decls e → ∃ e', ofDecls decls = .error e' ∧ e.Alike e') ∧
      ∀ g, ofDecls decls = .ok g → Kept g decls := by
  have hsound : Sound decls → ∃ g, ofDecls decls = .ok g ∧ Kept g decls := by
    intro h
    obtain ⟨start, hstart, hok⟩ := ofDecls_of_sound hroom h
    exact ⟨_, hok, (holds_ofDecls h.toOrderly hroom).kept h.toOrderly hstart⟩
  -- Declarations are sound or have a first fault, and each of the two decides what is answered.
  refine ⟨⟨?accepted, fun h => (hsound h).imp fun _ => And.left⟩, ?error, ?first, ?kept⟩
  case accepted =>
    rintro ⟨g, hg⟩
    refine (sound_or_firstFault hroom).resolve_right ?_
    rintro ⟨e, he⟩
    obtain ⟨e', herror, -⟩ := ofDecls_of_firstFault hroom he
    cases hg.symm.trans herror
  case error =>
    intro e he
    rcases sound_or_firstFault hroom with h | ⟨first, hfirst⟩
    · obtain ⟨g, hok, -⟩ := hsound h
      cases he.symm.trans hok
    · obtain ⟨e', herror, he', -⟩ := ofDecls_of_firstFault hroom hfirst
      cases he.symm.trans herror
      exact he'
  case first =>
    intro e he
    obtain ⟨e', herror, -, halike⟩ := ofDecls_of_firstFault hroom he
    exact ⟨e', herror, halike⟩
  case kept =>
    intro g hg
    rcases sound_or_firstFault hroom with h | ⟨e, he⟩
    · obtain ⟨g', hok, hkept⟩ := hsound h
      cases hg.symm.trans hok
      exact hkept
    · obtain ⟨e', herror, -⟩ := ofDecls_of_firstFault hroom he
      cases hg.symm.trans herror

/-- A name that is given twice, and behind that a body for a rule that is not there. -/
def muddled : List GrammarDecl :=
  [.rule "item" [⟨[.token (.kind 0)], []⟩], .declare "item", .define 5 [], .start 0]

theorem ofDecls_first_fault_muddled :
    (Declarations.names muddled).length ≤ 65536 ∧
      ofDecls muddled = .error (.duplicateRule "item") := by
  have hroom : (Declarations.names muddled).length ≤ 65536 := by decide
  have hbefore : Orderly ([] ++ [.rule "item" [⟨[.token (.kind 0)], []⟩]]) := by
    refine orderly_concat.2 ⟨.nil, ?_⟩
    rintro e (⟨-, hmem⟩ | ⟨hr, -⟩ | ⟨-, hname, -⟩)
    · exact absurd hmem List.not_mem_nil
    · cases hr
    · cases hname
  have hfirst : FirstFault muddled (.duplicateRule "item") :=
    .misuse ⟨_, _, _, rfl, hbefore, .duplicate List.mem_cons_self List.mem_cons_self⟩
  obtain ⟨e, herror, rfl | ⟨name, name', hname, -⟩⟩ :=
    (ofDecls_first_fault hroom).2.2.1 _ hfirst
  · exact ⟨hroom, herror⟩
  · cases hname

/-- A start rule that is not there, and another one behind it. -/
def restarted : List GrammarDecl := [.declare "rule", .start 5, .define 0 [⟨[], []⟩], .start 0]

/-- A start rule that is not there does no harm when another one is named behind it. -/
theorem ofDecls_restarted :
    (∃ g, ofDecls restarted = .ok g) ∧
      .start 5 ∈ restarted ∧ ¬ 5 < (Declarations.names restarted).length := by
  refine ⟨⟨_, GrammarDraft.build_eq_ok_iff.2 ⟨0, ?_, ?_, ?_, rfl⟩⟩, by decide, by decide⟩
  · decide +kernel
  · decide +kernel
  · cbv

end Grammar

end FrontEnd
