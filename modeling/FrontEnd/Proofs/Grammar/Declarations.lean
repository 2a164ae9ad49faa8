import FrontEnd.Proofs.Grammar.Drafts

/-!
# What a list of declarations says

Declarations are made one after another, and each of them can only speak of rules that are there by
then. What a list of them says is read off here from the list alone: the names, the bodies and the
start rule. A declaration is a misuse for what stands before it. **A draft holds what the list says
as long as there is no misuse, and then the first misuse for ever.**

- `Declarations.names`, `Declarations.bodies`, `Declarations.start?`: what is said;
- `Declarations.rules`: the rules that come of it;
- `Declarations.Misuse`, `Declarations.Orderly`: a declaration that is wrong, a list without one;
- `Declarations.orderly_concat`: one more declaration;
- `Declarations.holds_ofDecls`: the draft of a list without a misuse;
- `Declarations.error_ofDecls_iff`: the misuse that a draft remembers.
-/

namespace FrontEnd

namespace GrammarDecl

/-- The body that a declaration gives, with the number of its rule, where `n` rules are there. -/
def body? (n : Nat) : GrammarDecl → Option (Nat × RuleBody Production)
  | .define r ps => some (r, .sequence ps)
  | .defineExpression r ops => some (r, .expression ops)
  | .rule _ ps => some (n, .sequence ps)
  | .declare _ | .transparent _ | .start _ => none

/-- The rule that must be there for a declaration. A start rule may come later. -/
def subject? : GrammarDecl → Option Nat
  | .define r _ | .defineExpression r _ | .transparent r => some r
  | .declare _ | .rule _ _ | .start _ => none

/-- The rule with which to start. -/
def start? : GrammarDecl → Option Nat
  | .start r => some r
  | _ => none

end GrammarDecl

namespace Declarations

open GrammarDraft (given)

/-! ## What is said -/

/-- The names that are given. A rule is numbered by the place of its name. -/
def names (decls : List GrammarDecl) : List String := decls.flatMap given

/-- The bodies that are given behind `n` rules. -/
def bodiesFrom (n : Nat) : List GrammarDecl → List (Nat × RuleBody Production)
  | [] => []
  | decl :: decls => (decl.body? n).toList ++ bodiesFrom (n + (given decl).length) decls

/-- The bodies that are given, each with the number of its rule. -/
def bodies (decls : List GrammarDecl) : List (Nat × RuleBody Production) := bodiesFrom 0 decls

/-- The rule with which to start: the one that was named last. -/
def start? (decls : List GrammarDecl) : Option Nat := (decls.filterMap GrammarDecl.start?).getLast?

/-- What is said of the rule with a number and a name. -/
def rule (decls : List GrammarDecl) (r : Nat) (name : String) : Rule Production where
  name
  body := ((bodies decls).lookup r).getD .undefined
  transparent := decide (.transparent r ∈ decls)

/-- The rules that come of it, in order. -/
def rules (decls : List GrammarDecl) : Array (Rule Production) :=
  ((names decls).mapIdx (rule decls)).toArray

/-! ## Misuse -/

/-- What is wrong with a declaration behind others. -/
inductive Misuse (before : List GrammarDecl) (decl : GrammarDecl) : GrammarError → Prop
  /-- It gives a name that there is. -/
  | duplicate {name : String} (hgiven : name ∈ given decl) (h : name ∈ names before) :
    Misuse before decl (.duplicateRule name)
  /-- It is about a rule that is not there. -/
  | unknown {r : Nat} (hr : decl.subject? = some r) (h : (names before).length ≤ r) :
    Misuse before decl (.unknownRule r)
  /-- It gives a body to a rule that has one. -/
  | redefined {r : Nat} {body : RuleBody Production} {name : String}
    (hbody : decl.body? (names before).length = some (r, body))
    (hname : (names before)[r]? = some name) (h : r ∈ (bodies before).map Prod.fst) :
    Misuse before decl (.redefined name)

/-- No name is declared twice, no rule is defined twice, and what a declaration is about has been
declared before. -/
structure Orderly (decls : List GrammarDecl) : Prop where
  names_nodup : (names decls).Nodup
  bodies_nodup : ((bodies decls).map Prod.fst).Nodup
  declared : ∀ before decl behind, decls = before ++ decl :: behind →
    ∀ r, decl.subject? = some r → r < (names before).length

/-- A misuse behind declarations with which nothing is wrong. -/
def FirstMisuse (decls : List GrammarDecl) (e : GrammarError) : Prop :=
  ∃ before decl behind, decls = before ++ decl :: behind ∧ Orderly before ∧ Misuse before decl e

variable {decls before behind : List GrammarDecl} {decl : GrammarDecl} {d : GrammarDraft}
  {e : GrammarError} {r : Nat} {name : String} {body : RuleBody Production}

/-! ## One more declaration -/

theorem names_concat (decls : List GrammarDecl) (decl : GrammarDecl) :
    names (decls ++ [decl]) = names decls ++ given decl := by
  rw [names, List.flatMap_append, List.flatMap_singleton, names]

theorem length_names_concat (decls : List GrammarDecl) (decl : GrammarDecl) :
    (names (decls ++ [decl])).length = (names decls).length + (given decl).length := by
  rw [names_concat, List.length_append]

theorem length_names_le (before behind : List GrammarDecl) :
    (names before).length ≤ (names (before ++ behind)).length := by
  rw [names, names, List.flatMap_append, List.length_append]
  exact Nat.le_add_right _ _

theorem bodiesFrom_concat (n : Nat) (decls : List GrammarDecl) (decl : GrammarDecl) :
    bodiesFrom n (decls ++ [decl]) =
      bodiesFrom n decls ++ (decl.body? (n + (names decls).length)).toList := by
  induction decls generalizing n with
  | nil => exact List.append_nil _
  | cons head decls ih =>
    rw [List.cons_append, bodiesFrom, ih, bodiesFrom, List.append_assoc, names, names,
      List.flatMap_cons, List.length_append, Nat.add_assoc]

theorem bodies_concat (decls : List GrammarDecl) (decl : GrammarDecl) :
    bodies (decls ++ [decl]) = bodies decls ++ (decl.body? (names decls).length).toList := by
  rw [bodies, bodiesFrom_concat, Nat.zero_add, bodies]

theorem start?_concat (decls : List GrammarDecl) (decl : GrammarDecl) :
    start? (decls ++ [decl]) = decl.start?.or (start? decls) := by
  rw [start?, List.filterMap_append, List.getLast?_append, start?]
  cases decl <;> rfl

theorem lookup_bodies_concat (decls : List GrammarDecl) (decl : GrammarDecl) (r : Nat) :
    (bodies (decls ++ [decl])).lookup r =
      ((bodies decls).lookup r).or ((decl.body? (names decls).length).toList.lookup r) := by
  rw [bodies_concat, List.lookup_append]

/-- What is so of every declaration is so of those before the last, and of the last. -/
theorem forall_concat {P : List GrammarDecl → GrammarDecl → Prop} :
    (∀ before x behind, decls ++ [decl] = before ++ x :: behind → P before x) ↔
      (∀ before x behind, decls = before ++ x :: behind → P before x) ∧ P decls decl := by
  constructor
  · intro h
    refine ⟨fun before x behind hdecls => h before x (behind ++ [decl]) ?_, h decls decl [] rfl⟩
    rw [hdecls, List.append_assoc, List.cons_append]
  · rintro ⟨hbefore, hlast⟩ before x behind hdecls
    rcases List.eq_nil_or_concat behind with rfl | ⟨behind, last, rfl⟩
    · obtain ⟨rfl, hx⟩ := List.append_inj' hdecls rfl
      obtain ⟨rfl, -⟩ := List.cons.inj hx
      exact hlast
    · refine hbefore before x behind ?_
      rw [List.concat_eq_append, ← List.cons_append, ← List.append_assoc] at hdecls
      exact (List.append_inj' hdecls rfl).1

/-! ## Lists without a misuse -/

/-- A body goes to the rule that the declaration is about, or to the one that it declares. -/
theorem lt_of_body? {n : Nat} (hbody : decl.body? n = some (r, body))
    (hsubject : ∀ r, decl.subject? = some r → r < n) : r < n + (given decl).length := by
  cases decl with
  | define s ps | defineExpression s ops =>
    cases hbody
    exact Nat.lt_of_lt_of_le (hsubject r rfl) (Nat.le_add_right _ _)
  | rule name ps =>
    cases hbody
    exact Nat.lt_succ_self _
  | declare name | transparent s | start s => cases hbody

namespace Orderly

theorem nil : Orderly [] where
  names_nodup := List.nodup_nil
  bodies_nodup := List.nodup_nil
  declared := by
    intro before decl behind h
    exact absurd h.symm (List.append_ne_nil_of_right_ne_nil _ (List.cons_ne_nil _ _))

theorem of_concat (h : Orderly (decls ++ [decl])) : Orderly decls where
  names_nodup := (List.nodup_append.1 (names_concat decls decl ▸ h.names_nodup)).1
  bodies_nodup := by
    have hnodup := h.bodies_nodup
    rw [bodies_concat, List.map_append] at hnodup
    exact (List.nodup_append.1 hnodup).1
  declared := (forall_concat.1 h.declared).1

/-- What a declaration is about is there. -/
theorem lt_of_subject? (h : Orderly decls) (hdecl : decl ∈ decls) (hr : decl.subject? = some r) :
    r < (names decls).length := by
  obtain ⟨before, behind, rfl⟩ := List.append_of_mem hdecl
  exact Nat.lt_of_lt_of_le (h.declared before decl behind rfl r hr) (length_names_le _ _)

/-- A rule with a body is there. -/
theorem lt_of_mem_bodies (h : Orderly decls) (hr : r ∈ (bodies decls).map Prod.fst) :
    r < (names decls).length := by
  induction decls using List.reverseRecOn with
  | nil => exact absurd hr List.not_mem_nil
  | append_singleton decls decl ih =>
    rw [bodies_concat, List.map_append, List.mem_append] at hr
    rw [length_names_concat]
    rcases hr with hr | hr
    · exact Nat.lt_of_lt_of_le (ih h.of_concat hr) (Nat.le_add_right _ _)
    · obtain ⟨⟨s, body⟩, hmem, rfl⟩ := List.mem_map.1 hr
      exact lt_of_body? (Option.mem_toList.1 hmem) (forall_concat.1 h.declared).2

end Orderly

/-- The names stay different just when the next declaration gives a new one. -/
theorem nodup_names_concat (h : (names decls).Nodup) :
    (names (decls ++ [decl])).Nodup ↔ ∀ name ∈ given decl, name ∉ names decls := by
  rw [names_concat, List.nodup_append]
  constructor
  · rintro ⟨-, -, hne⟩ name hgiven hmem
    exact hne name hmem name hgiven rfl
  · intro hnew
    refine ⟨h, GrammarDraft.nodup_given decl, ?_⟩
    rintro name hmem _ hgiven rfl
    exact hnew name hgiven hmem

theorem nodup_bodies_concat (h : ((bodies decls).map Prod.fst).Nodup) :
    ((bodies (decls ++ [decl])).map Prod.fst).Nodup ↔
      ∀ r body, decl.body? (names decls).length = some (r, body) →
        r ∉ (bodies decls).map Prod.fst := by
  rw [bodies_concat, List.map_append, List.nodup_append]
  constructor
  · rintro ⟨-, -, hne⟩ r body hbody hmem
    exact hne r hmem r (List.mem_map.2 ⟨(r, body), Option.mem_toList.2 hbody, rfl⟩) rfl
  · intro hnew
    refine ⟨h, ?_, ?_⟩
    · cases decl.body? (names decls).length with
      | none => exact List.nodup_nil
      | some found => exact List.pairwise_singleton _ _
    · rintro r hmem _ hr rfl
      obtain ⟨⟨s, body⟩, hbody, rfl⟩ := List.mem_map.1 hr
      exact hnew s body (Option.mem_toList.1 hbody) hmem

/-- A list goes on without a misuse when the next declaration is none. -/
theorem orderly_concat :
    Orderly (decls ++ [decl]) ↔ Orderly decls ∧ ∀ e, ¬ Misuse decls decl e := by
  constructor
  · intro h
    refine ⟨h.of_concat, ?_⟩
    rintro e (⟨hgiven, hmem⟩ | ⟨hr, hle⟩ | ⟨hbody, -, hmem⟩)
    · exact (nodup_names_concat h.of_concat.names_nodup).1 h.names_nodup _ hgiven hmem
    · exact Nat.not_lt.2 hle ((forall_concat.1 h.declared).2 _ hr)
    · exact (nodup_bodies_concat h.of_concat.bodies_nodup).1 h.bodies_nodup _ _ hbody hmem
  · rintro ⟨h, hnone⟩
    refine ⟨(nodup_names_concat h.names_nodup).2 ?_, (nodup_bodies_concat h.bodies_nodup).2 ?_,
      forall_concat.2 ⟨h.declared, ?_⟩⟩
    · exact fun name hgiven hmem => hnone _ (.duplicate hgiven hmem)
    · intro r body hbody hmem
      have hname := List.getElem?_eq_getElem (h.lt_of_mem_bodies hmem)
      exact hnone _ (.redefined hbody hname hmem)
    · exact fun r hr => Nat.lt_of_not_le fun hle => hnone _ (.unknown hr hle)

/-- Either nothing is wrong with a list, or there is a first misuse. -/
theorem orderly_or_firstMisuse (decls : List GrammarDecl) :
    Orderly decls ∨ ∃ e, FirstMisuse decls e := by
  induction decls using List.reverseRecOn with
  | nil => exact .inl .nil
  | append_singleton decls decl ih =>
    rcases ih with h | ⟨e, before, x, behind, rfl, hbefore, hx⟩
    · by_cases hmisuse : ∃ e, Misuse decls decl e
      · obtain ⟨e, he⟩ := hmisuse
        exact .inr ⟨e, decls, decl, [], rfl, h, he⟩
      · exact .inl (orderly_concat.2 ⟨h, not_exists.1 hmisuse⟩)
    · exact .inr ⟨e, before, x, behind ++ [decl], List.append_assoc _ _ _, hbefore, hx⟩

/-! ## Rules -/

theorem getElem?_rules (decls : List GrammarDecl) (r : Nat) :
    (rules decls)[r]? = (names decls)[r]?.map (rule decls r) := by
  rw [rules, List.getElem?_toArray, List.getElem?_mapIdx]

theorem size_rules (decls : List GrammarDecl) : (rules decls).size = (names decls).length :=
  List.length_mapIdx

theorem map_name_rules (decls : List GrammarDecl) :
    (rules decls).toList.map Rule.name = names decls := by
  refine List.ext_getElem? fun r => ?_
  rw [List.getElem?_map, Array.getElem?_toList, getElem?_rules, Option.map_map]
  exact Option.map_id_apply

theorem rule_concat (decls : List GrammarDecl) (decl : GrammarDecl) (r : Nat) (name : String) :
    rule (decls ++ [decl]) r name =
      { name
        body := (((bodies decls).lookup r).or
          ((decl.body? (names decls).length).toList.lookup r)).getD .undefined
        transparent := decide (.transparent r ∈ decls) || decide (.transparent r = decl) } := by
  rw [rule, lookup_bodies_concat]
  simp only [List.mem_append, List.mem_singleton, Bool.decide_or]

/-- The next declaration gives no body to the rule. -/
theorem lookup_body?_eq_none {n : Nat} (hbody : ∀ body, decl.body? n ≠ some (r, body)) :
    (decl.body? n).toList.lookup r = none := by
  refine List.lookup_eq_none_iff.2 fun (s, body) hs => bne_iff_ne.2 fun heq => hbody body ?_
  rw [heq, Option.mem_toList.1 hs]

/-- A rule of which the next declaration does not speak. -/
theorem rule_concat_of_ne (hbody : ∀ body, decl.body? (names decls).length ≠ some (r, body))
    (htransparent : .transparent r ≠ decl) : rule (decls ++ [decl]) r = rule decls r := by
  funext name
  rw [rule_concat, lookup_body?_eq_none hbody, Option.or_none, decide_eq_false htransparent,
    Bool.or_false, rule]

/-- A name that is given stands behind the others. -/
theorem rules_concat_push (hgiven : given decl = [name])
    (hrest : ∀ r < (names decls).length, rule (decls ++ [decl]) r = rule decls r) :
    rules (decls ++ [decl]) =
      (rules decls).push (rule (decls ++ [decl]) (names decls).length name) := by
  have hmap : (names decls).mapIdx (rule (decls ++ [decl])) = (names decls).mapIdx (rule decls) :=
    List.mapIdx_eq_mapIdx_iff.2 fun r hr => congrFun (hrest r hr) _
  rw [rules, names_concat, hgiven, List.mapIdx_concat, hmap, rules, List.push_toArray]

/-- What is said of a rule changes this rule. -/
theorem rules_concat_set (hgiven : given decl = []) (hname : (names decls)[r]? = some name)
    (hrest : ∀ s, s ≠ r → rule (decls ++ [decl]) s = rule decls s) :
    rules (decls ++ [decl]) = (rules decls).setIfInBounds r (rule (decls ++ [decl]) r name) := by
  refine Array.ext_getElem? fun s => ?_
  rw [getElem?_rules, names_concat, hgiven, List.append_nil, Array.getElem?_setIfInBounds]
  split
  · next heq =>
    subst heq
    obtain ⟨hr, -⟩ := List.getElem?_eq_some_iff.1 hname
    rw [hname, if_pos (size_rules decls ▸ hr), Option.map_some]
  · next hne => rw [hrest s (Ne.symm hne), getElem?_rules]

/-- A rule has a body just when it is given one. -/
theorem lookup_bodies_eq_none_iff :
    (bodies decls).lookup r = none ↔ r ∉ (bodies decls).map Prod.fst := by
  rw [List.lookup_eq_none_iff, List.mem_map]
  constructor
  · rintro h ⟨⟨s, body⟩, hs, rfl⟩
    exact bne_iff_ne.1 (h _ hs) rfl
  · rintro h ⟨s, body⟩ hs
    exact bne_iff_ne.2 fun heq => h ⟨_, hs, heq.symm⟩

/-! ## Drafts -/

/-- The draft holds what has been said. -/
structure Holds (decls : List GrammarDecl) (d : GrammarDraft) : Prop where
  error : d.error = none
  rules_eq : d.rules = rules decls
  size_defined : d.defined.size = d.rules.size
  defined : ∀ r < (names decls).length, d.defined.getD r false = ((bodies decls).lookup r).isSome

namespace Holds

theorem names_eq (h : Holds decls d) : d.names = names decls := by
  rw [GrammarDraft.names, h.rules_eq, map_name_rules]

theorem size_eq (h : Holds decls d) : d.rules.size = (names decls).length := by
  rw [h.rules_eq, size_rules]

theorem getElem?_eq (h : Holds decls d) (r : Nat) :
    d.rules[r]? = (names decls)[r]?.map (rule decls r) := by
  rw [h.rules_eq, getElem?_rules]

/-- A name that is new is put behind the others, with a body or without. -/
theorem push (h : Holds decls d) (ho : Orderly decls) {b : Option (RuleBody Production)}
    (hgiven : given decl = [name])
    (hbody : decl.body? (names decls).length = b.map ((names decls).length, ·)) :
    Holds (decls ++ [decl]) { d with
      rules := d.rules.push ⟨name, b.getD .undefined, false⟩
      defined := d.defined.push b.isSome } := by
  have htransparent : ∀ r, .transparent r ≠ decl := by
    rintro r rfl
    cases hgiven
  -- Nothing is said of the new rule before.
  have hnew : (bodies decls).lookup (names decls).length = none :=
    lookup_bodies_eq_none_iff.2 fun hmem => Nat.lt_irrefl _ (ho.lt_of_mem_bodies hmem)
  have hplain : .transparent (names decls).length ∉ decls :=
    fun hmem => Nat.lt_irrefl _ (ho.lt_of_subject? hmem rfl)
  have hlast : (decl.body? (names decls).length).toList.lookup (names decls).length = b := by
    rw [hbody]
    cases b with
    | none => rfl
    | some body => exact List.lookup_cons_self
  have hother : ∀ r < (names decls).length, ∀ body,
      decl.body? (names decls).length ≠ some (r, body) := by
    intro r hr body heq
    rw [hbody] at heq
    obtain ⟨_, -, hpair⟩ := Option.map_eq_some_iff.1 heq
    exact Nat.ne_of_gt hr (congrArg Prod.fst hpair)
  refine ⟨h.error, ?_, ?_, ?_⟩
  · rw [rules_concat_push hgiven fun r hr => rule_concat_of_ne (hother r hr) (htransparent r),
      rule_concat, hnew, hlast, Option.none_or, decide_eq_false hplain,
      decide_eq_false (htransparent _), Bool.or_false, h.rules_eq]
  · rw [Array.size_push, Array.size_push, h.size_defined]
  · intro r hr
    rw [length_names_concat, hgiven] at hr
    rw [Array.getD_eq_getD_getElem?, Array.getElem?_push, h.size_defined, h.size_eq,
      lookup_bodies_concat]
    split
    · next heq =>
      rw [heq, hnew, hlast, Option.none_or, Option.getD_some]
    · next hne =>
      have hlt : r < (names decls).length := by
        rw [List.length_singleton] at hr
        omega
      rw [lookup_body?_eq_none (hother r hlt), Option.or_none, ← h.defined r hlt,
        Array.getD_eq_getD_getElem?]

/-- A rule without a body is given one. -/
theorem define (h : Holds decls d) (hgiven : given decl = [])
    (hbody : decl.body? (names decls).length = some (r, body))
    (hname : (names decls)[r]? = some name) (hfree : r ∉ (bodies decls).map Prod.fst) :
    Holds (decls ++ [decl]) (d.define r body) := by
  have htransparent : ∀ r, .transparent r ≠ decl := by
    rintro r rfl
    cases hbody
  have hother : ∀ s, s ≠ r → ∀ body, decl.body? (names decls).length ≠ some (s, body) := by
    intro s hs body heq
    rw [hbody] at heq
    cases heq
    exact hs rfl
  have hlast : (decl.body? (names decls).length).toList.lookup r = some body := by
    rw [hbody]
    exact List.lookup_cons_self
  have hnew := lookup_bodies_eq_none_iff.2 hfree
  obtain ⟨hr, -⟩ := List.getElem?_eq_some_iff.1 hname
  have hrule : d.rules[r]? = some (rule decls r name) := by
    rw [h.getElem?_eq, hname, Option.map_some]
  have hundefined : d.defined.getD r false = false := by
    rw [h.defined r hr, hnew, Option.isSome_none]
  -- No body was given before, so that the draft takes this one.
  rw [GrammarDraft.define, hrule]
  dsimp only
  rw [hundefined, if_neg Bool.false_ne_true]
  refine ⟨h.error, ?_, ?_, ?_⟩
  · rw [rules_concat_set hgiven hname fun s hs => rule_concat_of_ne (hother s hs) (htransparent s),
      rule_concat, hnew, hlast, Option.none_or, decide_eq_false (htransparent r), Bool.or_false,
      h.rules_eq]
    rfl
  · rw [Array.size_setIfInBounds, Array.size_setIfInBounds, h.size_defined]
  · intro s hs
    rw [length_names_concat, hgiven] at hs
    rw [Array.getD_eq_getD_getElem?, Array.getElem?_setIfInBounds, h.size_defined, h.size_eq,
      lookup_bodies_concat]
    split
    · next heq =>
      rw [← heq, hlast, hnew]
      rfl
    · next hne =>
      rw [lookup_body?_eq_none (hother s (Ne.symm hne)), Option.or_none, ← h.defined s hs,
        Array.getD_eq_getD_getElem?]

/-- A rule leaves its nodes to its parent. -/
theorem setTransparent (h : Holds decls d) (hname : (names decls)[r]? = some name) :
    Holds (decls ++ [.transparent r]) (d.setTransparent r) := by
  have hbodies : bodies (decls ++ [.transparent r]) = bodies decls :=
    (bodies_concat _ _).trans (List.append_nil _)
  have hrule : d.rules[r]? = some (rule decls r name) := by
    rw [h.getElem?_eq, hname, Option.map_some]
  rw [GrammarDraft.setTransparent, hrule]
  refine ⟨h.error, ?_, h.size_defined.trans Array.size_setIfInBounds.symm, ?_⟩
  · have hother : ∀ s, s ≠ r → rule (decls ++ [.transparent r]) s = rule decls s :=
      fun s hs => rule_concat_of_ne nofun fun heq => hs (GrammarDecl.transparent.inj heq)
    have hsame : rule (decls ++ [.transparent r]) r name =
        { rule decls r name with transparent := true } := by
      rw [rule, hbodies, decide_eq_true (List.mem_append_right _ List.mem_cons_self), rule]
    rw [rules_concat_set rfl hname hother, hsame, h.rules_eq]
  · intro s hs
    rw [length_names_concat] at hs
    rw [hbodies]
    exact h.defined s hs

/-- A start rule changes nothing about the rules. -/
theorem start (h : Holds decls d) (r : Nat) :
    Holds (decls ++ [.start r]) { d with start := some r } := by
  have hbodies : bodies (decls ++ [.start r]) = bodies decls :=
    (bodies_concat _ _).trans (List.append_nil _)
  have hnames : names (decls ++ [.start r]) = names decls :=
    (names_concat _ _).trans (List.append_nil _)
  refine ⟨h.error, ?_, h.size_defined, ?_⟩
  · have hother : rule (decls ++ [.start r]) = rule decls :=
      funext fun s => rule_concat_of_ne nofun nofun
    rw [rules, hnames, hother]
    exact h.rules_eq
  · rw [hnames, hbodies]
    exact h.defined

/-- A draft keeps what is said as long as there is no misuse. -/
theorem add (h : Holds decls d) (ho : Orderly (decls ++ [decl]))
    (hroom : (names (decls ++ [decl])).length ≤ 65536) :
    Holds (decls ++ [decl]) (d.add decl) := by
  have hdecls := ho.of_concat
  have hthere : ∀ r, decl.subject? = some r → ∃ name, (names decls)[r]? = some name :=
    fun r hr => ⟨_, List.getElem?_eq_getElem ((forall_concat.1 ho.declared).2 r hr)⟩
  -- A name is new, since no name is declared twice, and there is room for its rule.
  have hfresh : ∀ name, given decl = [name] → name ∉ d.names ∧ d.rules.size < 65536 := by
    intro name hgiven
    rw [length_names_concat, hgiven] at hroom
    rw [h.names_eq, h.size_eq]
    refine ⟨(nodup_names_concat hdecls.names_nodup).1 ho.names_nodup name ?_, hroom⟩
    exact hgiven ▸ List.mem_cons_self
  have hfree : ∀ r body, decl.body? (names decls).length = some (r, body) →
      r ∉ (bodies decls).map Prod.fst :=
    (nodup_bodies_concat hdecls.bodies_nodup).1 ho.bodies_nodup
  cases decl with
  | declare name =>
    obtain ⟨hnew, hlt⟩ := hfresh name rfl
    have hpush : d.add (.declare name) = _ := GrammarDraft.declare_eq hnew hlt
    rw [hpush]
    exact h.push hdecls (b := none) rfl rfl
  | define r ps | defineExpression r ops =>
    obtain ⟨name, hr⟩ := hthere r rfl
    exact h.define rfl rfl hr (hfree r _ rfl)
  | rule name ps =>
    obtain ⟨hnew, hlt⟩ := hfresh name rfl
    rw [GrammarDraft.add_rule h.size_defined hnew hlt]
    exact h.push hdecls (b := some (.sequence ps)) rfl rfl
  | transparent r =>
    obtain ⟨name, hr⟩ := hthere r rfl
    exact h.setTransparent hr
  | start r => exact h.start r

end Holds

/-- The draft of a list without a misuse holds what the list says. -/
theorem holds_ofDecls (h : Orderly decls) (hroom : (names decls).length ≤ 65536) :
    Holds decls (GrammarDraft.ofDecls decls) := by
  induction decls using List.reverseRecOn with
  | nil => exact ⟨rfl, rfl, rfl, nofun⟩
  | append_singleton decls decl ih =>
    rw [GrammarDraft.ofDecls_concat]
    have hbefore := ih h.of_concat
      (Nat.le_trans (length_names_le decls [decl]) hroom)
    exact hbefore.add h hroom

theorem start_define (d : GrammarDraft) (r : Nat) (body : RuleBody Production) :
    (d.define r body).start = d.start := by
  unfold GrammarDraft.define
  split
  · rfl
  · split <;> rfl

theorem start_declare (d : GrammarDraft) (name : String) : (d.declare name).start = d.start := by
  rw [GrammarDraft.declare]
  cases d.declareError? name with
  | none | some e => rfl

theorem start_add (d : GrammarDraft) (decl : GrammarDecl) :
    (d.add decl).start = decl.start?.or d.start := by
  cases decl with
  | declare name => exact start_declare d name
  | define r ps | defineExpression r ops => exact start_define d r _
  | rule name ps => exact (start_define _ _ _).trans (start_declare d name)
  | transparent r =>
    unfold GrammarDraft.add GrammarDraft.setTransparent
    dsimp only
    split <;> rfl
  | start r => rfl

/-- The last start rule counts, whatever is wrong elsewhere. -/
theorem start_ofDecls (decls : List GrammarDecl) :
    (GrammarDraft.ofDecls decls).start = start? decls := by
  induction decls using List.reverseRecOn with
  | nil => rfl
  | append_singleton decls decl ih => rw [GrammarDraft.ofDecls_concat, start_add, ih, start?_concat]

/-! ## The first misuse -/

namespace Holds

theorem error_fail (h : Holds decls d) (e : GrammarError) : (d.fail e).error = some e := by
  rw [GrammarDraft.fail, h.error]
  rfl

theorem error_declare (h : Holds decls d) (hname : name ∈ names decls) :
    (d.declare name).error = some (.duplicateRule name) := by
  rw [← h.names_eq] at hname
  rw [GrammarDraft.declare, GrammarDraft.declareError?,
    if_pos (GrammarDraft.any_name_iff.2 hname)]
  exact h.error_fail _

theorem error_define_unknown (h : Holds decls d) (hr : (names decls).length ≤ r) :
    (d.define r body).error = some (.unknownRule r) := by
  rw [GrammarDraft.define, h.getElem?_eq, List.getElem?_eq_none hr]
  exact h.error_fail _

theorem error_setTransparent (h : Holds decls d) (hr : (names decls).length ≤ r) :
    (d.setTransparent r).error = some (.unknownRule r) := by
  rw [GrammarDraft.setTransparent, h.getElem?_eq, List.getElem?_eq_none hr]
  exact h.error_fail _

theorem error_define_redefined (h : Holds decls d) (hname : (names decls)[r]? = some name)
    (hr : r ∈ (bodies decls).map Prod.fst) :
    (d.define r body).error = some (.redefined name) := by
  obtain ⟨hlt, -⟩ := List.getElem?_eq_some_iff.1 hname
  have hdefined : d.defined.getD r false = true := by
    rw [h.defined r hlt, Option.isSome_iff_ne_none]
    exact fun hnone => lookup_bodies_eq_none_iff.1 hnone hr
  rw [GrammarDraft.define, h.getElem?_eq, hname, Option.map_some]
  dsimp only
  rw [if_pos hdefined]
  exact h.error_fail _

/-- A misuse is noticed at once. -/
theorem error_add (h : Holds decls d) (hmisuse : Misuse decls decl e) :
    (d.add decl).error = some e := by
  cases hmisuse with
  | duplicate hgiven hmem =>
    cases decl with
    | declare name =>
      obtain rfl := List.mem_singleton.1 hgiven
      exact h.error_declare hmem
    | rule name ps =>
      obtain rfl := List.mem_singleton.1 hgiven
      exact GrammarDraft.error_define (h.error_declare hmem) _ _
    | define r ps | defineExpression r ops | transparent r | start r =>
      exact absurd hgiven List.not_mem_nil
  | unknown hr hle =>
    cases decl with
    | define r ps | defineExpression r ops =>
      cases hr
      exact h.error_define_unknown hle
    | transparent r =>
      cases hr
      exact h.error_setTransparent hle
    | declare name | rule name ps | start r => cases hr
  | redefined hbody hname hmem =>
    cases decl with
    | define r ps | defineExpression r ops =>
      cases hbody
      exact h.error_define_redefined hname hmem
    | rule name ps =>
      -- The rule that is declared here has no name before.
      cases hbody
      rw [List.getElem?_eq_none (Nat.le_refl _)] at hname
      cases hname
    | declare name | transparent r | start r => cases hbody

end Holds

/-- **The misuse that a draft remembers is the first one.** -/
theorem error_ofDecls_iff (hroom : (names decls).length ≤ 65536) :
    (GrammarDraft.ofDecls decls).error = some e ↔ FirstMisuse decls e := by
  have hfirst : ∀ {e}, FirstMisuse decls e → (GrammarDraft.ofDecls decls).error = some e := by
    rintro e ⟨before, decl, behind, rfl, hbefore, hmisuse⟩
    have hholds := holds_ofDecls hbefore (Nat.le_trans (length_names_le _ _) hroom)
    rw [GrammarDraft.ofDecls, List.foldl_append, List.foldl_cons]
    exact GrammarDraft.error_foldl (hholds.error_add hmisuse) behind
  refine ⟨fun h => ?_, hfirst⟩
  rcases orderly_or_firstMisuse decls with ho | ⟨e', he'⟩
  · rw [(holds_ofDecls ho hroom).error] at h
    cases h
  · rw [hfirst he'] at h
    cases h
    exact he'

end Declarations

end FrontEnd
