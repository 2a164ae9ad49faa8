import FrontEnd.Grammar.Build
import Mathlib.Data.List.Induction

/-!
# What declarations leave in a draft

A draft remembers the first misuse and goes on. As long as there is none, every declaration has done
what it says: **rules have names of their own**, and a rule keeps its name whatever else is said of
it.

- `GrammarDraft.error_add`: a misuse is never forgotten;
- `GrammarDraft.names_add`: the names behind one more declaration;
- `GrammarDraft.nodup_names`: without a misuse no two rules have the same name;
- `GrammarDraft.ofDecls_rule_start`: what is there behind a new rule with which to start.
-/

namespace FrontEnd

namespace GrammarDraft

variable {d : GrammarDraft} {r : Nat} {name : String} {e : Option GrammarError}
  {body : RuleBody Production}

/-- The names of the rules in order. -/
def names (d : GrammarDraft) : List String := d.rules.toList.map Rule.name

/-! ## Misuses -/

section Errors

variable {e : GrammarError} (h : d.error = some e)

include h

theorem error_fail (e' : GrammarError) : (d.fail e').error = some e := by
  rw [fail, h]
  rfl

theorem error_declare (name : String) : (d.declare name).error = some e := by
  rw [declare]
  cases d.declareError? name with
  | none => exact h
  | some e' => exact error_fail h e'

theorem error_define (r : Nat) (body : RuleBody Production) :
    (d.define r body).error = some e := by
  unfold define
  split
  · exact error_fail h _
  · split
    · exact error_fail h _
    · exact h

/-- A draft keeps the first misuse. -/
theorem error_add (decl : GrammarDecl) : (d.add decl).error = some e := by
  cases decl with
  | declare name => exact error_declare h name
  | define r ps | defineExpression r ops => exact error_define h r _
  | rule name ps => exact error_define (error_declare h name) _ _
  | transparent r =>
    unfold add setTransparent
    dsimp only
    split
    · exact error_fail h _
    · exact h
  | start r => exact h

theorem error_foldl (decls : List GrammarDecl) :
    (decls.foldl add d).error = some e := by
  induction decls generalizing d with
  | nil => exact h
  | cons decl decls ih => exact ih (error_add h decl)

end Errors

theorem error_of_check (h : (d.check e).error = none) : d.error = none ∧ e = none := by
  cases e with
  | none => exact ⟨h, rfl⟩
  | some e => cases h

theorem error_of_declare (h : (d.declare name).error = none) :
    d.error = none ∧ d.declareError? name = none :=
  error_of_check h

theorem error_of_define (h : (d.define r body).error = none) : d.error = none := by
  cases herror : d.error with
  | none => rfl
  | some e => cases (error_define herror r body).symm.trans h

theorem error_of_add {decl : GrammarDecl} (h : (d.add decl).error = none) : d.error = none := by
  cases herror : d.error with
  | none => rfl
  | some e => cases (error_add herror decl).symm.trans h

/-- No grammar comes out of a misuse. -/
theorem error_of_checkedStart {start : Nat} (h : d.checkedStart = .ok start) : d.error = none := by
  unfold checkedStart at h
  split at h
  · cases h
  · next herror _ => exact herror
  · next herror _ => exact herror

/-! ## Names -/

theorem rules_declare (d : GrammarDraft) (name : String) :
    (d.declare name).rules = d.rules.push ⟨name, .undefined, false⟩ := by
  rw [declare]
  cases d.declareError? name with
  | none => rfl
  | some e => rfl

theorem names_declare (d : GrammarDraft) (name : String) :
    (d.declare name).names = d.names ++ [name] := by
  rw [names, rules_declare, Array.toList_push, List.map_append]
  rfl

/-- A rule that is replaced by one of its name. -/
theorem names_set {rule rule' : Rule Production} (h : d.rules[r]? = some rule)
    (hname : rule'.name = rule.name) :
    (d.rules.setIfInBounds r rule').toList.map Rule.name = d.names := by
  obtain ⟨hr, rfl⟩ := Array.getElem?_eq_some_iff.1 h
  rw [Array.toList_setIfInBounds, List.map_set, hname, names]
  have hlt : r < (d.rules.toList.map Rule.name).length := by
    rwa [List.length_map, Array.length_toList]
  refine Eq.trans ?_ (List.set_getElem_self hlt)
  rw [List.getElem_map, Array.getElem_toList]

theorem names_define (d : GrammarDraft) (r : Nat) (body : RuleBody Production) :
    (d.define r body).names = d.names := by
  unfold define
  split
  · rfl
  · next rule hrule =>
    split
    · rfl
    · exact names_set hrule rfl

/-- The names that a declaration gives. -/
def given : GrammarDecl → List String
  | .declare name | .rule name _ => [name]
  | _ => []

theorem names_add (d : GrammarDraft) (decl : GrammarDecl) :
    (d.add decl).names = d.names ++ given decl := by
  cases decl with
  | declare name => exact d.names_declare name
  | define r ps | defineExpression r ops =>
    exact (d.names_define r _).trans (List.append_nil _).symm
  | rule name ps => exact ((d.declare name).names_define _ _).trans (d.names_declare name)
  | transparent r =>
    refine Eq.trans ?_ (List.append_nil _).symm
    unfold add setTransparent
    dsimp only
    split
    · rfl
    · next rule hrule => exact names_set hrule rfl
  | start r => exact (List.append_nil _).symm

theorem any_name_iff : d.rules.any (·.name == name) = true ↔ name ∈ d.names := by
  rw [← Array.any_toList, List.any_eq_true, names, List.mem_map]
  simp only [beq_iff_eq]

theorem not_mem_names_of_declareError? (h : d.declareError? name = none) : name ∉ d.names := by
  intro hmem
  rw [declareError?, if_pos (any_name_iff.2 hmem)] at h
  cases h

theorem not_mem_of_given {decl : GrammarDecl} (h : (d.add decl).error = none)
    (hname : name ∈ given decl) : name ∉ d.names := by
  cases decl with
  | declare name' =>
    obtain rfl := List.mem_singleton.1 hname
    exact not_mem_names_of_declareError? (error_of_declare h).2
  | rule name' ps =>
    obtain rfl := List.mem_singleton.1 hname
    exact not_mem_names_of_declareError? (error_of_declare (error_of_define h)).2
  | define r ps | defineExpression r ops | transparent r | start r =>
    exact absurd hname List.not_mem_nil

theorem nodup_given (decl : GrammarDecl) : (given decl).Nodup := by
  cases decl with
  | declare name | rule name ps => exact List.pairwise_singleton _ _
  | define r ps | defineExpression r ops | transparent r | start r => exact List.nodup_nil

theorem nodup_add {decl : GrammarDecl} (h : (d.add decl).error = none) (hd : d.names.Nodup) :
    (d.add decl).names.Nodup := by
  rw [names_add]
  refine List.nodup_append.2 ⟨hd, nodup_given decl, ?_⟩
  rintro name hname _ hgiven rfl
  exact not_mem_of_given h hgiven hname

theorem ofDecls_concat (decls : List GrammarDecl) (decl : GrammarDecl) :
    ofDecls (decls ++ [decl]) = (ofDecls decls).add decl := by
  rw [ofDecls, List.foldl_append]
  rfl

/-- Without a misuse no two rules have the same name. -/
theorem nodup_names {decls : List GrammarDecl} (h : (ofDecls decls).error = none) :
    (ofDecls decls).names.Nodup := by
  induction decls using List.reverseRecOn with
  | nil => exact List.nodup_nil
  | append_singleton decls decl ih =>
    rw [ofDecls_concat] at h ⊢
    exact nodup_add h (ih (error_of_add h))

/-- In a draft without a misuse a name is that of one rule. -/
theorem eq_of_name {decls : List GrammarDecl} (h : (ofDecls decls).error = none) {r s : Nat}
    {rule rule' : Rule Production} (hr : (ofDecls decls).rules[r]? = some rule)
    (hs : (ofDecls decls).rules[s]? = some rule') (hname : rule'.name = rule.name) : s = r := by
  have hget : ∀ {i : Nat} {rule : Rule Production}, (ofDecls decls).rules[i]? = some rule →
      (ofDecls decls).names[i]? = some rule.name := by
    intro i rule hi
    rw [names, List.getElem?_map, Array.getElem?_toList, hi, Option.map_some]
  obtain ⟨hlt, -⟩ := List.getElem?_eq_some_iff.1 (hget hs)
  exact (List.getElem?_inj hlt (nodup_names h)).1 (by rw [hget hs, hget hr, hname])

/-! ## One more rule -/

variable {decls : List GrammarDecl} {ps : List Production}

theorem size_defined_declare (h : d.defined.size = d.rules.size) (name : String) :
    (d.declare name).defined.size = (d.declare name).rules.size := by
  rw [rules_declare, Array.size_push, ← h, declare]
  cases d.declareError? name with
  | none | some e => exact Array.size_push _

theorem size_defined_define (h : d.defined.size = d.rules.size) (r : Nat)
    (body : RuleBody Production) :
    (d.define r body).defined.size = (d.define r body).rules.size := by
  unfold define
  split
  · exact h
  · split
    · exact h
    · exact Array.size_setIfInBounds.trans (h.trans Array.size_setIfInBounds.symm)

/-- It is known of every rule whether it has a body. -/
theorem size_defined (decls : List GrammarDecl) :
    (ofDecls decls).defined.size = (ofDecls decls).rules.size := by
  induction decls using List.reverseRecOn with
  | nil => rfl
  | append_singleton decls decl ih =>
    rw [ofDecls_concat]
    cases decl with
    | declare name => exact size_defined_declare ih name
    | define r ps | defineExpression r ops => exact size_defined_define ih r _
    | rule name ps => exact size_defined_define (size_defined_declare ih name) _ _
    | transparent r =>
      unfold add setTransparent
      dsimp only
      split
      · exact ih
      · exact ih.trans Array.size_setIfInBounds.symm
    | start r => exact ih

/-- A new name can be given while there is room. -/
theorem declare_eq (hname : name ∉ d.names) (hroom : d.rules.size < 65536) :
    d.declare name =
      { d with
        rules := d.rules.push ⟨name, .undefined, false⟩
        defined := d.defined.push false } := by
  have hnone : d.declareError? name = none := by
    rw [declareError?, if_neg (mt any_name_iff.1 hname), if_neg (Nat.not_le.2 hroom)]
  rw [declare, hnone]
  rfl

/-- A rule with a new name is put behind the others. -/
theorem add_rule (hsize : d.defined.size = d.rules.size) (hname : name ∉ d.names)
    (hroom : d.rules.size < 65536) (ps : List Production) :
    d.add (.rule name ps) =
      { d with
        rules := d.rules.push ⟨name, .sequence ps, false⟩
        defined := d.defined.push true } := by
  have hundefined : (d.defined.push false).getD d.rules.size false = false := by
    rw [← hsize, Array.getD_eq_getD_getElem?, Array.getElem?_push_size]
    rfl
  have hset : (d.defined.push false).setIfInBounds d.rules.size true = d.defined.push true := by
    rw [← hsize]
    simp [Array.setIfInBounds, Array.set_push]
  show (d.declare name).define d.rules.size (.sequence ps) = _
  simp only [declare_eq hname hroom, define, Array.getElem?_push_size, hundefined, hset]
  simp [Array.setIfInBounds, Array.set_push]

/-- What is there behind a new rule with which to start. -/
theorem ofDecls_rule_start (hname : name ∉ (ofDecls decls).names)
    (hroom : (ofDecls decls).rules.size < 65536) (ps : List Production) (start : Nat) :
    (ofDecls (decls ++ [.rule name ps, .start start])).rules
        = (ofDecls decls).rules.push ⟨name, .sequence ps, false⟩ ∧
      (ofDecls (decls ++ [.rule name ps, .start start])).start = some start ∧
      (ofDecls (decls ++ [.rule name ps, .start start])).error = (ofDecls decls).error := by
  have hrule := add_rule (size_defined decls) hname hroom ps
  have happend : decls ++ [.rule name ps, .start start]
      = decls ++ [.rule name ps] ++ [.start start] := by
    rw [List.append_assoc]
    rfl
  rw [happend, ofDecls_concat, ofDecls_concat, hrule]
  exact ⟨rfl, rfl, rfl⟩

end GrammarDraft

end FrontEnd
