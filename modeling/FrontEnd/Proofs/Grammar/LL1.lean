import Mathlib.Data.List.Pairwise
import FrontEnd.Proofs.Grammar.FirstSets

/-!
# Grammars that one token decides

In a grammar of this kind the next token says which alternative of a nonterminal a derivation goes
on with, and whether it goes on with an empty one.

- `Grammar.Occurs`, `Grammar.LL1`: the condition, for every nonterminal that there is;
- `Grammar.exists_expansion`: a derivation goes on with some alternative, and the next token begins
  the alternative or is expected behind it;
- `Grammar.LL1.predict`: **the next token begins that alternative and no other, or none at all**;
- `Grammar.Plain`: grammars in which nothing but the next token decides;
- `Grammar.Plain.decide_round`, `Grammar.Plain.decide_unary`, `Grammar.Plain.decide_tail`: what it
  decides.
-/

namespace FrontEnd

namespace Grammar

/-- The nonterminals of the grammar: its rules, what its productions make optional or repeat, and the
operands and operators of its expressions. -/
inductive Occurs (g : Grammar) : Part → Prop where
  | rule {r : Nat} (hr : r < g.size) : Occurs g (.rule r)
  | opt {r s : Nat} {as : List Alternative} {a : Alternative} (hb : g.body r = .sequence as)
    (ha : a ∈ as) (hs : .opt s ∈ a.symbols) : Occurs g (.opt s)
  | many {r s : Nat} {as : List Alternative} {a : Alternative} (hb : g.body r = .sequence as)
    (ha : a ∈ as) (hs : .many s ∈ a.symbols) : Occurs g (.many s)
  | unary {r : Nat} {ops : Operators} (hb : g.body r = .expression ops) : Occurs g (.unary r)
  | tail {r : Nat} {ops : Operators} (hb : g.body r = .expression ops) : Occurs g (.tail r)

/-- One token decides between the alternatives of every nonterminal. -/
structure LL1 (g : Grammar) : Prop where
  /-- No token begins two alternatives. -/
  disjoint : ∀ part, g.Occurs part → (g.expansions part).Pairwise fun body body' =>
    ∀ t, ¬ (g.Begins body t ∧ g.Begins body' t)
  /-- At most one alternative can be empty. -/
  single : ∀ part, g.Occurs part → (g.expansions part).Pairwise fun body body' =>
    ¬ (g.Empties body ∧ g.Empties body')
  /-- What begins a nonterminal that can be empty does not follow it. -/
  apart : ∀ part, g.Occurs part → g.Empties [part] → ∀ t, g.Begins [part] t → ¬ g.Follows part t

/-- The token can come where the form is pending, at the end of the input if the form can be
empty. -/
def Expects (g : Grammar) (form : List Part) (t : TokenId) : Prop :=
  g.Begins form t ∨ t = .eof ∧ g.Empties form

variable {g : Grammar} {part : Part} {form lead body body' : List Part} {text : List TokenId}
  {t : TokenId}

theorem Occurs.ne_token (h : g.Occurs part) (t : TokenId) : part ≠ .token t := by
  rintro rfl
  cases h

theorem follows_of_expects (hreach : g.Yields [.rule g.start] (lead ++ part :: form))
    (h : g.Expects form t) : g.Follows part t := by
  rcases h with ⟨rest, h⟩ | ⟨rfl, h⟩
  · have hall := hreach.trans (Yields.append (.refl lead) (Yields.append (.refl [part]) h))
    exact .inl ⟨lead, rest, hall⟩
  · have hall := hreach.trans (Yields.append (.refl lead) (Yields.append (.refl [part]) h))
    exact .inr ⟨rfl, lead, hall⟩

/-- A text is empty or begins with a token, and the form it is derived from with it. -/
theorem Derives.expects (h : g.Derives form text) : g.Expects form (text.headD .eof) := by
  cases text with
  | nil => exact .inr ⟨rfl, h.empties⟩
  | cons t text => exact .inl h.begins

/-- A derivation goes on with some alternative of the leftmost part. -/
theorem exists_expansion (hpart : ∀ t, part ≠ .token t) (h : g.Derives (part :: form) text) :
    ∃ body ∈ g.expansions part, g.Derives (body ++ form) text ∧
      (g.Begins body (text.headD .eof) ∨
        g.Empties body ∧ g.Expects form (text.headD .eof)) := by
  obtain ⟨body, hbody, h⟩ := (derives_cons hpart).1 h
  refine ⟨body, hbody, h, ?_⟩
  obtain ⟨u, v, rfl, hu, hv⟩ := derives_append.1 h
  cases u with
  | nil => exact .inr ⟨hu.empties, hv.expects⟩
  | cons t u => exact .inl hu.begins

/-- Where no two members share a property, one member at most has it. -/
theorem eq_of_pairwise_not {α : Type} {P : α → Prop} {xs : List α}
    (h : xs.Pairwise fun x y => ¬ (P x ∧ P y)) {x y : α} (hx : x ∈ xs) (hy : y ∈ xs)
    (hpx : P x) (hpy : P y) : x = y := by
  have hsymm : Std.Symm fun x y => ¬ (P x ∧ P y) := ⟨fun _ _ h hboth => h hboth.symm⟩
  by_contra hne
  exact h.forall hx hy hne ⟨hpx, hpy⟩

namespace LL1

/-- A token begins one alternative at most. -/
theorem eq_of_begins (h : g.LL1) (hoccurs : g.Occurs part) (hbody : body ∈ g.expansions part)
    (hbody' : body' ∈ g.expansions part) (ht : g.Begins body t) (ht' : g.Begins body' t) :
    body' = body :=
  eq_of_pairwise_not ((h.disjoint part hoccurs).imp fun h => h t) hbody' hbody ht' ht

/-- One alternative at most can be empty. -/
theorem eq_of_empties (h : g.LL1) (hoccurs : g.Occurs part) (hbody : body ∈ g.expansions part)
    (hbody' : body' ∈ g.expansions part) (he : g.Empties body) (he' : g.Empties body') :
    body' = body :=
  eq_of_pairwise_not (h.single part hoccurs) hbody' hbody he' he

/-- Behind an alternative that can be empty comes nothing that begins any alternative. -/
theorem not_begins (h : g.LL1) (hoccurs : g.Occurs part) (hbody : body ∈ g.expansions part)
    (hbody' : body' ∈ g.expansions part) (he : g.Empties body) (hfollows : g.Follows part t) :
    ¬ g.Begins body' t := by
  have hempties : g.Empties [part] := by
    have hyields := Yields.expand hbody []
    rw [List.append_nil] at hyields
    exact hyields.trans he
  intro ht
  -- The token would both begin the part and follow it.
  have hbegins : g.Begins [part] t := by
    have hyields := Yields.expand hbody' []
    rw [List.append_nil] at hyields
    exact hyields.begins ht
  exact h.apart part hoccurs hempties t hbegins hfollows

/-- The next token begins the alternative that the derivation goes on with and no other, or it
begins none and the derivation goes on with an empty one. -/
theorem predict (h : g.LL1) (hoccurs : g.Occurs part)
    (hreach : g.Yields [.rule g.start] (lead ++ part :: form))
    (hd : g.Derives (part :: form) text) :
    ∃ body ∈ g.expansions part, g.Derives (body ++ form) text ∧
      (g.Begins body (text.headD .eof) ∧
          (∀ body' ∈ g.expansions part, g.Begins body' (text.headD .eof) → body' = body) ∨
        g.Empties body ∧ g.Expects form (text.headD .eof) ∧
          ∀ body' ∈ g.expansions part, ¬ g.Begins body' (text.headD .eof)) := by
  obtain ⟨body, hbody, hd, hnext⟩ := exists_expansion hoccurs.ne_token hd
  refine ⟨body, hbody, hd, ?_⟩
  rcases hnext with hbegins | ⟨hempties, hexpects⟩
  · left
    exact ⟨hbegins, fun body' hbody' => h.eq_of_begins hoccurs hbody hbody' hbegins⟩
  · right
    have hfollows := follows_of_expects hreach hexpects
    exact ⟨hempties, hexpects, fun body' hbody' =>
      h.not_begins hoccurs hbody hbody' hempties hfollows⟩

end LL1

/-! ## What follows a nonterminal -/

/-- Sets that hold all that can follow: the end of the input behind the start rule, and behind a part
of an alternative what begins the parts after it, or follows the nonterminal if these can be
empty. -/
structure Follow (g : Grammar) (reached : Part → Prop) (F : Part → TokenId → Prop) : Prop where
  start : reached (.rule g.start)
  part : ∀ {part body x}, reached part → body ∈ g.expansions part → x ∈ body → reached x
  stop : F (.rule g.start) .eof
  next : ∀ {part before x behind t}, reached part → before ++ x :: behind ∈ g.expansions part →
    g.Begins behind t → F x t
  last : ∀ {part before x behind t}, reached part → before ++ x :: behind ∈ g.expansions part →
    g.Empties behind → F part t → F x t

theorem Expects.of_yields (hy : g.Yields form body) (h : g.Expects body t) : g.Expects form t :=
  h.imp hy.begins fun h => ⟨h.1, hy.trans h.2⟩

theorem expects_append (h : g.Expects (form ++ body) t) :
    g.Begins form t ∨ g.Empties form ∧ g.Expects body t := by
  rcases h with h | ⟨rfl, h⟩
  · rcases begins_append h with h | ⟨hempty, h⟩
    · exact .inl h
    · exact .inr ⟨hempty, .inl h⟩
  · obtain ⟨hempty, h⟩ := empties_append h
    exact .inr ⟨hempty, .inr ⟨rfl, h⟩⟩

namespace Follow

variable {reached : Part → Prop} {F : Part → TokenId → Prop}

theorem of_yields (h : g.Follow reached F) (hy : g.Yields [.rule g.start] form) :
    (∀ x ∈ form, reached x) ∧
      ∀ before x behind, form = before ++ x :: behind → ∀ t, g.Expects behind t → F x t := by
  induction hy with
  | refl =>
    constructor
    · intro x hx
      rw [List.mem_singleton.1 hx]
      exact h.start
    · intro before x behind heq t ht
      obtain ⟨rfl, rfl, rfl⟩ : before = [] ∧ x = .rule g.start ∧ behind = [] := by
        cases before with
        | nil => simpa [eq_comm] using heq
        | cons _ _ => simp at heq
      rcases ht with ⟨rest, ht⟩ | ⟨rfl, -⟩
      · cases ht.eq_nil
      · exact h.stop
  | @tail b c _ hp ih =>
    obtain ⟨hreached, hfollow⟩ := ih
    cases hp with
    | @expand b part body e hbody =>
      have hpart := hreached part (by simp)
      constructor
      · intro x hx
        simp only [List.mem_append] at hx
        rcases hx with (hx | hx) | hx
        · exact hreached x (by simp [hx])
        · exact h.part hpart hbody hx
        · exact hreached x (by simp [hx])
      · intro before x behind heq t ht
        -- The split is before the alternative, inside, or behind it.
        have hinside : ∀ v w, body = v ++ x :: w → g.Expects (w ++ e) t → F x t := by
          rintro v w rfl ht
          rcases expects_append ht with ht | ⟨hempty, ht⟩
          · exact h.next hpart hbody ht
          · exact h.last hpart hbody hempty (hfollow b part e rfl t ht)
        rcases List.append_eq_append_iff.1 heq with ⟨w, rfl, rfl⟩ | ⟨w, hw, hrest⟩
        · exact hfollow (b ++ part :: w) x behind (by simp) t ht
        · cases w with
          | nil =>
            rw [List.nil_append] at hrest
            exact hfollow (b ++ [part]) x behind (by simp [← hrest]) t ht
          | cons _ w =>
            obtain ⟨rfl, rfl⟩ := List.cons.inj hrest
            rcases List.append_eq_append_iff.1 hw with ⟨v, rfl, hv⟩ | ⟨v, rfl, hv⟩
            · exact hinside v w hv ht
            · cases v with
              | nil => exact hinside [] w hv.symm ht
              | cons _ v =>
                obtain ⟨rfl, rfl⟩ := List.cons.inj hv
                have hy := Yields.append (.refl v) (.expand hbody e)
                rw [← List.append_assoc] at hy
                exact hfollow before x (v ++ part :: e) (by simp) t (ht.of_yields hy)

/-- The sets hold whatever follows. -/
theorem of_follows (h : g.Follow reached F) (hfollows : g.Follows part t) : F part t := by
  rcases hfollows with ⟨before, behind, hy⟩ | ⟨rfl, before, hy⟩
  · exact (h.of_yields hy).2 before part _ rfl t (.inl (begins_token t behind))
  · exact (h.of_yields hy).2 before part [] rfl _ (.inr ⟨rfl, .refl _⟩)

end Follow

/-! ## Decisions -/

/-- One token decides in the grammar, and nothing gets in its way: every rule is defined, no
alternative has a guard, no operand can be empty, and the reserved tokens stand nowhere. -/
structure Plain (g : Grammar) : Prop where
  defined : ∀ r < g.size, g.body r ≠ .undefined
  unguarded : ∀ r as a, g.body r = .sequence as → a ∈ as → a.guard = []
  lacks_eof : g.Lacks .eof
  lacks_unknown : g.Lacks .unknown
  solid : ∀ r ops, g.body r = .expression ops → ¬ g.Empties [.rule ops.operand]
  ll1 : g.LL1

theorem Plain.solidOperands (h : g.Plain) (hc : g.Checked) :
    g.SolidOperands := by
  intro r ops hb
  by_contra hnull
  rw [Bool.not_eq_false] at hnull
  exact h.solid r ops hb (hc.empties_of_nullable hnull)

variable {r : Nat} {ops : Operators} {ids : List TokenId}

namespace Plain

/-- Whether another round, or an optional part, is there. -/
theorem decide_round (h : g.Plain) (hc : g.Checked) {behind : List Part}
    (hoccurs : g.Occurs part) (hexp : g.expansions part = [.rule r :: behind, []])
    (hsolid : g.isNullable r = false)
    (hreach : g.Yields [.rule g.start] (lead ++ part :: form)) (hd : g.Derives (part :: form) ids) :
    (g.firstOf r).contains (ids.headD .eof) = true ∧ g.Derives (.rule r :: (behind ++ form)) ids ∨
      (g.firstOf r).contains (ids.headD .eof) = false ∧ g.Expects form (ids.headD .eof) ∧
        g.Derives form ids := by
  have hfirst : ∀ t, g.Begins (.rule r :: behind) t ↔ (g.firstOf r).contains t = true := by
    intro t
    rw [hc.begins_iff (h.solidOperands hc), contains_formHeads_cons]
    simp [heads, blank, hsolid]
  have hround : .rule r :: behind ∈ g.expansions part := by simp [hexp]
  obtain ⟨body, hbody, hd, hnext⟩ := h.ll1.predict hoccurs hreach hd
  have hcases : body = .rule r :: behind ∨ body = [] := by simpa [hexp] using hbody
  rcases hnext with ⟨hbegins, -⟩ | ⟨hempties, hexpects, hnone⟩
  · rcases hcases with rfl | rfl
    · exact .inl ⟨(hfirst _).1 hbegins, hd⟩
    · rw [hc.begins_iff (h.solidOperands hc)] at hbegins
      simp at hbegins
  · right
    refine ⟨?_, hexpects, ?_⟩
    · exact Bool.eq_false_iff.2 fun ht => hnone _ hround ((hfirst _).2 ht)
    · rcases hcases with rfl | rfl
      · rw [hc.empties_iff, List.all_cons, blank, hsolid] at hempties
        cases hempties
      · exact hd

/-- Whether another prefix operator stands before the operand. -/
theorem decide_unary (h : g.Plain) (hc : g.Checked) (hb : g.body r = .expression ops)
    (hreach : g.Yields [.rule g.start] (lead ++ .unary r :: form))
    (hd : g.Derives (.unary r :: form) ids) :
    ids.headD .eof ∈ ops.signs ∧ g.Derives (.token (ids.headD .eof) :: .unary r :: form) ids ∨
      ids.headD .eof ∉ ops.signs ∧ (g.firstOf ops.operand).contains (ids.headD .eof) = true ∧
        g.Derives (.rule ops.operand :: form) ids := by
  have hsign : ∀ t ∈ ops.signs, [.token t, .unary r] ∈ g.expansions (.unary r) :=
    fun t ht => mem_expansions_unary.2 ⟨ops, hb, .inl ⟨t, ht, rfl⟩⟩
  obtain ⟨body, hbody, hd, hnext⟩ := h.ll1.predict (.unary hb) hreach hd
  obtain ⟨ops', hb', hcases⟩ := mem_expansions_unary.1 hbody
  rw [hb] at hb'
  cases hb'
  rcases hcases with ⟨t, ht, rfl⟩ | rfl
  · -- A token at the front is the next one.
    left
    obtain ⟨text, rfl, -⟩ := derives_token.1 hd
    exact ⟨ht, hd⟩
  · right
    rcases hnext with ⟨hbegins, honly⟩ | ⟨hempties, -, -⟩
    · refine ⟨fun ht => ?_, ?_, hd⟩
      · have heq := honly _ (hsign _ ht) (begins_token _ _)
        cases heq
      · rw [hc.begins_iff (h.solidOperands hc)] at hbegins
        simpa [contains_formHeads_cons, heads] using hbegins
    · exact absurd hempties (h.solid r ops hb)

/-- Whether a binary operator stands behind the operand. -/
theorem decide_tail (h : g.Plain) (hb : g.body r = .expression ops)
    (hreach : g.Yields [.rule g.start] (lead ++ .tail r :: form))
    (hd : g.Derives (.tail r :: form) ids) :
    ids.headD .eof ∈ ops.links ∧
        g.Derives (.token (ids.headD .eof) :: .unary r :: .tail r :: form) ids ∨
      ids.headD .eof ∉ ops.links ∧ g.Derives form ids := by
  have hlink : ∀ t ∈ ops.links, [.token t, .unary r, .tail r] ∈ g.expansions (.tail r) :=
    fun t ht => mem_expansions_tail.2 ⟨ops, hb, .inl ⟨t, ht, rfl⟩⟩
  obtain ⟨body, hbody, hd, hnext⟩ := h.ll1.predict (.tail hb) hreach hd
  obtain ⟨ops', hb', hcases⟩ := mem_expansions_tail.1 hbody
  rw [hb] at hb'
  cases hb'
  rcases hcases with ⟨t, ht, rfl⟩ | rfl
  · left
    obtain ⟨text, rfl, -⟩ := derives_token.1 hd
    exact ⟨ht, hd⟩
  · right
    refine ⟨fun ht => ?_, hd⟩
    -- An operator that is next would begin the other alternative.
    have hbegins := begins_token (g := g) (ids.headD .eof) [.unary r, .tail r]
    rcases hnext with ⟨-, honly⟩ | ⟨-, -, hnone⟩
    · have heq := honly _ (hlink _ ht) hbegins
      cases heq
    · exact hnone _ (hlink _ ht) hbegins

end Plain

/-! ## The small grammar -/

/-- The parts that derivations of the small grammar come to. -/
def sampleReached : Part → Prop
  | .token _ => True
  | .rule r => r < 3
  | .opt _ => False
  | .many r | .unary r | .tail r => r = 1

/-- What can follow them: the end of the input or a closing parenthesis behind a list, everything but
an operator between operands behind a sum. -/
def sampleFollow : Part → TokenId → Prop
  | .rule 0, t | .many _, t => t = .eof ∨ t = .kind 4
  | .rule 1, t | .tail _, t => t ≠ .kind 2 ∧ t ≠ .kind 5
  | _, _ => True

theorem expansions_sample :
    sample.expansions (.rule 0) = [[.many 1]] ∧
      sample.expansions (.rule 1) = [[.unary 1, .tail 1]] ∧
      sample.expansions (.rule 2)
        = [[.token (.kind 0)], [.token (.kind 3), .rule 0, .token (.kind 4)]] ∧
      sample.expansions (.many 1) = [[.rule 1, .many 1], []] ∧
      sample.expansions (.unary 1) = [[.token (.kind 1), .unary 1], [.rule 2]] ∧
      sample.expansions (.tail 1) = [[.token (.kind 2), .unary 1, .tail 1],
        [.token (.kind 5), .unary 1, .tail 1], []] := by
  simp [expansions, body_sample, RuleBody.map, Analysis.alternative, Symbol.part, sampleOps,
    Operators.signs, Operators.links]

/-- A name is an operand. -/
theorem derives_sample_name : sample.Derives [.unary 1] [.kind 0] := by
  obtain ⟨-, -, hitem, -, hunary, -⟩ := expansions_sample
  have hname : sample.Derives [.rule 2] [.kind 0] :=
    (derives_single (by simp)).2 ⟨[.token (.kind 0)], by simp [hitem], .token .nil⟩
  exact (derives_single (by simp)).2 ⟨[.rule 2], by simp [hunary], hname⟩

/-- An operand behind a minus sign is an operand. -/
theorem derives_sample_sign {w : List TokenId} (h : sample.Derives [.unary 1] w) :
    sample.Derives [.unary 1] (.kind 1 :: w) := by
  obtain ⟨-, -, -, -, hunary, -⟩ := expansions_sample
  exact (derives_single (by simp)).2 ⟨[.token (.kind 1), .unary 1], by simp [hunary], .token h⟩

/-- A list in parentheses is an operand. -/
theorem derives_sample_group {w : List TokenId} (h : sample.Derives [.rule 0] w) :
    sample.Derives [.unary 1] (.kind 3 :: (w ++ [.kind 4])) := by
  obtain ⟨-, -, hitem, -, hunary, -⟩ := expansions_sample
  have hgroup : sample.Derives [.rule 2] (.kind 3 :: (w ++ [.kind 4])) :=
    (derives_single (by simp)).2 ⟨[.token (.kind 3), .rule 0, .token (.kind 4)], by simp [hitem],
      .token (h.append (.token .nil))⟩
  exact (derives_single (by simp)).2 ⟨[.rule 2], by simp [hunary], hgroup⟩

/-- Behind an operand there may be no operator. -/
theorem derives_sample_tail_nil : sample.Derives [.tail 1] [] := by
  obtain ⟨-, -, -, -, -, htail⟩ := expansions_sample
  exact (derives_single (by simp)).2 ⟨[], by simp [htail], .nil⟩

/-- Behind an operand there may be an operator and an operand, and what may be behind that. -/
theorem derives_sample_tail {op : TokenId} (hop : op = .kind 2 ∨ op = .kind 5) {u v : List TokenId}
    (hu : sample.Derives [.unary 1] u) (hv : sample.Derives [.tail 1] v) :
    sample.Derives [.tail 1] (op :: (u ++ v)) := by
  obtain ⟨-, -, -, -, -, htail⟩ := expansions_sample
  exact (derives_single (by simp)).2 ⟨[.token op, .unary 1, .tail 1],
    by rcases hop with rfl | rfl <;> simp [htail], .token (hu.append hv)⟩

/-- An operand with what may be behind it is a list. -/
theorem derives_sample_list {u v : List TokenId} (hu : sample.Derives [.unary 1] u)
    (hv : sample.Derives [.tail 1] v) : sample.Derives [.rule 0] (u ++ v) := by
  obtain ⟨hlist, hsum, -, hmany, -, -⟩ := expansions_sample
  have hexpression : sample.Derives [.rule 1] (u ++ v) :=
    (derives_single (by simp)).2 ⟨[.unary 1, .tail 1], by simp [hsum], hu.append hv⟩
  have hend : sample.Derives [.many 1] [] :=
    (derives_single (by simp)).2 ⟨[], by simp [hmany], .nil⟩
  have hround : sample.Derives [.many 1] (u ++ v) := by
    have hitem := hexpression.append hend
    rw [List.append_nil] at hitem
    exact (derives_single (by simp)).2 ⟨[.rule 1, .many 1], by simp [hmany], hitem⟩
  exact (derives_single (by simp)).2 ⟨[.many 1], hlist ▸ List.mem_cons_self, hround⟩

/-- A sign, two operators one of which binds stronger, and parentheses. -/
def sampleIds : List TokenId := [.kind 1, .kind 0, .kind 2, .kind 0, .kind 5, .kind 3, .kind 0,
  .kind 2, .kind 0, .kind 4]

/-- They are a text of the small grammar. -/
theorem derives_sample : sample.Derives [.rule sample.start] sampleIds := by
  have hadded := derives_sample_tail (.inl rfl) derives_sample_name derives_sample_tail_nil
  have hgroup := derives_sample_group (derives_sample_list derives_sample_name hadded)
  have htimes := derives_sample_tail (.inr rfl) hgroup derives_sample_tail_nil
  exact derives_sample_list (derives_sample_sign derives_sample_name)
    (derives_sample_tail (.inl rfl) derives_sample_name htimes)

theorem checked_sample : sample.Checked := checked_of_ofDecls ofDecls_sample

theorem solidOperands_sample : sample.SolidOperands := by
  intro r ops hb
  obtain ⟨-, rfl⟩ := expression_sample hb
  exact isNullable_sample 2

theorem begins_sample : sample.Begins form t ↔ (sample.formHeads form).contains t = true :=
  checked_sample.begins_iff solidOperands_sample

theorem empties_sample : sample.Empties form ↔ form.all sample.blank = true :=
  checked_sample.empties_iff

/-- The productions of the small grammar, one by one. -/
theorem cases_sample (h : sampleReached part) (hbody : body ∈ sample.expansions part) :
    (part = .rule 0 ∧ body = [.many 1]) ∨ (part = .rule 1 ∧ body = [.unary 1, .tail 1]) ∨
      (part = .rule 2 ∧ (body = [.token (.kind 0)] ∨
        body = [.token (.kind 3), .rule 0, .token (.kind 4)])) ∨
      (part = .many 1 ∧ (body = [.rule 1, .many 1] ∨ body = [])) ∨
      (part = .unary 1 ∧ (body = [.token (.kind 1), .unary 1] ∨ body = [.rule 2])) ∨
      part = .tail 1 ∧ (body = [.token (.kind 2), .unary 1, .tail 1] ∨
        body = [.token (.kind 5), .unary 1, .tail 1] ∨ body = []) := by
  obtain ⟨hlist, hsum, hitem, hmany, hunary, htail⟩ := expansions_sample
  cases part with
  | token _ => cases hbody
  | opt _ => exact h.elim
  | rule r =>
    rcases r with _ | _ | _ | r
    · simpa [hlist] using hbody
    · simpa [hsum] using hbody
    · simpa [hitem] using hbody
    · exact absurd h (by simp [sampleReached])
  | many r | unary r | tail r =>
    obtain rfl : r = 1 := h
    simpa [hmany, hunary, htail] using hbody

/-- The places in its productions behind which not everything may come. -/
theorem split_sample {before behind : List Part} {x : Part} (h : sampleReached part)
    (hbody : before ++ x :: behind ∈ sample.expansions part) :
    (∀ t, sampleFollow x t) ∨
      (x = .many 1 ∧ behind = [] ∧ (part = .rule 0 ∨ part = .many 1)) ∨
      (x = .tail 1 ∧ behind = [] ∧ (part = .rule 1 ∨ part = .tail 1)) ∨
      (x = .rule 0 ∧ behind = [.token (.kind 4)]) ∨
      x = .rule 1 ∧ behind = [.many 1] ∧ part = .many 1 := by
  have hsuffix : x :: behind ∈ (before ++ x :: behind).tails :=
    (List.mem_tails ..).2 (List.suffix_append ..)
  generalize before ++ x :: behind = body at hbody hsuffix
  rcases cases_sample h hbody with ⟨rfl, rfl⟩ | ⟨rfl, rfl⟩ | ⟨rfl, rfl | rfl⟩ | ⟨rfl, rfl | rfl⟩ |
    ⟨rfl, rfl | rfl⟩ | ⟨rfl, rfl | rfl | rfl⟩ <;> simp at hsuffix <;> grind [sampleFollow]

/-- The tokens that begin the parts of the small grammar. -/
theorem formHeads_sample :
    sample.formHeads [.many 1] = .ofList [.kind 0, .kind 1, .kind 3] ∧
      sample.formHeads [.rule 0] = .ofList [.kind 0, .kind 1, .kind 3] ∧
      sample.formHeads [.tail 1] = .ofList [.kind 2, .kind 5] ∧
      sample.formHeads [.rule 2] = .ofList [.kind 0, .kind 3] := by
  decide +kernel

theorem follow_sample : sample.Follow sampleReached sampleFollow := by
  obtain ⟨hmany, -, -, -⟩ := formHeads_sample
  constructor
  · exact Nat.zero_lt_succ 2
  · intro part body x hpart hbody hx
    have hall : ∀ x ∈ body, sampleReached x := by
      rcases cases_sample hpart hbody with ⟨-, rfl⟩ | ⟨-, rfl⟩ | ⟨-, rfl | rfl⟩ | ⟨-, rfl | rfl⟩ |
        ⟨-, rfl | rfl⟩ | ⟨-, rfl | rfl | rfl⟩ <;> simp [sampleReached]
    exact hall x hx
  · exact .inl rfl
  · -- What is begun by a part that stands behind another one follows that one.
    intro part before x behind t hpart hbody ht
    rw [begins_sample] at ht
    rcases split_sample hpart hbody with h | ⟨rfl, rfl, -⟩ | ⟨rfl, rfl, -⟩ | ⟨rfl, rfl⟩ |
      ⟨rfl, rfl, -⟩
    · exact h t
    · simp at ht
    · simp at ht
    · right
      simp only [formHeads, blank, heads, Bool.false_eq_true, if_false,
        TokenSet.contains_single, beq_iff_eq] at ht
      exact ht.symm
    · rw [hmany] at ht
      constructor
      · rintro rfl
        revert ht
        decide
      · rintro rfl
        revert ht
        decide
  · -- At the end of an alternative, what follows the whole follows its last part.
    intro part before x behind t hpart hbody hempty ht
    rw [empties_sample] at hempty
    rcases split_sample hpart hbody with h | ⟨rfl, rfl, rfl | rfl⟩ | ⟨rfl, rfl, rfl | rfl⟩ |
      ⟨rfl, rfl⟩ | ⟨rfl, rfl, rfl⟩
    · exact h t
    · exact ht
    · exact ht
    · exact ht
    · exact ht
    · cases hempty
    · rcases ht with rfl | rfl <;> exact ⟨by decide, by decide⟩

theorem reached_of_occurs (h : sample.Occurs part) : sampleReached part := by
  cases h with
  | rule hr =>
    rw [size_sample] at hr
    exact hr
  | opt hb ha hs =>
    rcases (production_sample hb ha).2 with h | h | h <;> simp [h] at hs
  | many hb ha hs =>
    rcases (production_sample hb ha).2 with h | h | h
    · rw [h, List.mem_singleton] at hs
      cases hs
      rfl
    · simp [h] at hs
    · simp [h] at hs
  | unary hb => exact (expression_sample hb).1
  | tail hb => exact (expression_sample hb).1

theorem not_begins_both_sample
    (h : (sample.formHeads form).intersects (sample.formHeads body) = false) (t : TokenId) :
    ¬ (sample.Begins form t ∧ sample.Begins body t) := by
  rw [begins_sample, begins_sample]
  rintro ⟨hform, hbody⟩
  rw [TokenSet.intersects_of_contains hform hbody] at h
  cases h

/-- The choices of the small grammar are those between the alternatives of four parts. -/
theorem pairwise_sample {R : List Part → List Part → Prop}
    (hitem : R [.token (.kind 0)] [.token (.kind 3), .rule 0, .token (.kind 4)])
    (hmany : R [.rule 1, .many 1] []) (hunary : R [.token (.kind 1), .unary 1] [.rule 2])
    (hoperators : R [.token (.kind 2), .unary 1, .tail 1] [.token (.kind 5), .unary 1, .tail 1])
    (hplus : R [.token (.kind 2), .unary 1, .tail 1] [])
    (htimes : R [.token (.kind 5), .unary 1, .tail 1] []) {part : Part}
    (hoccurs : sample.Occurs part) : (sample.expansions part).Pairwise R := by
  obtain ⟨hlists, hsums, hitems, hmanys, hunaries, htails⟩ := expansions_sample
  have hpart := reached_of_occurs hoccurs
  cases part with
  | token _ => exact .nil
  | opt _ => exact hpart.elim
  | rule r =>
    rcases r with _ | _ | _ | r
    · rw [hlists]
      exact List.pairwise_singleton ..
    · rw [hsums]
      exact List.pairwise_singleton ..
    · rwa [hitems, List.pairwise_pair]
    · exact absurd hpart (by simp [sampleReached])
  | many r | unary r =>
    obtain rfl : r = 1 := hpart
    simpa only [hmanys, hunaries, List.pairwise_pair]
  | tail r =>
    obtain rfl : r = 1 := hpart
    rw [htails, List.pairwise_cons, List.pairwise_pair]
    exact ⟨by simpa using ⟨hoperators, hplus⟩, htimes⟩

theorem ll1_sample : sample.LL1 := by
  constructor
  · intro part
    apply pairwise_sample <;> exact not_begins_both_sample (by decide +kernel)
  · intro part
    apply pairwise_sample <;> (rw [empties_sample, empties_sample]; decide +kernel)
  · intro part hoccurs hempty t ht hfollows
    have hpart := reached_of_occurs hoccurs
    have hfollow := follow_sample.of_follows hfollows
    obtain ⟨hheadsMany, hheadsList, hheadsTail, -⟩ := formHeads_sample
    rw [begins_sample] at ht
    rw [empties_sample] at hempty
    cases part with
    | token _ => cases hempty
    | opt _ => exact hpart.elim
    | rule r =>
      rcases r with _ | _ | _ | r
      · rw [hheadsList] at ht
        rcases hfollow with rfl | rfl <;> revert ht <;> decide
      · exact absurd hempty (by decide +kernel)
      · exact absurd hempty (by decide +kernel)
      · exact absurd hpart (by simp [sampleReached])
    | many r =>
      obtain rfl : r = 1 := hpart
      rw [hheadsMany] at ht
      rcases hfollow with rfl | rfl <;> revert ht <;> decide
    | unary r =>
      obtain rfl : r = 1 := hpart
      exact absurd hempty (by decide +kernel)
    | tail r =>
      obtain rfl : r = 1 := hpart
      rw [hheadsTail] at ht
      obtain ⟨hplus, htimes⟩ := hfollow
      rw [TokenSet.contains_ofList] at ht
      simp [hplus, htimes] at ht

theorem plain_sample : sample.Plain where
  defined := defined_sample
  unguarded := fun _ _ _ hb ha => (production_sample hb ha).1
  lacks_eof := lacks_sample nofun
  lacks_unknown := lacks_sample nofun
  solid := by
    intro r ops hb
    obtain ⟨-, rfl⟩ := expression_sample hb
    rw [empties_sample]
    decide +kernel
  ll1 := ll1_sample

end Grammar

end FrontEnd
