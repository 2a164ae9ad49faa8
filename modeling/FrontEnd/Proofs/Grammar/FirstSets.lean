import FrontEnd.Proofs.Grammar.Checked
import FrontEnd.Proofs.Grammar.Language

/-!
# What the analysis says of the language

The analysis goes round the rules; the language is given by derivations. The two agree on what can
be empty, and, where no operand of an expression can be empty, on what can begin.

- `Grammar.Checked.empties_iff`: **a form can be empty just when each of its parts is nullable**;
- `Grammar.Checked.begins_iff`: **a form can begin with a token just when the first sets say so**;
- `Grammar.Checked.firstOf_lacks`: a token that stands nowhere begins nothing;
- `Grammar.Checked.exists_expansion_of_formHeads`: what begins a rule begins one of its alternatives.
-/

namespace FrontEnd

namespace Grammar

/-- Is the part nullable by the analysis? -/
def blank (g : Grammar) : Part → Bool
  | .token _ => false
  | .rule r => g.isNullable r
  | .opt _ | .many _ => true
  | .unary r => match g.body r with | .expression ops => g.isNullable ops.operand | _ => false
  | .tail r => match g.body r with | .expression _ => true | _ => false

/-- The tokens that begin the part by the analysis. -/
def heads (g : Grammar) : Part → TokenSet
  | .token t => .single t
  | .rule r | .opt r | .many r => g.firstOf r
  | .unary r =>
    match g.body r with
    | .expression ops => (g.firstOf ops.operand).insertMany ops.signs
    | _ => ∅
  | .tail r => match g.body r with | .expression ops => .ofList ops.links | _ => ∅

/-- The tokens that begin the form by the analysis. -/
def formHeads (g : Grammar) : List Part → TokenSet
  | [] => ∅
  | part :: form => if g.blank part then (g.heads part).union (g.formHeads form) else g.heads part

/-- No operand of an expression is nullable. -/
def SolidOperands (g : Grammar) : Prop :=
  ∀ r ops, g.body r = .expression ops → g.isNullable ops.operand = false

variable {g : Grammar} {part : Part} {form form' body : List Part} {t : TokenId} {r : Nat}
  {ops : Operators}

@[simp] theorem formHeads_nil : g.formHeads [] = ∅ := rfl

theorem contains_formHeads_cons :
    (g.formHeads (part :: form)).contains t = true ↔
      (g.heads part).contains t = true ∨
        g.blank part = true ∧ (g.formHeads form).contains t = true := by
  rw [formHeads]
  cases g.blank part with
  | true => simp
  | false => simp

theorem contains_formHeads_append :
    (g.formHeads (form ++ form')).contains t = true ↔
      (g.formHeads form).contains t = true ∨
        form.all g.blank = true ∧ (g.formHeads form').contains t = true := by
  induction form with
  | nil => simp [formHeads]
  | cons part form ih =>
    rw [List.cons_append, contains_formHeads_cons, contains_formHeads_cons, ih, List.all_cons,
      Bool.and_eq_true]
    constructor
    · rintro (h | ⟨hb, h | ⟨hall, h⟩⟩)
      · exact .inl (.inl h)
      · exact .inl (.inr ⟨hb, h⟩)
      · exact .inr ⟨⟨hb, hall⟩, h⟩
    · rintro ((h | ⟨hb, h⟩) | ⟨⟨hb, hall⟩, h⟩)
      · exact .inl h
      · exact .inr ⟨hb, .inl h⟩
      · exact .inr ⟨hb, .inr ⟨hall, h⟩⟩

/-! ## Symbols of productions -/

theorem blank_part (g : Grammar) (symbol : Symbol) :
    g.blank symbol.part = Analysis.symbolNullable g.nullable symbol := by
  cases symbol <;> rfl

theorem heads_part (g : Grammar) (symbol : Symbol) :
    g.heads symbol.part = Analysis.symbolFirst g.first symbol := by
  cases symbol <;> rfl

theorem all_blank_map (g : Grammar) (symbols : List Symbol) :
    (symbols.map Symbol.part).all g.blank
      = (Analysis.sequenceFirst g.nullable g.first symbols).2 := by
  rw [Analysis.snd_sequenceFirst, List.all_map]
  exact congrArg (symbols.all ·) (funext g.blank_part)

theorem formHeads_map (g : Grammar) (symbols : List Symbol) :
    g.formHeads (symbols.map Symbol.part)
      = (Analysis.sequenceFirst g.nullable g.first symbols).1 := by
  induction symbols with
  | nil => rfl
  | cons symbol symbols ih =>
    rw [List.map_cons, formHeads, ih, blank_part, heads_part, Analysis.sequenceFirst]
    cases Analysis.symbolNullable g.nullable symbol <;> rfl

namespace Checked

theorem nullable_eq (hc : g.Checked) {as : List Alternative} {a : Alternative}
    (hb : g.body r = .sequence as) (ha : a ∈ as) :
    a.nullable = (a.symbols.map Symbol.part).all g.blank := by
  rw [all_blank_map]
  conv => lhs; rw [hc.analysed hb ha]
  rfl

theorem first_eq (hc : g.Checked) {as : List Alternative} {a : Alternative}
    (hb : g.body r = .sequence as) (ha : a ∈ as) :
    a.first = g.formHeads (a.symbols.map Symbol.part) := by
  rw [formHeads_map]
  conv => lhs; rw [hc.analysed hb ha]
  rfl

/-! ## The analysis misses nothing -/

theorem blank_of_expansion (hc : g.Checked) (hbody : body ∈ g.expansions part)
    (h : body.all g.blank = true) : g.blank part = true := by
  cases part with
  | token t => cases hbody
  | opt r | many r => rfl
  | rule r =>
    rcases mem_expansions_rule.1 hbody with ⟨as, a, hb, ha, rfl⟩ | ⟨ops, hb, rfl⟩
    · exact hc.nullable_sequence hb ha ((hc.nullable_eq hb ha).trans h)
    · simp only [List.all_cons, blank, hb, Bool.and_eq_true] at h
      exact hc.nullable_expression hb h.1
  | unary r =>
    obtain ⟨ops, hb, ⟨t, -, rfl⟩ | rfl⟩ := mem_expansions_unary.1 hbody
    · simp [blank] at h
    · simpa [blank, hb] using h
  | tail r =>
    obtain ⟨ops, hb, -⟩ := mem_expansions_tail.1 hbody
    simp [blank, hb]

theorem heads_of_expansion (hc : g.Checked) (hsolid : g.SolidOperands)
    (hbody : body ∈ g.expansions part) (h : (g.formHeads body).contains t = true) :
    (g.heads part).contains t = true := by
  have htoken : ∀ {id form}, (g.formHeads (.token id :: form)).contains t = true → id = t := by
    intro id form h
    simpa [formHeads, blank, heads] using h
  -- For a rule the tables hold the first tokens of each body; the other parts are read off their
  -- expansions.
  cases part with
  | token t => cases hbody
  | opt r =>
    rcases mem_expansions_opt.1 hbody with rfl | rfl
    · simpa [contains_formHeads_cons, heads] using h
    · simp at h
  | many r =>
    rcases mem_expansions_many.1 hbody with rfl | rfl
    · rcases contains_formHeads_cons.1 h with h | ⟨-, h⟩
      · exact h
      · simpa [contains_formHeads_cons, heads] using h
    · simp at h
  | rule r =>
    rcases mem_expansions_rule.1 hbody with ⟨as, a, hb, ha, rfl⟩ | ⟨ops, hb, rfl⟩
    · rw [← hc.first_eq hb ha] at h
      exact hc.first_sequence hb ha h
    · refine hc.first_expression hb ?_
      simpa [contains_formHeads_cons, heads, blank, hb, hsolid r ops hb, Operators.signs] using h
  | unary r =>
    obtain ⟨ops, hb, ⟨sign, hsign, rfl⟩ | rfl⟩ := mem_expansions_unary.1 hbody
    · simp [heads, hb, ← htoken h, hsign]
    · have hfirst : (g.firstOf ops.operand).contains t = true := by
        simpa [contains_formHeads_cons, heads] using h
      simp [heads, hb, hfirst]
  | tail r =>
    obtain ⟨ops, hb, ⟨link, hlink, rfl⟩ | rfl⟩ := mem_expansions_tail.1 hbody
    · simp [heads, hb, ← htoken h, hlink]
    · simp at h

theorem blank_of_produces (hc : g.Checked) (hp : g.Produces form form')
    (h : form'.all g.blank = true) : form.all g.blank = true := by
  cases hp with
  | expand before behind hbody =>
    simp only [List.all_append, List.all_cons, Bool.and_eq_true] at h ⊢
    exact ⟨h.1.1, hc.blank_of_expansion hbody h.1.2, h.2⟩

theorem heads_of_produces (hc : g.Checked) (hsolid : g.SolidOperands)
    (hp : g.Produces form form') (h : (g.formHeads form').contains t = true) :
    (g.formHeads form).contains t = true := by
  cases hp with
  | expand before behind hbody =>
    simp only [contains_formHeads_append, contains_formHeads_cons, List.all_append,
      Bool.and_eq_true] at h ⊢
    rcases h with (h | ⟨hbefore, h⟩) | ⟨⟨hbefore, hblank⟩, h⟩
    · exact .inl h
    · exact .inr ⟨hbefore, .inl (hc.heads_of_expansion hsolid hbody h)⟩
    · exact .inr ⟨hbefore, .inr ⟨hc.blank_of_expansion hbody hblank, h⟩⟩

/-! ## The analysis has a reason for everything -/

theorem empties_symbol {symbol : Symbol}
    (h : Analysis.Blank (fun r => g.Empties [.rule r]) symbol) : g.Empties [symbol.part] := by
  cases symbol with
  | token t => exact h.elim
  | rule r => exact h
  | opt r => exact Yields.of_no_opt g r []
  | many r => exact Yields.of_no_many g r []

theorem empties_of_nullable (hc : g.Checked) (h : g.isNullable r = true) :
    g.Empties [.rule r] := by
  refine hc.nullable_least (Q := fun r => g.Empties [.rule r]) ?_ ?_ h
  · intro r as a hb ha hall
    have hrule := Yields.of_rule hb ha []
    rw [List.append_nil] at hrule
    refine hrule.trans (empties_of_forall fun part hpart => ?_)
    obtain ⟨symbol, hsymbol, rfl⟩ := List.mem_map.1 hpart
    exact empties_symbol (hall symbol hsymbol)
  · intro r ops hb hq
    have hunary := (Yields.of_operand hb []).trans hq
    exact (Yields.of_expression hb []).trans (hunary.append (.of_no_link hb []))

theorem empties_of_blank (hc : g.Checked) (h : g.blank part = true) : g.Empties [part] := by
  cases part with
  | token t => cases h
  | rule r => exact hc.empties_of_nullable h
  | opt r => exact Yields.of_no_opt g r []
  | many r => exact Yields.of_no_many g r []
  | unary r =>
    cases hb : g.body r with
    | expression ops =>
      rw [blank, hb] at h
      exact (Yields.of_operand hb []).trans (hc.empties_of_nullable h)
    | undefined | sequence as => simp [blank, hb] at h
  | tail r =>
    cases hb : g.body r with
    | expression ops => exact Yields.of_no_link hb []
    | undefined | sequence as => simp [blank, hb] at h

/-- A form can be empty just when each of its parts is nullable. -/
theorem empties_iff (hc : g.Checked) : g.Empties form ↔ form.all g.blank = true := by
  constructor
  · intro h
    induction h using Relation.ReflTransGen.head_induction_on with
    | refl => rfl
    | head hp _ ih => exact hc.blank_of_produces hp ih
  · intro h
    exact empties_of_forall fun part hpart => hc.empties_of_blank (List.all_eq_true.1 h part hpart)

theorem begins_symbol (symbol : Symbol)
    (h : Analysis.Heads (fun r t => g.Begins [.rule r] t) t symbol) :
    g.Begins [symbol.part] t := by
  cases symbol with
  | token id => exact h ▸ begins_token id []
  | rule r => exact h
  | opt r => exact (Yields.of_opt g r []).begins h
  | many r => exact (Yields.of_many g r []).begins (h.append [.many r])

theorem begins_of_headsSequence (hc : g.Checked) {symbols : List Symbol}
    (h : Analysis.HeadsSequence g.nullable (fun r t => g.Begins [.rule r] t) t symbols) :
    g.Begins (symbols.map Symbol.part) t := by
  induction symbols with
  | nil => exact h.elim
  | cons symbol symbols ih =>
    rcases h with h | ⟨hempty, h⟩
    · exact (begins_symbol symbol h).append _
    · rw [← blank_part] at hempty
      exact (hc.empties_of_blank hempty).begins (ih h)

theorem begins_sign (hb : g.body r = .expression ops) (ht : t ∈ ops.signs) :
    g.Begins [.unary r] t :=
  (Yields.of_sign hb ht []).begins (begins_token t _)

theorem begins_of_first (hc : g.Checked) (h : (g.firstOf r).contains t = true) :
    g.Begins [.rule r] t := by
  refine hc.first_least (Q := fun r t => g.Begins [.rule r] t) ?_ ?_ h
  · intro r as a t hb ha h
    have hrule := Yields.of_rule hb ha []
    rw [List.append_nil] at hrule
    exact hrule.begins (hc.begins_of_headsSequence h)
  · intro r ops t hb h
    have hunary : g.Begins [.unary r] t := by
      rcases h with h | h
      · exact (Yields.of_operand hb []).begins h
      · exact begins_sign hb (List.mem_dedup.2 h)
    exact (Yields.of_expression hb []).begins (hunary.append [.tail r])

theorem begins_of_heads (hc : g.Checked) (h : (g.heads part).contains t = true) :
    g.Begins [part] t := by
  cases part with
  | token id =>
    rw [heads, TokenSet.contains_single, beq_iff_eq] at h
    exact h ▸ begins_token id []
  | rule r => exact hc.begins_of_first h
  | opt r => exact begins_symbol (.opt r) (hc.begins_of_first h)
  | many r => exact begins_symbol (.many r) (hc.begins_of_first h)
  | unary r =>
    cases hb : g.body r with
    | expression ops =>
      simp only [heads, hb, TokenSet.contains_insertMany, Bool.or_eq_true,
        List.contains_iff_mem] at h
      rcases h with h | h
      · exact (Yields.of_operand hb []).begins (hc.begins_of_first h)
      · exact begins_sign hb h
    | undefined | sequence as => simp [heads, hb] at h
  | tail r =>
    cases hb : g.body r with
    | expression ops =>
      simp only [heads, hb, TokenSet.contains_ofList, List.contains_iff_mem] at h
      exact (Yields.of_link hb h []).begins (begins_token t _)
    | undefined | sequence as => simp [heads, hb] at h

theorem ne_of_headsSequence {Q : Nat → TokenId → Prop} (hq : ∀ r t', Q r t' → t' ≠ t)
    {symbols : List Symbol} (hsymbols : .token t ∉ symbols) {t' : TokenId}
    (h : Analysis.HeadsSequence g.nullable Q t' symbols) : t' ≠ t := by
  induction symbols with
  | nil => exact h.elim
  | cons symbol symbols ih =>
    rw [List.mem_cons, not_or] at hsymbols
    rcases h with h | ⟨-, h⟩
    · cases symbol with
      | token id =>
        rintro rfl
        exact hsymbols.1 (congrArg Symbol.token (Eq.symm h))
      | rule r | opt r | many r => exact hq r t' h
    · exact ih hsymbols.2 h

/-- A token that stands nowhere in the grammar begins no rule. -/
theorem firstOf_lacks (hc : g.Checked) (h : g.Lacks t) (r : Nat) :
    (g.firstOf r).contains t = false := by
  have hall : ∀ {r t'}, (g.firstOf r).contains t' = true → t' ≠ t := by
    intro r t' ht
    refine hc.first_least (Q := fun _ t' => t' ≠ t) ?_ ?_ ht
    · intro r as a t' hb ha hheads
      exact ne_of_headsSequence (fun _ _ hq => hq) (h.1 r as a hb ha) hheads
    · rintro r ops t' hb (ht | ht)
      · exact ht
      · rintro rfl
        exact (h.2 r ops hb).1 (List.mem_dedup.2 ht)
  exact Bool.eq_false_iff.2 fun ht => hall ht rfl

/-- A form can begin with a token just when the first sets say so. -/
theorem begins_iff (hc : g.Checked) (hsolid : g.SolidOperands) :
    g.Begins form t ↔ (g.formHeads form).contains t = true := by
  constructor
  · rintro ⟨rest, h⟩
    induction h using Relation.ReflTransGen.head_induction_on with
    | refl => simp [contains_formHeads_cons, heads]
    | head hp _ ih => exact hc.heads_of_produces hsolid hp ih
  · intro h
    induction form with
    | nil => simp at h
    | cons part form ih =>
      rcases contains_formHeads_cons.1 h with h | ⟨hblank, h⟩
      · exact (hc.begins_of_heads h).append form
      · exact (hc.empties_of_blank hblank).begins (ih h)

/-! ## What is empty or begins by the analysis is expanded so -/

theorem blank_symbol {Q : Nat → Prop} (hq : ∀ r, Q r → g.isNullable r = true) {symbol : Symbol}
    (h : Analysis.Blank Q symbol) : g.blank symbol.part = true := by
  cases symbol with
  | token t => exact h.elim
  | rule r => exact hq r h
  | opt r | many r => rfl

theorem formHeads_of_headsSequence {Q : Nat → TokenId → Prop}
    (hq : ∀ r t, Q r t → (g.firstOf r).contains t = true) {symbols : List Symbol}
    (h : Analysis.HeadsSequence g.nullable Q t symbols) :
    (g.formHeads (symbols.map Symbol.part)).contains t = true := by
  induction symbols with
  | nil => exact h.elim
  | cons symbol symbols ih =>
    rw [List.map_cons, contains_formHeads_cons, blank_part]
    rcases h with h | ⟨hempty, h⟩
    · left
      cases symbol with
      | token id => exact h ▸ TokenSet.contains_single.trans (beq_self_eq_true id)
      | rule r | opt r | many r => exact hq r t h
    · exact .inr ⟨hempty, ih h⟩

/-- A nullable rule has an alternative all of which is nullable. -/
theorem exists_expansion_of_nullable (hc : g.Checked) (h : g.isNullable r = true) :
    ∃ body ∈ g.expansions (.rule r), body.all g.blank = true := by
  refine (hc.nullable_least (Q := fun r => g.isNullable r = true ∧
    ∃ body ∈ g.expansions (.rule r), body.all g.blank = true) ?_ ?_ h).2
  · intro r as a hb ha hall
    have hblank : (a.symbols.map Symbol.part).all g.blank = true := by
      rw [List.all_map, List.all_eq_true]
      exact fun symbol hsymbol => blank_symbol (fun _ hq => hq.1) (hall symbol hsymbol)
    refine ⟨hc.nullable_sequence hb ha ((hc.nullable_eq hb ha).trans hblank), ?_⟩
    exact ⟨_, mem_expansions_rule.2 (.inl ⟨as, a, hb, ha, rfl⟩), hblank⟩
  · rintro r ops hb ⟨hoperand, -⟩
    refine ⟨hc.nullable_expression hb hoperand, _, mem_expansions_rule.2 (.inr ⟨ops, hb, rfl⟩), ?_⟩
    simp [blank, hb, hoperand]

/-- What begins a rule by the analysis begins one of its alternatives, or it begins the operand of an
expression or is a prefix operator. -/
theorem exists_reason_of_first (hc : g.Checked) (h : (g.firstOf r).contains t = true) :
    (∃ as, g.body r = .sequence as ∧ ∃ a ∈ as, a.first.contains t = true) ∨
      ∃ ops, g.body r = .expression ops ∧
        ((g.firstOf ops.operand).contains t = true ∨ t ∈ ops.prefixes.map PrefixOperator.token) := by
  refine (hc.first_least (Q := fun r t => (g.firstOf r).contains t = true ∧
    ((∃ as, g.body r = .sequence as ∧ ∃ a ∈ as, a.first.contains t = true) ∨
      ∃ ops, g.body r = .expression ops ∧ ((g.firstOf ops.operand).contains t = true ∨
        t ∈ ops.prefixes.map PrefixOperator.token))) ?_ ?_ h).2
  · intro r as a t hb ha h
    have hheads := formHeads_of_headsSequence (fun _ _ hq => hq.1) h
    rw [← hc.first_eq hb ha] at hheads
    exact ⟨hc.first_sequence hb ha hheads, .inl ⟨as, hb, a, ha, hheads⟩⟩
  · intro r ops t hb h
    have ht := h.imp_left And.left
    exact ⟨hc.first_expression hb ht, .inr ⟨ops, hb, ht⟩⟩

/-- What begins a rule by the analysis begins one of the forms that it stands for. -/
theorem exists_expansion_of_first (hc : g.Checked) (h : (g.firstOf r).contains t = true) :
    ∃ body ∈ g.expansions (.rule r), (g.formHeads body).contains t = true := by
  rcases hc.exists_reason_of_first h with ⟨as, hb, a, ha, ht⟩ | ⟨ops, hb, ht⟩
  · rw [hc.first_eq hb ha] at ht
    exact ⟨_, mem_expansions_rule.2 (.inl ⟨as, a, hb, ha, rfl⟩), ht⟩
  · refine ⟨_, mem_expansions_rule.2 (.inr ⟨ops, hb, rfl⟩), contains_formHeads_cons.2 (.inl ?_)⟩
    rcases ht with ht | ht
    · simp [heads, hb, ht]
    · have hsign : t ∈ ops.signs := List.mem_dedup.2 ht
      simp [heads, hb, hsign]

/-- What a rule and the form behind it begin with, some alternative and the form begin with. -/
theorem exists_expansion_of_formHeads (hc : g.Checked)
    (h : (g.formHeads (.rule r :: form)).contains t = true) :
    ∃ body ∈ g.expansions (.rule r), (g.formHeads (body ++ form)).contains t = true := by
  rcases contains_formHeads_cons.1 h with h | ⟨hblank, h⟩
  · obtain ⟨body, hbody, hfirst⟩ := hc.exists_expansion_of_first h
    exact ⟨body, hbody, contains_formHeads_append.2 (.inl hfirst)⟩
  · obtain ⟨body, hbody, hall⟩ := hc.exists_expansion_of_nullable hblank
    exact ⟨body, hbody, contains_formHeads_append.2 (.inr ⟨hall, h⟩)⟩

end Checked

/-! ## A small grammar -/

/-- A minus sign in front of an operand, plus between operands, and times, which binds stronger. -/
def sampleOps : Operators := ⟨2, [⟨.kind 1, 6⟩], [⟨.kind 2, 3, .left⟩, ⟨.kind 5, 4, .left⟩]⟩

/-- A list of sums of products, over names and over lists in parentheses. -/
def sampleDecls : List GrammarDecl :=
  [.declare "list", .declare "sum", .declare "item",
    .define 0 [⟨[.many 1], []⟩],
    .defineExpression 1 sampleOps,
    .define 2 [⟨[.token (.kind 0)], []⟩, ⟨[.token (.kind 3), .rule 0, .token (.kind 4)], []⟩],
    .start 0]

/-- The grammar of these declarations. -/
def sample : Grammar := (GrammarDraft.ofDecls sampleDecls).finished 0

theorem ofDecls_sample : ofDecls sampleDecls = .ok sample := by
  refine GrammarDraft.build_eq_ok_iff.2 ⟨0, ?_, ?_, ?_, rfl⟩
  · decide +kernel
  · decide +kernel
  · cbv

theorem size_sample : sample.size = 3 := by decide +kernel

theorem isNullable_sample (r : Nat) : sample.isNullable r = (r == 0) := by
  have hnullable : sample.nullable = #[true, false, false] := by decide +kernel
  rw [isNullable, hnullable]
  rcases r with _ | _ | _ | r <;> rfl

/-- The bodies of the small grammar. -/
theorem body_sample (r : Nat) :
    sample.body r =
      (match r with
      | 0 => .sequence [⟨[.many 1], []⟩]
      | 1 => .expression sampleOps
      | 2 => .sequence [⟨[.token (.kind 0)], []⟩, ⟨[.token (.kind 3), .rule 0, .token (.kind 4)], []⟩]
      | _ => .undefined : RuleBody Production).map
        (Analysis.alternative sample.nullable sample.first) := by
  have hrules : (GrammarDraft.ofDecls sampleDecls).rules = #[
      ⟨"list", .sequence [⟨[.many 1], []⟩], false⟩,
      ⟨"sum", .expression sampleOps, false⟩,
      ⟨"item", .sequence [⟨[.token (.kind 0)], []⟩,
        ⟨[.token (.kind 3), .rule 0, .token (.kind 4)], []⟩], false⟩] := by decide +kernel
  rw [sample, GrammarDraft.body_finished, hrules]
  rcases r with _ | _ | _ | r <;> rfl

theorem defined_sample (r : Nat) (hr : r < sample.size) : sample.body r ≠ .undefined := by
  rw [size_sample] at hr
  rw [body_sample]
  rcases r with _ | _ | _ | r
  · nofun
  · nofun
  · nofun
  · omega

/-- The productions of the small grammar. -/
theorem production_sample {as : List Alternative} {a : Alternative}
    (hb : sample.body r = .sequence as) (ha : a ∈ as) :
    a.guard = [] ∧ (a.symbols = [.many 1] ∨ a.symbols = [.token (.kind 0)] ∨
      a.symbols = [.token (.kind 3), .rule 0, .token (.kind 4)]) := by
  rw [body_sample] at hb
  rcases r with _ | _ | _ | r
  · cases hb
    rw [List.map_cons, List.map_nil, List.mem_singleton] at ha
    subst ha
    exact ⟨rfl, .inl rfl⟩
  · cases hb
  · cases hb
    simp only [List.map_cons, List.map_nil, List.mem_cons, List.not_mem_nil, or_false] at ha
    rcases ha with rfl | rfl
    · exact ⟨rfl, .inr (.inl rfl)⟩
    · exact ⟨rfl, .inr (.inr rfl)⟩
  · cases hb

/-- The expressions of the small grammar. -/
theorem expression_sample (hb : sample.body r = .expression ops) :
    r = 1 ∧ ops = sampleOps := by
  rw [body_sample] at hb
  rcases r with _ | _ | _ | r
  · cases hb
  · cases hb
    exact ⟨rfl, rfl⟩
  · cases hb
  · cases hb

/-- The tokens of the small grammar are those of its own table. -/
theorem lacks_sample (ht : ∀ k, t ≠ .kind k) : sample.Lacks t := by
  constructor
  · intro r as a hb ha
    rcases (production_sample hb ha).2 with h | h | h
    · simp [h]
    · simp [h, ht]
    · simp [h, ht]
  · intro r ops hb
    obtain ⟨-, rfl⟩ := expression_sample hb
    simp [sampleOps, Operators.signs, Operators.links, ht]

end Grammar

end FrontEnd
