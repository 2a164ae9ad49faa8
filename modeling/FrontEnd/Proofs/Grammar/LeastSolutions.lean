import FrontEnd.Proofs.Grammar.Checked
import FrontEnd.Proofs.Token.FiniteSets

/-!
# The analysis finds the least solutions

What can be empty and what begins with which token is said here by the bodies of the rules alone: by
the least predicates that are closed under them. The analysis goes round the rules as long as a
round finds something new. **That comes to an end, and by then it has found just what holds.**

- `Analysis.CanBeEmpty`, `Analysis.CanBegin`: the least solutions;
- `Analysis.AtFront`: what is said of a symbol before which all can be empty;
- `Analysis.nullables_iff`, `Analysis.firsts_iff`: the analysis finds all of them and no more;
- `Analysis.Described`: a production whose analysis says what holds of it;
- `Analysis.least_solutions`: all of this for any rules.
-/

namespace FrontEnd

namespace Analysis

/-! ## Least solutions -/

/-- The rules that can be empty. -/
inductive CanBeEmpty (rules : Rules) : Nat → Prop
  /-- A production without tokens, of which every rule that stands there plainly can be empty. -/
  | sequence {r : Nat} {rule : Rule Production} {ps : List Production} {p : Production}
    (hr : rules[r]? = some rule) (hbody : rule.body = .sequence ps) (hp : p ∈ ps)
    (htoken : ∀ t, .token t ∉ p.symbols) (hrule : ∀ s, .rule s ∈ p.symbols → CanBeEmpty rules s) :
    CanBeEmpty rules r
  | expression {r : Nat} {rule : Rule Production} {ops : Operators} (hr : rules[r]? = some rule)
    (hbody : rule.body = .expression ops) (h : CanBeEmpty rules ops.operand) : CanBeEmpty rules r

/-- All of the symbols can be empty. -/
def Vacant (rules : Rules) (symbols : List Symbol) : Prop :=
  ∀ symbol ∈ symbols, Blank (CanBeEmpty rules) symbol

/-- Some symbol before which all can be empty is like this. -/
def AtFront (rules : Rules) (P : Symbol → Prop) (symbols : List Symbol) : Prop :=
  ∃ before symbol behind, symbols = before ++ symbol :: behind ∧ Vacant rules before ∧ P symbol

/-- The tokens that rules can begin with. -/
inductive CanBegin (rules : Rules) : Nat → TokenId → Prop
  /-- A token before which all can be empty. -/
  | token {r : Nat} {rule : Rule Production} {ps : List Production} {p : Production} {t : TokenId}
    {before behind : List Symbol} (hr : rules[r]? = some rule) (hbody : rule.body = .sequence ps)
    (hp : p ∈ ps) (hsplit : p.symbols = before ++ .token t :: behind)
    (hbefore : Vacant rules before) : CanBegin rules r t
  /-- A rule before which all can be empty. -/
  | symbol {r s : Nat} {rule : Rule Production} {ps : List Production} {p : Production}
    {t : TokenId} {before behind : List Symbol} {symbol : Symbol} (hr : rules[r]? = some rule)
    (hbody : rule.body = .sequence ps) (hp : p ∈ ps)
    (hsplit : p.symbols = before ++ symbol :: behind) (hbefore : Vacant rules before)
    (hs : symbol.rule? = some s) (h : CanBegin rules s t) : CanBegin rules r t
  | operand {r : Nat} {rule : Rule Production} {ops : Operators} {t : TokenId}
    (hr : rules[r]? = some rule) (hbody : rule.body = .expression ops)
    (h : CanBegin rules ops.operand t) : CanBegin rules r t
  | sign {r : Nat} {rule : Rule Production} {ops : Operators} {t : TokenId}
    (hr : rules[r]? = some rule) (hbody : rule.body = .expression ops)
    (ht : t ∈ ops.prefixes.map PrefixOperator.token) : CanBegin rules r t

variable {rules : Rules} {r s : Nat} {t : TokenId} {symbol : Symbol} {symbols rest : List Symbol}
  {P Q : Symbol → Prop} {first : Array TokenSet}

theorem vacant_cons :
    Vacant rules (symbol :: rest) ↔ Blank (CanBeEmpty rules) symbol ∧ Vacant rules rest :=
  List.forall_mem_cons

theorem not_atFront_nil : ¬ AtFront rules P [] := by
  rintro ⟨before, symbol, behind, hsplit, -⟩
  exact List.append_ne_nil_of_right_ne_nil before (List.cons_ne_nil symbol behind) hsplit.symm

theorem atFront_cons :
    AtFront rules P (symbol :: rest) ↔
      P symbol ∨ Blank (CanBeEmpty rules) symbol ∧ AtFront rules P rest := by
  constructor
  · rintro ⟨_ | ⟨x, before⟩, found, behind, hsplit, hbefore, hfound⟩
    · obtain ⟨rfl, -⟩ := List.cons.inj hsplit
      exact .inl hfound
    · obtain ⟨rfl, rfl⟩ := List.cons.inj hsplit
      obtain ⟨hempty, hbefore⟩ := vacant_cons.1 hbefore
      exact .inr ⟨hempty, before, found, behind, rfl, hbefore, hfound⟩
  · rintro (hfound | ⟨hempty, before, found, behind, rfl, hbefore, hfound⟩)
    · exact ⟨[], symbol, rest, rfl, List.forall_mem_nil _, hfound⟩
    · exact ⟨symbol :: before, found, behind, rfl, vacant_cons.2 ⟨hempty, hbefore⟩, hfound⟩

theorem AtFront.imp (h : AtFront rules P symbols) (himp : ∀ symbol, P symbol → Q symbol) :
    AtFront rules Q symbols := by
  obtain ⟨before, symbol, behind, hsplit, hbefore, hsymbol⟩ := h
  exact ⟨before, symbol, behind, hsplit, hbefore, himp symbol hsymbol⟩

/-! ## What can be empty -/

theorem canBeEmpty_of_nullables (h : (nullables rules).getD r false = true) :
    CanBeEmpty rules r := by
  refine nullables_induction (fun nullable hknown r rule hr hb => ?_) h
  rcases bodyNullable_iff.1 hb with ⟨ps, hbody, p, hp, hall⟩ | ⟨ops, hbody, hoperand⟩
  · refine .sequence hr hbody hp (fun t ht => ?_) fun s hs => hknown s (hall _ hs)
    exact Bool.false_ne_true (hall _ ht)
  · exact .expression hr hbody (hknown _ hoperand)

theorem nullables_of_canBeEmpty (h : CanBeEmpty rules r) :
    (nullables rules).getD r false = true := by
  induction h with
  | sequence hr hbody hp htoken _ ih =>
    refine nullable_of_body hr (bodyNullable_iff.2 (.inl ⟨_, hbody, _, hp, ?_⟩))
    intro symbol hsymbol
    cases symbol with
    | token t => exact absurd hsymbol (htoken t)
    | rule s => exact ih s hsymbol
    | opt s | many s => rfl
  | expression hr hbody _ ih =>
    exact nullable_of_body hr (bodyNullable_iff.2 (.inr ⟨_, hbody, ih⟩))

/-- The analysis marks a rule just when the rule can be empty. -/
theorem nullables_iff : (nullables rules).getD r false = true ↔ CanBeEmpty rules r :=
  ⟨canBeEmpty_of_nullables, nullables_of_canBeEmpty⟩

theorem symbolNullable_iff :
    symbolNullable (nullables rules) symbol = true ↔ Blank (CanBeEmpty rules) symbol := by
  cases symbol with
  | token t => exact ⟨nofun, False.elim⟩
  | rule s => exact nullables_iff
  | opt s | many s => exact ⟨fun _ => trivial, fun _ => rfl⟩

theorem snd_sequenceFirst_iff :
    (sequenceFirst (nullables rules) first symbols).2 = true ↔ Vacant rules symbols := by
  rw [snd_sequenceFirst, List.all_eq_true]
  exact forall₂_congr fun _ _ => symbolNullable_iff

/-! ## What begins with a token -/

theorem contains_sequenceFirst_iff :
    (sequenceFirst (nullables rules) first symbols).1.contains t = true ↔
      AtFront rules (fun symbol => (symbolFirst first symbol).contains t = true) symbols := by
  induction symbols with
  | nil =>
    rw [sequenceFirst, TokenSet.contains_empty]
    exact ⟨fun h => absurd h Bool.false_ne_true, fun h => absurd h not_atFront_nil⟩
  | cons symbol rest ih => rw [contains_sequenceFirst, symbolNullable_iff, ih, atFront_cons]

theorem canBegin_of_atFront {rule : Rule Production} {ps : List Production} {p : Production}
    (hr : rules[r]? = some rule) (hbody : rule.body = .sequence ps) (hp : p ∈ ps)
    (h : AtFront rules (Heads (CanBegin rules) t) p.symbols) : CanBegin rules r t := by
  obtain ⟨before, symbol, behind, hsplit, hbefore, hheads⟩ := h
  cases symbol with
  | token id =>
    obtain rfl : id = t := hheads
    exact .token hr hbody hp hsplit hbefore
  | rule s | opt s | many s => exact .symbol hr hbody hp hsplit hbefore rfl hheads

theorem canBegin_of_firsts
    (h : ((firsts rules (nullables rules)).getD r ∅).contains t = true) : CanBegin rules r t := by
  refine firsts_induction (fun first hknown r rule t hr hb => ?_) h
  rcases contains_bodyFirst.1 hb with
    ⟨ps, hbody, p, hp, hfirst⟩ | ⟨ops, hbody, hoperand | hsign⟩
  · exact canBegin_of_atFront hr hbody hp
      ((contains_sequenceFirst_iff.1 hfirst).imp fun _ => heads_of_symbolFirst hknown)
  · exact .operand hr hbody (hknown _ _ hoperand)
  · exact .sign hr hbody hsign

theorem firsts_of_atFront {rule : Rule Production} {ps : List Production} {p : Production}
    (hr : rules[r]? = some rule) (hbody : rule.body = .sequence ps) (hp : p ∈ ps)
    (h : AtFront rules (fun symbol =>
      (symbolFirst (firsts rules (nullables rules)) symbol).contains t = true) p.symbols) :
    ((firsts rules (nullables rules)).getD r ∅).contains t = true := by
  exact first_of_body hr
    (contains_bodyFirst.2 (.inl ⟨ps, hbody, p, hp, contains_sequenceFirst_iff.2 h⟩))

theorem firsts_of_canBegin (h : CanBegin rules r t) :
    ((firsts rules (nullables rules)).getD r ∅).contains t = true := by
  induction h with
  | token hr hbody hp hsplit hbefore =>
    refine firsts_of_atFront hr hbody hp ⟨_, _, _, hsplit, hbefore, ?_⟩
    exact TokenSet.contains_single.trans (beq_self_eq_true _)
  | @symbol _ _ _ _ _ _ _ _ found hr hbody hp hsplit hbefore hs _ ih =>
    refine firsts_of_atFront hr hbody hp ⟨_, _, _, hsplit, hbefore, ?_⟩
    cases found with
    | token id => cases hs
    | rule s | opt s | many s =>
      cases hs
      exact ih
  | operand hr hbody _ ih =>
    exact first_of_body hr (contains_bodyFirst.2 (.inr ⟨_, hbody, .inl ih⟩))
  | sign hr hbody ht =>
    exact first_of_body hr (contains_bodyFirst.2 (.inr ⟨_, hbody, .inr ht⟩))

/-- The analysis puts a token into the first set of a rule just when the rule can begin with it. -/
theorem firsts_iff :
    ((firsts rules (nullables rules)).getD r ∅).contains t = true ↔ CanBegin rules r t :=
  ⟨canBegin_of_firsts, firsts_of_canBegin⟩

theorem contains_symbolFirst_iff :
    (symbolFirst (firsts rules (nullables rules)) symbol).contains t = true ↔
      Heads (CanBegin rules) t symbol := by
  cases symbol with
  | token id => rw [symbolFirst, TokenSet.contains_single, beq_iff_eq, Heads]
  | rule s | opt s | many s => exact firsts_iff

/-! ## Productions -/

/-- What is noted of a production, and behind each of its symbols, is what holds by the bodies of
the rules. -/
structure Described (rules : Rules) (a : Alternative) : Prop where
  first : ∀ t, a.first.contains t = true ↔ AtFront rules (Heads (CanBegin rules) t) a.symbols
  nullable : a.nullable = true ↔ Vacant rules a.symbols
  length : a.steps.length = a.symbols.length
  step : ∀ (i : Nat) (s : Step), a.steps[i]? = some s → a.symbols[i]? = some s.symbol ∧
    (∀ t, s.restFirst.contains t = true ↔
      AtFront rules (Heads (CanBegin rules) t) (a.symbols.drop (i + 1))) ∧
    (s.restNullable = true ↔ Vacant rules (a.symbols.drop (i + 1)))

theorem getElem?_steps (nullable : Array Bool) (first : Array TokenSet) (symbols : List Symbol)
    (i : Nat) :
    (steps nullable first symbols)[i]? = symbols[i]?.map fun symbol =>
      ⟨symbol, (sequenceFirst nullable first (symbols.drop (i + 1))).1,
        (sequenceFirst nullable first (symbols.drop (i + 1))).2⟩ := by
  induction symbols generalizing i with
  | nil => rfl
  | cons symbol rest ih =>
    cases i with
    | zero => rfl
    | succ i => exact ih i

theorem contains_first_iff :
    (sequenceFirst (nullables rules) (firsts rules (nullables rules)) symbols).1.contains t = true ↔
      AtFront rules (Heads (CanBegin rules) t) symbols := by
  rw [contains_sequenceFirst_iff]
  exact ⟨fun h => h.imp fun _ => contains_symbolFirst_iff.1,
    fun h => h.imp fun _ => contains_symbolFirst_iff.2⟩

theorem described_alternative (rules : Rules) (p : Production) :
    Described rules (alternative (nullables rules) (firsts rules (nullables rules)) p) where
  first := fun _ => contains_first_iff
  nullable := snd_sequenceFirst_iff
  length := by
    have hsymbols := map_symbol_steps (nullables rules) (firsts rules (nullables rules)) p.symbols
    exact (List.length_map Step.symbol).symm.trans (congrArg List.length hsymbols)
  step := by
    intro i s hs
    obtain ⟨symbol, hsymbol, rfl⟩ :=
      Option.map_eq_some_iff.1 ((getElem?_steps _ _ p.symbols i).symm.trans hs)
    exact ⟨hsymbol, fun _ => contains_first_iff, snd_sequenceFirst_iff⟩

/-! ## Rounds -/

/-- A rule is marked that was not. -/
def FindsRule (before after : Array Bool) : Prop :=
  ∃ r, before.getD r false = false ∧ after.getD r false = true

/-- A token is in the set of a rule in which it was not. -/
def FindsToken (before after : Array TokenSet) : Prop :=
  ∃ r t, (before.getD r ∅).contains t = false ∧ (after.getD r ∅).contains t = true

theorem nullables_comesToRest (rules : Rules) :
    ComesToRest (nullableRound rules) FindsRule (Array.replicate rules.size false)
      (nullables rules) := by
  have hrest := (gathers_nullableRound rules).comesToRest Array.size_replicate
    (card_unmarked_lt rules)
  refine hrest.imp fun x y => ?_
  rintro ⟨r, hnew, hfound⟩
  rw [marked, Finset.mem_filter] at hnew hfound
  exact ⟨r, Bool.eq_false_iff.2 fun hold => hnew ⟨hfound.1, hold⟩, hfound.2⟩

theorem firsts_comesToRest (rules : Rules) :
    ComesToRest (firstRound rules (nullables rules)) FindsToken (Array.replicate rules.size ∅)
      (firsts rules (nullables rules)) := by
  have hrest := (gathers_firstRound rules (nullables rules)).comesToRest (fits_nothing rules.size)
    (card_unknown_lt rules)
  refine hrest.imp fun x y => ?_
  rintro ⟨⟨r, i⟩, hnew, hfound⟩
  rw [known, Finset.mem_filter, Finset.mem_product] at hnew hfound
  obtain ⟨t, ht⟩ := TokenId.exists_ofIndex? (Finset.mem_range.1 hfound.1.2)
  obtain rfl := TokenId.index_of_ofIndex? ht
  refine ⟨r, t, Bool.eq_false_iff.2 fun hold => hnew ⟨hfound.1, ?_⟩, ?_⟩
  · exact TokenSet.contains_eq_bit.symm.trans hold
  · exact TokenSet.contains_eq_bit.trans hfound.2

/-- **The analysis finds the least solutions.** For any rules, going round them comes to rest, each
round but the last finding something; the rules that are marked are those that can be empty, and the
tokens of the first sets are those that the rules can begin with. What is noted of a production, and
behind each of its symbols, is what holds of these symbols. -/
theorem least_solutions (rules : Rules) :
    ComesToRest (nullableRound rules) FindsRule (Array.replicate rules.size false)
        (nullables rules) ∧
      (∀ r, (nullables rules).getD r false = true ↔ CanBeEmpty rules r) ∧
      ComesToRest (firstRound rules (nullables rules)) FindsToken (Array.replicate rules.size ∅)
        (firsts rules (nullables rules)) ∧
      (∀ r t, ((firsts rules (nullables rules)).getD r ∅).contains t = true ↔
        CanBegin rules r t) ∧
      ∀ p : Production,
        (alternative (nullables rules) (firsts rules (nullables rules)) p).toProduction = p ∧
          Described rules (alternative (nullables rules) (firsts rules (nullables rules)) p) :=
  ⟨nullables_comesToRest rules, fun _ => nullables_iff, firsts_comesToRest rules,
    fun _ _ => firsts_iff, fun p => ⟨rfl, described_alternative rules p⟩⟩

end Analysis

end FrontEnd
