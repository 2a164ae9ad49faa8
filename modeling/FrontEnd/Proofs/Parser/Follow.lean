import FrontEnd.Proofs.Grammar.FirstSets
import FrontEnd.Proofs.Parser.Prediction

/-!
# What the parser knows of what comes afterwards

The sets that the machine carries along are put together from the analysis on the way down. They
say no more and no less than the analysis says of the stack: a set holds the tokens that can begin
what is pending below, and the end of the input when all of that can be empty.

- `Grammar.Announces`: the set says what can come where a form is pending;
- `Grammar.announces_followOf`, `Grammar.announces_many`, `Grammar.announces_tail`: how the sets are
  put together;
- `Machine.Informed`: **every set on the stack announces what is pending below it**;
- `Parser.Move.informed`: every step keeps this.
-/

namespace FrontEnd

namespace Grammar

/-- The set holds what can come where the form is pending: what begins it, and the end of the input
when all of it can be empty. -/
def Announces (g : Grammar) (follow : TokenSet) (form : List Part) : Prop :=
  ∀ t, follow.contains t = true ↔
    (g.formHeads form).contains t = true ∨ t = .eof ∧ form.all g.blank = true

variable {g : Grammar} {follow : TokenSet} {form : List Part} {r : Nat} {ops : Operators}

/-- Behind the start rule comes the end of the input. -/
theorem announces_nil (g : Grammar) : g.Announces (.single .eof) [] := by
  intro t
  rw [TokenSet.contains_single, beq_iff_eq, formHeads_nil, TokenSet.contains_empty]
  constructor
  · rintro rfl
    exact .inr ⟨rfl, rfl⟩
  · rintro (h | ⟨rfl, -⟩)
    · cases h
    · rfl

/-- Behind a symbol comes the rest of its production, and what comes behind that. -/
theorem announces_followOf {s : Step} {rest : List Step} (hremains : g.Remains (s :: rest))
    (h : g.Announces follow form) :
    g.Announces (Parser.followOf s follow) ((rest.map fun s => s.symbol.part) ++ form) := by
  intro t
  have hrest := hremains.rest_eq
  have hmap : (rest.map fun s => s.symbol.part) = (rest.map Step.symbol).map Symbol.part := by
    rw [List.map_map]
    rfl
  have hfirst : g.formHeads (rest.map fun s => s.symbol.part) = s.restFirst := by
    rw [hmap, formHeads_map, ← hrest]
  have hnull : (rest.map fun s => s.symbol.part).all g.blank = s.restNullable := by
    rw [hmap, all_blank_map, ← hrest]
  rw [contains_formHeads_append, List.all_append, hfirst, hnull, Parser.followOf]
  cases s.restNullable with
  | false => simp
  | true =>
    rw [if_pos rfl, TokenSet.contains_union, Bool.or_eq_true, h t]
    simp [or_assoc]

/-- Behind a round comes another one, or what comes behind the repetition. -/
theorem announces_many (h : g.Announces follow form) :
    g.Announces ((g.firstOf r).union follow) (.many r :: form) := by
  intro t
  rw [TokenSet.contains_union, Bool.or_eq_true, h t, contains_formHeads_cons]
  simp [heads, blank, or_assoc]

/-- Behind an operand comes a binary operator, or what comes behind the expression. -/
theorem announces_tail (hb : g.body r = .expression ops) (h : g.Announces follow form) :
    g.Announces (follow.union ops.binaryTokens) (.tail r :: form) := by
  intro t
  have hlinks : ops.binaryTokens.contains t = true ↔ (g.heads (.tail r)).contains t = true := by
    simp [heads, hb, Operators.binaryTokens, Operators.links]
  have hblank : g.blank (.tail r) = true := by simp [blank, hb]
  rw [TokenSet.contains_union, Bool.or_eq_true, h t, contains_formHeads_cons, hlinks,
    List.all_cons, hblank]
  constructor
  · rintro ((h | h) | h)
    · exact .inl (.inr ⟨rfl, h⟩)
    · exact .inr h
    · exact .inl (.inl h)
  · rintro ((h | ⟨-, h⟩) | h)
    · exact .inr h
    · exact .inl (.inl h)
    · exact .inl (.inr h)

end Grammar

/-! ## Stacks -/

/-- The set of the frame announces what is pending below. -/
def Frame.Informed (g : Grammar) (below : List Frame) : Frame → Prop
  | .rule _ _ _ => True
  | .steps _ follow | .repetition _ follow _ => g.Announces follow (pending below)
  | .operand ctx _ | .unary ctx _ _ | .binary ctx _ _ =>
    g.Announces ctx.follow (ctx.form below ++ pending below)

/-- The set of the task announces what is pending. -/
def Task.Informed (g : Grammar) (below : List Frame) : Task → Prop
  | .rule _ follow | .steps _ follow _ | .repetition _ follow => g.Announces follow (pending below)
  | .expression ctx | .climb ctx _ => g.Announces ctx.follow (ctx.form below ++ pending below)
  | .done _ => True

/-- Every set on the stack announces what is pending below it. -/
def Informed (g : Grammar) : List Frame → Prop
  | [] => True
  | frame :: below => frame.Informed g below ∧ Informed g below

/-- Every set announces what is pending. -/
structure Machine.Informed (g : Grammar) (m : Machine) : Prop where
  task : m.task.Informed g m.frames
  frames : FrontEnd.Informed g m.frames

namespace Parser

variable {p : Parser} {m m' : Machine}

theorem informed_leaveOperand {g : Grammar} {ctx : ExpressionContext} {flow : Flow} {node : NodeId}
    {frames : List Frame} {nodes : List NodeId} {st : ParseState}
    (hctx : g.Announces ctx.follow (ctx.form frames ++ pending frames))
    (hframes : Informed g frames) : (leaveOperand ctx flow node frames nodes st).Informed g := by
  cases flow with
  | proceeding => exact ⟨hctx, hframes⟩
  | recovering => exact ⟨trivial, hframes⟩

theorem Enter.informed {frames : List Frame} {nodes : List NodeId} {st : ParseState} {s : Step}
    {rest : List Step} {follow : TokenSet} (hremains : p.grammar.Remains (s :: rest))
    (hfollow : p.grammar.Announces follow (pending frames)) (hframes : Informed p.grammar frames)
    (h : p.Enter (.steps rest follow :: frames) nodes st (followOf s follow) s.symbol m) :
    m.Informed p.grammar := by
  have hpushed : Informed p.grammar (.steps rest follow :: frames) := ⟨hfollow, hframes⟩
  have hbehind : p.grammar.Announces (followOf s follow) (pending (.steps rest follow :: frames)) :=
    Grammar.announces_followOf hremains hfollow
  generalize s.symbol = symbol at h
  cases h with
  | token _ | late _ _ _ | absent _ _ _ | skip _ => exact ⟨trivial, hpushed⟩
  | rule | opt _ | many => exact ⟨hbehind, hpushed⟩

theorem Move.informed (h : p.Move m m') (hbelongs : m.Belongs p.grammar)
    (hm : m.Informed p.grammar) : m'.Informed p.grammar := by
  obtain ⟨htask, hframes⟩ := hm
  have hremains := hbelongs.task
  cases h with
  | missing _ | finish | close _ | lack _ _ _ | top _ | rest => exact ⟨trivial, hframes⟩
  | express hb => exact ⟨Grammar.announces_tail hb htask, trivial, hframes⟩
  | choose _ _ | retry _ _ _ _ _ _ => exact ⟨htask, trivial, hframes⟩
  | refuse _ _ _ _ _ => exact ⟨trivial, trivial, hframes⟩
  | pass _ | stray _ _ _ _ => exact ⟨htask, hframes⟩
  | enter _ _ he => exact he.informed hremains htask hframes
  | round _ _ => exact ⟨Grammar.announces_many htask, htask, hframes⟩
  | sign _ | operand _ _ | climb _ _ => exact ⟨htask, htask, hframes⟩
  | wrap _ | splice _ => exact ⟨trivial, hframes.2⟩
  | resume | stall _ | again _ => exact ⟨hframes.1, hframes.2⟩
  | leaf | unary | binary => exact informed_leaveOperand hframes.1 hframes.2

theorem informed_start (p : Parser) (stream : TokenStream) :
    (p.start stream).Informed p.grammar := by
  unfold start
  dsimp only
  split
  · exact ⟨trivial, trivial⟩
  · exact ⟨Grammar.announces_nil p.grammar, trivial⟩

end Parser

end FrontEnd
