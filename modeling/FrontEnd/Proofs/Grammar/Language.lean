import Mathlib.Data.List.Dedup
import Mathlib.Logic.Relation
import FrontEnd.Grammar.Basic

/-!
# The language of a grammar

A grammar is read as a context-free one. Optional and repeated rules are nonterminals of their own,
and an expression is `U T` with `T := op U T | ε` and `U := sign U | operand`.

- `Part`, `Grammar.expansions`: the nonterminals and their alternatives;
- `Grammar.Derives`: **the texts that a sequence of parts stands for**;
- `Grammar.derives_sequence`, `Grammar.derives_many`, `Grammar.derives_expression` and their
  neighbours: the languages of the single nonterminals;
- `Grammar.Yields`: derivations between sequences of parts, with which what begins a part and what
  follows it are defined.
-/

namespace FrontEnd

/-- What a sentential form consists of. -/
inductive Part where
  | token (t : TokenId)
  | rule (r : Nat)
  | opt (r : Nat)
  | many (r : Nat)
  /-- An operand of the expression rule with the prefix operators before it. -/
  | unary (r : Nat)
  /-- The binary operators behind an operand, each with its right operand. -/
  | tail (r : Nat)
  deriving DecidableEq, Repr

/-- A symbol as a part. -/
def Symbol.part : Symbol → Part
  | token t => .token t
  | rule r => .rule r
  | opt r => .opt r
  | many r => .many r

namespace Operators

/-- The tokens of the prefix operators, each once. -/
def signs (ops : Operators) : List TokenId := (ops.prefixes.map PrefixOperator.token).dedup

/-- The tokens of the binary operators, each once. -/
def links (ops : Operators) : List TokenId := (ops.binaries.map BinaryOperator.token).dedup

end Operators

namespace Grammar

/-- The alternatives of a part. A token has none. -/
def expansions (g : Grammar) : Part → List (List Part)
  | .token _ => []
  | .rule r =>
    match g.body r with
    | .undefined => []
    | .sequence as => as.map fun a => a.symbols.map Symbol.part
    | .expression _ => [[.unary r, .tail r]]
  | .opt r => [[.rule r], []]
  | .many r => [[.rule r, .many r], []]
  | .unary r =>
    match g.body r with
    | .expression ops => (ops.signs.map fun t => [.token t, .unary r]) ++ [[.rule ops.operand]]
    | _ => []
  | .tail r =>
    match g.body r with
    | .expression ops => (ops.links.map fun t => [.token t, .unary r, .tail r]) ++ [[]]
    | _ => []

/-- The token is no symbol of a production and no operator. -/
def Lacks (g : Grammar) (t : TokenId) : Prop :=
  (∀ r as a, g.body r = .sequence as → a ∈ as → .token t ∉ a.symbols) ∧
    ∀ r ops, g.body r = .expression ops → t ∉ ops.signs ∧ t ∉ ops.links

/-- The text is one of those that the form stands for. -/
inductive Derives (g : Grammar) : List Part → List TokenId → Prop where
  | nil : Derives g [] []
  | token {t : TokenId} {form : List Part} {text : List TokenId} (h : Derives g form text) :
    Derives g (.token t :: form) (t :: text)
  | expand {part : Part} {body form : List Part} {text text' : List TokenId}
    (hbody : body ∈ g.expansions part) (h : Derives g body text) (h' : Derives g form text') :
    Derives g (part :: form) (text ++ text')

variable {g : Grammar} {part : Part} {form form' form'' before behind body : List Part}
  {text text' : List TokenId} {t : TokenId} {r : Nat} {ops : Operators}

/-! ## Alternatives -/

theorem expansions_rule (g : Grammar) (r : Nat) : g.expansions (.rule r)
    = match g.body r with
      | .undefined => []
      | .sequence as => as.map fun a => a.symbols.map Symbol.part
      | .expression _ => [[.unary r, .tail r]] := rfl

theorem expansions_unary (g : Grammar) (r : Nat) : g.expansions (.unary r)
    = match g.body r with
      | .expression ops => (ops.signs.map fun t => [.token t, .unary r]) ++ [[.rule ops.operand]]
      | _ => [] := rfl

theorem expansions_tail (g : Grammar) (r : Nat) : g.expansions (.tail r)
    = match g.body r with
      | .expression ops => (ops.links.map fun t => [.token t, .unary r, .tail r]) ++ [[]]
      | _ => [] := rfl

theorem mem_expansions_rule :
    body ∈ g.expansions (.rule r) ↔
      (∃ as a, g.body r = .sequence as ∧ a ∈ as ∧ body = a.symbols.map Symbol.part) ∨
        ∃ ops, g.body r = .expression ops ∧ body = [.unary r, .tail r] := by
  cases hb : g.body r with
  | undefined => simp [expansions_rule, hb]
  | sequence as => simp [expansions_rule, hb, eq_comm]
  | expression ops => simp [expansions_rule, hb]

theorem mem_expansions_sequence {as : List Alternative} (hb : g.body r = .sequence as) :
    body ∈ g.expansions (.rule r) ↔ ∃ a ∈ as, body = a.symbols.map Symbol.part := by
  simp [expansions_rule, hb, eq_comm]

theorem mem_expansions_opt : body ∈ g.expansions (.opt r) ↔ body = [.rule r] ∨ body = [] := by
  show body ∈ [[.rule r], []] ↔ _
  simp

theorem mem_expansions_many :
    body ∈ g.expansions (.many r) ↔ body = [.rule r, .many r] ∨ body = [] := by
  show body ∈ [[.rule r, .many r], []] ↔ _
  simp

theorem mem_expansions_unary :
    body ∈ g.expansions (.unary r) ↔
      ∃ ops, g.body r = .expression ops ∧
        ((∃ t ∈ ops.signs, body = [.token t, .unary r]) ∨ body = [.rule ops.operand]) := by
  cases hb : g.body r with
  | undefined => simp [expansions_unary, hb]
  | sequence as => simp [expansions_unary, hb]
  | expression ops => simp [expansions_unary, hb, eq_comm]

theorem mem_expansions_tail :
    body ∈ g.expansions (.tail r) ↔
      ∃ ops, g.body r = .expression ops ∧
        ((∃ t ∈ ops.links, body = [.token t, .unary r, .tail r]) ∨ body = []) := by
  cases hb : g.body r with
  | undefined => simp [expansions_tail, hb]
  | sequence as => simp [expansions_tail, hb]
  | expression ops => simp [expansions_tail, hb, eq_comm]

/-! ## Forms -/

theorem Derives.append (h : g.Derives form text) (h' : g.Derives form' text') :
    g.Derives (form ++ form') (text ++ text') := by
  induction h with
  | nil => exact h'
  | token _ ih => exact .token ih
  | expand hbody h _ _ ih =>
    rw [List.append_assoc]
    exact .expand hbody h ih

/-- A text of a joined form is joined from texts of its halves. -/
theorem derives_append :
    g.Derives (form ++ form') text ↔
      ∃ u v, text = u ++ v ∧ g.Derives form u ∧ g.Derives form' v := by
  constructor
  · intro h
    induction form generalizing text with
    | nil => exact ⟨[], text, rfl, .nil, h⟩
    | cons part form ih =>
      cases h with
      | token h =>
        obtain ⟨u, v, rfl, hu, hv⟩ := ih h
        exact ⟨_ :: u, v, rfl, .token hu, hv⟩
      | expand hbody h h' =>
        obtain ⟨u, v, rfl, hu, hv⟩ := ih h'
        exact ⟨_ ++ u, v, (List.append_assoc ..).symm, .expand hbody h hu, hv⟩
  · rintro ⟨u, v, rfl, hu, hv⟩
    exact hu.append hv

theorem derives_nil : g.Derives [] text ↔ text = [] := by
  constructor
  · intro h
    cases h
    rfl
  · rintro rfl
    exact .nil

theorem derives_token :
    g.Derives (.token t :: form) text ↔ ∃ rest, text = t :: rest ∧ g.Derives form rest := by
  constructor
  · intro h
    cases h with
    | token h => exact ⟨_, rfl, h⟩
    | expand hbody _ _ => cases hbody
  · rintro ⟨rest, rfl, h⟩
    exact .token h

theorem derives_tokens (g : Grammar) (text : List TokenId) :
    g.Derives (text.map .token) text := by
  induction text with
  | nil => exact .nil
  | cons t text ih => exact .token ih

/-- A part that is no token is expanded. -/
theorem derives_cons (hpart : ∀ t, part ≠ .token t) :
    g.Derives (part :: form) text ↔
      ∃ body ∈ g.expansions part, g.Derives (body ++ form) text := by
  constructor
  · intro h
    cases h with
    | token _ => exact absurd rfl (hpart _)
    | expand hbody h h' => exact ⟨_, hbody, h.append h'⟩
  · rintro ⟨body, hbody, h⟩
    obtain ⟨u, v, rfl, hu, hv⟩ := derives_append.1 h
    exact .expand hbody hu hv

theorem derives_single (hpart : ∀ t, part ≠ .token t) :
    g.Derives [part] text ↔ ∃ body ∈ g.expansions part, g.Derives body text := by
  rw [derives_cons hpart]
  simp

/-! ## The languages of the nonterminals -/

/-- A rule without a definition has no texts. -/
theorem derives_undefined (hb : g.body r = .undefined) : ¬ g.Derives [.rule r] text := by
  rw [derives_single (by simp)]
  rintro ⟨body, hbody, -⟩
  rw [expansions_rule, hb] at hbody
  cases hbody

/-- A choice between sequences has the texts of each. -/
theorem derives_sequence {as : List Alternative} (hb : g.body r = .sequence as) :
    g.Derives [.rule r] text ↔ ∃ a ∈ as, g.Derives (a.symbols.map Symbol.part) text := by
  rw [derives_single (by simp), expansions_rule, hb]
  simp

theorem derives_opt : g.Derives [.opt r] text ↔ text = [] ∨ g.Derives [.rule r] text := by
  rw [derives_single (by simp)]
  simp [mem_expansions_opt, derives_nil, or_comm]

/-- Where all alternatives of a part but one end in the part itself, a text is made of rounds and of
one text of the alternative that is left. The form ends in the part, since rounds stand before it. -/
theorem Derives.exists_rounds {rounds : List (List Part)} {last : List Part}
    (hpart : ∀ t, part ≠ .token t)
    (hexp : g.expansions part = rounds.map (· ++ [part]) ++ [last])
    (h : g.Derives form text) (lead : List Part) (hform : form = lead ++ [part]) :
    ∃ (s : List TokenId) (texts : List (List TokenId)) (u : List TokenId),
      text = s ++ (texts.flatten ++ u) ∧ g.Derives lead s ∧
        (∀ v ∈ texts, ∃ round ∈ rounds, g.Derives round v) ∧ g.Derives last u := by
  -- By induction on the derivation, which takes the lead part by part. Behind the lead each
  -- expansion adds a round, or is the last one.
  induction h generalizing lead with
  | nil => cases lead <;> cases hform
  | @token t form text h ih =>
    cases lead with
    | nil => exact absurd (List.cons.inj hform).1.symm (hpart t)
    | cons x lead =>
      obtain ⟨rfl, hlead⟩ := List.cons.inj hform
      obtain ⟨s, texts, u, rfl, hs, htexts, hu⟩ := ih lead hlead
      exact ⟨t :: s, texts, u, rfl, .token hs, htexts, hu⟩
  | @expand x body form text text' hbody h h' ih ih' =>
    cases lead with
    | nil =>
      obtain ⟨rfl, rfl⟩ := List.cons.inj hform
      rw [hexp, List.mem_append, List.mem_map, List.mem_singleton] at hbody
      rw [derives_nil.1 h', List.append_nil]
      rcases hbody with ⟨round, hround, rfl⟩ | rfl
      · obtain ⟨s, texts, u, rfl, hs, htexts, hu⟩ := ih round rfl
        refine ⟨[], s :: texts, u, by simp, .nil, fun v hv => ?_, hu⟩
        rcases List.mem_cons.1 hv with rfl | hv
        · exact ⟨round, hround, hs⟩
        · exact htexts v hv
      · exact ⟨[], [], text, by simp, .nil, fun _ hv => (List.not_mem_nil hv).elim, h⟩
    | cons y lead =>
      obtain ⟨rfl, hlead⟩ := List.cons.inj hform
      obtain ⟨s, texts, u, rfl, hs, htexts, hu⟩ := ih' lead hlead
      exact ⟨text ++ s, texts, u, by simp, .expand hbody h hs, htexts, hu⟩

theorem derives_loop (rounds : List (List Part)) (last : List Part)
    (hpart : ∀ t, part ≠ .token t)
    (hexp : g.expansions part = rounds.map (· ++ [part]) ++ [last]) :
    g.Derives [part] text ↔
      ∃ (texts : List (List TokenId)) (u : List TokenId), text = texts.flatten ++ u ∧
        (∀ v ∈ texts, ∃ round ∈ rounds, g.Derives round v) ∧ g.Derives last u := by
  constructor
  · intro h
    obtain ⟨s, texts, u, rfl, hs, htexts, hu⟩ := h.exists_rounds hpart hexp [] rfl
    rw [derives_nil.1 hs]
    exact ⟨texts, u, rfl, htexts, hu⟩
  · rintro ⟨texts, u, rfl, htexts, hu⟩
    rw [derives_single hpart, hexp]
    induction texts with
    | nil => exact ⟨last, by simp, hu⟩
    | cons v texts ih =>
      obtain ⟨round, hround, hv⟩ := htexts v List.mem_cons_self
      obtain ⟨body, hbody, h⟩ := ih fun w hw => htexts w (List.mem_cons_of_mem _ hw)
      -- The rounds behind the first are a text of the part again.
      have hrest := (derives_single hpart).2 ⟨body, hexp ▸ hbody, h⟩
      refine ⟨round ++ [part], ?_, ?_⟩
      · exact List.mem_append_left _ (List.mem_map_of_mem hround)
      · rw [List.flatten_cons, List.append_assoc]
        exact hv.append hrest

/-- A repeated rule has any number of texts of the rule, one behind the other. -/
theorem derives_many :
    g.Derives [.many r] text ↔
      ∃ texts : List (List TokenId), text = texts.flatten ∧ ∀ u ∈ texts, g.Derives [.rule r] u := by
  rw [derives_loop [[.rule r]] [] (by simp) rfl]
  simp [derives_nil]

/-- Prefix operators may stand before an operand. -/
theorem derives_unary (hb : g.body r = .expression ops) :
    g.Derives [.unary r] text ↔
      ∃ signs u, text = signs ++ u ∧ (∀ t ∈ signs, t ∈ ops.signs) ∧
        g.Derives [.rule ops.operand] u := by
  rw [derives_loop (ops.signs.map fun t => [.token t]) [.rule ops.operand] (by simp)
    (by simp [expansions_unary, hb])]
  constructor
  · rintro ⟨texts, u, rfl, htexts, hu⟩
    refine ⟨texts.flatten, u, rfl, fun t ht => ?_, hu⟩
    obtain ⟨v, hv, ht⟩ := List.mem_flatten.1 ht
    obtain ⟨round, hround, hd⟩ := htexts v hv
    obtain ⟨sign, hsign, rfl⟩ := List.mem_map.1 hround
    obtain ⟨rest, rfl, hrest⟩ := derives_token.1 hd
    rw [derives_nil.1 hrest, List.mem_singleton] at ht
    exact ht ▸ hsign
  · rintro ⟨signs, u, rfl, hsigns, hu⟩
    refine ⟨signs.map ([·]), u, by rw [← List.flatMap_def, List.flatMap_singleton'], fun v hv => ?_, hu⟩
    obtain ⟨t, ht, rfl⟩ := List.mem_map.1 hv
    exact ⟨[.token t], List.mem_map.2 ⟨t, hsigns t ht, rfl⟩, .token .nil⟩

/-- An expression is an operand, and any number of binary operators with their right operands. -/
theorem derives_expression (hb : g.body r = .expression ops) :
    g.Derives [.rule r] text ↔
      ∃ u, ∃ links : List (TokenId × List TokenId),
        text = u ++ links.flatMap (fun link => link.1 :: link.2) ∧ g.Derives [.unary r] u ∧
          ∀ link ∈ links, link.1 ∈ ops.links ∧ g.Derives [.unary r] link.2 := by
  have hexp : g.Derives [.rule r] text ↔ g.Derives ([.unary r] ++ [.tail r]) text := by
    rw [derives_single (by simp), expansions_rule, hb]
    simp
  have htail : ∀ v, g.Derives [.tail r] v ↔
      ∃ (texts : List (List TokenId)) (u : List TokenId), v = texts.flatten ++ u ∧
        (∀ w ∈ texts, ∃ round ∈ ops.links.map (fun t => [Part.token t, .unary r]),
          g.Derives round w) ∧ g.Derives [] u :=
    fun v => derives_loop _ _ (by simp) (by simp [expansions_tail, hb])
  rw [hexp, derives_append]
  constructor
  · rintro ⟨u, v, rfl, hu, hv⟩
    obtain ⟨texts, w, rfl, htexts, hw⟩ := (htail v).1 hv
    rw [derives_nil.1 hw, List.append_nil]
    clear hv hexp
    -- Every round of the tail is an operator with its operand.
    suffices hlinks : ∃ links : List (TokenId × List TokenId),
        texts.flatten = links.flatMap (fun link => link.1 :: link.2) ∧
          ∀ link ∈ links, link.1 ∈ ops.links ∧ g.Derives [.unary r] link.2 by
      obtain ⟨links, heq, hlinks⟩ := hlinks
      exact ⟨u, links, by rw [heq], hu, hlinks⟩
    induction texts with
    | nil => exact ⟨[], rfl, fun _ h => nomatch h⟩
    | cons x texts ih =>
      obtain ⟨links, heq, hlinks⟩ := ih fun w hw => htexts w (List.mem_cons_of_mem _ hw)
      obtain ⟨round, hround, hx⟩ := htexts x List.mem_cons_self
      obtain ⟨t, ht, rfl⟩ := List.mem_map.1 hround
      obtain ⟨rest, rfl, hrest⟩ := derives_token.1 hx
      refine ⟨(t, rest) :: links, by simp [heq], fun link hlink => ?_⟩
      rcases List.mem_cons.1 hlink with rfl | hlink
      · exact ⟨ht, hrest⟩
      · exact hlinks link hlink
  · rintro ⟨u, links, rfl, hu, hlinks⟩
    refine ⟨u, _, rfl, hu, (htail _).2 ⟨links.map fun link => link.1 :: link.2, [], ?_, ?_, .nil⟩⟩
    · rw [List.append_nil, List.flatMap_def]
    · intro w hw
      obtain ⟨link, hlink, rfl⟩ := List.mem_map.1 hw
      obtain ⟨ht, hd⟩ := hlinks link hlink
      exact ⟨_, List.mem_map_of_mem ht, .token hd⟩

/-! ## Derivations between forms -/

/-- One part of the form is expanded. -/
inductive Produces (g : Grammar) : List Part → List Part → Prop where
  | expand (before : List Part) {part : Part} {body : List Part} (behind : List Part)
    (hbody : body ∈ g.expansions part) :
    Produces g (before ++ part :: behind) (before ++ body ++ behind)

/-- Parts of the form are expanded, one after the other. -/
def Yields (g : Grammar) : List Part → List Part → Prop := Relation.ReflTransGen g.Produces

/-- The form can begin with the token. -/
def Begins (g : Grammar) (form : List Part) (t : TokenId) : Prop :=
  ∃ rest, g.Yields form (.token t :: rest)

/-- The form can be empty. -/
def Empties (g : Grammar) (form : List Part) : Prop := g.Yields form []

/-- The token, or the end of the input, can stand behind the part in a form of the start rule. -/
def Follows (g : Grammar) (part : Part) (t : TokenId) : Prop :=
  (∃ before behind, g.Yields [.rule g.start] (before ++ part :: .token t :: behind)) ∨
    t = .eof ∧ ∃ before, g.Yields [.rule g.start] (before ++ [part])

theorem Produces.around (h : g.Produces form form') (before behind : List Part) :
    g.Produces (before ++ form ++ behind) (before ++ form' ++ behind) := by
  cases h with
  | expand before' behind' hbody =>
    have hp := Produces.expand (before ++ before') (behind' ++ behind) hbody
    simpa [List.append_assoc] using hp

namespace Yields

theorem refl (form : List Part) : g.Yields form form := Relation.ReflTransGen.refl

theorem trans (h : g.Yields form form') (h' : g.Yields form' form'') : g.Yields form form'' :=
  Relation.ReflTransGen.trans h h'

theorem around (h : g.Yields form form') (before behind : List Part) :
    g.Yields (before ++ form ++ behind) (before ++ form' ++ behind) := by
  induction h with
  | refl => exact .refl _
  | tail _ hp ih => exact Relation.ReflTransGen.tail ih (hp.around before behind)

theorem append (h : g.Yields form form') (h' : g.Yields before behind) :
    g.Yields (form ++ before) (form' ++ behind) := by
  have hleft := h.around [] before
  have hright := h'.around form' []
  simp only [List.nil_append, List.append_nil] at hleft hright
  exact hleft.trans hright

/-- The leftmost part is expanded. -/
theorem expand (hbody : body ∈ g.expansions part) (form : List Part) :
    g.Yields (part :: form) (body ++ form) :=
  .single (.expand [] form hbody)

theorem of_rule {as : List Alternative} {a : Alternative} (hb : g.body r = .sequence as)
    (ha : a ∈ as) (form : List Part) :
    g.Yields (.rule r :: form) (a.symbols.map Symbol.part ++ form) :=
  expand (mem_expansions_rule.2 (.inl ⟨as, a, hb, ha, rfl⟩)) form

theorem of_expression (hb : g.body r = .expression ops) (form : List Part) :
    g.Yields (.rule r :: form) (.unary r :: .tail r :: form) :=
  expand (mem_expansions_rule.2 (.inr ⟨ops, hb, rfl⟩)) form

theorem of_opt (g : Grammar) (r : Nat) (form : List Part) :
    g.Yields (.opt r :: form) (.rule r :: form) :=
  expand (mem_expansions_opt.2 (.inl rfl)) form

theorem of_no_opt (g : Grammar) (r : Nat) (form : List Part) : g.Yields (.opt r :: form) form :=
  expand (mem_expansions_opt.2 (.inr rfl)) form

theorem of_many (g : Grammar) (r : Nat) (form : List Part) :
    g.Yields (.many r :: form) (.rule r :: .many r :: form) :=
  expand (mem_expansions_many.2 (.inl rfl)) form

theorem of_no_many (g : Grammar) (r : Nat) (form : List Part) : g.Yields (.many r :: form) form :=
  expand (mem_expansions_many.2 (.inr rfl)) form

theorem of_sign (hb : g.body r = .expression ops) (ht : t ∈ ops.signs) (form : List Part) :
    g.Yields (.unary r :: form) (.token t :: .unary r :: form) :=
  expand (mem_expansions_unary.2 ⟨ops, hb, .inl ⟨t, ht, rfl⟩⟩) form

theorem of_operand (hb : g.body r = .expression ops) (form : List Part) :
    g.Yields (.unary r :: form) (.rule ops.operand :: form) :=
  expand (mem_expansions_unary.2 ⟨ops, hb, .inr rfl⟩) form

theorem of_link (hb : g.body r = .expression ops) (ht : t ∈ ops.links) (form : List Part) :
    g.Yields (.tail r :: form) (.token t :: .unary r :: .tail r :: form) :=
  expand (mem_expansions_tail.2 ⟨ops, hb, .inl ⟨t, ht, rfl⟩⟩) form

theorem of_no_link (hb : g.body r = .expression ops) (form : List Part) :
    g.Yields (.tail r :: form) form :=
  expand (mem_expansions_tail.2 ⟨ops, hb, .inr rfl⟩) form

theorem eq_nil (h : g.Yields [] form) : form = [] := by
  induction h with
  | refl => rfl
  | tail _ hp ih =>
    subst ih
    generalize hb : ([] : List Part) = b at hp
    cases hp with
    | expand before behind _ => simp at hb

/-- Joined forms yield what their halves yield, each for itself. -/
theorem exists_append (h : g.Yields (form ++ form') form'') :
    ∃ u v, form'' = u ++ v ∧ g.Yields form u ∧ g.Yields form' v := by
  induction h with
  | refl => exact ⟨form, form', rfl, .refl _, .refl _⟩
  | @tail b c _ hp ih =>
    obtain ⟨u, v, hb, hu, hv⟩ := ih
    obtain ⟨before, part, body, behind, hbody, rfl, rfl⟩ :
        ∃ before part body behind, body ∈ g.expansions part ∧ b = before ++ part :: behind ∧
          c = before ++ body ++ behind := by
      cases hp with
      | expand before behind hbody => exact ⟨before, _, _, behind, hbody, rfl, rfl⟩
    rcases List.append_eq_append_iff.1 hb with ⟨w, rfl, hw⟩ | ⟨w, rfl, rfl⟩
    · cases w with
      | nil =>
        -- The part stands at the front of the second half.
        rw [List.nil_append] at hw
        subst hw
        refine ⟨before, body ++ behind, List.append_assoc .., ?_, hv.trans (expand hbody behind)⟩
        rwa [List.append_nil] at hu
      | cons _ w =>
        obtain ⟨rfl, rfl⟩ := List.cons.inj hw
        have hstep := Produces.expand before w hbody
        exact ⟨before ++ body ++ w, v, by simp, hu.trans (.single hstep), hv⟩
    · have hstep := Produces.expand w behind hbody
      exact ⟨u, w ++ body ++ behind, by simp, hu, hv.trans (.single hstep)⟩

/-- What a form stands for is also what any form stands for that yields it. -/
theorem derives (h : g.Yields form form') (hd : g.Derives form' text) : g.Derives form text := by
  induction h with
  | refl => exact hd
  | tail _ hp ih =>
    refine ih ?_
    cases hp with
    | expand before behind hbody =>
      obtain ⟨u, w, rfl, hu, hw⟩ := derives_append.1 hd
      obtain ⟨u, v, rfl, hu, hv⟩ := derives_append.1 hu
      rw [List.append_assoc]
      exact hu.append (.expand hbody hv hw)

end Yields

/-- A form yields its texts. -/
theorem Derives.yields (h : g.Derives form text) : g.Yields form (text.map .token) := by
  induction h with
  | nil => exact .refl _
  | @token t form text _ ih =>
    have hleft := Yields.append (.refl [.token t]) ih
    simpa using hleft
  | @expand part body form text text' hbody _ _ ih ih' =>
    rw [List.map_append]
    exact (Yields.expand hbody form).trans (ih.append ih')

/-- A token that stands nowhere in the grammar stands in no text. -/
theorem Derives.not_mem (h : g.Derives form text) (hlacks : g.Lacks t) (hform : .token t ∉ form) :
    t ∉ text := by
  induction h with
  | nil => exact List.not_mem_nil
  | token _ ih =>
    rw [List.mem_cons, not_or] at hform ⊢
    exact ⟨fun heq => hform.1 (congrArg Part.token heq), ih hform.2⟩
  | @expand part body form text text' hbody _ _ ih ih' =>
    rw [List.mem_append, not_or]
    refine ⟨ih ?_, ih' (fun hmem => hform (List.mem_cons_of_mem _ hmem))⟩
    -- No production has the token in it.
    cases part with
    | token _ => cases hbody
    | rule r =>
      rcases mem_expansions_rule.1 hbody with ⟨as, a, hb, ha, rfl⟩ | ⟨ops, -, rfl⟩
      · intro hmem
        obtain ⟨symbol, hsymbol, hpart⟩ := List.mem_map.1 hmem
        cases symbol with
        | token id =>
          cases hpart
          exact hlacks.1 r as a hb ha hsymbol
        | rule _ | opt _ | many _ => cases hpart
      · simp
    | opt r => rcases mem_expansions_opt.1 hbody with rfl | rfl <;> simp
    | many r => rcases mem_expansions_many.1 hbody with rfl | rfl <;> simp
    | unary r =>
      obtain ⟨ops, hb, ⟨sign, hsign, rfl⟩ | rfl⟩ := mem_expansions_unary.1 hbody
      · have hne : t ≠ sign := fun heq => (hlacks.2 r ops hb).1 (heq ▸ hsign)
        simp [hne]
      · simp
    | tail r =>
      obtain ⟨ops, hb, ⟨link, hlink, rfl⟩ | rfl⟩ := mem_expansions_tail.1 hbody
      · have hne : t ≠ link := fun heq => (hlacks.2 r ops hb).2 (heq ▸ hlink)
        simp [hne]
      · simp

/-! ## First tokens and empty texts -/

theorem Derives.begins (h : g.Derives form (t :: text)) : g.Begins form t := ⟨_, h.yields⟩

theorem Derives.empties (h : g.Derives form []) : g.Empties form := h.yields

theorem Begins.append (h : g.Begins form t) (form' : List Part) : g.Begins (form ++ form') t := by
  obtain ⟨rest, h⟩ := h
  exact ⟨rest ++ form', Yields.append h (.refl form')⟩

theorem Yields.begins (h : g.Yields form form') (h' : g.Begins form' t) : g.Begins form t := by
  obtain ⟨rest, h'⟩ := h'
  exact ⟨rest, h.trans h'⟩

theorem Empties.begins (h : g.Empties form) (h' : g.Begins form' t) :
    g.Begins (form ++ form') t :=
  Yields.begins (Yields.append h (.refl form')) h'

/-- A joined form begins as its first half, or, when that can be empty, as the second. -/
theorem begins_append (h : g.Begins (form ++ form') t) :
    g.Begins form t ∨ g.Empties form ∧ g.Begins form' t := by
  obtain ⟨rest, h⟩ := h
  obtain ⟨u, v, heq, hu, hv⟩ := h.exists_append
  cases u with
  | nil => exact .inr ⟨hu, rest, heq ▸ hv⟩
  | cons part u =>
    obtain ⟨rfl, -⟩ := List.cons.inj heq
    exact .inl ⟨u, hu⟩

theorem empties_append (h : g.Empties (form ++ form')) : g.Empties form ∧ g.Empties form' := by
  obtain ⟨u, v, heq, hu, hv⟩ := h.exists_append
  obtain ⟨rfl, rfl⟩ := List.append_eq_nil_iff.1 heq.symm
  exact ⟨hu, hv⟩

theorem begins_token (t : TokenId) (form : List Part) : g.Begins (.token t :: form) t :=
  ⟨form, .refl _⟩

/-- A form can be empty when all its parts can. -/
theorem empties_of_forall (h : ∀ part ∈ form, g.Empties [part]) : g.Empties form := by
  induction form with
  | nil => exact .refl _
  | cons part form ih =>
    have hrest := ih fun x hx => h x (List.mem_cons_of_mem _ hx)
    exact Yields.append (h part List.mem_cons_self) hrest

end Grammar

end FrontEnd
