import FrontEnd.Proofs.Parser.Errands

/-!
# Rules without a token where skipping stops

Skipping stops at the tokens of a fixed set. Rules that hold none of these tokens, as those of
expressions, are left altogether once a token does not fit: what is skipped then reaches beyond all
of them, and nothing in them can take the token where skipping stops. So whatever stands in such a
rule, it ends in one of two ways.

- `Grammar.Shelters`: rules that hold no such token, and lead only to each other;
- `Parser.Clean`: tokens that are read without a report, and would be in front of other tokens too;
- `Parser.Spoiled`: one report, and the token where skipping stops;
- `Parser.Performs.clean_or_spoiled`: **there is no third way**.
-/

namespace FrontEnd

/-! ## Where skipping stops -/

namespace Prospect

variable {v v' : Prospect} {names : Names} {sync : TokenSet} {u rest : List Lexeme}

/-- The tokens before the next one of `sync` are skipped. -/
def stopped (sync : TokenSet) (v : Prospect) : Prospect :=
  ⟨v.ahead.dropWhile fun t => !sync.contains t.id, true⟩

theorem after_blamed (hv : v.damaged = false) :
    (v.blamed names sync).after = v.stopped sync := by
  rw [blamed, if_neg (by rw [hv]; exact Bool.false_ne_true)]
  rfl

theorem reports_blamed (hv : v.damaged = false) : (v.blamed names sync).reports = 1 := by
  rw [blamed, if_neg (by rw [hv]; exact Bool.false_ne_true)]

/-- Skipping stops at a token of `sync`, or at the end of the input. -/
theorem next_stopped (sync : TokenSet) (v : Prospect) :
    (v.stopped sync).next = .eof ∨ sync.contains (v.stopped sync).next = true := by
  match hahead : (v.stopped sync).ahead with
  | [] =>
    left
    rw [next, ids, hahead]
    rfl
  | t :: rest =>
    right
    have hhead := List.head?_dropWhile_not (fun t : Lexeme => !sync.contains t.id) v.ahead
    have hdrop : v.ahead.dropWhile (fun t => !sync.contains t.id) = t :: rest := hahead
    rw [hdrop] at hhead
    rw [next_of_cons hahead]
    simpa using hhead

/-- Tokens that are skipped anyway may have been taken before. -/
theorem stopped_of_append (v' : Prospect) (hv : v.ahead = u ++ v'.ahead)
    (hu : ∀ t ∈ u, sync.contains t.id = false) : v.stopped sync = v'.stopped sync := by
  rw [stopped, stopped, hv, List.dropWhile_append_of_pos fun t ht => by simp [hu t ht]]

/-- What comes next behind `u` is the beginning of `u`, or comes next. -/
theorem next_append (d d' : Bool) :
    (⟨u ++ rest, d⟩ : Prospect).next = if u = [] then (⟨rest, d'⟩ : Prospect).next
      else (⟨u, d'⟩ : Prospect).next := by
  cases u with
  | nil => rfl
  | cons t u => rfl

theorem next_append_of_ne (d d' : Bool) (hu : u ≠ []) (rest rest' : List Lexeme) :
    (⟨u ++ rest, d⟩ : Prospect).next = (⟨u ++ rest', d'⟩ : Prospect).next := by
  rw [next_append d d, next_append d' d, if_neg hu, if_neg hu]

end Prospect

/-! ## Rules apart -/

/-- A symbol that is one of the rules, or a token at which skipping goes on. -/
def Symbol.Inside (sync : TokenSet) (rules : Nat → Prop) : Symbol → Prop
  | .token id => sync.contains id = false ∧ id ≠ .eof
  | .rule r => rules r
  | .opt _ | .many _ => False

instance (sync : TokenSet) (rules : Nat → Prop) [DecidablePred rules] (s : Symbol) :
    Decidable (s.Inside sync rules) :=
  match s with
  | .token id => inferInstanceAs (Decidable (sync.contains id = false ∧ id ≠ .eof))
  | .rule r => inferInstanceAs (Decidable (rules r))
  | .opt _ | .many _ => inferInstanceAs (Decidable False)

/-- Rules that hold no token where skipping stops, and lead only to each other. -/
structure Grammar.Shelters (g : Grammar) (sync : TokenSet) (rules : Nat → Prop) : Prop where
  unguarded : ∀ {r as a}, rules r → g.body r = .sequence as → a ∈ as → a.guard = []
  solid : ∀ {r as a}, rules r → g.body r = .sequence as → a ∈ as → a.steps ≠ []
  inside : ∀ {r as a}, rules r → g.body r = .sequence as → a ∈ as →
    ∀ s ∈ a.steps, s.symbol.Inside sync rules
  begins : ∀ {r as a id}, rules r → g.body r = .sequence as → a ∈ as →
    a.first.contains id = true → sync.contains id = false ∧ id ≠ .eof
  operand : ∀ {r ops}, rules r → g.body r = .expression ops → rules ops.operand
  signs : ∀ {r ops id n}, rules r → g.body r = .expression ops →
    ops.prefixPrecedence? id = some n → sync.contains id = false
  links : ∀ {r ops id op}, rules r → g.body r = .expression ops →
    ops.binary? id = some op → sync.contains id = false
  first : ∀ {r id}, rules r → (g.firstOf r).contains id = true →
    sync.contains id = false ∧ id ≠ .eof

namespace Errand

/-- The same errand in front of other tokens. -/
def withFollow (follow : TokenSet) : Errand → Errand
  | .rule r _ => .rule r follow
  | .symbol s _ => .symbol s follow
  | .steps rest _ flow => .steps rest follow flow
  | .repetition r _ => .repetition r follow
  | .expression ctx => .expression { ctx with follow }
  | .climb ctx lhs => .climb { ctx with follow } lhs
  | .behind ctx flow lhs => .behind { ctx with follow } flow lhs

/-- An errand within the rules, on which no token has been skipped. -/
def Inside (g : Grammar) (sync : TokenSet) (rules : Nat → Prop) : Errand → Prop
  | .rule r _ => rules r
  | .symbol s _ => s.Inside sync rules
  | .steps rest _ flow => flow = .proceeding ∧ ∀ s ∈ rest, s.symbol.Inside sync rules
  | .repetition _ _ => False
  | .expression ctx | .climb ctx _ => ∃ r, rules r ∧ g.body r = .expression ctx.ops
  | .behind ctx flow _ => flow = .proceeding ∧ ∃ r, rules r ∧ g.body r = .expression ctx.ops

/-- Is a token taken, if no token is skipped? -/
def Takes : Errand → Prop
  | .rule _ _ | .symbol _ _ | .expression _ => True
  | .steps rest _ _ => rest ≠ []
  | .repetition _ _ | .climb _ _ | .behind _ _ _ => False

end Errand

namespace Parser

variable {p : Parser} {names : Names} {rules : Nat → Prop} {e : Errand} {v : Prospect}
  {o o₁ o₂ : Errand.Outcome} {u u₁ u₂ : List Lexeme} {follow : TokenSet} {s : Step} {rest : List Step}
  {flow : Flow} {ctx : ExpressionContext} {lhs : Item}

/-- No expression of the rules goes on with the token. -/
def Closes (p : Parser) (rules : Nat → Prop) (id : TokenId) : Prop :=
  ∀ r ops, rules r → p.grammar.body r = .expression ops → ops.binary? id = none

/-- The tokens `u` are read without a report, and would be in front of other tokens too. -/
structure Clean (p : Parser) (names : Names) (rules : Nat → Prop) (e : Errand) (v : Prospect)
    (o : Errand.Outcome) (u : List Lexeme) : Prop where
  flow : o.flow = .proceeding
  ahead : v.ahead = u ++ o.after.ahead
  fresh : o.after.damaged = false
  quiet : o.reports = 0
  inside : ∀ t ∈ u, p.sync.contains t.id = false
  takes : e.Takes → u ≠ []
  reads : ∀ follow rest d,
    (⟨rest, d⟩ : Prospect).next = o.after.next ∨ p.Closes rules (⟨rest, d⟩ : Prospect).next →
    p.Performs names (e.withFollow follow) ⟨u ++ rest, d⟩
      ⟨.proceeding, o.items, ⟨rest, d && u.isEmpty⟩, 0⟩

/-- Tokens are skipped, with one report. -/
structure Spoiled (p : Parser) (v : Prospect) (o : Errand.Outcome) : Prop where
  flow : o.flow = .recovering
  after : o.after = v.stopped p.sync
  reports : o.reports = 1

theorem spoiled_blamed (hv : v.damaged = false) : p.Spoiled v (v.blamed names p.sync) :=
  ⟨v.flow_blamed names p.sync, Prospect.after_blamed hv, Prospect.reports_blamed hv⟩

/-- What is skipped later is skipped from the beginning. -/
theorem Clean.spoiled (h : p.Clean names rules e v o₁ u) (h' : p.Spoiled o₁.after o₂) :
    p.Spoiled v o₂ :=
  ⟨h'.flow, h'.after.trans (Prospect.stopped_of_append _ h.ahead h.inside).symm, h'.reports⟩

/-- Between two parts stands what stood there, or something that ends the first one. -/
theorem Clean.between {v₁ : Prospect} {rest : List Lexeme} {d d' : Bool}
    (h : v₁.ahead = u ++ o.after.ahead)
    (hrest : (⟨rest, d⟩ : Prospect).next = o.after.next ∨
      p.Closes rules (⟨rest, d⟩ : Prospect).next) :
    (⟨u ++ rest, d'⟩ : Prospect).next = v₁.next ∨
      p.Closes rules (⟨u ++ rest, d'⟩ : Prospect).next := by
  have hv : v₁.next = (⟨u ++ o.after.ahead, d'⟩ : Prospect).next := by
    rw [Prospect.next, Prospect.ids, h]
    rfl
  by_cases hu : u = []
  · subst hu
    rcases hrest with heq | hcloses
    · exact .inl (heq.trans hv.symm)
    · exact .inr hcloses
  · exact .inl ((Prospect.next_append_of_ne d' d' hu rest o.after.ahead).trans hv.symm)

/-- A symbol, and the symbols behind it, without a report. -/
theorem Performs.quiet_enter {items₁ items₂ : List Item} {v₂ v₃ : Prospect}
    (h : p.Performs names (.symbol s.symbol (followOf s follow)) v ⟨.proceeding, items₁, v₂, 0⟩)
    (h' : p.Performs names (.steps rest follow .proceeding) v₂ ⟨flow, items₂, v₃, 0⟩) :
    p.Performs names (.steps (s :: rest) follow .proceeding) v
      ⟨flow, items₂ ++ items₁, v₃, 0⟩ :=
  .enter (show Flow.proceeding = .recovering → _ from nofun) h h'

/-! ## What is left after skipping -/

theorem canStart_of_inside {symbol : Symbol} {id : TokenId} (hs : p.grammar.Shelters p.sync rules)
    (hin : symbol.Inside p.sync rules) (hid : id = .eof ∨ p.sync.contains id = true) :
    p.grammar.canStart symbol id = false := by
  -- None of the rules begins with a token where skipping stops.
  have hout : ¬ (p.sync.contains id = false ∧ id ≠ .eof) := by
    rintro ⟨hsync, hne⟩
    rcases hid with heof | hstop
    · exact hne heof
    · exact absurd (hstop.symm.trans hsync) nofun
  cases symbol with
  | token t =>
    refine beq_eq_false_iff_ne.2 ?_
    rintro rfl
    exact hout hin
  | rule r => exact Bool.eq_false_iff.2 fun hfirst => hout (hs.first hin hfirst)
  | opt r | many r => exact hin.elim

/-- Where skipping stopped, the rest of a production is left out. -/
theorem Performs.of_stopped (hs : p.grammar.Shelters p.sync rules)
    (hin : ∀ s ∈ rest, s.symbol.Inside p.sync rules)
    (hv : v.next = .eof ∨ p.sync.contains v.next = true)
    (h : p.Performs names (.steps rest follow .recovering) v o) :
    o = ⟨.recovering, [], v, 0⟩ := by
  induction rest with
  | nil => exact h.of_nil
  | cons s rest ih =>
    rcases h.of_cons_recovering with ⟨-, hrest⟩ | ⟨hstart, -⟩
    · exact ih (fun s' hs' => hin s' (List.mem_cons_of_mem s hs')) hrest
    · have hcannot := canStart_of_inside hs (hin s List.mem_cons_self) hv
      exact absurd (hstart.symm.trans hcannot) nofun

theorem Performs.of_behind_recovering (h : p.Performs names (.behind ctx .recovering lhs) v o) :
    o = ⟨.recovering, [lhs], v, 0⟩ := by
  cases h with
  | abandon => rfl

/-! ## Two parts -/

theorem isEmpty_append (u₁ u₂ : List Lexeme) :
    (u₁ ++ u₂).isEmpty = (u₁.isEmpty && u₂.isEmpty) := by
  cases u₁ <;> rfl

namespace Clean

variable {e₁ e₂ : Errand}

theorem ahead_append (h₁ : p.Clean names rules e₁ v o₁ u₁)
    (h₂ : p.Clean names rules e₂ o₁.after o₂ u₂) : v.ahead = u₁ ++ u₂ ++ o₂.after.ahead := by
  rw [h₁.ahead, h₂.ahead, List.append_assoc]

theorem inside_append (h₁ : p.Clean names rules e₁ v o₁ u₁)
    (h₂ : p.Clean names rules e₂ o₁.after o₂ u₂) :
    ∀ t ∈ u₁ ++ u₂, p.sync.contains t.id = false := by
  intro t ht
  rcases List.mem_append.1 ht with ht | ht
  · exact h₁.inside t ht
  · exact h₂.inside t ht

/-- Two parts are read one behind the other. -/
theorem reads_append (h₁ : p.Clean names rules e₁ v o₁ u₁)
    (h₂ : p.Clean names rules e₂ o₁.after o₂ u₂) {rest : List Lexeme} {d : Bool}
    (hrest : (⟨rest, d⟩ : Prospect).next = o₂.after.next ∨
      p.Closes rules (⟨rest, d⟩ : Prospect).next) :
    ∃ v₂, (∀ follow, p.Performs names (e₁.withFollow follow) ⟨u₁ ++ u₂ ++ rest, d⟩
        ⟨.proceeding, o₁.items, v₂, 0⟩) ∧
      ∀ follow, p.Performs names (e₂.withFollow follow) v₂
        ⟨.proceeding, o₂.items, ⟨rest, d && (u₁ ++ u₂).isEmpty⟩, 0⟩ := by
  refine ⟨⟨u₂ ++ rest, d && u₁.isEmpty⟩, fun follow => ?_, fun follow => ?_⟩
  · rw [List.append_assoc]
    exact h₁.reads follow (u₂ ++ rest) d (between h₂.ahead hrest)
  · have hread := h₂.reads follow rest (d && u₁.isEmpty) hrest
    rwa [Bool.and_assoc, ← isEmpty_append] at hread

/-- What is read in front of the same tokens begins with the same token. -/
theorem next_eq (h : v.ahead = u ++ o.after.ahead) (hu : u ≠ []) (rest : List Lexeme) (d : Bool) :
    (⟨u ++ rest, d⟩ : Prospect).next = v.next := by
  rw [Prospect.next_append_of_ne d v.damaged hu rest o.after.ahead, ← h]

end Clean

/-- The choice between alternatives without guards depends on the next token. -/
theorem choose_congr {as : List Alternative} {v v' : Prospect} (has : ∀ a ∈ as, a.guard = [])
    (hnext : v.next = v'.next) : ParseState.choose as v.ids = ParseState.choose as v'.ids := by
  have hguard : ∀ ids : List TokenId,
      as.find? (fun a => !a.guard.isEmpty && ParseState.guardAhead ids a.guard) = none := by
    intro ids
    refine List.find?_eq_none.2 fun a ha => ?_
    rw [has a ha]
    exact Bool.false_ne_true
  have hhead : v.ids.headD .eof = v'.ids.headD .eof := hnext
  rw [ParseState.choose, ParseState.choose, hguard, hguard, hhead]

/-! ## One of two ways -/

/-- What becomes of an errand within the rules. -/
def CleanOrSpoiled (p : Parser) (names : Names) (rules : Nat → Prop) (e : Errand) (v : Prospect)
    (o : Errand.Outcome) : Prop :=
  (∃ u, p.Clean names rules e v o u) ∨ p.Spoiled v o

theorem clean_token {id : TokenId} {t : Lexeme} {ahead : List Lexeme} (hv : v.ahead = t :: ahead)
    (ht : t.id = id) (hin : p.sync.contains id = false) :
    p.Clean names rules (.symbol (.token id) follow) v ⟨.proceeding, [t.item], ⟨ahead, false⟩, 0⟩
      [t] where
  flow := rfl
  ahead := hv
  fresh := rfl
  quiet := rfl
  inside := by
    intro t' ht'
    rw [List.mem_singleton.1 ht', ht]
    exact hin
  takes := fun _ => List.cons_ne_nil t []
  reads := by
    intro follow rest d _
    rw [List.isEmpty_cons, Bool.and_false]
    exact .token rfl ht

/-- A rule is read as its body is. -/
theorem CleanOrSpoiled.rule {r : Nat} (h : p.CleanOrSpoiled names rules e v o)
    (hbuild : ∀ u, p.Clean names rules e v o u →
      u ≠ [] ∧ ∀ v' o' follow, v'.next = v.next →
        (∀ follow, p.Performs names (e.withFollow follow) v' o') →
        p.Performs names (.rule r follow) v' (p.closed names r o')) :
    p.CleanOrSpoiled names rules (.rule r follow) v (p.closed names r o) := by
  rcases h with ⟨u, h⟩ | h
  · obtain ⟨hu, hread⟩ := hbuild u h
    refine .inl ⟨u, h.flow, h.ahead, h.fresh, h.quiet, h.inside, fun _ => hu,
      fun follow rest d hrest => ?_⟩
    exact hread _ _ follow (Clean.next_eq h.ahead hu rest d)
      fun follow => h.reads follow rest d hrest
  · exact .inr ⟨h.flow, h.after, h.reports⟩

/-- A symbol, and the symbols behind it. -/
theorem CleanOrSpoiled.steps (hs : p.grammar.Shelters p.sync rules)
    (hin : ∀ s' ∈ s :: rest, s'.symbol.Inside p.sync rules)
    (h₁ : p.CleanOrSpoiled names rules (.symbol s.symbol (followOf s follow)) v o₁)
    (h₂ : p.Performs names (.steps rest follow o₁.flow) o₁.after o₂)
    (ih : o₁.flow = .proceeding → o₁.after.damaged = false →
      p.CleanOrSpoiled names rules (.steps rest follow o₁.flow) o₁.after o₂) :
    p.CleanOrSpoiled names rules (.steps (s :: rest) follow .proceeding) v (o₁.andThen o₂) := by
  rcases h₁ with ⟨u₁, h₁⟩ | h₁
  · rcases ih h₁.flow h₁.fresh with ⟨u₂, h₂⟩ | h₂
    · have htakes : u₁ ++ u₂ ≠ [] := by
        simp [h₁.takes trivial]
      have hahead := h₁.ahead_append h₂
      refine .inl ⟨u₁ ++ u₂, h₂.flow, hahead, h₂.fresh, ?_, h₁.inside_append h₂,
        fun _ => htakes, fun follow' ahead d hahead => ?_⟩
      · rw [Errand.Outcome.andThen, h₁.quiet, h₂.quiet]
      · obtain ⟨v₂, hfirst, hsecond⟩ := h₁.reads_append h₂ hahead
        have hsecond := hsecond follow'
        rw [h₁.flow] at hsecond
        exact .quiet_enter (hfirst _) hsecond
    · have hspoiled := h₁.spoiled h₂
      refine .inr ⟨hspoiled.flow, hspoiled.after, ?_⟩
      rw [Errand.Outcome.andThen, h₁.quiet, h₂.reports]
  · rw [h₁.flow] at h₂
    have hidle := h₂.of_stopped hs (fun s' hs' => hin s' (List.mem_cons_of_mem s hs'))
      (h₁.after ▸ Prospect.next_stopped ..)
    rw [hidle]
    exact .inr ⟨rfl, h₁.after, h₁.reports⟩

/-- An operand, and what comes behind it. -/
theorem CleanOrSpoiled.behind (h₁ : p.CleanOrSpoiled names rules e v o₁)
    (h₂ : p.Performs names (.behind ctx o₁.flow lhs) o₁.after o₂)
    (ih : o₁.flow = .proceeding → o₁.after.damaged = false →
      p.CleanOrSpoiled names rules (.behind ctx o₁.flow lhs) o₁.after o₂) :
    (∃ u₁ u₂, p.Clean names rules e v o₁ u₁ ∧
      p.Clean names rules (.behind ctx .proceeding lhs) o₁.after o₂ u₂) ∨
    p.Spoiled v (o₂.reported o₁.reports) := by
  rcases h₁ with ⟨u₁, h₁⟩ | h₁
  · rcases ih h₁.flow h₁.fresh with ⟨u₂, h₂⟩ | h₂
    · rw [h₁.flow] at h₂
      exact .inl ⟨u₁, u₂, h₁, h₂⟩
    · have hspoiled := h₁.spoiled h₂
      refine .inr ⟨hspoiled.flow, hspoiled.after, ?_⟩
      rw [Errand.Outcome.reported, h₁.quiet, h₂.reports]
  · rw [h₁.flow] at h₂
    rw [h₂.of_behind_recovering]
    exact .inr ⟨rfl, h₁.after, h₁.reports⟩

/-- An operator that is read, its operand, and what comes behind that. -/
theorem CleanOrSpoiled.operator {t : Lexeme} {ahead : List Lexeme} {e₁ : Errand}
    (hv : v.ahead = t :: ahead) (ht : p.sync.contains t.id = false)
    (h : (∃ u₁ u₂, p.Clean names rules e₁ ⟨ahead, false⟩ o₁ u₁ ∧
      p.Clean names rules (.behind ctx .proceeding lhs) o₁.after o₂ u₂) ∨
      p.Spoiled ⟨ahead, false⟩ (o₂.reported o₁.reports))
    (hbuild : ∀ ahead d v₂ o' follow, (∀ follow, p.Performs names (e₁.withFollow follow)
        ⟨ahead, false⟩ ⟨.proceeding, o₁.items, v₂, 0⟩) →
      p.Performs names (.behind { ctx with follow } .proceeding lhs) v₂ o' →
      p.Performs names (e.withFollow follow) ⟨t :: ahead, d⟩ (o'.reported 0)) :
    p.CleanOrSpoiled names rules e v (o₂.reported o₁.reports) := by
  have hbefore : ∀ t' ∈ [t], p.sync.contains t'.id = false := fun t' ht' =>
    List.mem_singleton.1 ht' ▸ ht
  rcases h with ⟨u₁, u₂, h₁, h₂⟩ | h
  · refine .inl ⟨t :: (u₁ ++ u₂), h₂.flow, ?_, h₂.fresh, ?_, ?_,
      fun _ => List.cons_ne_nil _ _, fun follow rest d hrest => ?_⟩
    · have hahead := h₁.ahead_append h₂
      rw [hv]
      exact congrArg (t :: ·) hahead
    · rw [Errand.Outcome.reported, h₁.quiet, h₂.quiet]
    · exact List.forall_mem_cons.2 ⟨ht, h₁.inside_append h₂⟩
    · obtain ⟨v₂, hfirst, hsecond⟩ := h₁.reads_append h₂ (d := false) hrest
      rw [List.isEmpty_cons, Bool.and_false]
      exact hbuild _ d v₂ _ follow hfirst (hsecond follow)
  · refine .inr ⟨h.flow, h.after.trans ?_, h.reports⟩
    exact (Prospect.stopped_of_append ⟨ahead, false⟩ hv hbefore).symm

/-- Whatever is to come: it is read by an errand within the rules, or skipped up to a token at which
skipping stops, with one report. -/
theorem Performs.clean_or_spoiled (hs : p.grammar.Shelters p.sync rules)
    (h : p.Performs names e v o) (hin : e.Inside p.grammar p.sync rules)
    (hv : v.damaged = false) : p.CleanOrSpoiled names rules e v o := by
  induction h with
  | express hb h ih =>
    refine (ih ⟨_, hin, hb⟩ hv).rule fun u hclean => ⟨hclean.takes trivial, ?_⟩
    intro v' o' follow _ hbody
    exact .express hb (hbody _)
  | choose hb hchoose h ih =>
    have ha := ParseState.mem_of_choose hchoose
    refine (ih ⟨rfl, hs.inside hin hb ha⟩ hv).rule fun u hclean =>
      ⟨hclean.takes (hs.solid hin hb ha), ?_⟩
    intro v' o' follow hnext hbody
    refine .choose hb ?_ (hbody follow)
    rw [choose_congr (fun a ha => hs.unguarded hin hb ha) hnext]
    exact hchoose
  | retry hb _ hd hchoose₂ ha _ _ =>
    -- Skipping does not stop at a token of the rules.
    obtain ⟨hsync, hne⟩ := hs.begins hin hb (ParseState.mem_of_choose hchoose₂) ha
    rw [Prospect.after_blamed hd] at hsync hne
    rcases Prospect.next_stopped p.sync _ with heof | hstop
    · exact absurd heof hne
    · exact absurd (hstop.symm.trans hsync) nofun
  | refuse hb _ _ =>
    have hspoiled : p.Spoiled _ (Prospect.blamed names p.sync _) := spoiled_blamed hv
    exact .inr ⟨hspoiled.flow, hspoiled.after, hspoiled.reports⟩
  | token hahead ht => exact .inl ⟨_, clean_token hahead ht hin.1⟩
  | late _ hahead ht =>
    obtain ⟨hsync, hne⟩ := hin
    rw [Prospect.after_blamed hv] at hahead
    have hnext := Prospect.next_of_cons hahead
    rw [ht] at hnext
    rcases Prospect.next_stopped p.sync _ with heof | hstop
    · exact absurd (hnext.symm.trans heof) hne
    · exact absurd ((hnext ▸ hstop).symm.trans hsync) nofun
  | absent _ _ => exact .inr (spoiled_blamed hv)
  | once h ih =>
    rcases ih hin hv with ⟨u, hclean⟩ | hspoiled
    · exact .inl ⟨u, hclean.flow, hclean.ahead, hclean.fresh, hclean.quiet, hclean.inside,
        hclean.takes, fun follow rest d hrest => .once (hclean.reads follow rest d hrest)⟩
    · exact .inr hspoiled
  | opt _ _ _ | skip _ | many _ _ => exact hin.elim
  | finish =>
    obtain ⟨rfl, -⟩ := hin
    refine .inl ⟨[], rfl, rfl, hv, rfl, nofun, fun htakes => absurd rfl htakes,
      fun follow rest d _ => ?_⟩
    rw [List.isEmpty_nil, Bool.and_true]
    exact .finish
  | pass _ _ _ => exact absurd hin.1 nofun
  | enter _ h₁ h₂ ih₁ ih₂ =>
    obtain ⟨rfl, hin⟩ := hin
    exact .steps hs hin (ih₁ (hin _ List.mem_cons_self) hv) h₂ fun hflow hfresh =>
      ih₂ ⟨hflow, fun s hs => hin s (List.mem_cons_of_mem _ hs)⟩ hfresh
  | close _ | round _ _ _ _ _ _ _ | stall _ _ _ _ _ _ _ | stray _ _ _ _ _ => exact hin.elim
  | sign hahead hop h₁ h₂ ih₁ ih₂ =>
    obtain ⟨r, hr, hb⟩ := hin
    refine .operator hahead (hs.signs hr hb hop)
      ((ih₁ ⟨r, hr, hb⟩ rfl).behind h₂ fun hflow hfresh => ih₂ ⟨hflow, r, hr, hb⟩ hfresh) ?_
    intro ahead d v₂ o' follow hfirst hsecond
    exact Performs.sign (o := ⟨_, _, v₂, 0⟩) rfl hop (hfirst follow) hsecond
  | @operand ctx v o o' hop hf h₁ h₂ ih₁ ih₂ =>
    obtain ⟨r, hr, hb⟩ := hin
    rcases (ih₁ (hs.operand hr hb) hv).behind h₂ fun hflow hfresh =>
      ih₂ ⟨hflow, r, hr, hb⟩ hfresh with ⟨u₁, u₂, h₁, h₂⟩ | hspoiled
    · have hu : u₁ ++ u₂ ≠ [] := by simp [h₁.takes trivial]
      have hahead := h₁.ahead_append h₂
      refine .inl ⟨u₁ ++ u₂, h₂.flow, hahead, h₂.fresh, ?_, h₁.inside_append h₂,
        fun _ => hu, fun follow rest d hrest => ?_⟩
      · rw [Errand.Outcome.reported, h₁.quiet, h₂.quiet]
      · obtain ⟨v₂, hfirst, hsecond⟩ := h₁.reads_append h₂ hrest
        have hnext := Clean.next_eq hahead hu rest d
        rw [← hnext] at hop hf
        refine Performs.operand (o := ⟨_, _, v₂, 0⟩) ?_ ?_ ?_ (hsecond follow)
        · exact hop
        · exact hf
        · exact hfirst _
    · exact .inr hspoiled
  | lack _ _ => exact .inr (spoiled_blamed hv)
  | climb hahead hop hlevel h₁ h₂ ih₁ ih₂ =>
    obtain ⟨r, hr, hb⟩ := hin
    refine .operator hahead (hs.links hr hb hop)
      ((ih₁ ⟨r, hr, hb⟩ rfl).behind h₂ fun hflow hfresh => ih₂ ⟨hflow, r, hr, hb⟩ hfresh) ?_
    intro ahead d v₂ o' follow hfirst hsecond
    exact Performs.climb (o := ⟨_, _, v₂, 0⟩) rfl hop hlevel (hfirst follow) hsecond
  | top hop =>
    obtain ⟨r, hr, hb⟩ := hin
    refine .inl ⟨[], rfl, rfl, hv, rfl, nofun, nofun, fun follow rest d hrest => ?_⟩
    rw [List.isEmpty_nil, Bool.and_true]
    refine .top fun op hop' => ?_
    rcases hrest with heq | hcloses
    · exact hop op (heq ▸ hop')
    · exact absurd (hop'.symm.trans (hcloses r _ hr hb)) nofun
  | resume h ih =>
    rcases ih hin.2 hv with ⟨u, hclean⟩ | hspoiled
    · exact .inl ⟨u, hclean.flow, hclean.ahead, hclean.fresh, hclean.quiet, hclean.inside,
        nofun, fun follow rest d hrest => .resume (hclean.reads follow rest d hrest)⟩
    · exact .inr hspoiled
  | abandon => exact absurd hin.1 nofun

end Parser

end FrontEnd
