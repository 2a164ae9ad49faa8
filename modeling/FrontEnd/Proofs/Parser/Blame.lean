import FrontEnd.Proofs.Parser.Reports

/-!
# One damage, one report

A token that cannot be used is blamed in a report, and tokens are skipped up to one at which the
parse can go on. The place is remembered: what fails there is the same damage and is not reported
again. So no token is blamed twice, and none at which a skip has stopped. The end of the input is
such a place too, although nothing is ever taken there.

- `ParseState.Spent`: a place that no report will blame from now on;
- `ParseState.Continues`: **what becomes of a state**: blames come one behind the other and behind
  all places that were spent;
- `Parser.Effect.continues`: every effect is like that;
- `Parser.Recovers`: the moments at which a token cannot be used;
- `Parser.blames_of_answers`: no place is blamed twice in an answer, and none where a skip stopped.
-/

namespace FrontEnd

namespace Diagnostic

/-- Does the report say that the token it points at, or the end of the input, does not fit? -/
def isBlame (d : Diagnostic) : Bool := d.code == .unexpectedToken || d.code == .trailingInput

theorem isBlame_of_lexical {d : Diagnostic} (h : d.isLexical = true) : d.isBlame = false := by
  rw [isBlame, beq_iff_eq.1 h]
  rfl

theorem filter_isBlame {ds : List Diagnostic} (h : ∀ d ∈ ds, d.isBlame = false) :
    ds.filter isBlame = [] :=
  List.filter_eq_nil_iff.2 fun d hd => by simp [h d hd]

end Diagnostic

namespace ParseState

/-- The place is behind, or it is the next one and tokens were skipped up to it. -/
structure Spent (stop : Nat) (st : ParseState) (place : Nat) : Prop where
  le : place ≤ st.place stop
  atDamage : place = st.place stop → st.atDamage = true

/-- `st'` is what becomes of `st`, and `later` are the reports that have been filed since. -/
structure Continues (stop : Nat) (st : ParseState) (later : List Diagnostic) (st' : ParseState) :
    Prop where
  reports : st'.reports.toList = st.reports.toList ++ later
  spent : ∀ place, st.Spent stop place → st'.Spent stop place
  ascend : Diagnostic.Ascend (later.filter Diagnostic.isBlame)
  /-- What is blamed is behind all places that were spent before. -/
  fresh : ∀ d ∈ later, d.isBlame = true → ∀ place, st.Spent stop place → place < d.offset
  /-- And it is spent afterwards. -/
  used : ∀ d ∈ later, d.isBlame = true → st'.Spent stop d.offset

variable {all later later' : List Diagnostic} {stop n place : Nat} {st st' st'' : ParseState}
  {read : List Token} {d : Diagnostic}

theorem Spent.of_lt (h : place < st.place stop) : st.Spent stop place :=
  ⟨Nat.le_of_lt h, fun heq => absurd heq (Nat.ne_of_lt h)⟩

theorem Spent.lt (h : st.Spent stop place) (hd : st.atDamage = false) : place < st.place stop := by
  refine Nat.lt_of_le_of_ne h.le fun heq => ?_
  rw [h.atDamage heq] at hd
  cases hd

namespace Continues

theorem refl (stop : Nat) (st : ParseState) : st.Continues stop [] st :=
  ⟨(List.append_nil _).symm, fun _ h => h, .nil, nofun, nofun⟩

theorem trans (h : st.Continues stop later st') (h' : st'.Continues stop later' st'') :
    st.Continues stop (later ++ later') st'' where
  reports := by rw [h'.reports, h.reports, List.append_assoc]
  spent := fun place hp => h'.spent place (h.spent place hp)
  ascend := by
    rw [List.filter_append]
    refine List.pairwise_append.2 ⟨h.ascend, h'.ascend, fun d hd d' hd' => ?_⟩
    obtain ⟨hmem, hblame⟩ := List.mem_filter.1 hd
    obtain ⟨hmem', hblame'⟩ := List.mem_filter.1 hd'
    exact h'.fresh d' hmem' hblame' d.offset (h.used d hmem hblame)
  fresh := by
    intro d hd hblame place hp
    rcases List.mem_append.1 hd with hd | hd
    · exact h.fresh d hd hblame place hp
    · exact h'.fresh d hd hblame place (h.spent place hp)
  used := by
    intro d hd hblame
    rcases List.mem_append.1 hd with hd | hd
    · exact h'.spent _ (h.used d hd hblame)
    · exact h'.used d hd hblame

/-- Nothing is blamed. -/
theorem of_quiet (hreports : st'.reports.toList = st.reports.toList ++ later)
    (hquiet : ∀ d ∈ later, d.isBlame = false)
    (hspent : ∀ place, st.Spent stop place → st'.Spent stop place) :
    st.Continues stop later st' := by
  have hnone : ∀ d ∈ later, d.isBlame ≠ true := fun d hd => by simp [hquiet d hd]
  refine ⟨hreports, hspent, ?_, fun d hd hblame => absurd hblame (hnone d hd),
    fun d hd hblame => absurd hblame (hnone d hd)⟩
  rw [Diagnostic.filter_isBlame hquiet]
  exact .nil

/-- Neither the stream nor the reports change, and no damage is forgotten. -/
theorem of_same (hstream : st'.stream = st.stream) (hreports : st'.reports = st.reports)
    (hdamage : st.atDamage = true → st'.atDamage = true) : st.Continues stop [] st' := by
  refine .of_quiet (by rw [hreports, List.append_nil]) nofun fun place hp => ?_
  have hplace : st'.place stop = st.place stop := by rw [ParseState.place, hstream]; rfl
  exact ⟨hplace ▸ hp.le, fun heq => hdamage (hp.atDamage (heq.trans hplace))⟩

theorem pushNode (kind : NodeKind) (children : List NodeId) (position : Position) :
    st.Continues stop [] (st.pushNode kind children position).2 := .of_same rfl rfl id

theorem markDamage : st.Continues stop [] st.markDamage :=
  .of_same rfl rfl fun _ => atDamage_markDamage st

end Continues

/-! ## Looking and taking -/

/-- Taking a token leaves its place behind. -/
theorem Merged.place_lt (h : st.Merged all stop) (hstream : st.stream.Advances read n st'.stream)
    (hn : 0 < n) : st.place stop < st'.place stop := by
  have hle := hstream.le_upcoming
  rw [place, place, hstream.upcoming]
  cases hup : st.stream.upcoming with
  | nil => simp [hup] at hle; omega
  | cons t ts =>
    obtain ⟨k, rfl⟩ := Nat.exists_eq_add_of_lt hn
    rw [Nat.zero_add, List.drop_succ_cons, List.head?_cons, Option.map_some, Option.getD_some]
    cases hlater : (ts.drop k).head? with
    | none => exact h.below t (hup ▸ List.mem_cons_self)
    | some t' =>
      have hsorted := h.sorted
      rw [hup] at hsorted
      have hmem := List.mem_of_mem_drop (List.mem_of_mem_head? hlater)
      exact (List.pairwise_cons.1 hsorted).1 t' hmem

/-- What is spent stays so when tokens are taken, or while the damage is remembered. -/
theorem Merged.spent_advance (h : st.Merged all stop)
    (hstream : st.stream.Advances read n st'.stream)
    (hdamage : n = 0 → st.atDamage = true → st'.atDamage = true) (hp : st.Spent stop place) :
    st'.Spent stop place := by
  rcases Nat.eq_zero_or_pos n with hn | hn
  · have hplace : st'.place stop = st.place stop := by
      rw [ParseState.place, hstream.upcoming, hn]
      rfl
    exact ⟨hplace ▸ hp.le, fun heq => hdamage hn (hp.atDamage (heq.trans hplace))⟩
  · exact .of_lt (Nat.lt_of_le_of_lt hp.le (h.place_lt hstream hn))

theorem Merged.continues_advance (h : st.Merged all stop)
    (hstream : st.stream.Advances read n st'.stream) (hreports : st'.reports = st.reports)
    (hdamage : n = 0 → st.atDamage = true → st'.atDamage = true) :
    st.Continues stop [] st' :=
  .of_quiet (by rw [hreports, List.append_nil]) nofun fun _ => h.spent_advance hstream hdamage

theorem Merged.continues_fill (h : st.Merged all stop) (k : Nat) :
    st.Continues stop [] (st.fill k) := by
  obtain ⟨read, hadv⟩ := st.stream.advances_fill k
  exact h.continues_advance hadv rfl fun _ hd => (st.atDamage_fill k).trans hd

theorem Merged.continues_takeLeaf (h : st.Merged all stop) :
    st.Continues stop [] st.takeLeaf.2 := by
  obtain ⟨read, hadv⟩ := st.stream.advances_consume
  refine h.continues_advance hadv rfl fun hn hd => ?_
  have hconsumed : st.takeLeaf.2.consumed = st.consumed := by
    show st.stream.consume.2.consumed = st.stream.consumed
    rw [hadv.consumed, hn, Nat.add_zero]
  rw [← hd, atDamage, atDamage, hconsumed]
  rfl

/-! ## Reports -/

/-- What the lexer has reported blames nothing. -/
theorem Merged.quiet_due (h : st.Merged all stop) (hlexical : ∀ x ∈ all, x.isLexical = true) :
    ∀ x ∈ st.due d, x.isBlame = false := fun x hx =>
  Diagnostic.isBlame_of_lexical <| hlexical x <| h.outstanding_sublist.subset <|
    st.due_append_outstanding d ▸ List.mem_append_left _ hx

theorem place_report (st : ParseState) (d : Diagnostic) :
    (st.report d).place stop = st.place stop := by
  rw [place, place, Parser.upcoming_report]

theorem place_fill (st : ParseState) (k : Nat) : (st.fill k).place stop = st.place stop := by
  have hup : (st.fill k).stream.upcoming = st.stream.upcoming := st.stream.upcoming_fill k
  rw [place, place, hup]

/-- A report of another kind changes nothing. -/
theorem Merged.continues_report (h : st.Merged all stop)
    (hlexical : ∀ x ∈ all, x.isLexical = true) (hd : d.isBlame = false) :
    st.Continues stop (st.due d ++ [d]) (st.report d) := by
  refine .of_quiet (st.reports_report d) (fun x hx => ?_) fun place hp => ?_
  · rcases List.mem_append.1 hx with hx | hx
    · exact h.quiet_due hlexical x hx
    · rw [List.mem_singleton.1 hx]
      exact hd
  · exact ⟨(st.place_report d).symm ▸ hp.le, fun heq =>
      (st.stays_report d).atDamage.trans (hp.atDamage (heq.trans (st.place_report d)))⟩

/-- A report blames the next token, which is taken afterwards, or at which the damage is
remembered. -/
theorem Merged.continues_blame (h : st.Merged all stop)
    (hlexical : ∀ x ∈ all, x.isLexical = true) (hundamaged : st.atDamage = false)
    (hplace : d.offset = st.place stop) (hreported : (st.report d).Merged all stop)
    (hstream : (st.report d).stream.Advances read n st'.stream)
    (hreports : st'.reports = (st.report d).reports) (hspent : 0 < n ∨ st'.atDamage = true) :
    st.Continues stop (st.due d ++ [d]) st' := by
  have hle : st.place stop ≤ st'.place stop := by
    have hle := hreported.place_le hstream
    rwa [place_report] at hle
  have hlt : 0 < n → st.place stop < st'.place stop := fun hn => by
    have hlt := hreported.place_lt hstream hn
    rwa [place_report] at hlt
  have hquiet := h.quiet_due hlexical (d := d)
  -- Only the blame itself blames the next token: what is filed before it is lexical.
  have hlater : ∀ x ∈ st.due d ++ [d], x.isBlame = true → x.offset = st.place stop := by
    intro x hx hblame
    rcases List.mem_append.1 hx with hx | hx
    · rw [hquiet x hx] at hblame
      cases hblame
    · rw [List.mem_singleton.1 hx]
      exact hplace
  refine ⟨?reports, fun place hp => ?spent, ?ascend, fun x hx hblame place hp => ?fresh,
    fun x hx hblame => ?used⟩
  case reports => rw [hreports, reports_report]
  case spent => exact .of_lt (Nat.lt_of_lt_of_le (hp.lt hundamaged) hle)
  case ascend =>
    rw [List.filter_append, Diagnostic.filter_isBlame hquiet, List.nil_append]
    exact (List.pairwise_singleton ..).sublist List.filter_sublist
  case fresh => exact hlater x hx hblame ▸ hp.lt hundamaged
  case used =>
    rw [hlater x hx hblame]
    rcases hspent with hn | hdamage
    · exact .of_lt (hlt hn)
    · exact ⟨hle, fun _ => hdamage⟩

/-! ## Recovery -/

/-- Skipping goes on from the next token, and the damage is remembered where it stops. -/
theorem advances_skipTo (sync : TokenSet) (st : ParseState) :
    (∃ read n, st.stream.Advances read n (st.skipTo sync).2.stream) ∧
      (st.skipTo sync).2.reports = st.reports ∧ (st.skipTo sync).2.atDamage = true := by
  obtain ⟨-, read, hadv⟩ := TokenStream.synchronize_spec sync [] st.stream
  exact ⟨⟨read, _, hadv⟩, rfl, atDamage_markDamage _⟩

theorem Merged.continues_absorb (h : st.Merged all stop) : st.Continues stop [] st.absorb.2 := by
  have hlook := h.continues_fill 0
  by_cases hend : st.next = .eof
  · rw [absorb_of_end hend]
    exact hlook
  · rw [absorb_of_ne hend]
    have htake := hlook.trans (h.fill 0).continues_takeLeaf
    exact (htake.trans (.pushNode ..)).trans .markDamage

/-- A first failure blames the next token, unless the lexer has done so, and goes on at another. -/
theorem Merged.continues_skip (h : st.Merged all stop) (hall : Diagnostic.Ascend all)
    (hlexical : ∀ x ∈ all, x.isLexical = true) (hundamaged : st.atDamage = false) (g : Grammar)
    (sync expected : TokenSet) :
    ∃ later, st.Continues stop later
      (((st.fill 0).reportUnexpected g expected).skipTo sync).2 := by
  have hlook := h.continues_fill 0
  obtain ⟨⟨read, n, hadv⟩, hreports, hdamage⟩ :=
    ((st.fill 0).reportUnexpected g expected).advances_skipTo sync
  unfold reportUnexpected at hadv hreports hdamage ⊢
  dsimp only at hadv hreports hdamage ⊢
  split at hadv
  · next hid =>
    rw [if_pos hid] at hreports hdamage ⊢
    exact ⟨_, hlook.trans ((h.fill 0).continues_advance hadv hreports fun _ _ => hdamage)⟩
  · next hid =>
    rw [if_neg hid] at hreports hdamage ⊢
    generalize hd : Diagnostic.unexpectedToken _ _ _ = d at hadv hreports hdamage ⊢
    have hplace : d.location.start = (st.fill 0).current.position := hd ▸ rfl
    have hcode : d.isLexical = false := hd ▸ rfl
    have hblame := (h.fill 0).continues_blame hlexical ((st.atDamage_fill 0).trans hundamaged)
      ((congrArg Position.offset hplace).trans (place_eq_of_fill h))
      (h.report hall hlexical hplace hcode) hadv hreports (.inr hdamage)
    exact ⟨_, hlook.trans hblame⟩

theorem Merged.continues_unexpected (h : st.Merged all stop) (hall : Diagnostic.Ascend all)
    (hlexical : ∀ x ∈ all, x.isLexical = true) (g : Grammar) (sync expected : TokenSet) :
    ∃ later, st.Continues stop later (st.unexpected g sync expected).2 := by
  rw [unexpected_eq]
  by_cases hdamage : st.atDamage = true
  · rw [if_pos hdamage]
    exact ⟨_, (h.continues_fill 0).trans (h.fill 0).continues_absorb⟩
  · rw [if_neg hdamage]
    exact h.continues_skip hall hlexical (Bool.not_eq_true _ ▸ hdamage) g sync expected

theorem Merged.continues_missingRule (h : st.Merged all stop)
    (hlexical : ∀ x ∈ all, x.isLexical = true) (g : Grammar) (r : Nat) :
    ∃ later, st.Continues stop later (st.missingRule g r).2 := by
  have hreport : ∃ later, st.Continues stop later ((st.fill 0).reportMissing g r) := by
    have hlook := h.continues_fill 0
    rw [reportMissing]
    split
    · exact ⟨_, hlook⟩
    · have hreport := (h.fill 0).continues_report hlexical
        (d := .undefinedRule (g.ruleName r) (.ofToken (st.fill 0).current)) rfl
      exact ⟨_, (hlook.trans hreport).trans (.of_same rfl rfl id)⟩
  obtain ⟨later, hreport⟩ := hreport
  exact ⟨_, (hreport.trans (.pushNode .error [] (st.fill 0).current.position)).trans .markDamage⟩

/-- What is left at the end is blamed once, and all of it is taken. -/
theorem Merged.continues_trailing (h : st.Merged all stop) (hall : Diagnostic.Ascend all)
    (hlexical : ∀ x ∈ all, x.isLexical = true) (hnext : st.next ≠ .eof) :
    ∃ later, st.Continues stop later (st.fill 0).trailing.2 := by
  have hlook := h.continues_fill 0
  have hids : 0 < (st.fill 0).stream.upcoming.length := by
    rw [← List.length_map Token.id, List.length_pos_iff]
    intro hnil
    rw [← next_fill st 0, next, ids, hnil] at hnext
    exact hnext rfl
  unfold trailing
  dsimp only
  by_cases hdamage : (st.fill 0).atDamage = true
  · rw [if_pos hdamage]
    obtain ⟨read, hadv⟩ := (st.fill 0).stream.advances_synchronize_empty
    exact ⟨_, hlook.trans ((h.fill 0).continues_advance hadv rfl fun hn => by omega)⟩
  · rw [if_neg hdamage]
    generalize hd : Diagnostic.trailingInput _ _ = d
    have hplace : d.location.start = (st.fill 0).current.position := hd ▸ rfl
    have hcode : d.isLexical = false := hd ▸ rfl
    obtain ⟨read, hadv⟩ := ((st.fill 0).report d).stream.advances_synchronize_empty
    rw [Parser.upcoming_report] at hadv
    exact ⟨_, hlook.trans ((h.fill 0).continues_blame hlexical (Bool.not_eq_true _ ▸ hdamage)
      ((congrArg Position.offset hplace).trans (place_eq_of_fill h))
      (h.report hall hlexical hplace hcode) (by exact hadv) rfl (.inl hids))⟩

/-- Once everything has been read, what is filed without a place blames nothing. -/
theorem Merged.filed_eq (h : st.Merged all stop) (hlexical : ∀ x ∈ all, x.isLexical = true)
    (hnil : st.stream.upcoming = []) :
    ∃ rest, st.filed = st.reports.toList ++ rest ∧ ∀ x ∈ rest, x.isBlame = false :=
  ⟨_, filed_of_upcoming_nil hnil, fun x hx =>
    Diagnostic.isBlame_of_lexical (hlexical x (h.outstanding_sublist.subset hx))⟩

theorem Merged.continues_selectGuarded (h : st.Merged all stop) (as : List Alternative) :
    (st.selectGuarded as).2.Merged all stop ∧ st.Continues stop [] (st.selectGuarded as).2 :=
  selectGuarded_invariant (I := fun st' => st'.Merged all stop ∧ st.Continues stop [] st')
    (fun _ k h => ⟨h.1.fill k, h.2.trans (h.1.continues_fill k)⟩) ⟨h, .refl ..⟩ as

theorem Merged.continues_select (h : st.Merged all stop)
    (hlexical : ∀ x ∈ all, x.isLexical = true) (g : Grammar) (r : Nat) (as : List Alternative) :
    ∃ later, st.Continues stop later (st.select g r as).2 := by
  have hguard := h.continues_selectGuarded as
  rw [select]
  rcases hsel : st.selectGuarded as with ⟨_ | a, st'⟩
  · rw [hsel] at hguard
    obtain ⟨hmerged, hcontinues⟩ := hguard
    have hlook := hcontinues.trans (hmerged.continues_fill 0)
    dsimp only
    split
    · exact ⟨_, hlook⟩
    · exact ⟨_, hlook⟩
    · rw [reportAmbiguous]
      split
      · exact ⟨_, hlook⟩
      · have hreport := (hmerged.fill 0).continues_report hlexical
          (d := .ambiguousRule (g.ruleName r) (.ofToken (st'.fill 0).current)) rfl
        exact ⟨_, (hlook.trans hreport).trans (.of_same rfl rfl id)⟩
  · rw [hsel] at hguard
    exact ⟨_, hguard.2⟩

end ParseState

namespace Parser

variable {p : Parser} {all : List Diagnostic} {stop : Nat} {w w' : Workpiece} {m : Machine}
  {st : ParseState}

/-- Whatever happens to a state, it blames what was not spent, and then that is spent. -/
theorem Effect.continues (heffect : p.Effect w w') (hall : Diagnostic.Ascend all)
    (hlexical : ∀ x ∈ all, x.isLexical = true) (h : w.state.Merged all stop) :
    ∃ later, w.state.Continues stop later w'.state := by
  cases heffect with
  | look st loose => exact ⟨_, h.continues_fill 0⟩
  | choose hb st loose => exact h.continues_select hlexical _ _ _
  | take loose hnext => exact ⟨_, (h.continues_fill 0).trans (h.fill 0).continues_takeLeaf⟩
  | blame expected st loose => exact h.continues_unexpected hall hlexical _ _ _
  | absorb hreported loose => exact ⟨_, h.continues_absorb⟩
  | missing r st loose => exact h.continues_missingRule hlexical _ r
  | wrap kind hkind children place st before => exact ⟨_, .pushNode kind children place⟩
  | trail loose hnext => exact h.continues_trailing hall hlexical hnext

theorem Effects.continues (heffects : p.Effects w w') (hall : Diagnostic.Ascend all)
    (hlexical : ∀ x ∈ all, x.isLexical = true) (h : w.state.Merged all stop) :
    w'.state.Merged all stop ∧ ∃ later, w.state.Continues stop later w'.state := by
  refine heffects.invariant (I := fun w' => w'.state.Merged all stop ∧
    ∃ later, w.state.Continues stop later w'.state) (fun w₁ w₂ heffect hw₁ => ?_) ⟨h, _, .refl _ _⟩
  obtain ⟨hmerged, later, hcontinues⟩ := hw₁
  obtain ⟨later', hcontinues'⟩ := heffect.continues hall hlexical hmerged
  exact ⟨heffect.acts.invariant (I := fun w => w.state.Merged all stop)
    (fun _ _ hact => hact.merged hall hlexical) hmerged, _, hcontinues.trans hcontinues'⟩

/-! ## Moments of recovery -/

/-- At this moment a token cannot be used, and `st` is what there is right after tokens have been
skipped for that. -/
inductive Recovers (p : Parser) : Machine → ParseState → Prop where
  /-- No alternative of a rule is called for. -/
  | rule {r : Nat} {follow : TokenSet} {frames : List Frame} {nodes : List NodeId}
    {st st₁ : ParseState} {as : List Alternative} (hb : p.grammar.body r = .sequence as)
    (hs : st.select p.grammar r as = (none, st₁)) :
    Recovers p ⟨.rule r follow, frames, nodes, st⟩
      (st₁.unexpected p.grammar p.sync (p.grammar.firstOf r)).2
  /-- A token of a production is not there. -/
  | token {s : Step} {id : TokenId} {rest : List Step} {follow : TokenSet} {frames : List Frame}
    {nodes : List NodeId} {st : ParseState} (hs : s.symbol = .token id) (hid : st.next ≠ id) :
    Recovers p ⟨.steps (s :: rest) follow .proceeding, frames, nodes, st⟩
      ((st.fill 0).unexpected p.grammar p.sync (.single id)).2
  /-- A token begins no round and cannot follow either. -/
  | round {r : Nat} {follow : TokenSet} {frames : List Frame} {nodes : List NodeId}
    {st : ParseState} (hn : st.next ≠ .eof)
    (hf : (p.grammar.firstOf r).contains st.next = false)
    (hfollow : follow.contains st.next = false) :
    Recovers p ⟨.repetition r follow, frames, nodes, st⟩
      ((st.fill 0).unexpected p.grammar p.sync ((p.grammar.firstOf r).union follow)).2
  /-- An operand is not there. -/
  | operand {ctx : ExpressionContext} {frames : List Frame} {nodes : List NodeId}
    {st : ParseState} (hop : ctx.ops.prefixPrecedence? st.next = none)
    (hf : (p.grammar.firstOf ctx.ops.operand).contains st.next = false) :
    Recovers p ⟨.expression ctx, frames, nodes, st⟩
      ((st.fill 0).unexpected p.grammar p.sync (p.grammar.firstOf ctx.rule)).2

/-- The moment right after a skip is between the effects of a step. -/
theorem Recovers.effects (h : p.Recovers m st) (hm : m.Belongs p.grammar) :
    ∃ loose, p.Effects m.workpiece ⟨st, loose⟩ ∧ p.Effects ⟨st, loose⟩ (p.step m).workpiece := by
  have hmove := step_move p m
  -- The guards of the failure leave one step, whose first effects lead up to the skip.
  cases h with
  | @rule r follow frames nodes st st₁ as hb hs =>
    generalize p.step _ = m' at hmove ⊢
    cases hmove with
    | missing hb' | express hb' => cases hb.symm.trans hb'
    | choose hb' hs' =>
      cases hb.symm.trans hb'
      cases hs.symm.trans hs'
    | @retry _ _ _ _ errors _ _ st₂ _ _ _ hb' hs' _ hu hs₂ _
    | @refuse _ _ _ _ errors _ _ st₂ _ _ _ hb' hs' hu hs₂ _ =>
      cases hb.symm.trans hb'
      cases hs.symm.trans hs'
      rw [hu]
      have hchoose := Effects.single (effect_choose hb (stacked frames ++ nodes.reverse) hs)
      have hretry := Effects.single
        (Effect.look (p := p) st₂ (stacked frames ++ (nodes.reverse ++ errors.reverse)))
      refine ⟨stacked frames ++ (nodes.reverse ++ errors.reverse), ?_, ?_⟩
      · simpa [Machine.workpiece, Machine.loose, Task.held] using hchoose.tail (effect_blame _ hu)
      · simpa [Machine.workpiece, Machine.loose, Task.held, stacked, Frame.outer] using
          hretry.tail (effect_choose hb _ hs₂)
  | @token s id rest follow frames nodes st hs hid =>
    have hstep : p.step ⟨.steps (s :: rest) follow .proceeding, frames, nodes, st⟩
        = p.expect id (.steps rest follow :: frames) nodes st := by
      show p.enterSymbol s.symbol _ _ _ _ = _
      rw [hs]
      rfl
    have henter := expect_enter (p := p) id (.steps rest follow :: frames) nodes st follow
    have hlook := Effects.single (Effect.look (p := p) st (stacked frames ++ nodes.reverse))
    rw [hstep]
    generalize p.expect _ _ _ _ = m' at henter ⊢
    cases henter with
    | token hid' => exact absurd hid' hid
    | @late _ errors st₁ _ hu hid₁ =>
      have htake := Effect.take (stacked frames ++ nodes.reverse ++ errors.reverse)
        (hid₁ ▸ fun hlacks => Grammar.Remains.id_ne hm.1 hlacks hs rfl)
      rw [hu]
      refine ⟨stacked frames ++ (nodes.reverse ++ errors.reverse), ?_, ?_⟩
      · simpa [Machine.workpiece, Machine.loose, Task.held] using hlook.tail (effect_blame _ hu)
      · simpa [Machine.workpiece, Machine.loose, Task.held, stacked, Frame.outer] using
          Effects.single htake
    | @absent _ errors st₁ _ hu _ =>
      rw [hu]
      refine ⟨stacked frames ++ (nodes.reverse ++ errors.reverse), ?_, ?_⟩
      · simpa [Machine.workpiece, Machine.loose, Task.held] using hlook.tail (effect_blame _ hu)
      · simpa [Machine.workpiece, Machine.loose, Task.held, stacked, Frame.outer] using
          Effects.single (Effect.look (p := p) st₁
            (stacked frames ++ (nodes.reverse ++ errors.reverse)))
  | @round r follow frames nodes st hn hf hfollow =>
    have hlook := Effects.single (Effect.look (p := p) st (stacked frames ++ nodes.reverse))
    generalize p.step _ = m' at hmove ⊢
    cases hmove with
    | close hend => exact absurd (hend.resolve_left hn).2 (by simp [hfollow])
    | round _ hf' => cases hf.symm.trans hf'
    | @stray _ _ _ _ errors _ _ _ _ _ hu =>
      rw [hu]
      refine ⟨stacked frames ++ (nodes.reverse ++ errors.reverse), ?_, by
        simpa [Machine.workpiece, Machine.loose, Task.held] using Effects.refl _⟩
      simpa [Machine.workpiece, Machine.loose, Task.held] using hlook.tail (effect_blame _ hu)
  | @operand ctx frames nodes st hop hf =>
    have hlook := Effects.single (Effect.look (p := p) st (stacked frames ++ nodes.reverse))
    generalize p.step _ = m' at hmove ⊢
    cases hmove with
    | sign hop' => cases hop.symm.trans hop'
    | operand _ hf' => cases hf.symm.trans hf'
    | @lack _ _ _ errors _ _ _ _ hu =>
      rw [hu]
      refine ⟨stacked frames ++ (nodes.reverse ++ errors.reverse), ?_, by
        simpa [Machine.workpiece, Machine.loose, Task.held] using Effects.refl _⟩
      simpa [Machine.workpiece, Machine.loose, Task.held] using hlook.tail (effect_blame _ hu)

theorem Recovers.atDamage (h : p.Recovers m st) : st.atDamage = true := by
  cases h with
  | rule hb hs | token hs hid | round hn hf hfollow | operand hop hf =>
    exact (ParseState.takes_unexpected ..).2

/-- No token is blamed twice, nor is the end of the input, and what is blamed after tokens have been
skipped is behind the place where the skip stopped. -/
theorem blames_of_answers {decls : List GrammarDecl} {g : Grammar}
    (hg : Grammar.ofDecls decls = .ok g) {sync : TokenSet} {table : TokenTable}
    {text : List Char} (hsize : Text.size text < 2 ^ 32) {depth : Nat} {q : Parse}
    (hq : Parser.Answers ⟨g, sync⟩ (.ofText table text depth) q) :
    Diagnostic.Ascend (q.diagnostics.filter Diagnostic.isBlame) ∧
      ∀ m st, Parser.Reaches ⟨g, sync⟩ (.ofText table text depth) m →
        Parser.Recovers ⟨g, sync⟩ m st →
          ∃ later, q.diagnostics = st.reports.toList ++ later ∧
            ∀ d ∈ later, d.isBlame = true → (st.fill 0).current.offset < d.offset := by
  have hc := Grammar.checked_of_ofDecls hg
  have hlimit : Text.size text ≤ Position.limit := Nat.le_of_lt_succ hsize
  have hall := ascend_complaints_ofText table hlimit
  have hlexical : ∀ x ∈ (Lexer.ofText table .skip text).tokens.flatMap Token.complaints,
      x.isLexical = true := fun x hx => (Token.mem_flatMap_complaints hx).2
  have hstart : (ParseState.ofStream (.ofText table text depth)).Merged _ _ :=
    merged_ofStream depth hlimit
  constructor
  · obtain ⟨w, heffects, hend, rfl⟩ := hq.effects hc
    obtain ⟨hmerged, later, hcontinues⟩ := heffects.continues hall hlexical hstart
    have hnil := upcoming_of_next_eof heffects.acts.suffix hend
    obtain ⟨rest, hfiled, hquiet⟩ := hmerged.filed_eq hlexical hnil
    rw [hfiled, hcontinues.reports, List.filter_append, Diagnostic.filter_isBlame hquiet,
      List.append_nil]
    exact hcontinues.ascend
  · -- The parse is followed up to the skip, and from there on.
    intro m st hreached hrecovers
    obtain ⟨loose, hto, hfrom⟩ := hrecovers.effects (hreached.belongs hc)
    have hst := (hreached.effects hc).trans hto
    have hmerged := (hst.continues hall hlexical hstart).1
    obtain ⟨w, hrest, hend, rfl⟩ := hreached.step.effects_answer hc hq
    have hlast := hfrom.trans hrest
    obtain ⟨hmerged', later, hcontinues⟩ := hlast.continues hall hlexical hmerged
    have hnil := upcoming_of_next_eof (hst.trans hlast).acts.suffix hend
    obtain ⟨rest, hfiled, hquiet⟩ := hmerged'.filed_eq hlexical hnil
    refine ⟨later ++ rest, by rw [hfiled, hcontinues.reports, List.append_assoc], ?_⟩
    intro d hd hblame
    rcases List.mem_append.1 hd with hd | hd
    · rw [ParseState.place_eq_of_fill hmerged, ParseState.place_fill]
      exact hcontinues.fresh d hd hblame _ ⟨Nat.le_refl _, fun _ => hrecovers.atDamage⟩
    · rw [hquiet d hd] at hblame
      cases hblame

/-- A text with a character that is no token, and with one name too many. -/
theorem blames_of_answers_sample :
    Text.size ['x', '?', 'x'] < 2 ^ 32 ∧
      ∃ q, Parser.Answers ⟨.sample, ∅⟩ (.ofText sampleTable ['x', '?', 'x'] 1) q ∧
        Diagnostic.Ascend (q.diagnostics.filter Diagnostic.isBlame) ∧
        ∀ m st, Parser.Reaches ⟨.sample, ∅⟩ (.ofText sampleTable ['x', '?', 'x'] 1) m →
          Parser.Recovers ⟨.sample, ∅⟩ m st →
            ∃ later, q.diagnostics = st.reports.toList ++ later ∧
              ∀ d ∈ later, d.isBlame = true → (st.fill 0).current.offset < d.offset := by
  have hsize : Text.size ['x', '?', 'x'] < 2 ^ 32 := by decide
  obtain ⟨q, hanswers⟩ := exists_answer_of_complete (p := ⟨.sample, ∅⟩) Grammar.checked_sample
    (Grammar.lacks_sample nofun) Grammar.defined_sample (.ofText sampleTable ['x', '?', 'x'] 1)
  exact ⟨hsize, q, hanswers, blames_of_answers Grammar.ofDecls_sample hsize hanswers⟩

end Parser

end FrontEnd
