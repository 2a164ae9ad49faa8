import FrontEnd.Proofs.Parser.Errands
import FrontEnd.Proofs.Parser.Reports

/-!
# The outcome of an operation

What happens to the state of a parse is seen through four things: the tokens to come, the items of
the nodes that are made, the number of reports, and whether tokens were skipped right before. Each
operation does to them what the outcome of the same name says. Only the reports are counted in a
text in which every character belongs to a lexeme: the lexer reports the others, and the parser does
not report them again.

- `ParseState.prospect`: a state as an errand sees it;
- `ParseState.Brings`: **what has come about between two states**;
- `ParseState.brings_takeLeaf`, `ParseState.brings_unexpected` and their neighbours: one operation
  each.
-/

namespace FrontEnd

namespace ParseState

variable {names : Names} {st st' st'' : ParseState} {made made' : List NodeId} {o o' : Errand.Outcome}

/-- A state as an errand sees it. -/
def prospect (st : ParseState) : Prospect := ⟨st.stream.upcoming.map Token.lexeme, st.atDamage⟩

@[simp] theorem ids_prospect (st : ParseState) : st.prospect.ids = st.ids := by
  rw [Prospect.ids, prospect, List.map_map]
  rfl

@[simp] theorem next_prospect (st : ParseState) : st.prospect.next = st.next := by
  rw [Prospect.next, ids_prospect]
  rfl

/-- The tokens to come are followed by the end of the input, the tree is in order, and damage lies
behind. -/
structure Orderly (st : ParseState) : Prop where
  ends : .eof ∉ st.ids
  sound : st.arena.Sound
  behind : ∀ n, st.recoveredAt = some n → n ≤ st.consumed

/-- The states have the same table, and the same rules have been reported as such. -/
structure Keeps (st st' : ParseState) : Prop where
  table : st'.stream.lexer.table = st.stream.lexer.table
  ambiguous : st'.ambiguous = st.ambiguous
  undefined : st'.undefined = st.undefined

theorem Keeps.refl (st : ParseState) : st.Keeps st := ⟨rfl, rfl, rfl⟩

theorem Keeps.trans (h : st.Keeps st') (h' : st'.Keeps st'') : st.Keeps st'' :=
  ⟨h'.table.trans h.table, h'.ambiguous.trans h.ambiguous, h'.undefined.trans h.undefined⟩

/-- From one state to the other the outcome has come about, with the nodes `made`. -/
structure Brings (names : Names) (st : ParseState) (made : List NodeId) (o : Errand.Outcome)
    (st' : ParseState) : Prop where
  orderly : st'.Orderly
  later : st.arena.Later st'.arena
  made_lt : ∀ id ∈ made, id < st'.arena.nodes.size
  items : made.map (st'.arena.item names) = o.items
  after : st'.prospect = o.after
  suffix : st'.ids <:+ st.ids
  reports : .unknown ∉ st.ids → st'.filed.length = st.filed.length + o.reports
  calm : o.reports = 0 → st'.reports = st.reports ∧ st'.outstanding = st.outstanding
  keeps : st.Keeps st'
  consumed : st'.consumed + st'.ids.length = st.consumed + st.ids.length

theorem Takes.sum {n : Nat} (h : st.Takes n st') :
    st'.consumed + st'.ids.length = st.consumed + st.ids.length := by
  have hle := h.le_length
  rw [h.consumed, h.ids, List.length_drop]
  omega

theorem Orderly.takes (h : st.Orderly) {n : Nat} (ht : st.Takes n st') (hs : st'.arena.Sound)
    (hb : ∀ k, st'.recoveredAt = some k → k ≤ st'.consumed) : st'.Orderly :=
  ⟨fun hmem => h.ends (List.mem_of_mem_drop (ht.ids ▸ hmem)), hs, hb⟩

theorem Takes.suffix {n : Nat} (h : st.Takes n st') : st'.ids <:+ st.ids :=
  h.ids ▸ List.drop_suffix n st.ids

namespace Brings

theorem refl (h : st.Orderly) (names : Names) (flow : Flow) :
    st.Brings names [] ⟨flow, [], st.prospect, 0⟩ st :=
  ⟨h, .refl _, nofun, rfl, rfl, List.suffix_rfl, fun _ => rfl, fun _ => ⟨rfl, rfl⟩, .refl st,
    rfl⟩

/-- Whether the part ended well is not seen in the state. -/
theorem of_flow (h : st.Brings names made o st') (flow : Flow) :
    st.Brings names made { o with flow } st' :=
  { h with }

/-- The nodes that were made are not looked at. -/
theorem forget (h : st.Brings names made o st') :
    st.Brings names [] { o with items := [] } st' :=
  { h with made_lt := nofun, items := rfl }

theorem trans (h : st.Brings names made o st') (h' : st'.Brings names made' o' st'') :
    st.Brings names (made' ++ made) (o.andThen o') st'' where
  orderly := h'.orderly
  later := h.later.trans h'.later
  made_lt := by
    intro id hid
    rcases List.mem_append.1 hid with hid | hid
    · exact h'.made_lt id hid
    · exact Nat.lt_of_lt_of_le (h.made_lt id hid) h'.later.size_le
  items := by
    rw [List.map_append, h'.items, h'.later.items h.orderly.sound names h.made_lt, h.items]
    rfl
  after := h'.after
  suffix := h'.suffix.trans h.suffix
  reports := by
    intro hknown
    rw [h'.reports fun hmem => hknown (h.suffix.subset hmem), h.reports hknown, Nat.add_assoc]
    rfl
  calm := by
    intro hzero
    obtain ⟨hfirst, hlast⟩ := Nat.add_eq_zero_iff.1 hzero
    obtain ⟨hreports, hout⟩ := h.calm hfirst
    obtain ⟨hreports', hout'⟩ := h'.calm hlast
    exact ⟨hreports'.trans hreports, hout'.trans hout⟩
  keeps := h.keeps.trans h'.keeps
  consumed := h'.consumed.trans h.consumed

/-- A look before changes nothing. -/
theorem after_look (hlook : st.Brings names [] (st.prospect.idle []) st')
    (h : st'.Brings names made o st'') : st.Brings names made o st'' := by
  have hall := hlook.trans h
  simpa [Errand.Outcome.andThen, Prospect.idle] using hall

/-- A look afterwards changes nothing. -/
theorem before_look (h : st.Brings names made o st')
    (hlook : st'.Brings names [] (st'.prospect.idle []) st'') : st.Brings names made o st'' := by
  have hall := (h.trans hlook).of_flow o.flow
  rw [h.after] at hall
  simpa [Errand.Outcome.andThen, Prospect.idle] using hall

end Brings

/-! ## Reading -/

theorem known_upcoming (h : .unknown ∉ st.ids) : ∀ t ∈ st.stream.upcoming, t.id ≠ .unknown :=
  fun _ ht hid => h (hid ▸ List.mem_map_of_mem ht)

/-- What happens to the stream alone. -/
theorem brings_advance (h : st.Orderly) (names : Names) {s : TokenStream} {read : List Token}
    {n : Nat} (hadv : st.stream.Advances read n s) :
    st.Brings names [] ⟨.recovering, [],
      ⟨st.prospect.ahead.drop n, ({ st with stream := s } : ParseState).atDamage⟩, 0⟩
      { st with stream := s } := by
  have htakes := takes_stream hadv
  refine ⟨h.takes htakes h.sound fun k hk => ?_, .refl _, nofun, rfl, ?_, htakes.suffix, ?_,
    fun _ => ⟨rfl, outstanding_of_advances hadv rfl⟩, ⟨hadv.table, rfl, rfl⟩, htakes.sum⟩
  · rw [htakes.consumed]
    exact Nat.le_trans (h.behind k hk) (Nat.le_add_right ..)
  · rw [prospect, prospect]
    simp only [hadv.upcoming, List.map_drop]
  · intro hknown
    have hfiled : ({ st with stream := s } : ParseState).filed = st.filed := by
      rw [filed, filed, hadv.reported_eq (known_upcoming hknown)]
    rw [hfiled]
    rfl

theorem brings_fill (h : st.Orderly) (names : Names) (k : Nat) :
    st.Brings names [] (st.prospect.idle []) (st.fill k) := by
  obtain ⟨read, hadv⟩ := st.stream.advances_fill k
  have hbrings := (brings_advance h names hadv).of_flow .proceeding
  have hdamage : ({ st with stream := st.stream.fill k } : ParseState).atDamage = st.atDamage :=
    st.atDamage_fill k
  rw [List.drop_zero, hdamage] at hbrings
  exact hbrings

@[simp] theorem prospect_fill (st : ParseState) (k : Nat) : (st.fill k).prospect = st.prospect := by
  rw [prospect, atDamage_fill]
  exact congrArg (fun ts => (⟨ts.map Token.lexeme, st.atDamage⟩ : Prospect))
    (st.stream.upcoming_fill k)

/-- Behind the place where tokens were skipped. -/
theorem Orderly.atDamage_of_lt (h : st.Orderly) (hr : st'.recoveredAt = st.recoveredAt)
    (hlt : st.consumed < st'.consumed) : st'.atDamage = false := by
  rw [atDamage, hr, beq_eq_false_iff_ne]
  intro heq
  exact absurd (h.behind _ heq) (Nat.not_le_of_lt hlt)

theorem brings_takeLeaf (h : st.Orderly) {t : Lexeme} {rest : List Lexeme}
    (hv : st.prospect.ahead = t :: rest) (names : Names) (flow : Flow) :
    st.Brings names [st.takeLeaf.1] ⟨flow, [t.item], ⟨rest, false⟩, 0⟩ st.takeLeaf.2 := by
  match hup : st.stream.upcoming with
  | [] =>
    rw [prospect, hup] at hv
    cases hv
  | u :: ts =>
    rw [prospect, hup] at hv
    obtain ⟨rfl, rfl⟩ := List.cons.inj hv
    obtain ⟨read, hadv⟩ := st.stream.advances_consume
    have htakes := st.takes_takeLeaf
    have hone : min 1 st.ids.length = 1 := by
      rw [ids, hup]
      simp
    rw [hone] at htakes
    have harena : st.takeLeaf.2.arena = st.arena.pushLeaf u := by
      rw [takeLeaf, TokenStream.consume_of_cons hup]
      rfl
    have hupcoming : st.takeLeaf.2.stream.upcoming = ts := by
      have hup' : st.stream.consume.2.upcoming = ts := by rw [hadv.upcoming, hup]; simp
      exact hup'
    -- The place where tokens were skipped is left behind.
    have hlt : st.consumed < st.takeLeaf.2.consumed := by
      rw [htakes.consumed]
      omega
    refine ⟨h.takes htakes ?_ fun k hk => ?_, ?_, ?_, ?_, ?_, htakes.suffix, ?_,
      fun _ => ⟨rfl, outstanding_of_advances hadv rfl⟩, ⟨hadv.table, rfl, rfl⟩, htakes.sum⟩
    · rw [harena]
      exact h.sound.pushLeaf u
    · exact Nat.le_of_lt (Nat.lt_of_le_of_lt (h.behind k hk) hlt)
    · rw [harena]
      exact .pushLeaf ..
    · rw [harena]
      intro id hid
      rw [List.mem_singleton.1 hid]
      simp [takeLeaf, pushLeaf, Arena.pushLeaf, Arena.push, Arena.nextId]
    · rw [harena]
      exact congrArg (fun i => [i]) (st.arena.item_pushLeaf names u)
    · have hdamage : st.takeLeaf.2.atDamage = false := h.atDamage_of_lt rfl hlt
      rw [prospect, hupcoming, hdamage]
    · intro hknown
      have hfiled : st.takeLeaf.2.filed = st.filed := by
        rw [filed, filed]
        exact congrArg (st.reports.toList ++ st.pending ++ ·)
          (hadv.reported_eq (known_upcoming hknown))
      rw [hfiled]
      rfl

/-! ## Nodes -/

/-- The nodes that were made last go under a new one. -/
theorem Brings.pushNode (h : st.Brings names made o st') (kind : NodeKind)
    (hkind : kind.token? = none) (place : Position) :
    st.Brings names [(st'.pushNode kind made.reverse place).1]
      { o with items := [.group names kind o.items.reverse] }
      (st'.pushNode kind made.reverse place).2 := by
  have hstays := st'.stays_pushNode kind made.reverse place
  have hlater := Arena.Later.pushNode st'.arena kind made.reverse place
  have hmade : ∀ id ∈ made.reverse, id < st'.arena.nodes.size := fun id hid =>
    h.made_lt id (List.mem_reverse.1 hid)
  refine ⟨h.orderly.takes hstays.toTakes (h.orderly.sound.pushNode hkind _ _) fun k hk => ?_,
    h.later.trans hlater, ?_, ?_, ?_, h.suffix, h.reports, h.calm,
    h.keeps.trans ⟨rfl, rfl, rfl⟩, h.consumed⟩
  · exact h.orderly.behind k hk
  · intro id hid
    rw [List.mem_singleton.1 hid]
    simp [ParseState.pushNode, Arena.pushNode, Arena.push, Arena.nextId]
  · have hitem := Arena.item_pushNode h.orderly.sound hkind place hmade names
    rw [List.map_reverse, h.items] at hitem
    exact congrArg (fun i => [i]) hitem
  · exact h.after

/-- Leaves for tokens, one after the other. -/
theorem items_pushLeaves {a : Arena} (hs : a.Sound) (names : Names) (tokens : List Token) :
    (tokens.foldl Arena.pushLeaf a).Sound ∧ a.Later (tokens.foldl Arena.pushLeaf a) ∧
      (tokens.foldl Arena.pushLeaf a).nodes.size = a.nodes.size + tokens.length ∧
      (List.range' a.nextId tokens.length).map ((tokens.foldl Arena.pushLeaf a).item names)
        = tokens.map fun t => .leaf t.text := by
  induction tokens generalizing a with
  | nil => exact ⟨hs, .refl a, rfl, rfl⟩
  | cons t tokens ih =>
    obtain ⟨hsound, hlater, hsize, hitems⟩ := ih (hs.pushLeaf t)
    have hnext : (a.pushLeaf t).nextId = a.nextId + 1 := by
      simp [Arena.pushLeaf, Arena.push, Arena.nextId]
    have hlt : a.nextId < (a.pushLeaf t).nodes.size := by
      simp [Arena.pushLeaf, Arena.push, Arena.nextId]
    refine ⟨hsound, (Arena.Later.pushLeaf a t).trans hlater, ?_, ?_⟩
    · rw [List.foldl_cons, hsize, List.length_cons]
      simp only [Arena.pushLeaf, Arena.push, Array.size_push]
      omega
    · rw [hnext] at hitems
      rw [List.foldl_cons, List.length_cons, List.range'_succ, List.map_cons, List.map_cons, hitems,
        hlater.item (hs.pushLeaf t) names hlt, Arena.item_pushLeaf]

theorem brings_pushError (h : st.Orderly) (names : Names) (tokens : List Token)
    (place : Position) :
    st.Brings names [(st.pushError tokens place).1]
      ⟨.recovering, [.group names .error (tokens.map fun t => .leaf t.text)], st.prospect, 0⟩
      (st.pushError tokens place).2 := by
  obtain ⟨hsound, hlater, hsize, hitems⟩ := items_pushLeaves h.sound names tokens
  have hleaves : st.Brings names (List.range' st.arena.nextId tokens.length).reverse
      ⟨.recovering, (tokens.map fun t => Item.leaf t.text).reverse, st.prospect, 0⟩
      { st with arena := tokens.foldl Arena.pushLeaf st.arena } := by
    refine ⟨⟨h.ends, hsound, h.behind⟩, hlater, fun id hid => ?_, ?_, rfl, List.suffix_rfl,
      fun _ => rfl, fun _ => ⟨rfl, rfl⟩, ⟨rfl, rfl, rfl⟩, rfl⟩
    · have hrange := List.mem_range'_1.1 (List.mem_reverse.1 hid)
      show id < (tokens.foldl Arena.pushLeaf st.arena).nodes.size
      rw [hsize]
      exact hrange.2
    · rw [List.map_reverse]
      exact congrArg List.reverse hitems
  have hnode := hleaves.pushNode .error rfl place
  simpa [pushError] using hnode

/-! ## Reports -/

theorem length_filed_report (st : ParseState) (d : Diagnostic) :
    (st.report d).filed.length = st.filed.length + 1 := by
  have hsplit := congrArg List.length (List.takeWhile_append_dropWhile (l := st.collect.pending)
    (p := fun x => decide (x.location.start.offset ≤ d.location.start.offset)))
  have hcollect := congrArg List.length st.filed_collect
  simp only [filed, List.length_append] at hsplit hcollect
  simp only [filed, report, DiagnosticLog.toList_record, DiagnosticLog.toList_extend,
    List.length_append, List.length_singleton] at hsplit hcollect ⊢
  omega

theorem brings_report (h : st.Orderly) (names : Names) (d : Diagnostic) :
    st.Brings names [] ⟨.recovering, [], st.prospect, 1⟩ (st.report d) := by
  have hstays := st.stays_report d
  refine ⟨h.takes hstays.toTakes h.sound fun k hk => ?_, .refl _, nofun, rfl, ?_,
    hstays.toTakes.suffix, fun _ => length_filed_report st d, nofun, ⟨rfl, rfl, rfl⟩,
    hstays.sum⟩
  · rw [hstays.consumed_eq]
    exact h.behind k hk
  · rw [prospect, hstays.atDamage]
    exact congrArg (fun ts => (⟨ts.map Token.lexeme, st.atDamage⟩ : Prospect))
      st.stream.upcoming_takeDiagnostics

/-! ## Recovery -/

theorem brings_markDamage (h : st.Brings names made o st') :
    st.Brings names made { o with after := { o.after with damaged := true } } st'.markDamage := by
  refine ⟨⟨h.orderly.ends, h.orderly.sound, fun k hk => ?_⟩, h.later, h.made_lt, h.items, ?_,
    h.suffix, h.reports, h.calm, h.keeps.trans ⟨rfl, rfl, rfl⟩, h.consumed⟩
  · exact Nat.le_of_eq (Option.some.inj hk).symm
  · rw [← h.after, prospect, atDamage_markDamage]
    rfl

/-- The input has ended when no token is to come. -/
theorem Orderly.next_eq_eof_iff (h : st.Orderly) : st.next = .eof ↔ st.prospect.ahead = [] := by
  rw [next, prospect, ids]
  cases hup : st.stream.upcoming with
  | nil => simp
  | cons t ts =>
    refine ⟨fun ht => ?_, fun hnil => absurd hnil (List.cons_ne_nil _ _)⟩
    refine absurd ?_ h.ends
    rw [ids, hup]
    exact ht ▸ List.mem_cons_self

theorem Orderly.exists_ahead (h : st.Orderly) (hne : st.next ≠ .eof) :
    ∃ t rest, st.prospect.ahead = t :: rest ∧ t.id = st.next := by
  obtain ⟨t, rest, hv⟩ := List.exists_cons_of_ne_nil (mt h.next_eq_eof_iff.2 hne)
  refine ⟨t, rest, hv, ?_⟩
  rw [← next_prospect, Prospect.next_of_cons hv]

theorem brings_absorb (h : st.Orderly) (names : Names) :
    st.Brings names st.absorb.1 (st.prospect.absorbed names) st.absorb.2 := by
  by_cases hend : st.next = .eof
  · rw [absorb_of_end hend, Prospect.absorbed, h.next_eq_eof_iff.1 hend]
    exact (brings_fill h names 0).of_flow .recovering
  · rw [absorb_of_ne hend]
    obtain ⟨t, rest, hv, -⟩ := h.exists_ahead hend
    have hlook := brings_fill h names 0
    have htake := brings_takeLeaf hlook.orderly (by rw [prospect_fill, hv]) names .recovering
    have hnode := (hlook.after_look htake).pushNode .error rfl
      (st.fill 0).current.position
    rw [Prospect.absorbed, hv]
    exact brings_markDamage hnode

theorem drop_length_takeWhile {α : Type} (p : α → Bool) (xs : List α) :
    xs.drop (xs.takeWhile p).length = xs.dropWhile p :=
  List.append_cancel_left ((List.prefix_iff_eq_append.1 (List.takeWhile_prefix p)).trans
    List.takeWhile_append_dropWhile.symm)

theorem brings_skipTo (h : st.Orderly) (names : Names) (sync : TokenSet) :
    st.Brings names [(st.skipTo sync).1]
      ⟨.recovering, [.group names .error
        ((st.prospect.ahead.takeWhile fun t => !sync.contains t.id).map Lexeme.item)],
        ⟨st.prospect.ahead.dropWhile fun t => !sync.contains t.id, true⟩, 0⟩
      (st.skipTo sync).2 := by
  obtain ⟨htaken, read, hadv⟩ := TokenStream.synchronize_spec sync [] st.stream
  rw [List.reverse_nil, List.nil_append] at htaken
  have hskip := brings_advance h names hadv
  have hnode := brings_markDamage (hskip.trans (brings_pushError hskip.orderly names
    (st.stream.synchronize sync []).1 st.current.position))
  have hitems : (st.prospect.ahead.takeWhile fun t => !sync.contains t.id).map Lexeme.item
      = (st.stream.synchronize sync []).1.map fun t => .leaf t.text := by
    rw [prospect, htaken, List.takeWhile_map, List.map_map]
    rfl
  have hrest : (st.prospect.ahead.dropWhile fun t => !sync.contains t.id)
      = ({ st with stream := (st.stream.synchronize sync []).2 } : ParseState).prospect.ahead := by
    rw [prospect, prospect, List.dropWhile_map]
    simp only [hadv.upcoming]
    exact congrArg (List.map Token.lexeme) (drop_length_takeWhile ..).symm
  rw [hitems, hrest]
  exact hnode

/-- The next token is reported. A character without a lexeme is not, but then nothing is said about
the number of reports. -/
theorem brings_reportUnexpected (h : st.Orderly) (names : Names) (g : Grammar)
    (expected : TokenSet) :
    st.Brings names [] ⟨.recovering, [], st.prospect, 1⟩
      ((st.fill 0).reportUnexpected g expected) := by
  have hlook := brings_fill h names 0
  by_cases hunknown : (st.fill 0).current.id = .unknown
  · have hnone : (st.fill 0).reportUnexpected g expected = st.fill 0 := if_pos hunknown
    rw [id_current_fill] at hunknown
    rw [hnone]
    refine { hlook.of_flow .recovering with reports := fun hknown => ?_, calm := nofun }
    refine absurd ?_ hknown
    cases hids : st.ids with
    | nil => rw [next, hids] at hunknown; cases hunknown
    | cons id ids =>
      rw [next, hids] at hunknown
      exact hunknown ▸ List.mem_cons_self
  · have hone : (st.fill 0).reportUnexpected g expected = (st.fill 0).report
        (.unexpectedToken (expected.expectation ((st.fill 0).names g))
          ((st.fill 0).describe (st.fill 0).current) (.ofToken (st.fill 0).current)) :=
      if_neg hunknown
    rw [hone]
    have hreported := brings_report hlook.orderly names (.unexpectedToken
      (expected.expectation ((st.fill 0).names g)) ((st.fill 0).describe (st.fill 0).current)
      (.ofToken (st.fill 0).current))
    rw [hlook.after] at hreported
    exact hlook.after_look hreported

theorem brings_unexpected (h : st.Orderly) (g : Grammar) (sync expected : TokenSet)
    (names : Names) :
    st.Brings names (st.unexpected g sync expected).1 (st.prospect.blamed names sync)
      (st.unexpected g sync expected).2 := by
  have hlook := brings_fill h names 0
  have hdamaged : st.prospect.damaged = st.atDamage := rfl
  rw [unexpected_eq, Prospect.blamed, hdamaged]
  by_cases hdamage : st.atDamage = true
  · rw [if_pos hdamage, if_pos hdamage]
    have habsorb := brings_absorb hlook.orderly names
    rw [prospect_fill] at habsorb
    exact hlook.after_look habsorb
  · rw [if_neg hdamage, if_neg hdamage]
    have hreported := brings_reportUnexpected h names g expected
    have hskip := brings_skipTo hreported.orderly names sync
    have hall := hreported.trans hskip
    rw [hreported.after] at hall
    simpa [Errand.Outcome.andThen] using hall

/-! ## Choice -/

theorem brings_selectGuarded (h : st.Orderly) (names : Names) (as : List Alternative) :
    st.Brings names [] (st.prospect.idle []) (st.selectGuarded as).2 :=
  selectGuarded_invariant (I := st.Brings names [] (st.prospect.idle []))
    (fun _ k hread => hread.before_look (brings_fill hread.orderly names k))
    (.refl h names .proceeding) as

/-- Choosing between alternatives that one token tells apart only reads. -/
theorem brings_select (h : st.Orderly) (names : Names) (g : Grammar) (r : Nat)
    {as : List Alternative} (hone : ∀ t, (candidates as t).length ≤ 1) :
    st.Brings names [] (st.prospect.idle []) (st.select g r as).2 := by
  have hguard := brings_selectGuarded h names as
  rw [select]
  rcases hsel : st.selectGuarded as with ⟨_ | a, st'⟩
  · rw [hsel] at hguard
    have hlook := brings_fill hguard.orderly names 0
    rw [hguard.after] at hlook
    have hread := hguard.after_look hlook
    dsimp only
    split
    · exact hread
    · exact hread
    · next a b rest hcandidates =>
      have hle := hone (st'.fill 0).current.id
      rw [hcandidates, List.length_cons, List.length_cons] at hle
      omega
  · rwa [hsel] at hguard

end ParseState

end FrontEnd
