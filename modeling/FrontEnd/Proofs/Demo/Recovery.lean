import FrontEnd.Proofs.Demo.Faults

/-!
# Programs with a token too many

A token at which skipping does not stop is put somewhere into a program without a fault. There is
at most one report, and at most one statement is lost.

- `Demo.Phrase.Withstands`: what becomes of a phrase with a token too many;
- `Demo.Spelled.withstands`: **the damage stays within one statement**.
-/

namespace FrontEnd

namespace Demo

variable {names : Names} {v : Prospect} {o : Errand.Outcome} {u w w₁ w₂ rest : List Lexeme}
  {follow : TokenSet} {steps : List Step} {s : Step} {t x : Lexeme} {id : TokenId} {r : Nat}

/-- All nodes but one at most are kept. -/
def Kept (items items' : List Item) : Prop :=
  ∃ a lost b, items = a ++ lost ++ b ∧ lost.length ≤ 1 ∧ (a ++ b).Sublist items'

/-! ## Phrases -/

/-- What becomes of a statement with the token `x` inside, in front of its last part `w`: it ends
where it did, or in front of an `else` that cannot be reached. -/
def Aftermath (names : Names) (x : Lexeme) (w rest : List Lexeme) (o : Errand.Outcome) : Prop :=
  o.after.ahead = rest ∧ o.reports ≤ 1 ∨
  ∃ e b, w = e :: b ∧ o.after = ⟨x :: e :: (b ++ rest), false⟩ ∧ o.reports = 0 ∧ e.id = elseWord ∧
    ElseBody names b

theorem Aftermath.alike {o' : Errand.Outcome} (h : Aftermath names x w rest o') (halike : Alike o o')
    (hreports : o.reports = o'.reports) : Aftermath names x w rest o := by
  rw [Aftermath, halike.after, hreports]
  exact h

/-- The token `x` does not belong where it stands, but skipping does not stop there. -/
structure Foreign (x : Lexeme) : Prop where
  skipped : stops.contains x.id = false
  inner : x.id ≠ .eof

/-- What becomes of a rule that may end with a condition: a foreign token inside, or an `else` that
comes behind. -/
structure RuleWithstands (names : Names) (r : Nat) (w : List Lexeme) : Prop where
  inside : ∀ w₁ w₂ x follow rest o, w = w₁ ++ w₂ → w₁ ≠ [] → w₂ ≠ [] → Foreign x →
    (⟨rest, false⟩ : Prospect).next ≠ elseWord →
    parser.Performs names (.rule r follow) ⟨w₁ ++ x :: (w₂ ++ rest), false⟩ o →
    Aftermath names x w₂ rest o
  behind : ∀ x follow rest o, x.id = elseWord →
    parser.Performs names (.rule r follow) ⟨w ++ x :: rest, false⟩ o →
    (o.after = ⟨x :: rest, false⟩ ∧ o.reports = 0) ∨
    ∃ follow' o', parser.Performs names (.rule elseBody follow') ⟨rest, false⟩ o' ∧
      Alike o o' ∧ o.reports = o'.reports

/-- What becomes of a phrase when a foreign token is put into it. -/
def Phrase.Withstands (names : Names) : Phrase → List Lexeme → Prop
  | .statements, w => ∃ items, (∀ follow rest d, Ends follow (⟨rest, d⟩ : Prospect).next →
      parser.Performs names (.repetition stmt follow) ⟨w ++ rest, d⟩
        ⟨.proceeding, items, ⟨rest, d && w.isEmpty⟩, 0⟩) ∧
    ∀ w₁ w₂ x follow rest o, w = w₁ ++ w₂ → Foreign x → Outer follow → Final follow rest →
      parser.Performs names (.repetition stmt follow) ⟨w₁ ++ x :: (w₂ ++ rest), false⟩ o →
      Mended 1 rest o ∧ (x.id ≠ elseWord → Kept items o.items)
  | .statement, w => RuleWithstands names stmt w
  | .block, w => ∀ w₁ w₂ x follow rest o, w = w₁ ++ w₂ → w₁ ≠ [] → w₂ ≠ [] → Foreign x →
    parser.Performs names (.rule Demo.block follow) ⟨w₁ ++ x :: (w₂ ++ rest), false⟩ o →
    Mended 1 rest o ∧ o.after.damaged = false
  | .conditional, w => RuleWithstands names ifStmt w

/-- Two ways to split a list: the first part ends within one of the others, or reaches further. -/
theorem exists_split {α : Type} {a b c d : List α} (h : a ++ b = c ++ d) :
    (∃ m, c = a ++ m ∧ b = m ++ d) ∨ ∃ m, m ≠ [] ∧ a = c ++ m ∧ d = m ++ b := by
  rcases List.append_eq_append_iff.1 h with ⟨m, hc, hb⟩ | ⟨m, ha, hd⟩
  · exact .inl ⟨m, hc, hb⟩
  · by_cases hm : m = []
    · subst hm
      exact .inl ⟨[], by simp [ha], by simp [hd]⟩
    · exact .inr ⟨m, hm, ha, hd⟩

theorem exists_split_last {α : Type} {a b c : List α} {y : α} (h : a ++ b = c ++ [y])
    (hb : b ≠ []) : ∃ m, c = a ++ m ∧ b = m ++ [y] := by
  rcases exists_split h with hm | ⟨m, hm, rfl, hy⟩
  · exact hm
  · have hlen := congrArg List.length hy
    have hpos := List.length_pos_iff.2 hm
    have hpos' := List.length_pos_iff.2 hb
    simp only [List.length_append, List.length_singleton] at hlen
    omega

/-! ## Statements with a semicolon -/

theorem Foreign.insert {a b : List Lexeme} (hx : Foreign x) (hu : Skipped (a ++ b)) :
    Skipped (a ++ x :: b) := by
  intro t ht
  rcases List.mem_append.1 ht with ht | ht
  · exact hu t (List.mem_append_left b ht)
  · rcases List.mem_cons.1 ht with rfl | ht
    · exact hx.skipped
    · exact hu t (List.mem_append_right a ht)

/-- What ends with a semicolon ends there with a foreign token in front of it. -/
theorem Ended.foreign {a b : List Lexeme} {c : Lexeme} (hx : Foreign x) (hu : Skipped (a ++ b))
    (hc : c.id = semicolon) (h : Ended ⟨a ++ x :: (b ++ [c] ++ rest), false⟩ o) :
    o.after = ⟨rest, false⟩ ∧ o.reports ≤ 1 := by
  have hskipped := hx.insert hu
  have hstop : Stop (c :: rest) := .inr (by
    show stops.contains c.id = true
    rw [hc]
    decide)
  have hstopped := stopped_append (d := false) hskipped hstop
  refine h.found c rest ?_ hc
  simpa using hstopped

theorem skipped_cons (ht : stops.contains t.id = false) (hu : Skipped u) : Skipped (t :: u) :=
  List.forall_mem_cons.2 ⟨ht, hu⟩

theorem next_of_conditional (h : Spelled names .conditional w) :
    (⟨w, false⟩ : Prospect).next = ifWord := by
  obtain ⟨item, hif, -⟩ := h.reads
  exact hif

/-- A statement that does not begin with `if` is not gone on with. -/
theorem RuleWithstands.of_inside (hw : Spelled names .statement w)
    (hother : (⟨w, false⟩ : Prospect).next ≠ ifWord)
    (h : ∀ w₁ w₂ x follow rest o, w = w₁ ++ w₂ → w₁ ≠ [] → w₂ ≠ [] → Foreign x →
      (⟨rest, false⟩ : Prospect).next ≠ elseWord →
      parser.Performs names (.rule stmt follow) ⟨w₁ ++ x :: (w₂ ++ rest), false⟩ o →
      Aftermath names x w₂ rest o) : RuleWithstands names stmt w where
  inside := h
  behind := by
    intro x follow rest o _ hperf
    obtain ⟨item, -, hread⟩ := hw.reads
    obtain rfl := hperf.unique (hread follow (x :: rest) false
      (.inr fun hcond => hother (next_of_conditional hcond)))
    exact .inl ⟨rfl, rfl⟩

theorem Simple.next_not_mem (h : Simple names w) :
    (⟨w, false⟩ : Prospect).next ∉ [openBrace, ifWord] := by
  have hne : ∀ {t : Lexeme} {w : List Lexeme} {id : TokenId}, t.id = id →
      id ∉ [openBrace, ifWord] → (⟨t :: w, false⟩ : Prospect).next ∉ [openBrace, ifWord] := by
    rintro t w id rfl hid
    exact hid
  cases h with
  | definition hk => exact hne hk (by decide)
  | print hk => exact hne hk (by decide)
  | assignment hn => exact hne hn (by decide)
  | @value c u hu hc hfirst =>
    obtain ⟨t, u, rfl⟩ := List.exists_cons_of_ne_nil hu.nonempty
    have hall : ∀ id ∈ [openBrace, ifWord], exprFirst.contains id = false := by decide
    intro hmem
    exact absurd ((hall _ hmem).symm.trans hfirst) nofun

theorem Simple.withstands (h : Simple names w) : Phrase.statement.Withstands names w := by
  refine .of_inside (.simple h) (fun hif => h.next_not_mem (by simp [hif]))
    fun w₁ w₂ x follow rest o hw hne hne₂ hx _ hperf => ?_
  obtain ⟨k, w₁, rfl⟩ := List.exists_cons_of_ne_nil hne
  cases h with
  | @definition k' n e c u hk hn he hu hc =>
    obtain ⟨rfl, htail⟩ := List.cons.inj hw
    obtain ⟨m, hm, rfl⟩ := exists_split_last (c := n :: e :: u) htail.symm hne₂
    have hskipped : Skipped (w₁ ++ m) := hm ▸ skipped_cons (by rw [hn]; decide)
      (skipped_cons (by rw [he]; decide) hu.inside)
    obtain ⟨hafter, hreports⟩ := (ended_word (.inl hk) hperf).foreign hx hskipped hc
    exact .inl ⟨congrArg Prospect.ahead hafter, hreports⟩
  | @print k' c u hk hu hc =>
    obtain ⟨rfl, htail⟩ := List.cons.inj hw
    obtain ⟨m, rfl, rfl⟩ := exists_split_last htail.symm hne₂
    obtain ⟨hafter, hreports⟩ := (ended_word (.inr hk) hperf).foreign hx hu.inside hc
    exact .inl ⟨congrArg Prospect.ahead hafter, hreports⟩
  | @assignment n e c u hn he hu hc =>
    obtain ⟨m, hm, rfl⟩ := exists_split_last (a := k :: w₁) (c := n :: e :: u) hw.symm hne₂
    have hskipped : Skipped (k :: w₁ ++ m) := hm ▸ skipped_cons (by rw [hn]; decide)
      (skipped_cons (by rw [he]; decide) hu.inside)
    have hfirst : exprFirst.contains k.id = true := by
      rw [← (List.cons.inj hm).1, hn]
      decide
    obtain ⟨hafter, hreports⟩ := (ended_value (v := ⟨k :: w₁ ++ _, false⟩) hfirst rfl hperf).foreign hx hskipped hc
    exact .inl ⟨congrArg Prospect.ahead hafter, hreports⟩
  | @value c u hu hc hfirst hother =>
    obtain ⟨m, rfl, rfl⟩ := exists_split_last (a := k :: w₁) hw.symm hne₂
    have hfirst : exprFirst.contains k.id = true := hfirst
    obtain ⟨hafter, hreports⟩ := (ended_value (v := ⟨k :: w₁ ++ _, false⟩) hfirst rfl hperf).foreign hx hu.inside hc
    exact .inl ⟨congrArg Prospect.ahead hafter, hreports⟩

/-! ## Statements with a block -/

theorem openBrace_of_block (hb : Spelled names .block u) (rest : List Lexeme) (d : Bool) :
    operatorTable.binary? (⟨u ++ rest, d⟩ : Prospect).next = none := by
  cases hb with
  | body hl hw hc =>
    show operatorTable.binary? (Lexeme.id _) = none
    rw [hl]
    decide

/-- An expression and a block behind each other, with a foreign token in or behind the expression
or in the block. -/
theorem header_withstands {s' : Step} {b : List Lexeme} (hs : s.symbol = .rule expr)
    (hs' : s'.symbol = .rule block) (hu : Operand names u) (hb : Spelled names .block b)
    (hblock : Phrase.block.Withstands names b) (hx : Foreign x) (hw : w₁ ++ w₂ = u ++ b)
    (hne : w₂ ≠ [])
    (h : parser.Performs names (.steps (s :: s' :: steps) follow .proceeding)
      ⟨w₁ ++ x :: (w₂ ++ rest), false⟩ o) :
    ∃ n o', n ≤ 1 ∧ parser.Performs names (.steps steps follow .proceeding) ⟨rest, false⟩ o' ∧
      Alike o o' ∧ o.reports = n + o'.reports := by
  rcases exists_split hw with ⟨m, rfl, rfl⟩ | ⟨m, hm, rfl, rfl⟩
  · refine of_header hs hs' (hx.insert hu.inside) hb ?_
    simpa using h
  · rw [List.append_assoc] at h
    have hnext : operatorTable.binary? (⟨m ++ x :: (w₂ ++ rest), false⟩ : Prospect).next = none := by
      rw [Prospect.next_append_of_ne false false hm _ w₂]
      simpa using openBrace_of_block hb [] false
    obtain ⟨follow', o₁, o₂, h₁, h₂, halike, hreports⟩ := of_operand hs hs' hu hnext h
    obtain ⟨hmended, hfresh⟩ := hblock m w₂ x follow' rest o₁ rfl hm hne hx h₁
    have hafter : o₁.after = ⟨rest, false⟩ := by
      rw [← hmended.ahead, ← hfresh]
    rw [hmended.flow, hafter] at h₂
    exact ⟨o₁.reports, o₂, hmended.reports, h₂, halike, hreports⟩

/-- An expression and a block without a fault. -/
theorem read_header {s' : Step} {b : List Lexeme} (hs : s.symbol = .rule expr)
    (hs' : s'.symbol = .rule block) (hu : Operand names u) (hb : Spelled names .block b)
    (h : parser.Performs names (.steps (s :: s' :: steps) follow .proceeding)
      ⟨u ++ (b ++ rest), false⟩ o) :
    ∃ o', parser.Performs names (.steps steps follow .proceeding) ⟨rest, false⟩ o' ∧
      Alike o o' ∧ o.reports = o'.reports := by
  obtain ⟨item, -, hread⟩ := hb.reads
  obtain ⟨follow', o₁, o₂, h₁, h₂, halike, hreports⟩ :=
    of_operand hs hs' hu (openBrace_of_block hb rest false) h
  obtain rfl := h₁.unique (hread follow' rest false)
  exact ⟨o₂, h₂, halike, hreports.trans (Nat.zero_add _)⟩

theorem loop_withstands {k : Lexeme} {b : List Lexeme} (hk : k.id = whileWord)
    (hu : Operand names u) (hb : Spelled names .block b)
    (hblock : Phrase.block.Withstands names b) :
    Phrase.statement.Withstands names (k :: (u ++ b)) := by
  refine .of_inside (.loop hk hu hb) (by show k.id ≠ _; rw [hk]; decide)
    fun w₁ w₂ x follow rest o hw hne hne₂ hx _ h => ?_
  obtain ⟨k', w₁, rfl⟩ := List.exists_cons_of_ne_nil hne
  obtain ⟨rfl, htail⟩ := List.cons.inj hw
  obtain ⟨follow', o₁, h₁, hreports, halike⟩ := of_keyword (r := whileStmt) (by rw [hk]; decide)
    (body_grammar whileStmt) rfl rfl (congrArg _ hk.symm) h
  obtain ⟨n, o₂, hn, h₂, halike₂, hreports₂⟩ :=
    header_withstands rfl rfl hu hb hblock hx htail.symm hne₂ h₁
  rw [h₂.of_nil] at halike₂ hreports₂
  exact .inl ⟨congrArg Prospect.ahead (halike.after.trans halike₂.after), by
    rw [hreports, hreports₂]
    exact hn⟩

theorem block_withstands {l c : Lexeme} (hl : l.id = openBrace) (hc : c.id = closeBrace)
    (hw : Phrase.statements.Withstands names w) :
    Phrase.block.Withstands names (l :: (w ++ [c])) := by
  intro w₁ w₂ x follow rest o hsplit hne hne₂ hx h
  obtain ⟨l', w₁, rfl⟩ := List.exists_cons_of_ne_nil hne
  obtain ⟨rfl, htail⟩ := List.cons.inj hsplit
  obtain ⟨m, rfl, rfl⟩ := exists_split_last htail.symm hne₂
  obtain ⟨items, -, hmany⟩ := hw
  obtain ⟨o₁, h₁, hreports, halike⟩ := of_production (body_grammar block) rfl h
  obtain ⟨o₂, o₃, htoken, h₃, rfl⟩ := h₁.of_cons
  obtain rfl := htoken.of_token rfl hl
  rw [List.append_assoc] at h₃
  obtain ⟨hmended, hfresh⟩ := of_blockSteps hc (fun o₁ h₁ =>
    (hmany w₁ m x _ _ o₁ rfl hx outer_closeBrace (final_closeBrace hc) h₁).1) h₃
  refine ⟨⟨halike.flow.trans hmended.flow,
    (congrArg Prospect.ahead halike.after).trans hmended.ahead, ?_⟩,
    (congrArg Prospect.damaged halike.after).trans hfresh⟩
  rw [hreports, Errand.Outcome.reports_andThen, Nat.zero_add]
  exact hmended.reports

/-! ## Conditions -/

/-- The word `if` is taken. -/
theorem of_if {k : Lexeme} {ahead : List Lexeme} {d : Bool} (hk : k.id = ifWord)
    (hahead : ahead = k :: w) (h : parser.Performs names (.rule ifStmt follow) ⟨ahead, d⟩ o) :
    ∃ o', parser.Performs names (.steps ifSteps.tail follow .proceeding) ⟨w, false⟩ o' ∧
      Alike o o' ∧ o.reports = o'.reports := by
  subst hahead
  obtain ⟨o₁, h₁, hreports, halike⟩ := of_production (body_grammar ifStmt) rfl h
  obtain ⟨o₂, o₃, htoken, h₃, rfl⟩ := h₁.of_cons
  obtain rfl := htoken.of_token rfl hk
  exact ⟨o₃, h₃, ⟨halike.flow, halike.after⟩, hreports.trans (Nat.zero_add _)⟩

theorem bare_withstands {k : Lexeme} {b : List Lexeme} (hk : k.id = ifWord)
    (hu : Operand names u) (hb : Spelled names .block b)
    (hblock : Phrase.block.Withstands names b) :
    RuleWithstands names ifStmt (k :: (u ++ b)) where
  inside := by
    intro w₁ w₂ x follow rest o hw hne hne₂ hx hrest h
    obtain ⟨k', w₁, rfl⟩ := List.exists_cons_of_ne_nil hne
    obtain ⟨rfl, htail⟩ := List.cons.inj hw
    obtain ⟨o₁, h₁, halike₁, hreports₁⟩ := of_if hk rfl h
    obtain ⟨n, o₂, hn, h₂, halike₂, hreports₂⟩ :=
      header_withstands rfl rfl hu hb hblock hx htail.symm hne₂ h₁
    obtain ⟨hafter, hreports⟩ := of_no_elseClause hrest h₂
    exact .inl ⟨congrArg Prospect.ahead ((halike₁.trans halike₂).after.trans hafter), by omega⟩
  behind := by
    intro x follow rest o hx h
    obtain ⟨o₁, h₁, halike₁, hreports₁⟩ := of_if (w := u ++ (b ++ x :: rest)) hk (by simp) h
    obtain ⟨o₂, h₂, halike₂, hreports₂⟩ := read_header rfl rfl hu hb h₁
    obtain ⟨follow', o₃, h₃, halike₃, hreports₃⟩ := of_elseClause hx h₂
    exact .inr ⟨follow', o₃, h₃, (halike₁.trans halike₂).trans halike₃, by omega⟩

/-- A condition with an `else`. -/
theorem else_withstands {k e : Lexeme} {b b' : List Lexeme} (hk : k.id = ifWord)
    (hu : Operand names u) (hb : Spelled names .block b)
    (hblock : Phrase.block.Withstands names b) (he : e.id = elseWord) (hb' : ElseBody names b')
    (hbody : RuleWithstands names elseBody b') :
    RuleWithstands names ifStmt (k :: (u ++ (b ++ e :: b'))) where
  inside := by
    intro w₁ w₂ x follow rest o hw hne hne₂ hx hrest h
    have hskipped : stops.contains e.id = false := by
      rw [he]
      decide
    obtain ⟨k', w₁, rfl⟩ := List.exists_cons_of_ne_nil hne
    obtain ⟨rfl, htail⟩ := List.cons.inj hw
    rw [← List.append_assoc] at htail
    rcases exists_split htail.symm with ⟨m, hm, rfl⟩ | ⟨m, hm, rfl, hsplit⟩
    · obtain ⟨o₁, h₁, halike₁, hreports₁⟩ :=
        of_if (w := w₁ ++ x :: (m ++ e :: (b' ++ rest))) hk (by simp) h
      by_cases hempty : m = []
      · -- The token stands in front of `else`.
        subst hempty
        rw [List.append_nil] at hm
        rw [← hm, List.append_assoc] at h₁
        obtain ⟨o₂, h₂, halike₂, hreports₂⟩ := read_header rfl rfl hu hb h₁
        have halike := halike₁.trans halike₂
        by_cases hxelse : x.id = elseWord
        · obtain ⟨follow', o₃, h₃, halike₃, hreports₃⟩ := of_elseClause hxelse h₂
          obtain ⟨hafter, hreports⟩ := of_elseBody_foreign hskipped hb' hrest h₃
          exact .inl ⟨congrArg Prospect.ahead ((halike.trans halike₃).after.trans hafter), by omega⟩
        · have hother : (⟨x :: e :: (b' ++ rest), false⟩ : Prospect).next ≠ elseWord := hxelse
          obtain ⟨hafter, hreports⟩ := of_no_elseClause hother h₂
          exact .inr ⟨e, b', rfl, halike.after.trans hafter, by omega, he, hb'⟩
      · obtain ⟨n, o₂, hn, h₂, halike₂, hreports₂⟩ :=
          header_withstands rfl rfl hu hb hblock hx hm.symm hempty h₁
        obtain ⟨follow', o₃, h₃, halike₃, hreports₃⟩ := of_elseClause he h₂
        obtain ⟨hafter, hreports⟩ := of_elseBody hb' hrest h₃
        exact .inl ⟨congrArg Prospect.ahead
          (((halike₁.trans halike₂).trans halike₃).after.trans hafter), by omega⟩
    · obtain ⟨e', m, rfl⟩ := List.exists_cons_of_ne_nil hm
      obtain ⟨rfl, rfl⟩ := List.cons.inj hsplit
      obtain ⟨o₁, h₁, halike₁, hreports₁⟩ :=
        of_if (w := u ++ (b ++ e :: (m ++ x :: (w₂ ++ rest)))) hk (by simp) h
      obtain ⟨o₂, h₂, halike₂, hreports₂⟩ := read_header rfl rfl hu hb h₁
      obtain ⟨follow', o₃, h₃, halike₃, hreports₃⟩ := of_elseClause he h₂
      have halike := (halike₁.trans halike₂).trans halike₃
      by_cases hempty : m = []
      · subst hempty
        obtain ⟨hafter, hreports⟩ := of_elseBody_foreign hx.skipped hb' hrest h₃
        exact .inl ⟨congrArg Prospect.ahead (halike.after.trans hafter), by omega⟩
      · have hreports : o.reports = o₃.reports := by omega
        refine Aftermath.alike ?_ halike hreports
        exact hbody.inside m w₂ x follow' rest o₃ rfl hempty hne₂ hx hrest h₃
  behind := by
    intro x follow rest o hx h
    obtain ⟨o₁, h₁, halike₁, hreports₁⟩ :=
      of_if (w := u ++ (b ++ e :: (b' ++ x :: rest))) hk (by simp) h
    obtain ⟨o₂, h₂, halike₂, hreports₂⟩ := read_header rfl rfl hu hb h₁
    obtain ⟨follow', o₃, h₃, halike₃, hreports₃⟩ := of_elseClause he h₂
    have halike := (halike₁.trans halike₂).trans halike₃
    have hreports : o.reports = o₃.reports := by omega
    rcases hbody.behind x follow' rest o₃ hx h₃ with
      ⟨hafter, hquiet⟩ | ⟨follow'', o₄, h₄, halike₄, hreports₄⟩
    · exact .inl ⟨halike.after.trans hafter, hreports.trans hquiet⟩
    · exact .inr ⟨follow'', o₄, h₄, halike.trans halike₄, hreports.trans hreports₄⟩

theorem RuleWithstands.block (hb : Spelled names .block u)
    (h : Phrase.block.Withstands names u) : RuleWithstands names block u where
  inside := by
    intro w₁ w₂ x follow rest o hw hne hne₂ hx _ hperf
    obtain ⟨hmended, -⟩ := h w₁ w₂ x follow rest o hw hne hne₂ hx hperf
    exact .inl ⟨hmended.ahead, hmended.reports⟩
  behind := by
    intro x follow rest o _ hperf
    obtain ⟨item, -, hread⟩ := hb.reads
    obtain rfl := hperf.unique (hread follow (x :: rest) false)
    exact .inl ⟨rfl, rfl⟩

/-- A rule for which another one is chosen by the first token. -/
theorem RuleWithstands.chosen {r' : Nat} {as : List Alternative}
    (hb : parser.grammar.body r' = .sequence as) (hne : (⟨u, false⟩ : Prospect).next ≠ .eof)
    (hr : ∀ ids, ParseState.choose as ((⟨u, false⟩ : Prospect).next :: ids)
      = some (relay r (.single (⟨u, false⟩ : Prospect).next)))
    (h : RuleWithstands names r u) : RuleWithstands names r' u := by
  -- A token further on does not change the choice.
  have hchosen : ∀ {ahead follow o}, (⟨ahead, false⟩ : Prospect).next = (⟨u, false⟩ : Prospect).next →
      parser.Performs names (.rule r' follow) ⟨ahead, false⟩ o →
      ∃ follow' o₁, parser.Performs names (.rule r follow') ⟨ahead, false⟩ o₁ ∧
        o.reports = o₁.reports ∧ Alike o o₁ := by
    intro ahead follow o hnext hperf
    obtain ⟨t, ahead, rfl⟩ := exists_cons_of_next hnext hne
    rw [← hnext] at hr
    exact of_chosen (v := ⟨t :: ahead, false⟩) hb (hr _) rfl hperf
  have hu : u ≠ [] := by
    rintro rfl
    exact hne rfl
  refine ⟨fun w₁ w₂ x follow rest o hw hne hne₂ hx hrest hperf => ?_,
    fun x follow rest o hx hperf => ?_⟩
  · obtain ⟨follow', o₁, h₁, hreports, halike⟩ := hchosen (by
      rw [hw]
      exact Prospect.next_append_of_ne false false hne _ _) hperf
    exact (h.inside w₁ w₂ x follow' rest o₁ hw hne hne₂ hx hrest h₁).alike halike hreports
  · obtain ⟨follow', o₁, h₁, hreports, halike⟩ := hchosen (by
      rw [Prospect.next_append false false, if_neg hu]) hperf
    rcases h.behind x follow' rest o₁ hx h₁ with
      ⟨hafter, hquiet⟩ | ⟨follow'', o₂, h₂, halike₂, hreports₂⟩
    · exact .inl ⟨halike.after.trans hafter, hreports.trans hquiet⟩
    · exact .inr ⟨follow'', o₂, h₂, halike.trans halike₂, hreports.trans hreports₂⟩

/-- What stands behind `else` is one of two rules. -/
theorem RuleWithstands.elseBody (hr : ((⟨u, false⟩ : Prospect).next, r) ∈ elseRules)
    (h : RuleWithstands names r u) : RuleWithstands names elseBody u :=
  .chosen (body_grammar Demo.elseBody) (stops_of_else hr).2.1 (choose_elseBody hr) h

/-- A statement that begins with a word or a brace is that of the word or the brace. -/
theorem RuleWithstands.stmt (hr : ((⟨u, false⟩ : Prospect).next, r) ∈ keywordRules)
    (h : RuleWithstands names r u) : RuleWithstands names stmt u := by
  have hall : ∀ e ∈ keywordRules, e.1 ≠ .eof := by decide
  exact .chosen (body_grammar Demo.stmt) (hall _ hr) (choose_keyword hr) h

/-! ## Statements behind each other -/

theorem kept_cons {items items' : List Item} (h : Kept items items') (item : Item) :
    Kept (items ++ [item]) (items' ++ [item]) := by
  obtain ⟨a, lost, b, rfl, hlost, hsub⟩ := h
  refine ⟨a, lost, b ++ [item], by simp, hlost, ?_⟩
  rw [← List.append_assoc]
  exact hsub.append (List.Sublist.refl _)

theorem kept_lost (items items' : List Item) (item : Item) : Kept (items ++ [item]) (items ++ items') :=
  ⟨items, [item], [], by simp, Nat.le_refl 1, by simp⟩

/-- A statement begins with a token where skipping stops, or ends with the first of them. -/
theorem Spelled.front (h : Spelled names .statement w) :
    (∃ u c, w = u ++ [c] ∧ Skipped u ∧ c.id = semicolon) ∨
    ∀ rest, Stop (w ++ rest) ∧ (⟨w ++ rest, false⟩ : Prospect).next ≠ semicolon := by
  have hkeyword : ∀ {t r} {w : List Lexeme}, (t.id, r) ∈ keywordRules →
      ∀ rest, Stop (t :: w ++ rest) ∧ (⟨t :: w ++ rest, false⟩ : Prospect).next ≠ semicolon := by
    intro t r w hr rest
    have hall : ∀ e ∈ keywordRules, stops.contains e.1 = true ∧ e.1 ≠ semicolon := by decide
    exact ⟨.inr (hall _ hr).1, (hall _ hr).2⟩
  cases h with
  | simple hs =>
    cases hs with
    | definition hk => exact .inr (hkeyword (r := letStmt) (by rw [hk]; decide))
    | print hk => exact .inr (hkeyword (r := printStmt) (by rw [hk]; decide))
    | assignment hn he hu hc =>
      exact .inl ⟨_ :: _ :: _, _, rfl, skipped_cons (by rw [hn]; decide)
        (skipped_cons (by rw [he]; decide) hu.inside), hc⟩
    | value hu hc => exact .inl ⟨_, _, rfl, hu.inside, hc⟩
  | loop hk => exact .inr (hkeyword (r := whileStmt) (by rw [hk]; decide))
  | braces hb => exact .inr fun rest => ElseBody.stop (.inl hb) rest
  | choice hb => exact .inr fun rest => ElseBody.stop (.inr hb) rest

/-- A foreign token in front of a statement. -/
theorem before_statement (hw : Spelled names .statement w) (hx : Foreign x)
    (hfollow : Outer follow) (hrest : (⟨rest, false⟩ : Prospect).next ≠ elseWord)
    (h : parser.Performs names (.repetition stmt follow) ⟨x :: (w ++ rest), false⟩ o) :
    ∃ o' items n d, n ≤ 1 ∧ Onward o o' items n ∧
      parser.Performs names (.repetition stmt follow) ⟨rest, d⟩ o' := by
  have hone : Skipped [x] := by simpa [Skipped] using hx.skipped
  rcases hw.front with ⟨u, c, rfl, hu, hc⟩ | hfront
  · refine onward_skipped_semicolon (u := x :: u) (skipped_cons hx.skipped hu)
      (List.cons_ne_nil x u) hx.inner hc hfollow ?_
    simpa using h
  · obtain ⟨hstop, hne⟩ := hfront rest
    obtain ⟨o₁, items, n, hn, honward, h₁⟩ := onward_skipped_other (u := [x]) hone
      (List.cons_ne_nil x []) hx.inner hstop hne hfollow h
    obtain ⟨item, hfirst, hread⟩ := hw.reads
    obtain ⟨o₂, honward₂, h₂⟩ := onward_read hfirst
      (fun follow => hread follow rest true (.inl hrest)) h₁
    exact ⟨o₂, _, _, false, hn, honward.trans honward₂, h₂⟩

/-- A foreign token within a statement. -/
theorem within_statement (hw : Spelled names .statement (w₁ ++ w₂))
    (hwith : RuleWithstands names stmt (w₁ ++ w₂)) (hne : w₁ ≠ []) (hne₂ : w₂ ≠ [])
    (hx : Foreign x) (hfollow : Outer follow)
    (hrest : (⟨rest, false⟩ : Prospect).next ≠ elseWord)
    (h : parser.Performs names (.repetition stmt follow) ⟨w₁ ++ x :: (w₂ ++ rest), false⟩ o) :
    ∃ o' items n d, n ≤ 1 ∧ Onward o o' items n ∧
      parser.Performs names (.repetition stmt follow) ⟨rest, d⟩ o' := by
  obtain ⟨item, hfirst, -⟩ := hw.reads
  have hnext : stmtFirst.contains (⟨w₁ ++ x :: (w₂ ++ rest), false⟩ : Prospect).next = true := by
    rwa [Prospect.next_append_of_ne false false hne _ w₂]
  obtain ⟨follow', o₁, h₁, hround⟩ := exists_round hnext h
  rcases hwith.inside w₁ w₂ x follow' rest o₁ rfl hne hne₂ hx hrest h₁ with
    ⟨hahead, hreports⟩ | ⟨e, b, rfl, hafter, hquiet, he, hb⟩
  · obtain ⟨o₂, h₂, honward⟩ := hround (by
      rw [hahead]
      simp only [List.length_append, List.length_cons]
      omega)
    have hafter : o₁.after = ⟨rest, o₁.after.damaged⟩ := by rw [← hahead]
    exact ⟨o₂, _, _, _, hreports, honward, hafter ▸ h₂⟩
  · -- What stood behind `else` is a statement now.
    obtain ⟨o₂, h₂, honward⟩ := hround (by
      rw [hafter]
      have hpos := List.length_pos_iff.2 hne
      simp only [List.length_append, List.length_cons]
      omega)
    rw [hafter] at h₂
    have hskipped : Skipped [x, e] := skipped_cons hx.skipped (by
      simp only [Skipped, List.mem_singleton, forall_eq, he]
      decide)
    obtain ⟨hstop, hne'⟩ := hb.stop rest
    obtain ⟨o₃, items, n, hn, honward₃, h₃⟩ := onward_skipped_other (u := [x, e]) hskipped
      (List.cons_ne_nil x [e]) hx.inner hstop hne' hfollow h₂
    obtain ⟨item', hfirst', hread'⟩ := hb.statement.reads
    obtain ⟨o₄, honward₄, h₄⟩ := onward_read hfirst'
      (fun follow => hread' follow rest true (.inl hrest)) h₃
    exact ⟨o₄, _, _, false, by omega, (honward.trans honward₃).trans honward₄, h₄⟩

/-- What cannot stand behind `else` is left where skipping stops. -/
theorem of_elseBody_refused (hother : v.next ∉ [openBrace, ifWord]) (hv : v.damaged = false)
    (hstopped : v.stopped stops = ⟨rest, true⟩)
    (hother' : (⟨rest, true⟩ : Prospect).next ∉ [openBrace, ifWord])
    (h : parser.Performs names (.rule elseBody follow) v o) :
    o.after = ⟨rest, true⟩ ∧ o.reports = 1 := by
  simp only [List.mem_cons, List.not_mem_nil, or_false, not_or] at hother hother'
  have hblamed : (v.blamed names parser.sync).after = ⟨rest, true⟩ :=
    (Prospect.after_blamed hv).trans hstopped
  rcases of_elseBody_none hother.1 hother.2 h with ⟨a, o₁, -, hs, -⟩ | ⟨-, halike, hreports⟩
  · rw [hblamed, choose_else] at hs
    exact absurd (hs.symm.trans ((if_neg hother'.1).trans (if_neg hother'.2))) nofun
  · exact ⟨halike.after.trans hblamed, hreports.trans (Prospect.reports_blamed hv)⟩

theorem Final.next_not_mem {d : Bool} (h : Final follow rest) :
    (⟨rest, d⟩ : Prospect).next ∉ [openBrace, ifWord] := by
  rcases h with rfl | ⟨c, rest', rfl, hc, -⟩
  · exact (by decide : TokenId.eof ∉ [openBrace, ifWord])
  · rw [show (⟨c :: rest', d⟩ : Prospect).next = closeBrace from hc]
    decide

/-- Statements without a fault are read up to the end, also where skipping has stopped. -/
theorem mended_spelled {d : Bool} (hw : Spelled names .statements w) (hrest : Final follow rest)
    (h : parser.Performs names (.repetition stmt follow) ⟨w ++ rest, d⟩ o) : Mended 0 rest o := by
  obtain ⟨items, -, hread⟩ := hw.reads
  exact (read_final hread hrest h).1

theorem Spelled.next_ne_else {d : Bool} (hw : Spelled names .statements w)
    (hrest : Final follow rest) : (⟨w ++ rest, d⟩ : Prospect).next ≠ elseWord :=
  Demo.next_ne_else hw.begins hrest.stop.2.2

/-- Behind an `else` that does not belong there the rest is read. -/
theorem mended_behind_else {follow' : TokenSet} (hw : Spelled names .statements w)
    (hfollow : Outer follow) (hrest : Final follow rest)
    (h : parser.Performs names (.rule elseBody follow') ⟨w ++ rest, false⟩ o) :
    o.after.ahead.length ≤ (w ++ rest).length ∧
      ∀ o', parser.Performs names (.repetition stmt follow) o.after o' →
        ∃ n, o.reports + n ≤ 1 ∧ Mended n rest o' := by
  cases hw with
  | nothing =>
    have hstopped := stopped_append (u := []) (d := false) nofun hrest.stop.1
    obtain ⟨hafter, hreports⟩ :=
      of_elseBody_refused hrest.next_not_mem rfl hstopped hrest.next_not_mem h
    rw [hafter, hreports]
    exact ⟨Nat.le_refl _, fun o' h' => ⟨0, Nat.le_refl 1, mended_spelled .nothing hrest h'⟩⟩
  | @more s w hs hw =>
    rw [List.append_assoc] at h
    -- A block or a condition is read as what belongs to the `else`. Any other statement is refused
    -- there, and is skipped unless it begins where skipping stops.
    have hread : ElseBody names s → o.after.ahead.length ≤ (s ++ w ++ rest).length ∧
        ∀ o', parser.Performs names (.repetition stmt follow) o.after o' →
          ∃ n, o.reports + n ≤ 1 ∧ Mended n rest o' := by
      intro hb
      obtain ⟨hafter, hreports⟩ := of_elseBody hb (hw.next_ne_else hrest) h
      rw [hafter, hreports]
      refine ⟨by simp, fun o' h' => ⟨0, Nat.zero_le 1, mended_spelled hw hrest h'⟩⟩
    have hrefused : (⟨s, false⟩ : Prospect).next ∉ [openBrace, ifWord] →
        o.after.ahead.length ≤ (s ++ w ++ rest).length ∧
        ∀ o', parser.Performs names (.repetition stmt follow) o.after o' →
          ∃ n, o.reports + n ≤ 1 ∧ Mended n rest o' := by
      intro hother
      have hnext : ∀ d, (⟨s ++ (w ++ rest), d⟩ : Prospect).next ∉ [openBrace, ifWord] := by
        intro d
        rwa [Prospect.next_append d false, if_neg hs.nonempty]
      rcases hs.front with ⟨u, c, rfl, hu, hc⟩ | hfront
      · rw [List.append_assoc] at h hnext
        have hstop : Stop (c :: (w ++ rest)) := .inr (by
          show stops.contains c.id = true
          rw [hc]
          decide)
        have hsemicolon : (⟨c :: (w ++ rest), true⟩ : Prospect).next ∉ [openBrace, ifWord] := by
          show c.id ∉ _
          rw [hc]
          decide
        obtain ⟨hafter, hreports⟩ := of_elseBody_refused (hnext false) rfl
          (stopped_append (d := false) hu hstop) hsemicolon h
        rw [hafter, hreports]
        refine ⟨by simp, fun o' h' => ⟨0, Nat.le_refl 1, ?_⟩⟩
        obtain ⟨o₂, items, h₂, honward⟩ := onward_semicolon hc hfollow h'
        exact honward.mended (mended_spelled hw hrest h₂)
      · have hstopped := stopped_append (u := []) (d := false) nofun (hfront (w ++ rest)).1
        obtain ⟨hafter, hreports⟩ := of_elseBody_refused (hnext false) rfl hstopped (hnext true) h
        rw [hafter, hreports]
        refine ⟨by simp, fun o' h' => ⟨0, Nat.le_refl 1, ?_⟩⟩
        rw [← List.append_assoc] at h'
        exact mended_spelled (.more hs hw) hrest h'
    cases hs with
    | simple hs => exact hrefused hs.next_not_mem
    | loop hk => exact hrefused (by show Lexeme.id _ ∉ _; rw [hk]; decide)
    | braces hb => exact hread (.inl hb)
    | choice hb => exact hread (.inr hb)

/-- An `else` right behind a statement. -/
theorem mended_else (hs : Spelled names .statement u) (hwith : RuleWithstands names stmt u)
    (hx : x.id = elseWord) (hw : Spelled names .statements w) (hfollow : Outer follow)
    (hrest : Final follow rest)
    (hnone : ∀ o', parser.Performs names (.repetition stmt follow) ⟨x :: (w ++ rest), false⟩ o' →
      Mended 1 rest o')
    (h : parser.Performs names (.repetition stmt follow) ⟨u ++ x :: (w ++ rest), false⟩ o) :
    Mended 1 rest o := by
  obtain ⟨item, hfirst, -⟩ := hs.reads
  have hnext : stmtFirst.contains (⟨u ++ x :: (w ++ rest), false⟩ : Prospect).next = true := by
    rwa [Prospect.next_append false false, if_neg hs.nonempty]
  have hpos := List.length_pos_iff.2 hs.nonempty
  obtain ⟨follow', o₁, h₁, hround⟩ := exists_round hnext h
  rcases hwith.behind x follow' (w ++ rest) o₁ hx h₁ with
    ⟨hafter, hquiet⟩ | ⟨follow'', o₂, h₂, halike, hreports⟩
  · obtain ⟨o', h', honward⟩ := hround (by
      rw [hafter]
      simp only [List.length_append, List.length_cons]
      omega)
    rw [hafter] at h'
    exact (honward.mended (hnone o' h')).mono (by omega)
  · obtain ⟨hlength, hmended⟩ := mended_behind_else hw hfollow hrest h₂
    obtain ⟨o', h', honward⟩ := hround (by
      rw [halike.after]
      simp only [List.length_append, List.length_cons] at hlength ⊢
      omega)
    obtain ⟨n, hn, hend⟩ := hmended o' (halike.after ▸ h')
    exact (honward.mended hend).mono (by omega)

/-- Statements behind a statement, with a foreign token somewhere. -/
theorem statements_withstand (hs : Spelled names .statement u)
    (hwith : RuleWithstands names stmt u) (hw : Spelled names .statements w)
    (hwith' : Phrase.statements.Withstands names w) :
    Phrase.statements.Withstands names (u ++ w) := by
  obtain ⟨item, hfirst, hread⟩ := hs.reads
  have hbegins := hw.begins
  obtain ⟨items, hreads, hdamage⟩ := hwith'
  refine ⟨items ++ [item], fun follow rest d hend =>
    reads_statements hfirst hread hbegins hreads hend, ?_⟩
  intro w₁ w₂ x follow rest o hsplit hx hfollow hrest h
  -- The token stands behind the first statement, and the others are damaged.
  have hbehind : ∀ m, w = m ++ w₂ →
      (⟨m ++ x :: (w₂ ++ rest), false⟩ : Prospect).next ≠ elseWord →
      parser.Performs names (.repetition stmt follow) ⟨u ++ (m ++ x :: (w₂ ++ rest)), false⟩ o →
      Mended 1 rest o ∧ (x.id ≠ elseWord → Kept (items ++ [item]) o.items) := by
    intro m hm hnext h
    obtain ⟨o₁, honward, h₁⟩ := onward_read hfirst
      (fun follow => hread follow _ false (.inl hnext)) h
    obtain ⟨hmended, hkept⟩ := hdamage m w₂ x follow rest o₁ hm hx hfollow hrest h₁
    refine ⟨honward.mended hmended, fun hxelse => ?_⟩
    rw [honward.items]
    exact kept_cons (hkept hxelse) item
  -- The token stands in the first statement or in front of it, and the others are kept.
  have hlost : (∃ o' items' n d, n ≤ 1 ∧ Onward o o' items' n ∧
      parser.Performs names (.repetition stmt follow) ⟨w ++ rest, d⟩ o') →
      Mended 1 rest o ∧ (x.id ≠ elseWord → Kept (items ++ [item]) o.items) := by
    rintro ⟨o', items', n, d, hn, honward, h'⟩
    obtain ⟨hmended, hitems⟩ := read_final hreads hrest h'
    refine ⟨(honward.mended hmended).mono hn, fun _ => ?_⟩
    rw [honward.items, hitems]
    exact kept_lost items items' item
  rcases exists_split hsplit.symm with ⟨m, rfl, rfl⟩ | ⟨m, hm, rfl, rfl⟩
  · by_cases hm : m = []
    · subst hm
      rw [List.nil_append] at h hbehind
      rw [List.append_nil] at hs hwith hfirst hread hbehind
      by_cases hxelse : x.id = elseWord
      · refine ⟨mended_else hs hwith hxelse hw hfollow hrest (fun o' h' => ?_) h,
          fun hne => absurd hxelse hne⟩
        exact (hdamage [] w x follow rest o' rfl hx hfollow hrest h').1
      · exact hbehind [] rfl hxelse h
    · rw [List.append_assoc] at h
      by_cases hne : w₁ = []
      · subst hne
        rw [List.nil_append] at h hs
        refine hlost (before_statement hs hx hfollow (hw.next_ne_else hrest) ?_)
        exact h
      · exact hlost (within_statement hs hwith hne hm hx hfollow (hw.next_ne_else hrest) h)
  · rw [List.append_assoc] at h
    refine hbehind m rfl ?_ h
    have hnext := Prospect.next_append_of_ne false false hm (x :: (w₂ ++ rest)) w₂
    rw [hnext, ← List.append_nil (m ++ w₂)]
    exact next_ne_else hbegins (by decide)

/-- The damage stays within one statement. -/
theorem Spelled.withstands {phrase : Phrase} (h : Spelled names phrase w) :
    phrase.Withstands names w := by
  induction h with
  | nothing =>
    refine ⟨[], fun follow rest d hend => ?_, fun w₁ w₂ x follow rest o hsplit hx hfollow hrest h => ?_⟩
    · rw [List.isEmpty_nil, Bool.and_true]
      exact reads_nothing hend
    · obtain ⟨rfl, rfl⟩ := List.append_eq_nil_iff.1 hsplit.symm
      have hone : Skipped [x] := by simpa [Skipped] using hx.skipped
      obtain ⟨hstop, hne, -⟩ := hrest.stop
      obtain ⟨o', items, n, hn, honward, h'⟩ := onward_skipped_other (u := [x]) hone
        (List.cons_ne_nil x []) hx.inner hstop hne hfollow h
      exact ⟨(honward.mended (mended_spelled .nothing hrest h')).mono hn,
        fun _ => ⟨[], [], [], rfl, Nat.zero_le 1, List.nil_sublist _⟩⟩
  | more hs hw ihs ihw => exact statements_withstand hs ihs hw ihw
  | simple hs => exact hs.withstands
  | loop hk hu hb ih => exact loop_withstands hk hu hb ih
  | braces hb ih =>
    obtain ⟨item, hopen, -⟩ := hb.reads
    exact (RuleWithstands.block hb ih).stmt (by rw [hopen]; decide)
  | choice hb ih =>
    obtain ⟨item, hif, -⟩ := hb.reads
    exact ih.stmt (by rw [hif]; decide)
  | body hl hw hc ih => exact block_withstands hl hc ih
  | bare hk hu hb ih => exact bare_withstands hk hu hb ih
  | both hk hu hb he hb' ih ih' =>
    obtain ⟨item, hopen, -⟩ := hb'.reads
    exact else_withstands hk hu hb ih he (.inl hb')
      ((RuleWithstands.block hb' ih').elseBody (by rw [hopen]; decide))
  | chain hk hu hb he hb' ih ih' =>
    obtain ⟨item, hif, -⟩ := hb'.reads
    exact else_withstands hk hu hb ih he (.inr hb') (ih'.elseBody (by rw [hif]; decide))

end Demo

end FrontEnd
