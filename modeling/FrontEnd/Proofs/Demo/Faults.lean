import FrontEnd.Proofs.Demo.Programs

/-!
# Where a fault ends

Skipping stops at semicolons and braces, and at the words that begin statements. What the parser
does with tokens that do not belong where they stand ends there, and each part of the language is
taken up again.

- `Demo.Ended`: a statement with a semicolon, whatever stands in front of it;
- `Demo.onward_skipped_semicolon`, `Demo.onward_skipped_other`: tokens between statements;
- `Demo.of_header`: a condition with a block behind it;
- `Demo.of_elseBody_foreign`: a token behind `else`.
-/

namespace FrontEnd

namespace Demo

variable {names : Names} {v : Prospect} {o : Errand.Outcome} {u w w₁ w₂ rest : List Lexeme}
  {follow : TokenSet} {steps : List Step} {s : Step} {t x : Lexeme} {id : TokenId} {r : Nat}

/-! ## Where skipping stops -/

/-- Skipping stops at once. -/
def Stop (rest : List Lexeme) : Prop := rest = [] ∨ stops.contains (⟨rest, false⟩ : Prospect).next = true

/-- Tokens at which skipping does not stop. -/
def Skipped (u : List Lexeme) : Prop := ∀ t ∈ u, stops.contains t.id = false

theorem stopped_append {d : Bool} (hu : Skipped u) (hrest : Stop rest) :
    (⟨u ++ rest, d⟩ : Prospect).stopped stops = ⟨rest, true⟩ := by
  rw [Prospect.stopped_of_append (v := ⟨u ++ rest, d⟩) ⟨rest, d⟩ rfl hu]
  cases rest with
  | nil => rfl
  | cons t rest =>
    exact Prospect.stopped_of_cons rfl (hrest.resolve_left (List.cons_ne_nil t rest))

/-- A production that ends with an expression and a semicolon, or at the token where skipping
stops. -/
structure Ended (v : Prospect) (o : Errand.Outcome) : Prop where
  found : ∀ c rest, v.stopped stops = ⟨c :: rest, true⟩ → c.id = semicolon →
    o.after = ⟨rest, false⟩ ∧ o.reports ≤ 1
  missed : (v.stopped stops).next ≠ semicolon →
    o.after = v.stopped stops ∧ o.reports = 1

theorem ended_of_closing (front : List Step) (hin : ∀ s ∈ front, s.symbol.Inside stops Inner)
    (hs : s.symbol = .token semicolon) (hv : v.damaged = false)
    (h : parser.Performs names (.steps (front ++ [s]) follow .proceeding) v o) : Ended v o := by
  rcases h.of_closing shelters hin (by decide) hs hv with
    ⟨t, rest, hahead, ht, hafter, hreports⟩ | ⟨hnext, hafter, hreports⟩
  · refine ⟨fun c rest' hstop hc => ?_, fun hne => ?_⟩
    · rw [show v.stopped parser.sync = _ from hstop] at hahead
      cases hahead
      exact ⟨hafter, hreports⟩
    · exact absurd ((Prospect.next_of_cons hahead).trans ht) hne
  · exact ⟨fun c rest' hstop hc => absurd (hstop ▸ hc) hnext, fun _ => ⟨hafter, hreports⟩⟩

theorem Ended.alike {o' : Errand.Outcome} (h : Ended v o') (halike : Alike o o')
    (hreports : o.reports = o'.reports) : Ended v o :=
  ⟨fun c rest hstop hc => by
      rw [halike.after, hreports]
      exact h.found c rest hstop hc,
    fun hne => by
      rw [halike.after, hreports]
      exact h.missed hne⟩

theorem ended_exprSteps (hv : v.damaged = false)
    (h : parser.Performs names (.steps exprSteps follow .proceeding) v o) : Ended v o :=
  ended_of_closing [⟨.rule expr, .single semicolon, false⟩] (by decide) rfl hv h

theorem ended_assignSteps (hv : v.damaged = false)
    (h : parser.Performs names (.steps assignSteps follow .proceeding) v o) : Ended v o :=
  ended_of_closing [⟨.token identifier, .single equalsSign, false⟩,
    ⟨.token equalsSign, exprFirst, false⟩, ⟨.rule expr, .single semicolon, false⟩] (by decide) rfl
    hv h

/-- A statement that begins like an expression ends so. -/
theorem ended_value (hfirst : exprFirst.contains v.next = true) (hv : v.damaged = false)
    (h : parser.Performs names (.rule stmt follow) v o) : Ended v o := by
  obtain ⟨ahead, d⟩ := v
  obtain ⟨t, w, rfl⟩ := exists_cons_of_next (w := ahead) (d := d) rfl (by
    intro heof
    rw [heof] at hfirst
    exact absurd hfirst (by decide))
  have hchoose := choose_value (w.map Lexeme.id) hfirst
  cases hguard : ParseState.guardAhead (⟨t :: w, d⟩ : Prospect).ids [identifier, equalsSign] with
  | true =>
    obtain ⟨follow', o₁, h₁, hreports₁, halike₁⟩ := of_chosen (v := ⟨t :: w, d⟩)
      (a := assignAlternative) (body_grammar stmt)
      (hchoose.trans (congrArg some (if_pos hguard))) rfl h
    obtain ⟨o₂, h₂, hreports₂, halike₂⟩ := of_production (body_grammar assignStmt) rfl h₁
    exact ((ended_assignSteps hv h₂).alike halike₂ hreports₂).alike halike₁ hreports₁
  | false =>
    obtain ⟨follow', o₁, h₁, hreports₁, halike₁⟩ := of_chosen (v := ⟨t :: w, d⟩)
      (a := relay exprStmt exprFirst) (body_grammar stmt)
      (hchoose.trans (congrArg some (if_neg (Bool.eq_false_iff.1 hguard)))) rfl h
    obtain ⟨o₂, h₂, hreports₂, halike₂⟩ := of_production (body_grammar exprStmt) rfl h₁
    exact ((ended_exprSteps hv h₂).alike halike₂ hreports₂).alike halike₁ hreports₁

/-- A word that begins a statement is taken. -/
theorem of_keyword {a : Alternative} {d : Bool} (hr : (t.id, r) ∈ keywordRules)
    (hb : parser.grammar.body r = .sequence [a]) (ha : a.guard = [])
    (hsteps : a.steps = s :: steps) (hs : s.symbol = .token t.id)
    (h : parser.Performs names (.rule stmt follow) ⟨t :: w, d⟩ o) :
    ∃ follow o₁, parser.Performs names (.steps steps follow .proceeding) ⟨w, false⟩ o₁ ∧
      o.reports = o₁.reports ∧ Alike o o₁ := by
  obtain ⟨follow', o₁, h₁, hreports₁, halike₁⟩ :=
    of_chosen (v := ⟨t :: w, d⟩) (body_grammar stmt) (choose_keyword hr _) rfl h
  obtain ⟨o₂, h₂, hreports₂, halike₂⟩ := of_production hb ha h₁
  rw [hsteps] at h₂
  obtain ⟨o₃, o₄, htoken, hrest, rfl⟩ := h₂.of_cons
  rw [hs] at htoken
  obtain rfl := htoken.of_token rfl rfl
  refine ⟨follow', o₄, hrest, ?_, halike₁.trans (halike₂.trans ⟨rfl, rfl⟩)⟩
  rw [hreports₁, hreports₂, Errand.Outcome.reports_andThen, Nat.zero_add]

/-- Behind the word of a definition or a print statement the statement ends. -/
theorem ended_word {d : Bool} (ht : t.id = letWord ∨ t.id = printWord)
    (h : parser.Performs names (.rule stmt follow) ⟨t :: w, d⟩ o) : Ended ⟨w, false⟩ o := by
  rcases ht with ht | ht
  · obtain ⟨follow', o₁, h₁, hreports, halike⟩ := of_keyword (r := letStmt) (by rw [ht]; decide)
      (body_grammar letStmt) rfl rfl (congrArg _ ht.symm) h
    exact (ended_assignSteps rfl h₁).alike halike hreports
  · obtain ⟨follow', o₁, h₁, hreports, halike⟩ := of_keyword (r := printStmt) (by rw [ht]; decide)
      (body_grammar printStmt) rfl rfl (congrArg _ ht.symm) h
    exact (ended_exprSteps rfl h₁).alike halike hreports

/-! ## Statement by statement -/

/-- Only the end of the input or a closing brace may follow. -/
def Outer (follow : TokenSet) : Prop :=
  ∀ id, follow.contains id = true → id = .eof ∨ id = closeBrace

/-- What is left behind later, with nodes and reports before. -/
structure Onward (o o' : Errand.Outcome) (items : List Item) (n : Nat) : Prop where
  alike : Alike o o'
  items : o.items = o'.items ++ items
  reports : o.reports = n + o'.reports

theorem Onward.trans {o' o'' : Errand.Outcome} {items items' : List Item} {n n' : Nat}
    (h : Onward o o' items n) (h' : Onward o' o'' items' n') :
    Onward o o'' (items' ++ items) (n + n') :=
  ⟨h.alike.trans h'.alike, by rw [h.items, h'.items, List.append_assoc], by
    rw [h.reports, h'.reports, Nat.add_assoc]⟩

/-- A statement comes first, and the others behind it. -/
theorem exists_round (hfirst : stmtFirst.contains v.next = true)
    (h : parser.Performs names (.repetition stmt follow) v o) :
    ∃ follow' o₁, parser.Performs names (.rule stmt follow') v o₁ ∧
      (o₁.after.ahead.length ≠ v.ahead.length →
        ∃ o', parser.Performs names (.repetition stmt follow) o₁.after o' ∧
          Onward o o' o₁.items o₁.reports) := by
  have hneof : v.next ≠ .eof := by
    rintro heof
    rw [heof] at hfirst
    exact absurd hfirst (by decide)
  obtain ⟨o₁, o₂, h₁, h₂⟩ := h.of_repetition_first hneof (by rw [firstOf_stmt, hfirst])
  refine ⟨_, o₁, h₁, fun hne => ?_⟩
  rcases h₂ with ⟨-, h₂, rfl⟩ | ⟨hsame, -⟩
  · exact ⟨o₂, h₂, ⟨rfl, rfl⟩, rfl, rfl⟩
  · exact absurd hsame hne

/-- Skipping has stopped in front of a semicolon, which is taken as well. -/
theorem onward_semicolon {c : Lexeme} (hc : c.id = semicolon) (hfollow : Outer follow)
    (h : parser.Performs names (.repetition stmt follow) ⟨c :: rest, true⟩ o) :
    ∃ o' items, parser.Performs names (.repetition stmt follow) ⟨rest, true⟩ o' ∧
      Onward o o' items 0 := by
  have hnext : (⟨c :: rest, true⟩ : Prospect).next = semicolon := hc
  have hout : follow.contains semicolon = false :=
    Bool.eq_false_iff.2 fun hin => by rcases hfollow _ hin with h | h <;> cases h
  obtain ⟨o₁, h₁, rfl⟩ := h.of_repetition_stray (by rw [hnext]; decide)
    (by rw [firstOf_stmt, hnext]; decide) (by rw [hnext, hout])
  exact ⟨o₁, _, h₁, ⟨rfl, rfl⟩, rfl, rfl⟩

/-- Tokens that do not belong there are skipped, or are read with those that stand where they
begin a statement. -/
theorem onward_skipped (hu : Skipped u) (hne : u ≠ []) (heof : (⟨u, false⟩ : Prospect).next ≠ .eof)
    (hrest : Stop rest) (hfollow : Outer follow)
    (h : parser.Performs names (.repetition stmt follow) ⟨u ++ rest, false⟩ o) :
    ∃ o' items n, n ≤ 1 ∧ Onward o o' items n ∧
      (parser.Performs names (.repetition stmt follow) ⟨rest, true⟩ o' ∨
        ∃ c rest', rest = c :: rest' ∧ c.id = semicolon ∧
          parser.Performs names (.repetition stmt follow) ⟨rest', false⟩ o') := by
  have hstopped := stopped_append (d := false) hu hrest
  obtain ⟨t, u', rfl⟩ := List.exists_cons_of_ne_nil hne
  have ht : stops.contains t.id = false := hu t List.mem_cons_self
  have hnext : (⟨t :: u' ++ rest, false⟩ : Prospect).next = t.id := rfl
  rcases Bool.eq_false_or_eq_true (stmtFirst.contains t.id) with hfirst | hfirst
  · -- The tokens begin a statement, and skipping stops at the end of it at the latest.
    have hvalue : exprFirst.contains t.id = true := by
      rcases keyword_or_value hfirst with ⟨r, hr⟩ | hvalue
      · have hall : ∀ e ∈ keywordRules, stops.contains e.1 = true := by decide
        exact absurd ((hall _ hr).symm.trans ht) nofun
      · exact hvalue
    obtain ⟨follow', o₁, h₁, hround⟩ := exists_round (hnext.symm ▸ hfirst) h
    have hended := ended_value (hnext.symm ▸ hvalue) rfl h₁
    by_cases hc : (⟨rest, true⟩ : Prospect).next = semicolon
    · obtain ⟨c, rest', rfl⟩ := exists_cons_of_next hc (by decide)
      obtain ⟨hafter, hreports⟩ := hended.found c rest' hstopped hc
      obtain ⟨o', h', honward⟩ := hround (by
        rw [hafter]
        simp only [List.length_cons, List.length_append]
        omega)
      exact ⟨o', _, _, hreports, honward, .inr ⟨c, rest', rfl, hc, hafter ▸ h'⟩⟩
    · obtain ⟨hafter, hreports⟩ := hended.missed (hstopped.symm ▸ hc)
      rw [hstopped] at hafter
      obtain ⟨o', h', honward⟩ := hround (by
        rw [hafter]
        simp only [List.length_cons, List.length_append]
        omega)
      exact ⟨o', _, _, hreports.le, honward, .inl (hafter ▸ h')⟩
  · have hout : follow.contains t.id = false := by
      refine Bool.eq_false_iff.2 fun hin => ?_
      rcases hfollow _ hin with h | h
      · exact heof h
      · rw [h] at ht
        cases ht
    obtain ⟨o₁, h₁, rfl⟩ := h.of_repetition_stray heof (by rw [firstOf_stmt, hnext, hfirst])
      (by rw [hnext, hout])
    have hafter : ((⟨t :: u' ++ rest, false⟩ : Prospect).blamed names parser.sync).after = _ :=
      Prospect.after_blamed rfl
    rw [hafter.trans hstopped] at h₁
    exact ⟨o₁, _, 1, Nat.le_refl 1, ⟨⟨rfl, rfl⟩, rfl, by
      rw [Errand.Outcome.reports_andThen, Prospect.reports_blamed rfl]⟩, .inl h₁⟩

/-- Where skipping stops in front of a semicolon, that is the end of it. -/
theorem onward_skipped_semicolon {c : Lexeme} (hu : Skipped u) (hne : u ≠ [])
    (heof : (⟨u, false⟩ : Prospect).next ≠ .eof) (hc : c.id = semicolon) (hfollow : Outer follow)
    (h : parser.Performs names (.repetition stmt follow) ⟨u ++ c :: rest, false⟩ o) :
    ∃ o' items n d, n ≤ 1 ∧ Onward o o' items n ∧
      parser.Performs names (.repetition stmt follow) ⟨rest, d⟩ o' := by
  have hstop : Stop (c :: rest) := .inr (by
    show stops.contains c.id = true
    rw [hc]
    decide)
  obtain ⟨o₁, items, n, hn, honward, h₁ | ⟨c', rest', hrest, -, h₁⟩⟩ :=
    onward_skipped hu hne heof hstop hfollow h
  · obtain ⟨o₂, items', h₂, honward'⟩ := onward_semicolon hc hfollow h₁
    exact ⟨o₂, _, _, true, hn, honward.trans honward', h₂⟩
  · cases hrest
    exact ⟨o₁, items, n, false, hn, honward, h₁⟩

/-- Where skipping stops in front of something else, parsing goes on with that. -/
theorem onward_skipped_other (hu : Skipped u) (hne : u ≠ []) (heof : (⟨u, false⟩ : Prospect).next ≠ .eof)
    (hrest : Stop rest) (hnext : (⟨rest, false⟩ : Prospect).next ≠ semicolon)
    (hfollow : Outer follow)
    (h : parser.Performs names (.repetition stmt follow) ⟨u ++ rest, false⟩ o) :
    ∃ o' items n, n ≤ 1 ∧ Onward o o' items n ∧
      parser.Performs names (.repetition stmt follow) ⟨rest, true⟩ o' := by
  obtain ⟨o₁, items, n, hn, honward, h₁ | ⟨c, rest', rfl, hc, -⟩⟩ :=
    onward_skipped hu hne heof hrest hfollow h
  · exact ⟨o₁, items, n, hn, honward, h₁⟩
  · exact absurd hc hnext

/-- A statement is read, and the others come behind it. -/
theorem onward_read {item : Item} {d : Bool}
    (hfirst : stmtFirst.contains (⟨w, false⟩ : Prospect).next = true)
    (hread : ∀ follow, parser.Performs names (.rule stmt follow) ⟨w ++ rest, d⟩
      ⟨.proceeding, [item], ⟨rest, false⟩, 0⟩)
    (h : parser.Performs names (.repetition stmt follow) ⟨w ++ rest, d⟩ o) :
    ∃ o', Onward o o' [item] 0 ∧
      parser.Performs names (.repetition stmt follow) ⟨rest, false⟩ o' := by
  obtain ⟨t, w', rfl⟩ := exists_cons_of_next (w := w) (d := false) rfl (by
    intro heof
    rw [heof] at hfirst
    exact absurd hfirst (by decide))
  obtain ⟨follow', o₁, h₁, hround⟩ := exists_round (v := ⟨t :: w' ++ rest, d⟩) hfirst h
  obtain rfl := h₁.unique (hread follow')
  obtain ⟨o', h', honward⟩ := hround (by
    simp only [List.length_cons, List.length_append]
    omega)
  exact ⟨o', honward, h'⟩

/-! ## To the end -/

/-- The end of statements: that of the input, or the closing brace. -/
def Final (follow : TokenSet) (rest : List Lexeme) : Prop :=
  rest = [] ∨ ∃ c rest', rest = c :: rest' ∧ c.id = closeBrace ∧ follow.contains closeBrace = true

theorem Final.ends {d : Bool} (h : Final follow rest) : Ends follow (⟨rest, d⟩ : Prospect).next := by
  rcases h with rfl | ⟨c, rest', rfl, hc, hfollow⟩
  · exact .inl rfl
  · exact .inr ⟨hc, hfollow⟩

theorem Final.stop (h : Final follow rest) :
    Stop rest ∧ (⟨rest, false⟩ : Prospect).next ≠ semicolon ∧
      (⟨rest, false⟩ : Prospect).next ≠ elseWord := by
  rcases h with rfl | ⟨c, rest', rfl, hc, -⟩
  · exact ⟨.inl rfl, by decide, by decide⟩
  · have hnext : (⟨c :: rest', false⟩ : Prospect).next = closeBrace := hc
    rw [Stop, hnext]
    exact ⟨.inr (by decide), by decide, by decide⟩

/-- All is read up to the end, with so many reports at most. -/
structure Mended (n : Nat) (rest : List Lexeme) (o : Errand.Outcome) : Prop where
  flow : o.flow = .proceeding
  ahead : o.after.ahead = rest
  reports : o.reports ≤ n

theorem Onward.mended {o' : Errand.Outcome} {items : List Item} {n n' : Nat} (h : Onward o o' items n)
    (h' : Mended n' rest o') : Mended (n + n') rest o :=
  ⟨h.alike.flow.trans h'.flow, (congrArg Prospect.ahead h.alike.after).trans h'.ahead,
    h.reports.le.trans (Nat.add_le_add_left h'.reports n)⟩

theorem Mended.mono {n n' : Nat} (h : Mended n rest o) (hn : n ≤ n') : Mended n' rest o :=
  ⟨h.flow, h.ahead, h.reports.trans hn⟩

/-- Statements without a fault are read up to the end. -/
theorem read_final {items : List Item} {d : Bool}
    (hread : ∀ follow rest d, Ends follow (⟨rest, d⟩ : Prospect).next →
      parser.Performs names (.repetition stmt follow) ⟨w ++ rest, d⟩
        ⟨.proceeding, items, ⟨rest, d && w.isEmpty⟩, 0⟩) (hrest : Final follow rest)
    (h : parser.Performs names (.repetition stmt follow) ⟨w ++ rest, d⟩ o) :
    Mended 0 rest o ∧ o.items = items := by
  obtain rfl := h.unique (hread follow rest d hrest.ends)
  exact ⟨⟨rfl, rfl, Nat.le_refl 0⟩, rfl⟩

/-! ## Blocks -/

/-- Behind the opening brace come statements and the closing brace. -/
theorem of_blockSteps {n : Nat} {c : Lexeme} (hc : c.id = closeBrace)
    (hmany : ∀ o₁, parser.Performs names (.repetition stmt (.single closeBrace)) v o₁ →
      Mended n (c :: rest) o₁)
    (h : parser.Performs names (.steps blockSteps follow .proceeding) v o) :
    Mended n rest o ∧ o.after.damaged = false := by
  obtain ⟨o₁, o₂, hfirst, hrest, rfl⟩ := h.of_cons
  have hmended := hmany o₁ hfirst.of_many
  rw [hmended.flow] at hrest
  obtain ⟨o₃, o₄, htoken, hend, rfl⟩ := hrest.of_cons
  obtain rfl := htoken.of_token hmended.ahead hc
  rw [hend.of_nil]
  exact ⟨⟨rfl, rfl, hmended.reports⟩, rfl⟩

theorem final_closeBrace {c : Lexeme} (hc : c.id = closeBrace) :
    Final (.single closeBrace) (c :: rest) :=
  .inr ⟨c, rest, rfl, hc, by decide⟩

theorem outer_closeBrace : Outer (.single closeBrace) := by
  intro id hid
  rw [TokenSet.contains_single, beq_iff_eq] at hid
  exact .inr hid.symm

/-- A block without a fault, behind its opening brace. -/
theorem of_blockSteps_spelled {c : Lexeme} (hw : Spelled names .statements w)
    (hc : c.id = closeBrace)
    (h : parser.Performs names (.steps blockSteps follow .proceeding) ⟨w ++ c :: rest, false⟩ o) :
    Mended 0 rest o ∧ o.after.damaged = false := by
  obtain ⟨items, -, hread⟩ := hw.reads
  exact of_blockSteps hc (fun o₁ h₁ => (read_final hread (final_closeBrace hc) h₁).1) h

/-- An expression with or without a fault, and a block. -/
theorem of_header {s' : Step} {b : List Lexeme} (hs : s.symbol = .rule expr)
    (hs' : s'.symbol = .rule block) (hu : Skipped u) (hb : Spelled names .block b)
    (h : parser.Performs names (.steps (s :: s' :: steps) follow .proceeding)
      ⟨u ++ (b ++ rest), false⟩ o) :
    ∃ n o', n ≤ 1 ∧ parser.Performs names (.steps steps follow .proceeding) ⟨rest, false⟩ o' ∧
      Alike o o' ∧ o.reports = n + o'.reports := by
  cases hb with
  | @body l c w hl hw hc =>
    have hstop : Stop (l :: (w ++ [c]) ++ rest) := .inr (by
      show stops.contains l.id = true
      rw [hl]
      decide)
    have hstopped := stopped_append (d := false) hu hstop
    have hin : ∀ s' ∈ [s], s'.symbol.Inside stops Inner := by
      intro s' hs'
      rw [List.mem_singleton.1 hs', hs]
      exact .inl rfl
    have hfirst : (parser.grammar.firstOf block).contains openBrace = true := by
      rw [Grammar.firstOf, parser, first_built]
      decide
    obtain ⟨n, o₁, o₂, hn, hblock, hrest, hflow, hafter, hreports⟩ :=
      Parser.Performs.of_opening shelters hin (by decide) hs'
        (body_grammar block) rfl rfl rfl hfirst rfl (congrArg Prospect.ahead hstopped) hl h
    have hassoc : (w ++ [c]).append rest = w ++ c :: rest := List.append_assoc w [c] rest
    rw [hassoc] at hblock
    obtain ⟨hmended, hfresh⟩ := of_blockSteps_spelled hw hc hblock
    have hafter₁ : o₁.after = ⟨rest, false⟩ := by
      rw [← hmended.ahead, ← hfresh]
    rw [hmended.flow, hafter₁] at hrest
    have hquiet := Nat.le_zero.1 hmended.reports
    exact ⟨n, o₂, hn, hrest, ⟨hflow, hafter⟩, by rw [hreports, hquiet]; rfl⟩

/-- An expression without a fault, and a rule behind it. -/
theorem of_operand {s' : Step} (hs : s.symbol = .rule expr) (hs' : s'.symbol = .rule r)
    (hu : Operand names u) (hrest : operatorTable.binary? (⟨rest, false⟩ : Prospect).next = none)
    (h : parser.Performs names (.steps (s :: s' :: steps) follow .proceeding)
      ⟨u ++ rest, false⟩ o) :
    ∃ follow' o₁ o₂, parser.Performs names (.rule r follow') ⟨rest, false⟩ o₁ ∧
      parser.Performs names (.steps steps follow o₁.flow) o₁.after o₂ ∧ Alike o o₂ ∧
      o.reports = o₁.reports + o₂.reports := by
  obtain ⟨o₁, o₂, hfirst, hmore, rfl⟩ := h.of_cons
  rw [hs] at hfirst
  obtain ⟨items, hread⟩ := hu.reads
  obtain rfl := hfirst.of_once.unique (hread _ rest false hrest)
  obtain ⟨o₃, o₄, hrule, hlast, rfl⟩ := hmore.of_cons
  rw [hs'] at hrule
  exact ⟨_, o₃, o₄, hrule.of_once, hlast, ⟨rfl, rfl⟩, by
    simp only [Errand.Outcome.reports_andThen, Nat.zero_add]⟩

/-! ## Behind `else` -/

/-- A rule that can stand behind `else`. -/
def ElseBody (names : Names) (b : List Lexeme) : Prop :=
  Spelled names .block b ∨ Spelled names .conditional b

/-- It begins so, and is read in front of what does not go on with it. -/
theorem ElseBody.reads (hb : ElseBody names u) :
    ∃ r item, ((⟨u, false⟩ : Prospect).next, r) ∈ elseRules ∧
      ∀ follow rest d, (⟨rest, d⟩ : Prospect).next ≠ elseWord →
        parser.Performs names (.rule r follow) ⟨u ++ rest, d⟩
          ⟨.proceeding, [item], ⟨rest, false⟩, 0⟩ := by
  rcases hb with hb | hb
  · obtain ⟨item, hopen, hread⟩ := hb.reads
    exact ⟨block, item, by rw [hopen]; decide, fun follow rest d _ => hread follow rest d⟩
  · obtain ⟨item, hif, hread⟩ := hb.reads
    exact ⟨ifStmt, item, by rw [hif]; decide, hread⟩

theorem ElseBody.statement (hb : ElseBody names u) : Spelled names .statement u :=
  hb.elim .braces .choice

theorem stops_of_else (hr : (id, r) ∈ elseRules) :
    stops.contains id = true ∧ id ≠ .eof ∧ id ≠ semicolon := by
  have hall : ∀ e ∈ elseRules, stops.contains e.1 = true ∧ e.1 ≠ .eof ∧ e.1 ≠ semicolon := by
    decide
  exact hall _ hr

theorem ElseBody.nonempty (hb : ElseBody names u) : u ≠ [] := by
  rintro rfl
  obtain ⟨r, item, hr, -⟩ := hb.reads
  exact (stops_of_else hr).2.1 rfl

theorem ElseBody.stop (hb : ElseBody names u) (rest : List Lexeme) :
    Stop (u ++ rest) ∧ (⟨u ++ rest, false⟩ : Prospect).next ≠ semicolon := by
  obtain ⟨r, item, hr, -⟩ := hb.reads
  have hnext : (⟨u ++ rest, false⟩ : Prospect).next = (⟨u, false⟩ : Prospect).next := by
    rw [Prospect.next_append false false, if_neg hb.nonempty]
  obtain ⟨hstop, -, hne⟩ := stops_of_else hr
  rw [Stop, hnext]
  exact ⟨.inr hstop, hne⟩

theorem ElseBody.choose (hb : ElseBody names u) (rest : List Lexeme) (d : Bool)
    (hr : ((⟨u, false⟩ : Prospect).next, r) ∈ elseRules) :
    ParseState.choose elseAlternatives (⟨u ++ rest, d⟩ : Prospect).ids
      = some (relay r (.single (⟨u ++ rest, d⟩ : Prospect).next)) := by
  obtain ⟨t, u', rfl⟩ := List.exists_cons_of_ne_nil hb.nonempty
  exact choose_elseBody hr _

/-- What stands behind `else` is read. -/
theorem of_elseBody (hb : ElseBody names u) (hrest : (⟨rest, false⟩ : Prospect).next ≠ elseWord)
    (h : parser.Performs names (.rule elseBody follow) ⟨u ++ rest, false⟩ o) :
    o.after = ⟨rest, false⟩ ∧ o.reports = 0 := by
  obtain ⟨r, item, hr, hread⟩ := hb.reads
  obtain ⟨follow', o₁, h₁, hreports, halike⟩ :=
    of_chosen (body_grammar elseBody) (hb.choose rest false hr) rfl h
  obtain rfl := h₁.unique (hread follow' rest false hrest)
  exact ⟨halike.after, hreports⟩

/-- Skipping stops at once or further on, but not at what may stand behind `else`. -/
theorem of_elseBody_none (hbrace : v.next ≠ openBrace) (hif : v.next ≠ ifWord)
    (h : parser.Performs names (.rule elseBody follow) v o) :
    (∃ a o₁, v.damaged = false ∧
      ParseState.choose elseAlternatives (v.blamed names parser.sync).after.ids = some a ∧
      parser.Performs names (.steps a.steps follow .proceeding) (v.blamed names parser.sync).after
        o₁ ∧ Alike o o₁ ∧ o.reports = (v.blamed names parser.sync).reports + o₁.reports) ∨
    (∀ a, ParseState.choose elseAlternatives (v.blamed names parser.sync).after.ids = some a →
      v.damaged = false →
      a.first.contains (v.blamed names parser.sync).after.next = false) ∧
      Alike o (v.blamed names parser.sync) ∧ o.reports = (v.blamed names parser.sync).reports := by
  have hchoose : ParseState.choose elseAlternatives v.ids = none :=
    (choose_else v.ids).trans ((if_neg hbrace).trans (if_neg hif))
  rcases h.of_no_choice (body_grammar elseBody) hchoose with
    ⟨a, o₁, hd, hs, -, h₁, rfl⟩ | ⟨ha, rfl⟩
  · exact .inl ⟨a, o₁, hd, hs, h₁, ⟨rfl, rfl⟩, rfl⟩
  · exact .inr ⟨ha, ⟨rfl, rfl⟩, rfl⟩

/-- A foreign token behind `else` is skipped. -/
theorem of_elseBody_foreign (hx : stops.contains x.id = false) (hb : ElseBody names u)
    (hrest : (⟨rest, false⟩ : Prospect).next ≠ elseWord)
    (h : parser.Performs names (.rule elseBody follow) ⟨x :: (u ++ rest), false⟩ o) :
    o.after = ⟨rest, false⟩ ∧ o.reports = 1 := by
  have hne : ∀ id, stops.contains id = true → x.id ≠ id := by
    rintro id hid rfl
    exact absurd (hid.symm.trans hx) nofun
  have hblamed : ((⟨x :: (u ++ rest), false⟩ : Prospect).blamed names parser.sync).after
      = ⟨u ++ rest, true⟩ :=
    (Prospect.after_blamed rfl).trans
      (stopped_append (u := [x]) (by simpa [Skipped] using hx) (hb.stop rest).1)
  obtain ⟨r, item, hr, hread⟩ := hb.reads
  have hchoose := hb.choose rest true hr
  rcases of_elseBody_none (v := ⟨x :: (u ++ rest), false⟩) (hne openBrace (by decide))
      (hne ifWord (by decide)) h with
    ⟨a, o₁, -, hs, h₁, halike, hreports⟩ | ⟨hall, -⟩
  · rw [hblamed] at hs h₁
    cases hs.symm.trans hchoose
    obtain ⟨follow', h₁⟩ := of_relay h₁
    obtain rfl := h₁.unique (hread follow' rest true hrest)
    exact ⟨halike.after, hreports.trans (congrArg (· + 0) (Prospect.reports_blamed rfl))⟩
  · have hfirst := hall _ (hblamed ▸ hchoose) rfl
    rw [hblamed, relay, TokenSet.contains_single] at hfirst
    simp at hfirst

/-- The token `else` is taken where it may stand. -/
theorem of_elseClause (hx : x.id = elseWord)
    (h : parser.Performs names (.steps [⟨.opt elseClause, ∅, true⟩] follow .proceeding)
      ⟨x :: rest, false⟩ o) :
    ∃ follow' o', parser.Performs names (.rule elseBody follow') ⟨rest, false⟩ o' ∧ Alike o o' ∧
      o.reports = o'.reports := by
  obtain ⟨o₁, o₂, hopt, hend, rfl⟩ := h.of_cons
  rw [hend.of_nil]
  have hnext : (⟨x :: rest, false⟩ : Prospect).next = elseWord := hx
  rcases hopt.of_opt with ⟨-, hclause⟩ | ⟨hfirst, -⟩
  · obtain ⟨o₃, h₃, hreports₃, halike₃⟩ := of_production (body_grammar elseClause) rfl hclause
    obtain ⟨o₄, o₅, htoken, h₅, rfl⟩ := h₃.of_cons
    obtain rfl := htoken.of_token rfl hx
    obtain ⟨follow', h₅⟩ := of_relay h₅
    exact ⟨follow', o₅, h₅, ⟨halike₃.flow, halike₃.after⟩, hreports₃.trans (Nat.zero_add _)⟩
  · rw [hnext, Grammar.firstOf, parser, first_built] at hfirst
    exact absurd hfirst (by decide)

/-- Anything else leaves the condition without an `else`. -/
theorem of_no_elseClause (hrest : (⟨rest, false⟩ : Prospect).next ≠ elseWord)
    (h : parser.Performs names (.steps [⟨.opt elseClause, ∅, true⟩] follow .proceeding)
      ⟨rest, false⟩ o) : o.after = ⟨rest, false⟩ ∧ o.reports = 0 := by
  obtain rfl := h.unique (reads_no_elseClause hrest)
  exact ⟨rfl, rfl⟩

end Demo

end FrontEnd
