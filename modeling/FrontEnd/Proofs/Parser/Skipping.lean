import FrontEnd.Proofs.Parser.Shelter
import Mathlib.Data.List.DropRight

/-!
# Productions with a token where skipping stops

A production goes on behind what was skipped with the first symbol that can take the token where
skipping stopped. So a production in which symbols without such a token are followed by one that
has it is taken up again there, and there is at most one report.

- `Parser.Performs.of_inside_append`: symbols within the rules, in front of others;
- `Parser.Performs.of_closing`: such symbols in front of a last token;
- `Parser.Performs.of_opening`: such symbols in front of a rule that begins with a token.
-/

namespace FrontEnd

namespace Prospect

variable {sync : TokenSet} {v v' : Prospect} {t : Lexeme} {rest : List Lexeme}

@[simp] theorem stopped_stopped (sync : TokenSet) (v : Prospect) :
    (v.stopped sync).stopped sync = v.stopped sync := by
  rw [stopped, stopped, List.dropWhile_idempotent _]

/-- At a token of `sync` nothing is skipped. -/
theorem stopped_of_cons (hv : v.ahead = t :: rest) (ht : sync.contains t.id = true) :
    v.stopped sync = ⟨t :: rest, true⟩ := by
  rw [stopped, hv, List.dropWhile_cons_of_neg (by simp [ht])]

end Prospect

namespace Parser

variable {p : Parser} {names : Names} {rules : Nat → Prop} {v v' : Prospect} {o : Errand.Outcome}
  {follow : TokenSet} {steps tail : List Step} {s : Step} {flow : Flow} {id : TokenId} {r n : Nat}
  {t : Lexeme} {rest : List Lexeme}

/-- From `v` the symbols of a production lead on, with nothing skipped, or to where skipping
stops. -/
structure Leads (p : Parser) (v : Prospect) (flow : Flow) (v' : Prospect) (reports : Nat) :
    Prop where
  stopped : v'.stopped p.sync = v.stopped p.sync
  cases : flow = .proceeding ∧ v'.damaged = false ∧ reports = 0 ∨
    flow = .recovering ∧ v' = v.stopped p.sync ∧ reports = 1

theorem Leads.refl (hv : v.damaged = false) : p.Leads v .proceeding v 0 :=
  ⟨rfl, .inl ⟨rfl, hv, rfl⟩⟩

theorem CleanOrSpoiled.leads {e : Errand} (h : p.CleanOrSpoiled names rules e v o) :
    p.Leads v o.flow o.after o.reports := by
  rcases h with ⟨u, h⟩ | h
  · exact ⟨(Prospect.stopped_of_append _ h.ahead h.inside).symm,
      .inl ⟨h.flow, h.fresh, h.quiet⟩⟩
  · exact ⟨by rw [h.after, Prospect.stopped_stopped], .inr ⟨h.flow, h.after, h.reports⟩⟩

/-- Behind symbols within the rules the rest of the production is entered or not, as the next token
says. -/
theorem Performs.of_inside_append (hs : p.grammar.Shelters p.sync rules)
    (hin : ∀ s ∈ steps, s.symbol.Inside p.sync rules) (hv : v.damaged = false)
    (h : p.Performs names (.steps (steps ++ tail) follow .proceeding) v o) :
    ∃ flow v' n o', p.Leads v flow v' n ∧ p.Performs names (.steps tail follow flow) v' o' ∧
      o.flow = o'.flow ∧ o.after = o'.after ∧ o.reports = n + o'.reports := by
  induction steps generalizing v o with
  | nil => exact ⟨.proceeding, v, 0, o, .refl hv, h, rfl, rfl, (Nat.zero_add _).symm⟩
  | cons s steps ih =>
    obtain ⟨o₁, o₂, hfirst, hrest, rfl⟩ := h.of_cons
    have hin' : ∀ s' ∈ steps, s'.symbol.Inside p.sync rules := fun s' hs' =>
      hin s' (List.mem_cons_of_mem s hs')
    have hleads := (hfirst.clean_or_spoiled hs (hin s List.mem_cons_self) hv).leads
    rcases hleads.cases with ⟨hflow, hfresh, hn⟩ | ⟨hflow, hafter, hn⟩
    · rw [hflow] at hrest
      obtain ⟨flow, v', n, o', ⟨hstopped, hcases⟩, hperf, hf, ha, hr⟩ := ih hin' hfresh hrest
      rw [hleads.stopped] at hstopped hcases
      refine ⟨flow, v', n, o', ⟨hstopped, hcases⟩, hperf, hf, ha, ?_⟩
      simp [hn, hr]
    · rw [hflow, hafter] at hrest
      refine ⟨.recovering, v.stopped p.sync, 1, o₂,
        ⟨Prospect.stopped_stopped .., .inr ⟨rfl, rfl, rfl⟩⟩, ?_, rfl, rfl, by simp [hn]⟩
      -- All of `steps` is left out.
      clear ih hleads hfirst h hin
      induction steps with
      | nil => exact hrest
      | cons s' steps ih' =>
        have hcannot := canStart_of_inside hs (hin' s' List.mem_cons_self)
          (Prospect.next_stopped p.sync v)
        rcases hrest.of_cons_recovering with ⟨-, hrest⟩ | ⟨hstart, -⟩
        · exact ih' hrest fun s'' hs'' => hin' s'' (List.mem_cons_of_mem s' hs'')
        · exact absurd (hstart.symm.trans hcannot) nofun

/-- A token at which skipping stops, behind symbols that lead there. -/
theorem Leads.token (h : p.Leads v flow v' n) (hid : p.sync.contains id = true)
    (hstep : s.symbol = .token id)
    (hperf : p.Performs names (.steps (s :: tail) follow flow) v' o) :
    (∃ t rest n' o', (v.stopped p.sync).ahead = t :: rest ∧ t.id = id ∧ n + n' ≤ 1 ∧
      p.Performs names (.steps tail follow .proceeding) ⟨rest, false⟩ o' ∧ o.flow = o'.flow ∧
      o.after = o'.after ∧ o.reports = n' + o'.reports) ∨
    ((v.stopped p.sync).next ≠ id ∧ ∃ n' o', n + n' = 1 ∧
      p.Performs names (.steps tail follow .recovering) (v.stopped p.sync) o' ∧
      o.flow = o'.flow ∧ o.after = o'.after ∧ o.reports = n' + o'.reports) := by
  -- Either nothing has been skipped before the symbol, or skipping has stopped already.
  rcases h.cases with ⟨rfl, hfresh, rfl⟩ | ⟨rfl, rfl, rfl⟩
  · obtain ⟨o₁, o₂, hfirst, hrest, rfl⟩ := hperf.of_cons
    rw [hstep] at hfirst
    have hblamed : (v'.blamed names p.sync).after = v.stopped p.sync :=
      (Prospect.after_blamed hfresh).trans h.stopped
    cases hfirst with
    | @token _ _ _ t rest hahead ht =>
      have hstopped := h.stopped.symm.trans (Prospect.stopped_of_cons hahead (ht ▸ hid))
      exact .inl ⟨t, rest, 0, o₂, congrArg Prospect.ahead hstopped, ht, by omega, hrest, rfl, rfl,
        rfl⟩
    | @late _ _ _ t rest _ hahead ht =>
      rw [hblamed] at hahead
      refine .inl ⟨t, rest, 1, o₂, hahead, ht, by omega, hrest, rfl, rfl, ?_⟩
      simp [Prospect.reports_blamed hfresh]
    | absent _ hnext =>
      rw [hblamed] at hnext
      rw [Prospect.flow_blamed, hblamed] at hrest
      refine .inr ⟨hnext, 1, o₂, rfl, hrest, rfl, rfl, ?_⟩
      simp [Prospect.reports_blamed hfresh]
  · rcases hperf.of_cons_recovering with ⟨hcannot, hrest⟩ | ⟨hcan, hperf⟩
    · rw [hstep] at hcannot
      exact .inr ⟨Ne.symm (beq_eq_false_iff_ne.1 hcannot), 0, o, rfl, hrest, rfl, rfl,
        (Nat.zero_add _).symm⟩
    · obtain ⟨o₁, o₂, hfirst, hrest, rfl⟩ := hperf.of_cons
      rw [hstep] at hcan hfirst
      have hnext : (v.stopped p.sync).next = id := (beq_iff_eq.1 hcan).symm
      cases hfirst with
      | @token _ _ _ t rest hahead ht =>
        exact .inl ⟨t, rest, 0, o₂, hahead, ht, by omega, hrest, rfl, rfl, rfl⟩
      | late hid' _ _ | absent hid' _ => exact absurd hnext hid'

/-- Symbols within the rules, and a last token at which skipping stops: the token is found, or
skipping has stopped in front of another one. -/
theorem Performs.of_closing (hs : p.grammar.Shelters p.sync rules)
    (hin : ∀ s ∈ steps, s.symbol.Inside p.sync rules) (hid : p.sync.contains id = true)
    (hstep : s.symbol = .token id) (hv : v.damaged = false)
    (h : p.Performs names (.steps (steps ++ [s]) follow .proceeding) v o) :
    (∃ t rest, (v.stopped p.sync).ahead = t :: rest ∧ t.id = id ∧ o.after = ⟨rest, false⟩ ∧
      o.reports ≤ 1) ∨
    ((v.stopped p.sync).next ≠ id ∧ o.after = v.stopped p.sync ∧ o.reports = 1) := by
  obtain ⟨flow, v', n, o₁, hleads, hperf, -, hafter, hreports⟩ := h.of_inside_append hs hin hv
  rcases hleads.token hid hstep hperf with
    ⟨t, rest, n', o₂, hahead, ht, hn, hend, -, hafter₁, hreports₁⟩ |
    ⟨hnext, n', o₂, hn, hend, -, hafter₁, hreports₁⟩
  · rw [hend.of_nil] at hafter₁ hreports₁
    rw [Nat.add_zero] at hreports₁
    exact .inl ⟨t, rest, hahead, ht, hafter.trans hafter₁, by omega⟩
  · rw [hend.of_nil] at hafter₁ hreports₁
    rw [Nat.add_zero] at hreports₁
    exact .inr ⟨hnext, hafter.trans hafter₁, by omega⟩

/-- The only alternative of a rule is chosen whatever comes. -/
theorem choose_singleton {a : Alternative} (ha : a.guard = []) (ids : List TokenId) :
    ParseState.choose [a] ids = some a := by
  have hguard : [a].find? (fun a => !a.guard.isEmpty && ParseState.guardAhead ids a.guard)
      = none := by
    simp [ha]
  rw [ParseState.choose, hguard, Option.none_or]
  generalize ids.headD .eof = id
  cases hfirst : a.first.contains id <;> cases hnullable : a.nullable <;>
    simp [ParseState.candidates, ParseState.fallback, ha, hfirst, hnullable]

/-- Symbols within the rules, and a rule that begins with a token at which skipping stops: if
skipping stops at that token, the rest of the rule is parsed. -/
theorem Performs.of_opening (hs : p.grammar.Shelters p.sync rules)
    (hin : ∀ s ∈ steps, s.symbol.Inside p.sync rules) (hid : p.sync.contains id = true)
    {a : Alternative} {s' : Step} {steps' : List Step} (hstep : s.symbol = .rule r)
    (hb : p.grammar.body r = .sequence [a]) (ha : a.guard = []) (hsteps : a.steps = s' :: steps')
    (hstep' : s'.symbol = .token id) (hfirst : (p.grammar.firstOf r).contains id = true)
    (hv : v.damaged = false) (hahead : (v.stopped p.sync).ahead = t :: rest) (ht : t.id = id)
    (h : p.Performs names (.steps (steps ++ s :: tail) follow .proceeding) v o) :
    ∃ n o₁ o₂, n ≤ 1 ∧
      p.Performs names (.steps steps' (followOf s follow) .proceeding) ⟨rest, false⟩ o₁ ∧
      p.Performs names (.steps tail follow o₁.flow) o₁.after o₂ ∧ o.flow = o₂.flow ∧
      o.after = o₂.after ∧ o.reports = n + o₁.reports + o₂.reports := by
  obtain ⟨flow, v', n, o', hleads, hperf, hflow, hafter, hreports⟩ := h.of_inside_append hs hin hv
  -- The rest of the rule, when the token has been taken.
  have hrule : p.Performs names (.steps (s :: tail) follow .proceeding) v' o' →
      ∃ o₁ o₂, p.Performs names (.steps (s' :: steps') (followOf s follow) .proceeding) v' o₁ ∧
        p.Performs names (.steps tail follow o₁.flow) o₁.after o₂ ∧ o'.flow = o₂.flow ∧
        o'.after = o₂.after ∧ o'.reports = o₁.reports + o₂.reports := by
    intro hperf
    obtain ⟨o₁, o₂, hrule, hrest, rfl⟩ := hperf.of_cons
    rw [hstep] at hrule
    obtain ⟨o₃, hbody, rfl⟩ := hrule.of_once.of_choice hb (choose_singleton ha _)
    rw [hsteps] at hbody
    exact ⟨o₃, o₂, hbody, hrest, rfl, rfl, rfl⟩
  rcases hleads.cases with ⟨rfl, -, rfl⟩ | ⟨rfl, rfl, rfl⟩
  · obtain ⟨o₁, o₂, hbody, hrest, hflow', hafter', hreports'⟩ := hrule hperf
    rcases hleads.token hid hstep' hbody with
      ⟨t', rest', n, o₃, hahead', -, hn, hbody, hflow₃, hafter₃, hreports₃⟩ | ⟨hnext, -⟩
    · rw [hahead] at hahead'
      cases hahead'
      rw [hflow₃, hafter₃] at hrest
      exact ⟨n, o₃, o₂, by omega, hbody, hrest, hflow.trans hflow', hafter.trans hafter',
        by omega⟩
    · exact absurd ((Prospect.next_of_cons hahead).trans ht) hnext
  · rcases hperf.of_cons_recovering with ⟨hcannot, -⟩ | ⟨-, hperf⟩
    · rw [hstep, Prospect.next_of_cons hahead, ht] at hcannot
      exact absurd (hfirst.symm.trans hcannot) nofun
    · obtain ⟨o₁, o₂, hbody, hrest, hflow', hafter', hreports'⟩ := hrule hperf
      obtain ⟨o₃, o₄, htoken, hbody', rfl⟩ := hbody.of_cons
      rw [hstep'] at htoken
      obtain rfl := htoken.of_token hahead ht
      refine ⟨1, o₄, o₂, Nat.le_refl 1, hbody', hrest, hflow.trans hflow', hafter.trans hafter', ?_⟩
      rw [hreports, hreports', Errand.Outcome.reports_andThen, Nat.zero_add, Nat.add_assoc]

end Parser

end FrontEnd
