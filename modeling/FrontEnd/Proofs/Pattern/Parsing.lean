import FrontEnd.Proofs.Pattern.Classes
import FrontEnd.Proofs.Text.Measure

/-!
# Patterns are read by their grammar

Between two parts the state of the reader is known by derivations: one for every group that is open,
of what has been read in it. What comes next either goes on with the innermost one, opens a group or
closes one, or no pattern has it there. So a text that is read to its end has a derivation, and
nothing else has one.

- `PatternReader.behind`: the state of the reader, from the derivations of the open groups;
- `PatternReader.run_atom`: **the text of a derivation is read as its value**;
- `PatternReader.outcome`: **what is read is derived, and every error names a fault**;
- `Pattern.ofString_iff_derives`: **a pattern is read if and only if it is derived**, as the value
  of its one derivation, and an error points at the character that is at fault.
-/

namespace FrontEnd

namespace PatternSyntax

/-! ## Derivations that grow -/

theorem concatText_append (rs rs' : List Repeat) :
    concatText (rs ++ rs') = concatText rs ++ concatText rs' := by
  induction rs with
  | nil => rw [concatText, List.nil_append, List.nil_append]
  | cons r rs ih => rw [List.cons_append, concatText, concatText, ih, List.append_assoc]

theorem concatValues_append (rs rs' : List Repeat) :
    concatValues (rs ++ rs') = concatValues rs ++ concatValues rs' := by
  induction rs with
  | nil => rw [concatValues, List.nil_append, List.nil_append]
  | cons r rs ih => rw [List.cons_append, concatValues, concatValues, ih, List.cons_append]

theorem earlierText_append (cs cs' : List (List Repeat)) :
    earlierText (cs ++ cs') = earlierText cs ++ earlierText cs' := by
  induction cs with
  | nil => rw [earlierText, List.nil_append, List.nil_append]
  | cons c cs ih =>
    rw [List.cons_append, earlierText, earlierText, ih, List.append_assoc, List.cons_append]

theorem earlierValues_append (cs cs' : List (List Repeat)) :
    earlierValues (cs ++ cs') = earlierValues cs ++ earlierValues cs' := by
  induction cs with
  | nil => rw [earlierValues, List.nil_append, List.nil_append]
  | cons c cs ih => rw [List.cons_append, earlierValues, earlierValues, ih, List.cons_append]

namespace Repeat

/-- A repetition sign more. -/
def under : Repeat → Sign → Repeat
  | .mk atom signs, s => .mk atom (signs ++ [s])

theorem text_under (r : Repeat) (s : Sign) : (r.under s).text = r.text ++ [s.char] := by
  obtain ⟨atom, signs⟩ := r
  simp only [under, text, List.map_append, List.map_cons, List.map_nil, List.append_assoc]

theorem value_under (r : Repeat) (s : Sign) : (r.under s).value = s.wrap r.value := by
  obtain ⟨atom, signs⟩ := r
  simp only [under, value, List.foldl_append, List.foldl_cons, List.foldl_nil]

end Repeat

namespace Alternation

/-- Nothing. -/
def nothing : Alternation := ⟨[], []⟩

/-- A part more. -/
def add (a : Alternation) (r : Repeat) : Alternation := ⟨a.earlier, a.last ++ [r]⟩

/-- A bar more. -/
def bar (a : Alternation) : Alternation := ⟨a.earlier ++ [a.last], []⟩

theorem last_cases (a : Alternation) : a.last = [] ∨ ∃ b r, a = add b r := by
  obtain ⟨earlier, last⟩ := a
  rcases List.eq_nil_or_concat last with rfl | ⟨init, r, rfl⟩
  · exact .inl rfl
  · exact .inr ⟨⟨earlier, init⟩, r, by rw [add, List.concat_eq_append]⟩

/-- What the reader keeps of the alternatives. -/
def group (a : Alternation) (openedAt : Nat) : PatternGroup :=
  ⟨openedAt, (earlierValues a.earlier).reverse, (concatValues a.last).reverse⟩

variable (a : Alternation) (r : Repeat) (openedAt : Nat)

theorem text_nothing : nothing.text = [] := by
  rw [text, nothing, earlierText, concatText, List.nil_append]

theorem text_add : (a.add r).text = a.text ++ r.text := by
  simp only [text, add, concatText_append, concatText, List.append_nil, List.append_assoc]

theorem text_bar : a.bar.text = a.text ++ ['|'] := by
  simp only [text, bar, earlierText_append, earlierText, concatText, List.append_nil,
    List.append_assoc]

theorem group_nothing : nothing.group openedAt = .opened openedAt := by
  rw [group, nothing, earlierValues, concatValues]
  rfl

theorem group_add : (a.add r).group openedAt = (a.group openedAt).add r.value := by
  simp only [group, add, concatValues_append, concatValues, List.reverse_append,
    List.reverse_singleton]
  rfl

theorem group_bar : a.bar.group openedAt = (a.group openedAt).endAlternative := by
  simp only [group, bar, earlierValues_append, earlierValues, concatValues, List.reverse_append,
    PatternGroup.endAlternative, List.reverse_reverse]
  rfl

/-- The reader's pattern is the one that is meant. -/
theorem toPattern_group : (a.group openedAt).toPattern = a.value := by
  rw [PatternGroup.toPattern, group, PatternGroup.endAlternative, List.reverse_reverse,
    List.reverse_cons, List.reverse_reverse, value]

end Alternation

/-- What stands in front of the innermost group that is open, innermost first. -/
def openText : List Alternation → List Char
  | [] => []
  | a :: outer => openText outer ++ a.text ++ ['(']

/-- What has been read. -/
def readText (outer : List Alternation) (a : Alternation) : List Char := openText outer ++ a.text

theorem readText_nothing : readText [] .nothing = [] := by
  rw [readText, Alternation.text_nothing]
  rfl

section

variable (outer : List Alternation) (a b : Alternation)

theorem readText_add (r : Repeat) : readText outer (a.add r) = readText outer a ++ r.text := by
  rw [readText, Alternation.text_add, ← List.append_assoc, readText]

theorem readText_bar : readText outer a.bar = readText outer a ++ ['|'] := by
  rw [readText, Alternation.text_bar, ← List.append_assoc, readText]

theorem readText_open : readText (a :: outer) .nothing = readText outer a ++ ['('] := by
  rw [readText, Alternation.text_nothing, List.append_nil, openText, readText]

/-- A group becomes a part when it is closed. -/
theorem readText_close : readText outer (b.add (.mk (.group a.earlier a.last) []))
    = readText (b :: outer) a ++ [')'] := by
  rw [readText_add, readText, readText, openText, Repeat.text, Atom.text]
  simp only [Alternation.text, List.map_nil, List.append_nil, List.append_assoc,
    List.cons_append, List.nil_append]

end

/-- Offset of the parenthesis that opens the innermost group. -/
def openedAt : List Alternation → Nat
  | [] => 0
  | a :: outer => Text.size (readText outer a)

/-- What the reader keeps of the groups around the innermost one. -/
def openGroups : List Alternation → List PatternGroup
  | [] => []
  | a :: outer => a.group (openedAt outer) :: openGroups outer

/-- What is wrong with a text, and where. -/
inductive Fault : List Char → PatternError → Prop where
  | empty : Fault [] .empty
  /-- A closing parenthesis outside of all groups. -/
  | unmatchedParen (a : Alternation) (k : List Char) :
    Fault (a.text ++ ')' :: k) (.unmatchedParen (Text.size a.text))
  /-- The text ends in a group. -/
  | unclosedGroup (outer : List Alternation) (a inside : Alternation) :
    Fault (readText outer a ++ '(' :: inside.text) (.unclosedGroup (Text.size (readText outer a)))
  /-- A repetition sign where an alternative begins. -/
  | nothingToRepeat (outer : List Alternation) (a : Alternation) (h : a.last = []) (s : Sign)
    (k : List Char) : Fault (readText outer a ++ s.char :: k)
      (.nothingToRepeat s.char (Text.size (readText outer a)))
  | cls (outer : List Alternation) (a : Alternation) {k : List Char} {e : PatternError}
    (h : ClassFault (Text.size (readText outer a)) k e) : Fault (readText outer a ++ '[' :: k) e
  | unknownEscape (u : List Char) (c : Char) (k : List Char) (h : ∀ e : Escape, e.letter ≠ c) :
    Fault (u ++ '\\' :: c :: k) (.unknownEscape c)
  | trailingBackslash (u : List Char) : Fault (u ++ ['\\']) .trailingBackslash

/-- What comes of reading a text. -/
inductive Outcome : List Char → Except PatternError Pattern → Prop where
  | derived (a : Alternation) : Outcome a.text (.ok a.value)
  | fault {text : List Char} {e : PatternError} (h : Fault text e) : Outcome text (.error e)

end PatternSyntax

open PatternSyntax

namespace PatternReader

/-! ## Reading to the end -/

/-- Reads to the end. -/
def run (r : PatternReader) : List Char → Except PatternError Pattern
  | [] => r.finish
  | c :: cs => do
    let r ← r.step c
    r.run cs

theorem run_eq (r : PatternReader) (cs : List Char) :
    r.run cs = (do let r ← cs.foldlM step r; r.finish) := by
  induction cs generalizing r with
  | nil => rfl
  | cons c cs ih =>
    rw [run, List.foldlM_cons]
    cases r.step c with
    | error e => rfl
    | ok r' => exact ih r'

section Steps

variable {r r' : PatternReader} {c : Char} {cs : List Char} {e : PatternError}

theorem run_step (h : r.step c = .ok r') : r.run (c :: cs) = r'.run cs := by
  rw [run, h]
  rfl

theorem run_error (h : r.step c = .error e) : r.run (c :: cs) = .error e := by
  rw [run, h]
  rfl

theorem step_cls {offset : Nat} {group : PatternGroup} {outer : List PatternGroup}
    {reader reader' : ClassReader} (h : reader.step c = .ok (.inl reader')) :
    step ⟨offset, group, outer, .cls reader⟩ c
      = .ok ⟨offset + c.utf8Size, group, outer, .cls reader'⟩ := by
  simp only [step, read, h]
  rfl

theorem step_cls_close {offset : Nat} {group : PatternGroup} {outer : List PatternGroup}
    {reader : ClassReader} {cls : CharClass} (h : reader.step c = .ok (.inr cls)) :
    step ⟨offset, group, outer, .cls reader⟩ c
      = .ok ⟨offset + c.utf8Size, group.add (.chars cls), outer, .plain⟩ := by
  simp only [step, read, h]
  rfl

theorem step_cls_error {offset : Nat} {group : PatternGroup} {outer : List PatternGroup}
    {reader : ClassReader} (h : reader.step c = .error e) :
    step ⟨offset, group, outer, .cls reader⟩ c = .error e := by
  simp only [step, read, h]
  rfl

/-- Reading a class is reading on behind it. -/
theorem run_scan {cls : CharClass} {k : List Char} (offset : Nat) (group : PatternGroup)
    (outer : List PatternGroup) (reader : ClassReader) (h : reader.scan cs = .ok (cls, k)) :
    ∃ u, cs = u ++ k ∧ run ⟨offset, group, outer, .cls reader⟩ cs
      = run ⟨offset + Text.size u, group.add (.chars cls), outer, .plain⟩ k := by
  induction cs generalizing offset reader with
  | nil => cases h
  | cons c cs ih =>
    cases hstep : reader.step c with
    | error e =>
      rw [ClassReader.scan_error hstep] at h
      cases h
    | ok made =>
      cases made with
      | inl reader' =>
        rw [ClassReader.scan_step hstep] at h
        obtain ⟨u, rfl, hrun⟩ := ih (offset + c.utf8Size) reader' h
        refine ⟨c :: u, rfl, ?_⟩
        rw [run_step (step_cls hstep), hrun, Text.size_cons, Nat.add_assoc]
      | inr cls' =>
        rw [ClassReader.scan_stop hstep] at h
        cases h
        refine ⟨[c], rfl, ?_⟩
        rw [run_step (step_cls_close hstep), Text.size_cons, Text.size_nil, Nat.add_zero]

theorem run_scan_error (offset : Nat) (group : PatternGroup) (outer : List PatternGroup)
    (reader : ClassReader) (h : reader.scan cs = .error e) :
    run ⟨offset, group, outer, .cls reader⟩ cs = .error e := by
  induction cs generalizing offset reader with
  | nil =>
    cases h
    rfl
  | cons c cs ih =>
    cases hstep : reader.step c with
    | error e' =>
      rw [ClassReader.scan_error hstep] at h
      cases h
      exact run_error (step_cls_error hstep)
    | ok made =>
      cases made with
      | inl reader' =>
        rw [ClassReader.scan_step hstep] at h
        rw [run_step (step_cls hstep)]
        exact ih _ reader' h
      | inr cls' =>
        rw [ClassReader.scan_stop hstep] at h
        cases h

end Steps

/-! ## One atom -/

/-- Between two parts, when all this has been read. -/
def behind (outer : List Alternation) (a : Alternation) : PatternReader :=
  ⟨Text.size (readText outer a), a.group (openedAt outer), openGroups outer, .plain⟩

section Atoms

variable {outer : List Alternation} {a b : Alternation} {c : Char} {cs : List Char}

theorem start_eq : start = behind [] .nothing := by
  rw [behind, readText_nothing, Alternation.group_nothing]
  rfl

theorem size_snoc (u : List Char) (c : Char) : Text.size (u ++ [c]) = Text.size u + c.utf8Size := by
  rw [Text.size_append, Text.size_cons, Text.size_nil, Nat.add_zero]

theorem text_unsigned (x : Atom) : (Repeat.mk x []).text = x.text := by
  rw [Repeat.text, List.map_nil, List.append_nil]

theorem value_unsigned (x : Atom) : (Repeat.mk x []).value = x.value := by
  rw [Repeat.value, List.foldl_nil]

/-- Behind one more atom. -/
theorem behind_add (x : Atom) : behind outer (a.add (.mk x []))
    = ⟨Text.size (readText outer a) + Text.size x.text, (a.group (openedAt outer)).add x.value,
      openGroups outer, .plain⟩ := by
  rw [behind, readText_add, Alternation.group_add, text_unsigned, value_unsigned, Text.size_append]

theorem step_bar : step (behind outer a) '|' = .ok (behind outer a.bar) := by
  rw [behind, behind, readText_bar, size_snoc, Alternation.group_bar]
  rfl

theorem step_open : step (behind outer a) '(' = .ok (behind (a :: outer) .nothing) := by
  rw [behind, behind, readText_open, size_snoc, Alternation.group_nothing]
  rfl

theorem step_close : step (behind (b :: outer) a) ')'
    = .ok (behind outer (b.add (.mk (.group a.earlier a.last) []))) := by
  have hvalue : (Atom.group a.earlier a.last).value = a.value := by
    rw [Atom.value, Alternation.value]
  rw [behind, behind, readText_close, size_snoc, Alternation.group_add, value_unsigned, hvalue,
    ← Alternation.toPattern_group a (openedAt (b :: outer))]
  rfl

theorem run_any :
    run (behind outer a) ('.' :: cs) = run (behind outer (a.add (.mk .any []))) cs := by
  rw [behind_add, Atom.text, Atom.value]
  rfl

theorem readPlain_literal {r : PatternReader} (h : c ∉ specials) :
    r.readPlain c = .ok (r.add (.chars (.single c))) := by
  unfold readPlain
  split
  case h_10 => rfl
  all_goals exact absurd (by decide) h

theorem run_literal (h : c ∉ specials) :
    run (behind outer a) (c :: cs) = run (behind outer (a.add (.mk (.literal c h) []))) cs := by
  have hstep : step (behind outer a) c = .ok (behind outer (a.add (.mk (.literal c h) []))) := by
    rw [behind_add, Atom.text, Atom.value, Text.size_cons, Text.size_nil, Nat.add_zero]
    show ((behind outer a).readPlain c).map _ = _
    rw [readPlain_literal h]
    rfl
  exact run_step hstep

/-- Behind a backslash between two parts. -/
def escaping (outer : List Alternation) (a : Alternation) : PatternReader :=
  ⟨Text.size (readText outer a) + '\\'.utf8Size, a.group (openedAt outer), openGroups outer,
    .escape⟩

theorem step_backslash : step (behind outer a) '\\' = .ok (escaping outer a) := rfl

theorem run_escape (e : Escape) : run (behind outer a) ('\\' :: e.letter :: cs)
    = run (behind outer (a.add (.mk (.escape e) []))) cs := by
  have hstep : step (escaping outer a) e.letter
      = .ok (behind outer (a.add (.mk (.escape e) []))) := by
    rw [behind_add, Atom.text, Atom.value]
    show ((escapedClass e.letter).map _).map _ = _
    rw [escapedClass_letter, Text.size_cons, Text.size_cons, Text.size_nil, Nat.add_zero,
      ← Nat.add_assoc]
    rfl
  rw [run_step step_backslash, run_step hstep]

theorem run_unknown (h : ∀ e : Escape, e.letter ≠ c) :
    run (behind outer a) ('\\' :: c :: cs) = .error (.unknownEscape c) := by
  have hstep : step (escaping outer a) c = .error (.unknownEscape c) := by
    show ((escapedClass c).map _).map _ = _
    rw [escapedClass_unknown h]
    rfl
  rw [run_step step_backslash, run_error hstep]

/-- Behind the bracket that opens a class. -/
def classing (outer : List Alternation) (a : Alternation) : PatternReader :=
  ⟨Text.size (readText outer a) + '['.utf8Size, a.group (openedAt outer), openGroups outer,
    .cls ⟨Text.size (readText outer a), false, [], .opened⟩⟩

theorem step_bracket : step (behind outer a) '[' = .ok (classing outer a) := rfl

theorem run_class (b : ClassBody) : run (behind outer a) (b.text ++ cs)
    = run (behind outer (a.add (.mk (.cls b) []))) cs := by
  obtain ⟨u, hu, hrun⟩ := run_scan (Text.size (readText outer a) + '['.utf8Size)
    (a.group (openedAt outer)) (openGroups outer) ⟨Text.size (readText outer a), false, [], .opened⟩
    (ClassReader.scan_body b cs)
  obtain rfl := List.append_cancel_right hu
  rw [ClassBody.text, List.cons_append, run_step step_bracket, classing, hrun, behind_add,
    Atom.text, Atom.value, ClassBody.text, Text.size_cons, Nat.add_assoc]

theorem run_class_error {e : PatternError}
    (h : ClassReader.scan ⟨Text.size (readText outer a), false, [], .opened⟩ cs = .error e) :
    run (behind outer a) ('[' :: cs) = .error e := by
  rw [run_step step_bracket]
  exact run_scan_error _ _ _ _ h

end Atoms

/-! ## Signs -/

section Signs

variable {outer : List Alternation} {a : Alternation} {cs : List Char}

theorem read_sign (s : Sign) : (behind outer a).read s.char
    = (behind outer a).repeatLast s.char s.wrap := by
  cases s <;> rfl

/-- A repetition sign behind a part. -/
theorem run_sign (r : Repeat) (s : Sign) : run (behind outer (a.add r)) (s.char :: cs)
    = run (behind outer (a.add (r.under s))) cs := by
  have hstep : step (behind outer (a.add r)) s.char = .ok (behind outer (a.add (r.under s))) := by
    rw [step, read_sign, behind, behind, readText_add, readText_add, Repeat.text_under,
      ← List.append_assoc, size_snoc, Alternation.group_add, Alternation.group_add,
      Repeat.value_under]
    rfl
  exact run_step hstep

/-- A repetition sign where an alternative begins. -/
theorem run_sign_error (h : a.last = []) (s : Sign) : run (behind outer a) (s.char :: cs)
    = .error (.nothingToRepeat s.char (Text.size (readText outer a))) := by
  have hparts : (behind outer a).group.parts = [] := by
    show (concatValues a.last).reverse = []
    rw [h, concatValues, List.reverse_nil]
  have hstep : step (behind outer a) s.char
      = .error (.nothingToRepeat s.char (Text.size (readText outer a))) := by
    rw [step, read_sign, repeatLast, hparts]
    rfl
  exact run_error hstep

theorem run_signs (r : Repeat) (signs : List Sign) :
    run (behind outer (a.add r)) (signs.map Sign.char ++ cs)
      = run (behind outer (a.add (signs.foldl Repeat.under r))) cs := by
  induction signs generalizing r with
  | nil => rfl
  | cons s signs ih => rw [List.map_cons, List.cons_append, run_sign, ih, List.foldl_cons]

theorem foldl_under (x : Atom) (signs more : List Sign) :
    more.foldl Repeat.under (.mk x signs) = .mk x (signs ++ more) := by
  induction more generalizing signs with
  | nil => rw [List.append_nil, List.foldl_nil]
  | cons s more ih =>
    rw [List.foldl_cons, Repeat.under, ih, List.append_assoc, List.singleton_append]

end Signs

/-! ## What is derived is read -/

mutual

/-- The text of an atom is read as the atom. -/
theorem run_atom (outer : List Alternation) (a : Alternation) : (x : Atom) → (k : List Char) →
    run (behind outer a) (x.text ++ k) = run (behind outer (a.add (.mk x []))) k
  | .group earlier last, k => by
    rw [Atom.text, List.cons_append, run_step step_open, List.append_assoc, List.append_assoc]
    show run (behind (a :: outer) ⟨[], []⟩) _ = _
    rw [run_earlier (a :: outer) [] earlier, run_concat (a :: outer) _ last]
    exact run_step step_close
  | .cls body, k => by
    rw [Atom.text]
    exact run_class body
  | .any, k => by
    rw [Atom.text]
    exact run_any
  | .escape e, k => by
    rw [Atom.text]
    exact run_escape e
  | .literal c h, k => by
    rw [Atom.text]
    exact run_literal h
termination_by x => sizeOf x

theorem run_repeat (outer : List Alternation) (a : Alternation) : (r : Repeat) → (k : List Char) →
    run (behind outer a) (r.text ++ k) = run (behind outer (a.add r)) k
  | .mk x signs, k => by
    rw [Repeat.text, List.append_assoc, run_atom outer a x, run_signs, foldl_under,
      List.nil_append]
termination_by r => sizeOf r

theorem run_concat (outer : List Alternation) (a : Alternation) : (rs : List Repeat) →
    (k : List Char) → run (behind outer a) (concatText rs ++ k)
      = run (behind outer ⟨a.earlier, a.last ++ rs⟩) k
  | [], k => by rw [concatText, List.nil_append, List.append_nil]
  | r :: rs, k => by
    rw [concatText, List.append_assoc, run_repeat outer a r, run_concat outer (a.add r) rs,
      Alternation.add, List.append_assoc, List.singleton_append]
termination_by rs => sizeOf rs

theorem run_earlier (outer : List Alternation) (before : List Concat) : (cs : List (List Repeat)) →
    (k : List Char) → run (behind outer ⟨before, []⟩) (earlierText cs ++ k)
      = run (behind outer ⟨before ++ cs, []⟩) k
  | [], k => by rw [earlierText, List.nil_append, List.append_nil]
  | c :: cs, k => by
    rw [earlierText, List.append_assoc, run_concat outer _ c, List.nil_append, List.cons_append,
      run_step step_bar, Alternation.bar, run_earlier outer (before ++ [c]) cs, List.append_assoc,
      List.singleton_append]
termination_by cs => sizeOf cs

end

theorem run_text (a : Alternation) : run start a.text = .ok a.value := by
  obtain ⟨earlier, last⟩ := a
  have hread : run start (earlierText earlier ++ (concatText last ++ []))
      = run (behind [] ⟨earlier, last⟩) [] := by
    rw [start_eq]
    show run (behind [] ⟨[], []⟩) _ = _
    rw [run_earlier, run_concat]
    rfl
  rw [List.append_nil] at hread
  rw [Alternation.text, hread, run, ← Alternation.toPattern_group ⟨earlier, last⟩ 0]
  rfl

/-! ## What is read is derived -/

section Outcomes

variable {outer : List Alternation} {a : Alternation} {cs : List Char}

theorem outcome_finish : Outcome (readText outer a) (run (behind outer a) []) := by
  cases outer with
  | nil =>
    have hderived := Outcome.derived a
    rwa [← Alternation.toPattern_group a 0] at hderived
  | cons b outer =>
    have hfault := Fault.unclosedGroup outer b a
    rw [← List.singleton_append, ← List.append_assoc] at hfault
    exact .fault hfault

/-- What comes of a sign, from what comes of the text behind it. -/
theorem outcome_sign (s : Sign)
    (hnext : ∀ a', readText outer a' = readText outer a ++ [s.char] →
      Outcome (readText outer a ++ s.char :: cs) (run (behind outer a') cs)) :
    Outcome (readText outer a ++ s.char :: cs) (run (behind outer a) (s.char :: cs)) := by
  rcases a.last_cases with hnil | ⟨b, r, rfl⟩
  · rw [run_sign_error hnil]
    exact .fault (.nothingToRepeat outer a hnil s cs)
  · have htext : readText outer (b.add (r.under s)) = readText outer (b.add r) ++ [s.char] := by
      rw [readText_add, readText_add, Repeat.text_under, List.append_assoc]
    rw [run_sign]
    exact hnext _ htext

theorem outcome_close (hnext : ∀ b outer', outer = b :: outer' →
      Outcome (readText outer a ++ ')' :: cs)
        (run (behind outer' (b.add (.mk (.group a.earlier a.last) []))) cs)) :
    Outcome (readText outer a ++ ')' :: cs) (run (behind outer a) (')' :: cs)) := by
  cases outer with
  | nil => exact .fault (.unmatchedParen a cs)
  | cons b outer =>
    rw [run_step step_close]
    exact hnext b outer rfl

theorem outcome_backslash (hnext : ∀ e k, cs = Escape.letter e :: k →
      Outcome (readText outer a ++ '\\' :: cs)
        (run (behind outer (a.add (.mk (.escape e) []))) k)) :
    Outcome (readText outer a ++ '\\' :: cs) (run (behind outer a) ('\\' :: cs)) := by
  cases cs with
  | nil => exact .fault (.trailingBackslash _)
  | cons c k =>
    by_cases hletter : ∃ e : Escape, e.letter = c
    · obtain ⟨e, rfl⟩ := hletter
      rw [run_escape]
      exact hnext e k rfl
    · rw [run_unknown (not_exists.1 hletter)]
      exact .fault (.unknownEscape _ c k (not_exists.1 hletter))

theorem outcome_bracket (hnext : ∀ b k, cs = ClassBody.inner b ++ k →
      Outcome (readText outer a ++ '[' :: cs) (run (behind outer (a.add (.mk (.cls b) []))) k)) :
    Outcome (readText outer a ++ '[' :: cs) (run (behind outer a) ('[' :: cs)) := by
  have hscanned := ClassReader.scanned_opened (Text.size (readText outer a)) cs
  generalize hout : ClassReader.scan _ cs = out at hscanned
  cases hscanned with
  | closed b k =>
    have hrun : run (behind outer a) (b.text ++ k) = _ := run_class b
    rw [ClassBody.text, List.cons_append] at hrun
    rw [hrun]
    exact hnext b k rfl
  | fault h =>
    rw [run_class_error hout]
    exact .fault (.cls outer a h)

end Outcomes

/-- What is read from here is derived, together with what has been read, or there is a fault. -/
theorem outcome (outer : List Alternation) (a : Alternation) : (cs : List Char) →
    Outcome (readText outer a ++ cs) (run (behind outer a) cs)
  | [] => by
    rw [List.append_nil]
    exact outcome_finish
  | c :: cs => by
    -- The text goes on behind some of it, in this state.
    have hnext (outer' : List Alternation) (a' : Alternation) (u k : List Char) (hu : u ≠ [])
        (hcs : c :: cs = u ++ k) (htext : readText outer' a' = readText outer a ++ u) :
        Outcome (readText outer a ++ c :: cs) (run (behind outer' a') k) := by
      have hlength : cs.length + 1 = u.length + k.length :=
        (congrArg List.length hcs).trans List.length_append
      have hpos := List.length_pos_iff.2 hu
      have hrest := outcome outer' a' k
      rwa [htext, List.append_assoc, ← hcs] at hrest
    have hone (outer' : List Alternation) (a' : Alternation)
        (htext : readText outer' a' = readText outer a ++ [c]) :=
      hnext outer' a' [c] cs (List.cons_ne_nil c []) rfl htext
    by_cases hspecial : c ∈ specials
    · simp only [specials, List.mem_cons, List.not_mem_nil, or_false] at hspecial
      rcases hspecial with
        hbar | hclose | hopen | hbracket | hdot | hbackslash | hstar | hplus | hopt
      · subst hbar
        rw [run_step step_bar]
        exact hone _ _ (readText_bar outer a)
      · subst hclose
        refine outcome_close fun b outer' houter => ?_
        subst houter
        exact hone _ _ (readText_close outer' a b)
      · subst hopen
        rw [run_step step_open]
        exact hone _ _ (readText_open outer a)
      · subst hbracket
        refine outcome_bracket fun b k hk => ?_
        refine hnext _ _ b.text k (List.cons_ne_nil _ _) (by rw [hk, ClassBody.text]; rfl) ?_
        rw [readText_add, text_unsigned, Atom.text]
      · subst hdot
        rw [run_any]
        refine hone _ _ ?_
        rw [readText_add, text_unsigned, Atom.text]
      · subst hbackslash
        refine outcome_backslash fun e k hk => ?_
        refine hnext _ _ ['\\', e.letter] k (List.cons_ne_nil _ _) (by rw [hk]; rfl) ?_
        rw [readText_add, text_unsigned, Atom.text]
      · subst hstar
        exact outcome_sign .star (hone outer)
      · subst hplus
        exact outcome_sign .plus (hone outer)
      · subst hopt
        exact outcome_sign .opt (hone outer)
    · rw [run_literal hspecial]
      refine hone _ _ ?_
      rw [readText_add, text_unsigned, Atom.text]
termination_by cs => cs.length

end PatternReader

/-! ## Whole patterns -/

namespace PatternSyntax

/-- The character that an error points at, with its offset. -/
def blamed? : PatternError → Option (Nat × Char)
  | .unmatchedParen offset => some (offset, ')')
  | .unclosedGroup offset => some (offset, '(')
  | .unclosedClass offset => some (offset, '[')
  | .emptyClass offset => some (offset, '[')
  | .nothingToRepeat op offset => some (offset, op)
  | .empty | .unknownEscape _ | .trailingBackslash | .invalidRange .. => none

/-- The character stands where the error says. -/
theorem Fault.blamed {text : List Char} {e : PatternError} (h : Fault text e) {offset : Nat}
    {c : Char} (hblamed : blamed? e = some (offset, c)) :
    ∃ u k, text = u ++ c :: k ∧ Text.size u = offset := by
  cases h with
  | empty => cases hblamed
  | unmatchedParen a k =>
    cases hblamed
    exact ⟨_, _, rfl, rfl⟩
  | unclosedGroup outer a inside =>
    cases hblamed
    exact ⟨_, _, rfl, rfl⟩
  | nothingToRepeat outer a h s k =>
    cases hblamed
    exact ⟨_, _, rfl, rfl⟩
  | cls outer a h =>
    cases h with
    | empty k =>
      cases hblamed
      exact ⟨_, _, rfl, rfl⟩
    | emptyNegated k =>
      cases hblamed
      exact ⟨_, _, rfl, rfl⟩
    | item h =>
      cases h with
      | unclosed h =>
        cases hblamed
        exact ⟨_, _, rfl, rfl⟩
      | unknownEscape u c k h => cases hblamed
      | invalidRange u lo hi k h => cases hblamed
  | unknownEscape u c k h => cases hblamed
  | trailingBackslash u => cases hblamed

end PatternSyntax

namespace Pattern

theorem ofChars_eq_run {cs : List Char} (h : cs ≠ []) :
    ofChars cs = PatternReader.start.run cs := by
  rw [ofChars, if_neg (by simpa using h), PatternReader.run_eq]

theorem outcome_ofChars {cs : List Char} (h : cs ≠ []) : Outcome cs (ofChars cs) := by
  have hread := PatternReader.outcome [] .nothing cs
  rwa [readText_nothing, ← PatternReader.start_eq, List.nil_append, ← ofChars_eq_run h] at hread

theorem derives_of_ofChars {cs : List Char} {p : Pattern} (h : ofChars cs = .ok p) :
    cs ≠ [] ∧ ∃ a : Alternation, a.text = cs ∧ a.value = p := by
  have hne : cs ≠ [] := by
    rintro rfl
    cases h
  have hout := outcome_ofChars hne
  rw [h] at hout
  cases hout with
  | derived a => exact ⟨hne, a, rfl, rfl⟩

theorem fault_of_ofChars {cs : List Char} {e : PatternError} (h : ofChars cs = .error e) :
    Fault cs e := by
  by_cases hnil : cs = []
  · subst hnil
    cases h
    exact .empty
  · have hout := outcome_ofChars hnil
    rw [h] at hout
    cases hout with
    | fault hfault => exact hfault

/-- A derived text is read as the value of its derivation. -/
theorem ofChars_text {a : Alternation} (h : a.text ≠ []) : ofChars a.text = .ok a.value :=
  (ofChars_eq_run h).trans (PatternReader.run_text a)

/-- A pattern is read if and only if it is not empty and derived, and it is read as the value of its
derivation. There is one derivation at most. Every error names what is wrong, and it points at the
character that is at fault. -/
theorem ofString_iff_derives (s : String) :
    (∀ p, ofString s = .ok p ↔ s ≠ "" ∧ ∃ a : Alternation, a.text = s.toList ∧ a.value = p) ∧
      (∀ a a' : Alternation, a.text = s.toList → a'.text = s.toList → a = a') ∧
      ∀ e, ofString s = .error e → Fault s.toList e ∧
        ∀ offset c, blamed? e = some (offset, c) →
          ∃ u k, s.toList = u ++ c :: k ∧ Text.size u = offset := by
  have hempty : s ≠ "" ↔ s.toList ≠ [] := not_congr String.toList_eq_nil_iff.symm
  refine ⟨fun p => ⟨fun h => ?_, ?_⟩, fun a a' h h' => Alternation.text_injective (h.trans h'.symm),
    fun e h => ?_⟩
  · obtain ⟨hne, hderived⟩ := derives_of_ofChars h
    exact ⟨hempty.2 hne, hderived⟩
  · rintro ⟨hne, a, htext, rfl⟩
    rw [ofString, ← htext]
    exact ofChars_text (htext ▸ hempty.1 hne)
  · have hfault := fault_of_ofChars h
    exact ⟨hfault, fun offset c hblamed => hfault.blamed hblamed⟩

end Pattern

end FrontEnd
