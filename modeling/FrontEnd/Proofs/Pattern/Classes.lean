import FrontEnd.Proofs.Pattern.Syntax

/-!
# Reading a character class

A class is read item by item. What is read behind its bracket is either the rest of a class of the
grammar, with its ranges in the order of the items, or there is a fault, which is named by the
error.

- `escapedChar_letter`, `escapedClass_letter`: the letters of the grammar are the ones that are
  read;
- `ClassReader.scan`: all that is read inside of one class;
- `ClassReader.scan_low`, `ClassReader.scan_item`: what a dash means, and one item;
- `ClassReader.scan_body`: **the text of a class is read as the class**;
- `ClassReader.scanned_opened`: **what is read as a class is one, and every error names a fault**.
-/

namespace FrontEnd

open PatternSyntax

section Escapes

variable {c : Char}

theorem escapedChar_letter (e : CharEscape) : escapedChar e.letter = .ok e.char := by
  cases e with
  | punctuation c h =>
    show escapedChar c = .ok c
    unfold escapedChar
    split
    · exact absurd h (by decide)
    · exact absurd h (by decide)
    · exact absurd h (by decide)
    · exact absurd h (by decide)
    · rw [if_pos h]
  | _ => rfl

theorem escapedChar_unknown (h : ∀ e : CharEscape, e.letter ≠ c) :
    escapedChar c = .error (.unknownEscape c) := by
  unfold escapedChar
  split
  · exact absurd rfl (h .lineFeed)
  · exact absurd rfl (h .carriageReturn)
  · exact absurd rfl (h .tab)
  · exact absurd rfl (h .nul)
  · rw [if_neg fun hc => h (.punctuation c hc) rfl]

theorem shorthand?_letter (s : Shorthand) : shorthand? s.letter = some s.ranges := by
  cases s <;> rfl

theorem shorthand?_eq_none (h : ∀ s : Shorthand, s.letter ≠ c) : shorthand? c = none := by
  unfold shorthand?
  split
  · exact absurd rfl (h .digit)
  · exact absurd rfl (h .word)
  · exact absurd rfl (h .blank)
  · rfl

theorem escapedClass_of_ne (h : ∀ s : Shorthand, s.complement ≠ c)
    (hshorthand : shorthand? c = none) : escapedClass c = (escapedChar c).map CharClass.single := by
  unfold escapedClass
  split
  · exact absurd rfl (h .digit)
  · exact absurd rfl (h .word)
  · exact absurd rfl (h .blank)
  · rw [hshorthand]

theorem escapedClass_letter (e : Escape) : escapedClass e.letter = .ok e.value := by
  cases e with
  | shorthand s => cases s <;> rfl
  | complement s => cases s <;> rfl
  | char e =>
    have hnone := shorthand?_eq_none fun s => (e.letter_ne_shorthand s).symm
    rw [Escape.letter, escapedClass_of_ne (fun s => (e.letter_ne_complement s).symm) hnone,
      escapedChar_letter]
    rfl

theorem escapedClass_unknown (h : ∀ e : Escape, e.letter ≠ c) :
    escapedClass c = .error (.unknownEscape c) := by
  rw [escapedClass_of_ne (fun s => h (.complement s))
    (shorthand?_eq_none fun s => h (.shorthand s)), escapedChar_unknown fun e => h (.char e)]
  rfl

end Escapes

namespace PatternSyntax

/-! ## How a text in brackets goes on -/

/-- Every closing bracket of the text stands behind a backslash. -/
inductive Unclosed : List Char → Prop where
  | nil : Unclosed []
  | backslash : Unclosed ['\\']
  | escape (c : Char) {cs : List Char} (h : Unclosed cs) : Unclosed ('\\' :: c :: cs)
  | plain {c : Char} {cs : List Char} (hc : c ≠ ']' ∧ c ≠ '\\') (h : Unclosed cs) :
    Unclosed (c :: cs)

/-- What stands where an item may begin. -/
inductive ItemStart : List Char → Prop where
  | nil : ItemStart []
  | close (k : List Char) : ItemStart (']' :: k)
  | backslash : ItemStart ['\\']
  | shorthand (s : Shorthand) (k : List Char) : ItemStart ('\\' :: s.letter :: k)
  | char (x : ClassChar) (k : List Char) : ItemStart (x.text ++ k)
  | unknown (c : Char) (k : List Char) (hshorthand : ∀ s : Shorthand, s.letter ≠ c)
    (hchar : ∀ e : CharEscape, e.letter ≠ c) : ItemStart ('\\' :: c :: k)

theorem itemStart : (cs : List Char) → ItemStart cs
  | [] => .nil
  | c :: cs => by
    by_cases hclose : c = ']'
    · exact hclose ▸ .close cs
    by_cases hbackslash : c = '\\'
    · subst hbackslash
      cases cs with
      | nil => exact .backslash
      | cons d k =>
        by_cases hshorthand : ∃ s : Shorthand, s.letter = d
        · obtain ⟨s, rfl⟩ := hshorthand
          exact .shorthand s k
        by_cases hchar : ∃ e : CharEscape, e.letter = d
        · obtain ⟨e, rfl⟩ := hchar
          exact .char (.escape e) k
        exact .unknown d k (not_exists.1 hshorthand) (not_exists.1 hchar)
    · exact .char (.plain c ⟨hclose, hbackslash⟩) cs

/-- What is wrong behind the bracket that opens a class, where items stand. -/
inductive ItemFault (openedAt : Nat) : List Char → PatternError → Prop where
  /-- The class is not closed. -/
  | unclosed {cs : List Char} (h : Unclosed cs) : ItemFault openedAt cs (.unclosedClass openedAt)
  | unknownEscape (u : List Char) (c : Char) (k : List Char) (h : ∀ e : CharEscape, e.letter ≠ c) :
    ItemFault openedAt (u ++ '\\' :: c :: k) (.unknownEscape c)
  | invalidRange (u : List Char) (lo hi : ClassChar) (k : List Char) (h : hi.char < lo.char) :
    ItemFault openedAt (u ++ (lo.text ++ '-' :: (hi.text ++ k))) (.invalidRange lo.char hi.char)

/-- What is wrong behind the bracket that opens a class. -/
inductive ClassFault (openedAt : Nat) : List Char → PatternError → Prop where
  | empty (k : List Char) : ClassFault openedAt (']' :: k) (.emptyClass openedAt)
  | emptyNegated (k : List Char) : ClassFault openedAt ('^' :: ']' :: k) (.emptyClass openedAt)
  | item {cs : List Char} {e : PatternError} (h : ItemFault openedAt cs e) :
    ClassFault openedAt cs e

section

variable {openedAt : Nat} {cs : List Char} {e : PatternError}

theorem Unclosed.char (h : Unclosed cs) (x : ClassChar) : Unclosed (x.text ++ cs) := by
  cases x with
  | plain c hc => exact .plain hc h
  | escape e => exact .escape e.letter h

theorem Unclosed.item (h : Unclosed cs) (i : ClassItem) : Unclosed (i.text ++ cs) := by
  cases i with
  | shorthand s => exact .escape s.letter h
  | char x => exact h.char x
  | range lo hi hle =>
    rw [ClassItem.text, List.append_assoc]
    exact .char (.plain (by decide) (h.char hi)) lo

/-- A fault further on is a fault here. -/
theorem ItemFault.cons (h : ItemFault openedAt cs e) (i : ClassItem) :
    ItemFault openedAt (i.text ++ cs) e := by
  cases h with
  | unclosed h => exact .unclosed (h.item i)
  | unknownEscape u c k h =>
    rw [← List.append_assoc]
    exact .unknownEscape _ c k h
  | invalidRange u lo hi k h =>
    rw [← List.append_assoc]
    exact .invalidRange _ lo hi k h

theorem ItemFault.caret (h : ItemFault openedAt cs e) : ItemFault openedAt ('^' :: cs) e :=
  h.cons (.char (.plain '^' (by decide)))

theorem ClassItem.ranges_ne_nil (i : ClassItem) : i.ranges ≠ [] := by
  cases i with
  | shorthand s => cases s <;> exact List.cons_ne_nil _ _
  | _ => exact List.cons_ne_nil _ _

/-- Behind a character where no range goes on, items are settled with it. -/
theorem Settled.char {items : List ClassItem} {k : List Char} (h : Settled items) (x : ClassChar)
    (hrange : Rangeless (itemsText items ++ ']' :: k)) : Settled (.char x :: items) := by
  refine ⟨fun u hu => ?_, h⟩
  cases u with
  | nil => rfl
  | cons c u =>
    obtain rfl := hrange c (u ++ ']' :: k) (by rw [hu]; rfl)
    -- A closing bracket would have to begin an item behind the dash.
    have hdash : Settled (.char (.plain '-' (by decide)) :: []) := ⟨nofun, trivial⟩
    have hsame : itemsText items ++ ']' :: k
        = itemsText [.char (.plain '-' (by decide))] ++ ']' :: (u ++ ']' :: k) := by
      rw [hu]
      rfl
    obtain ⟨rfl, -⟩ := itemsText_injective hsame h hdash
    exact absurd (List.cons.inj hu).2 nofun

end

end PatternSyntax

/-! ## Reading -/

namespace ClassReader

/-- Reads a class to its end, and gives back what stands behind it. -/
def scan (r : ClassReader) : List Char → Except PatternError (CharClass × List Char)
  | [] => .error (.unclosedClass r.openedAt)
  | c :: cs => do
    match ← r.step c with
    | .inl r => r.scan cs
    | .inr cls => .ok (cls, cs)

variable {r r' : ClassReader} {o : Nat} {n : Bool} {ranges : List (Char × Char)} {lo c : Char}
  {cs : List Char} {cls : CharClass} {e : PatternError}

theorem scan_step (h : r.step c = .ok (.inl r')) : r.scan (c :: cs) = r'.scan cs := by
  rw [scan, h]
  rfl

theorem scan_stop (h : r.step c = .ok (.inr cls)) : r.scan (c :: cs) = .ok (cls, cs) := by
  rw [scan, h]
  rfl

theorem scan_error (h : r.step c = .error e) : r.scan (c :: cs) = .error e := by
  rw [scan, h]
  rfl

theorem readItem_plain (hc : c ≠ ']' ∧ c ≠ '\\') :
    r.readItem c = .ok (.inl { r with place := .low c }) := by
  unfold readItem
  split
  · exact absurd rfl hc.1
  · exact absurd rfl hc.2
  · rfl

/-- A character that may begin a range. -/
theorem scan_char (x : ClassChar) (cs : List Char) :
    scan ⟨o, n, ranges, .item⟩ (x.text ++ cs) = scan ⟨o, n, ranges, .low x.char⟩ cs := by
  cases x with
  | plain c hc => exact scan_step (readItem_plain hc)
  | escape e =>
    have hescape : step ⟨o, n, ranges, .escape⟩ e.letter
        = .ok (.inl ⟨o, n, ranges, .low e.char⟩) := by
      rw [step, shorthand?_eq_none fun s => (e.letter_ne_shorthand s).symm, escapedChar_letter]
      rfl
    show scan ⟨o, n, ranges, .escape⟩ (e.letter :: cs) = _
    rw [scan_step hescape]
    rfl

theorem scan_shorthand (s : Shorthand) (cs : List Char) :
    scan ⟨o, n, ranges, .item⟩ ('\\' :: s.letter :: cs)
      = scan ⟨o, n, s.ranges.reverse ++ ranges, .item⟩ cs := by
  have hescape : step ⟨o, n, ranges, .escape⟩ s.letter
      = .ok (.inl ⟨o, n, s.ranges.reverse ++ ranges, .item⟩) := by
    rw [step, shorthand?_letter]
  show scan ⟨o, n, ranges, .escape⟩ (s.letter :: cs) = _
  rw [scan_step hescape]

theorem scan_unknown (hshorthand : ∀ s : Shorthand, s.letter ≠ c)
    (hchar : ∀ e : CharEscape, e.letter ≠ c) :
    scan ⟨o, n, ranges, .item⟩ ('\\' :: c :: cs) = .error (.unknownEscape c) := by
  have hescape : step ⟨o, n, ranges, .escape⟩ c = .error (.unknownEscape c) := by
    rw [step, shorthand?_eq_none hshorthand, escapedChar_unknown hchar]
    rfl
  show scan ⟨o, n, ranges, .escape⟩ (c :: cs) = _
  exact scan_error hescape

/-- Where no range goes on, the character is an item. -/
theorem scan_low (h : Rangeless cs) :
    scan ⟨o, n, ranges, .low lo⟩ cs = scan ⟨o, n, (lo, lo) :: ranges, .item⟩ cs := by
  cases cs with
  | nil => rfl
  | cons c cs =>
    by_cases hdash : c = '-'
    · subst hdash
      cases cs with
      | nil => rfl
      | cons d k =>
        obtain rfl := h d k rfl
        rfl
    · have hstep : step ⟨o, n, ranges, .low lo⟩ c = step ⟨o, n, (lo, lo) :: ranges, .item⟩ c := by
        simp only [step, if_neg hdash]
        rfl
      rw [scan, scan, hstep]

/-- The end of a range. -/
theorem scan_addRange {hi : Char} {p : ClassPlace}
    (h : r.step c = (addRange ⟨o, n, ranges, p⟩ lo hi).map .inl) :
    r.scan (c :: cs) = if hi < lo then .error (.invalidRange lo hi)
      else scan ⟨o, n, (lo, hi) :: ranges, .item⟩ cs := by
  by_cases hlt : hi < lo
  · rw [if_pos hlt]
    rw [addRange, if_pos hlt] at h
    exact scan_error h
  · rw [if_neg hlt]
    rw [addRange, if_neg hlt] at h
    exact scan_step h

/-- The character behind a dash. -/
theorem scan_dash (y : ClassChar) (cs : List Char) :
    scan ⟨o, n, ranges, .dash lo⟩ (y.text ++ cs)
      = if y.char < lo then .error (.invalidRange lo y.char)
        else scan ⟨o, n, (lo, y.char) :: ranges, .item⟩ cs := by
  cases y with
  | plain c hc =>
    have hstep : step ⟨o, n, ranges, .dash lo⟩ c
        = (addRange ⟨o, n, ranges, .dash lo⟩ lo c).map .inl := by
      simp only [step]
      split
      · exact absurd rfl hc.1
      · exact absurd rfl hc.2
      · rfl
    exact scan_addRange hstep
  | escape e =>
    have hstep : step ⟨o, n, ranges, .high lo⟩ e.letter
        = (addRange ⟨o, n, ranges, .high lo⟩ lo e.char).map .inl := by
      simp only [step, escapedChar_letter]
      rfl
    exact scan_addRange hstep

theorem scan_dash_unknown (h : ∀ e : CharEscape, e.letter ≠ c) :
    scan ⟨o, n, ranges, .dash lo⟩ ('\\' :: c :: cs) = .error (.unknownEscape c) := by
  have hstep : step ⟨o, n, ranges, .high lo⟩ c = .error (.unknownEscape c) := by
    simp only [step, escapedChar_unknown h]
    rfl
  show scan ⟨o, n, ranges, .high lo⟩ (c :: cs) = _
  exact scan_error hstep

/-- An item is read as its ranges. -/
theorem scan_item (i : ClassItem) (h : ∀ x, i = .char x → Rangeless cs) :
    scan ⟨o, n, ranges, .item⟩ (i.text ++ cs)
      = scan ⟨o, n, i.ranges.reverse ++ ranges, .item⟩ cs := by
  cases i with
  | shorthand s => exact scan_shorthand s cs
  | char x => exact (scan_char x cs).trans (scan_low (h x rfl))
  | range lo hi hle =>
    rw [ClassItem.text, List.append_assoc, scan_char]
    show scan ⟨o, n, ranges, .dash lo.char⟩ (hi.text ++ cs) = _
    rw [scan_dash, if_neg (Char.not_lt.2 hle)]
    rfl

/-- Items are read as their ranges, up to the closing bracket. -/
theorem scan_items (items : List ClassItem) (hs : Settled items) (k : List Char)
    (hne : ranges ≠ [] ∨ items ≠ []) :
    scan ⟨o, n, ranges, .item⟩ (itemsText items ++ ']' :: k)
      = .ok (⟨ranges.reverse ++ items.flatMap ClassItem.ranges, n⟩, k) := by
  induction items generalizing ranges with
  | nil =>
    obtain ⟨first, ranges, rfl⟩ := List.exists_cons_of_ne_nil (hne.resolve_right (· rfl))
    rw [List.flatMap_nil, List.append_nil]
    rfl
  | cons i items ih =>
    have hrangeless : ∀ x, i = .char x → Rangeless (itemsText items ++ ']' :: k) := by
      rintro x rfl
      exact hs.rangeless
    have hranges : i.ranges.reverse ++ ranges ≠ [] :=
      List.append_ne_nil_of_left_ne_nil (List.reverse_ne_nil_iff.2 i.ranges_ne_nil) _
    rw [itemsText_cons, List.append_assoc, scan_item i hrangeless, ih hs.tail (.inl hranges),
      List.reverse_append, List.reverse_reverse, List.append_assoc, List.flatMap_cons]

theorem scan_opened (h : ∀ u, cs ≠ '^' :: u) :
    scan ⟨o, false, [], .opened⟩ cs = scan ⟨o, false, [], .item⟩ cs := by
  cases cs with
  | nil => rfl
  | cons c cs =>
    have hstep : step ⟨o, false, [], .opened⟩ c = step ⟨o, false, [], .item⟩ c := by
      simp only [step, if_neg fun hc : c = '^' => h cs (by rw [hc])]
      rfl
    rw [scan, scan, hstep]

/-- The text of a class is read as the class. -/
theorem scan_body (b : ClassBody) (k : List Char) :
    scan ⟨o, false, [], .opened⟩ (b.inner ++ k) = .ok (b.value, k) := by
  obtain ⟨negated, items, hne, hsettled, hcaret⟩ := b
  have hitems (n : Bool) : scan ⟨o, n, [], .item⟩ (itemsText items ++ ']' :: k) = _ :=
    scan_items items hsettled k (.inr hne)
  simp only [ClassBody.inner, List.append_assoc, List.singleton_append]
  cases negated with
  | true => exact hitems true
  | false => exact (scan_opened fun u => itemsText_ne_caret hne (hcaret rfl)).trans (hitems false)

/-! ## What is found -/

/-- What comes of reading items: the class is closed behind them, it has none, or there is a
fault. -/
inductive ItemsScanned (o : Nat) (n : Bool) (ranges : List (Char × Char)) :
    List Char → Except PatternError (CharClass × List Char) → Prop where
  | closed (items : List ClassItem) (k : List Char) (hs : Settled items)
    (hne : ranges ≠ [] ∨ items ≠ []) : ItemsScanned o n ranges (itemsText items ++ ']' :: k)
      (.ok (⟨ranges.reverse ++ items.flatMap ClassItem.ranges, n⟩, k))
  | empty (k : List Char) (h : ranges = []) :
    ItemsScanned o n ranges (']' :: k) (.error (.emptyClass o))
  | fault {cs : List Char} {e : PatternError} (h : ItemFault o cs e) :
    ItemsScanned o n ranges cs (.error e)

/-- What comes of the items behind an item. -/
theorem ItemsScanned.cons {i : ClassItem} {out : Except PatternError (CharClass × List Char)}
    (h : ItemsScanned o n (i.ranges.reverse ++ ranges) cs out)
    (hrange : ∀ x, i = .char x → Rangeless cs) : ItemsScanned o n ranges (i.text ++ cs) out := by
  cases h with
  | closed items k hs hne =>
    have hsettled : Settled (i :: items) := by
      cases i with
      | shorthand s => exact hs
      | char x => exact hs.char x (hrange x rfl)
      | range lo hi hle => exact hs
    have hclosed : ItemsScanned o n ranges (itemsText (i :: items) ++ ']' :: k) _ :=
      .closed (i :: items) k hsettled (.inr (List.cons_ne_nil _ _))
    rwa [itemsText_cons, List.append_assoc, List.flatMap_cons, ← List.append_assoc ranges.reverse,
      ← List.reverse_reverse i.ranges, ← List.reverse_append] at hclosed
  | empty k h =>
    exact absurd (List.append_eq_nil_iff.1 h).1 (List.reverse_ne_nil_iff.2 i.ranges_ne_nil)
  | fault h => exact .fault (h.cons i)

/-- What comes of a range, or of the place where its end is missing. -/
theorem itemsScanned_dash (x : ClassChar) (hopen : ∀ v, cs ≠ ']' :: v) (hne : cs ≠ [])
    (hrange : ∀ y hle v, cs = y.text ++ v → ItemsScanned o n ranges
      ((ClassItem.range x y hle).text ++ v)
      (scan ⟨o, n, ranges, .item⟩ ((ClassItem.range x y hle).text ++ v))) :
    ItemsScanned o n ranges (x.text ++ '-' :: cs)
      (scan ⟨o, n, ranges, .item⟩ (x.text ++ '-' :: cs)) := by
  have hdash : scan ⟨o, n, ranges, .item⟩ (x.text ++ '-' :: cs)
      = scan ⟨o, n, ranges, .dash x.char⟩ cs := scan_char x _
  cases itemStart cs with
  | nil => exact absurd rfl hne
  | close v => exact absurd rfl (hopen v)
  | backslash =>
    rw [hdash]
    exact .fault (.unclosed (Unclosed.char (.plain (by decide) .backslash) x))
  | shorthand s v =>
    rw [hdash, scan_dash_unknown fun e => e.letter_ne_shorthand s]
    have hfault : ItemFault o ((x.text ++ ['-']) ++ '\\' :: s.letter :: v) _ :=
      .unknownEscape _ s.letter v fun e => e.letter_ne_shorthand s
    rw [List.append_assoc] at hfault
    exact .fault hfault
  | unknown c v hshorthand hchar =>
    rw [hdash, scan_dash_unknown hchar]
    have hfault : ItemFault o ((x.text ++ ['-']) ++ '\\' :: c :: v) _ := .unknownEscape _ c v hchar
    rw [List.append_assoc] at hfault
    exact .fault hfault
  | char y v =>
    by_cases hlt : y.char < x.char
    · rw [hdash, scan_dash, if_pos hlt]
      exact .fault (.invalidRange [] x y v hlt)
    · have hitem := hrange y (Char.not_lt.1 hlt) v rfl
      rwa [ClassItem.text, List.append_assoc] at hitem

theorem itemsScanned (n : Bool) (ranges : List (Char × Char)) : (cs : List Char) →
    ItemsScanned o n ranges cs (scan ⟨o, n, ranges, .item⟩ cs) := by
  intro cs
  -- One case for each way in which an item can begin; behind a whole item the rest is shorter.
  cases itemStart cs with
  | nil => exact .fault (.unclosed .nil)
  | close k =>
    cases ranges with
    | nil => exact .empty k rfl
    | cons first ranges =>
      have hclosed := ItemsScanned.closed (o := o) (n := n) [] k trivial
        (.inl (List.cons_ne_nil first ranges))
      rwa [List.flatMap_nil, List.append_nil] at hclosed
  | backslash => exact .fault (.unclosed .backslash)
  | shorthand s k =>
    rw [scan_shorthand]
    exact (itemsScanned n (s.ranges.reverse ++ ranges) k).cons (i := .shorthand s) nofun
  | unknown c k hshorthand hchar =>
    rw [scan_unknown hshorthand hchar]
    exact .fault (.unknownEscape [] c k hchar)
  | char x k =>
    have hpos : 0 < x.text.length := List.length_pos_iff.2 x.text_ne_nil
    by_cases hrange : Rangeless k
    · rw [scan_char, scan_low hrange]
      exact (itemsScanned n ((x.char, x.char) :: ranges) k).cons (i := .char x) fun _ _ => hrange
    · obtain ⟨c, u, hk, hc⟩ : ∃ c u, k = '-' :: c :: u ∧ c ≠ ']' := by
        simpa [Rangeless] using hrange
      rw [hk]
      refine itemsScanned_dash x (fun v h => hc (List.cons.inj h).1) (List.cons_ne_nil c u) ?_
      intro y hle v hv
      have hlt : v.length < k.length := by
        rw [hk, hv, List.length_cons, List.length_append]
        omega
      rw [scan_item (.range x y hle) fun _ h => nomatch h]
      exact (itemsScanned n _ v).cons (i := .range x y hle) fun _ h => nomatch h
termination_by cs => cs.length
decreasing_by
  all_goals simp only [List.length_append, List.length_cons]
  all_goals omega

/-- What comes of reading a class behind its bracket. -/
inductive Scanned (o : Nat) :
    List Char → Except PatternError (CharClass × List Char) → Prop where
  | closed (b : ClassBody) (k : List Char) : Scanned o (b.inner ++ k) (.ok (b.value, k))
  | fault {cs : List Char} {e : PatternError} (h : ClassFault o cs e) : Scanned o cs (.error e)

theorem ItemsScanned.negated {out : Except PatternError (CharClass × List Char)}
    (h : ItemsScanned o true [] cs out) : Scanned o ('^' :: cs) out := by
  cases h with
  | closed items k hs hne =>
    have hclosed := Scanned.closed (o := o) ⟨true, items, hne.resolve_left (· rfl), hs, nofun⟩ k
    rwa [ClassBody.inner, List.append_assoc, List.append_assoc] at hclosed
  | empty k h => exact .fault (.emptyNegated k)
  | fault h => exact .fault (.item (h.caret))

theorem ItemsScanned.plain {out : Except PatternError (CharClass × List Char)}
    (h : ItemsScanned o false [] cs out) (hcaret : ∀ u, cs ≠ '^' :: u) : Scanned o cs out := by
  cases h with
  | closed items k hs hne =>
    have hitems : ∀ u, itemsText items ≠ '^' :: u := by
      intro u hu
      exact hcaret (u ++ ']' :: k) (by rw [hu, List.cons_append])
    have hclosed := Scanned.closed (o := o)
      ⟨false, items, hne.resolve_left (· rfl), hs, fun _ => hitems⟩ k
    rwa [ClassBody.inner, List.append_assoc, List.append_assoc] at hclosed
  | empty k h => exact .fault (.empty k)
  | fault h => exact .fault (.item h)

/-- What is read behind the bracket of a class is a class, or there is a fault. -/
theorem scanned_opened (o : Nat) (cs : List Char) :
    Scanned o cs (scan ⟨o, false, [], .opened⟩ cs) := by
  by_cases hcaret : ∃ u, cs = '^' :: u
  · obtain ⟨u, rfl⟩ := hcaret
    exact (itemsScanned true [] u).negated
  · have hne : ∀ u, cs ≠ '^' :: u := fun u hu => hcaret ⟨u, hu⟩
    rw [scan_opened hne]
    exact (itemsScanned false [] cs).plain hne

end ClassReader

end FrontEnd
