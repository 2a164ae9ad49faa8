import FrontEnd.Diagnostic.Json
import FrontEnd.Proofs.Diagnostic.Notation
import Mathlib.Data.List.TakeWhile

/-!
# Reports as JSON texts

What is written for reports is a JSON text, and it stands for the reports: an array with one object
each, in order, whose members are the data of the report.

- `Json.chars_escaped`: a string stands for the text that was escaped;
- `Json.numberValue_toDigits`: a number stands for the count that was written;
- `Json.described`: the object that a report is;
- `Json.Emitter.Wrote`: what is written while reports come in;
- `Json.denotes_ofGroups`: **the array that is written stands for all the reports, and for nothing
  else**.
-/

namespace FrontEnd.Json

/-! ## Strings -/

theorem hexValue?_hexDigit (n : Nat) : hexValue? (hexDigit n) = some (n % 16) := by
  have hdigits : ∀ d < 16, hexValue? (Nat.digitChar d) = some d := by decide
  exact hdigits _ (Nat.mod_lt n (by decide))

/-- A character is read back from its number. -/
theorem codeUnit?_numbered {n : Nat} (h : n < 65536) (cs : List Char) :
    ∃ digits, numbered n = '\\' :: 'u' :: digits ∧ codeUnit? (digits ++ cs) = some (n, cs) := by
  refine ⟨_, rfl, ?_⟩
  simp only [List.cons_append, List.nil_append, codeUnit?, hexValue?_hexDigit, Option.bind_eq_bind,
    Option.bind_some, Option.pure_def, Option.some_inj, Prod.mk.injEq, and_true]
  omega

namespace Chars

variable {c : Char} {u cs s rest : List Char}

/-- Characters that need no escape stand for themselves. -/
theorem run (hu : u.all isUnescaped = true) (hs : Chars cs s rest) :
    Chars (u ++ cs) (u ++ s) rest := by
  induction u with
  | nil => exact hs
  | cons c u ih =>
    rw [List.all_cons, Bool.and_eq_true] at hu
    exact .plain hu.1 (ih hu.2)

/-- An escape stands for the character that was escaped. -/
theorem escape (hc : isPlain c = false) (hs : Chars cs s rest) :
    Chars (Json.escape c ++ cs) (c :: s) rest := by
  unfold Json.escape
  split
  · exact .short rfl hs
  · exact .short rfl hs
  · exact .short rfl hs
  · exact .short rfl hs
  · exact .short rfl hs
  · next hquote hbackslash _ _ _ =>
    -- The other characters with an escape are controls, which come before the halves.
    have hcontrol : isControl c = true := by
      simpa [isPlain, show c ≠ '"' from hquote, show c ≠ '\\' from hbackslash] using hc
    simp only [isControl, Bool.or_eq_true, Bool.and_eq_true, decide_eq_true_eq] at hcontrol
    obtain ⟨digits, hdigits, hunit⟩ := codeUnit?_numbered (n := c.toNat) (by omega) cs
    have hread := Chars.unit hunit (by simp [isHighHalf]; omega) (by simp [isLowHalf]; omega) hs
    rw [Char.ofNat_toNat] at hread
    rw [hdigits]
    exact hread

end Chars

theorem isUnescaped_of_isPlain {c : Char} (h : isPlain c = true) : isUnescaped c = true := by
  simp only [isPlain, isControl, Bool.and_eq_true, bne_iff_ne, Bool.not_eq_true',
    Bool.or_eq_false_iff, decide_eq_false_iff_not] at h
  obtain ⟨⟨hquote, hbackslash⟩, hlow, -⟩ := h
  simp [isUnescaped, hquote, hbackslash]
  omega

/-- The inside of a written string stands for the text. -/
theorem chars_escaped (s rest : List Char) : Chars (escaped s ++ '"' :: rest) s rest := by
  fun_induction escaped s with
  | case1 s hrun =>
    have hall : s.all isUnescaped = true := List.all_eq_true.2 fun c hc =>
      isUnescaped_of_isPlain (List.dropWhile_eq_nil_iff.1 hrun c hc)
    simpa using Chars.run hall (.close : Chars ('"' :: rest) [] rest)
  | case2 s c more hrun _ ih =>
    have hc : isPlain c = false := by
      have hhead := List.head?_dropWhile_not isPlain s
      rwa [hrun] at hhead
    have hall : (s.takeWhile isPlain).all isUnescaped = true := List.all_eq_true.2 fun c hc =>
      isUnescaped_of_isPlain (List.mem_takeWhile_imp hc)
    have hs : s = s.takeWhile isPlain ++ c :: more := by
      rw [← hrun, List.takeWhile_append_dropWhile]
    have hread := Chars.run hall (Chars.escape hc ih)
    rw [← hs] at hread
    simpa using hread

/-! ## Values -/

/-- Whatever comes behind it, the text is read as the value. -/
def Writes (text : String) (v : Value) : Prop :=
  ∀ rest, Reads (text.toList ++ rest) (.value v) rest

theorem writes_quoted (s : String) : Writes (quoted s) (.string s) := by
  intro rest
  have hread := Reads.string (chars_escaped s.toList rest)
  rw [String.ofList_toList] at hread
  simpa [quoted] using hread

theorem writes_plain {s : String} (hs : s.toList.all isUnescaped = true) :
    Writes ("\"" ++ s ++ "\"") (.string s) := by
  intro rest
  have hread := Reads.string (Chars.run hs (.close : Chars ('"' :: rest) [] rest))
  rw [List.append_nil, String.ofList_toList] at hread
  simpa using hread

theorem isDigit_of_mem_toDigits {n : Nat} {c : Char} (hc : c ∈ Nat.toDigits 10 n) :
    c.isDigit = true :=
  Nat.isDigit_of_mem_toDigits (by decide) (by decide) hc

/-- The digits of a count stand for it. -/
theorem numberValue_toDigits (n : Nat) : numberValue (Nat.toDigits 10 n) = n := by
  have hne : ∀ c ∈ Nat.toDigits 10 n, ∀ c', c'.isDigit = false → c ≠ c' := by
    rintro c hc _ hc' rfl
    cases hc'.symm.trans (isDigit_of_mem_toDigits hc)
  have hmantissa : (Nat.toDigits 10 n).takeWhile (fun c => c != 'e' && c != 'E')
      = Nat.toDigits 10 n := by
    rw [List.takeWhile_eq_self_iff]
    intro c hc
    simp [hne c hc 'e' rfl, hne c hc 'E' rfl]
  have hpoint : (Nat.toDigits 10 n).dropWhile (· != '.') = [] := by
    rw [List.dropWhile_eq_nil_iff]
    intro c hc
    simp [hne c hc '.' rfl]
  have hsign : '-' ∉ Nat.toDigits 10 n := fun hc => hne _ hc '-' rfl rfl
  have hdigits : (Nat.toDigits 10 n).filter Char.isDigit = Nat.toDigits 10 n :=
    List.filter_eq_self.2 fun c hc => isDigit_of_mem_toDigits hc
  simp [numberValue, hmantissa, hpoint, signValue, hsign, digitsValue, hdigits]

/-- Only zero is written with a zero in front. -/
theorem toDigits_eq_zero_of_head? {n : Nat} (h : (Nat.toDigits 10 n).head? = some '0') :
    Nat.toDigits 10 n = ['0'] := by
  induction n using Nat.strongRecOn with
  | ind n ih =>
    rw [Nat.toDigits_eq_if (by decide)] at h ⊢
    split at h
    · next hlt =>
      rw [if_pos hlt]
      exact congrArg (fun c => [c]) (Option.some.inj h)
    · next hle =>
      have hsome := List.isSome_head?.2 (Nat.toDigits_ne_nil (n := n / 10) (b := 10))
      rw [List.head?_append, Option.or_of_isSome hsome] at h
      -- More digits would follow a zero, and the zero alone stands for too little.
      have hzero := congrArg (Nat.ofDigitChars 10 · 0) (ih (n / 10) (by omega) h)
      rw [Nat.ofDigitChars_ten_toDigits] at hzero
      change n / 10 = 0 at hzero
      omega

theorem isNumber_toDigits (n : Nat) : IsNumber (Nat.toDigits 10 n) := by
  have hdigits : IsDigits (Nat.toDigits 10 n) :=
    ⟨Nat.toDigits_ne_nil, fun c hc => isDigit_of_mem_toDigits hc⟩
  simpa using IsNumber.mk List.mem_cons_self hdigits toDigits_eq_zero_of_head? (.inl rfl) (.inl rfl)

theorem writes_count (n : Nat) : Writes (toString n) (.number n) := by
  intro rest
  have hread := Reads.number (isNumber_toDigits n) (rfl : Nat.toDigits 10 n ++ rest = _)
  rw [numberValue_toDigits] at hread
  simpa using hread

/-! ## Reports -/

/-- The object that a report is. File and label are left out when there is none. -/
def described (file : Option String) (d : Diagnostic) : Value :=
  .object <|
    ("code", .string d.code.render) ::
    ("severity", .string d.severity.render) ::
    ("message", .string d.message) ::
    (file.toList.map (fun text => ("file", .string text)) ++
      ("line", .number d.location.start.line) ::
      ("column", .number d.location.start.column) ::
      ("offset", .number d.location.start.offset) ::
      ("length", .number d.location.length) ::
      (d.label.toList.map (fun text => ("label", .string text)) ++
        [("notes", .array (d.notes.map .string))]))

section Members

variable {name value text : String} {v : Value} {ms : List (String × Value)}
  {cs cs' more rest : List Char}

theorem Spaces.refl (cs : List Char) : Spaces cs cs := ⟨[], rfl, rfl⟩

/-- A value on a line of its own. -/
theorem Writes.element (h : Writes text v) (blank : List Char)
    (hblank : blank.all isSpace = true) (hcs : Spaces cs cs') :
    Reads (blank ++ (text.toList ++ cs)) (.element v) cs' :=
  .element ⟨blank, hblank, rfl⟩ (h cs) hcs

/-- A name and a value on a line of an object. -/
theorem reads_named (name : String) (hname : name.toList.all isUnescaped = true)
    (h : Writes value v) (hcs : Spaces cs cs') :
    Reads ('\n' :: (("    \"" ++ name ++ "\": " ++ value).toList ++ cs)) (.member (name, v))
      cs' := by
  have hchars := Chars.run hname (Chars.close : Chars _ [] (':' :: ' ' :: (value.toList ++ cs)))
  rw [List.append_nil] at hchars
  have hmember := Reads.member ⟨['\n', ' ', ' ', ' ', ' '], rfl, rfl⟩ hchars (.refl _)
    (h.element [' '] rfl hcs)
  rw [String.ofList_toList] at hmember
  simpa using hmember

/-- A line of an object is a member, and others follow. -/
theorem reads_fieldLine (name : String) (hname : name.toList.all isUnescaped = true)
    (h : Writes value v) (hs : Reads ('\n' :: more) (.members ms) rest) :
    Reads ('\n' :: ((fieldLine name value).toList ++ more)) (.members ((name, v) :: ms)) rest := by
  simpa [fieldLine] using (reads_named name hname h (.refl (',' :: '\n' :: more))).nextMember hs

/-- A line for a text is a member if there is a text, and others follow. -/
theorem reads_optionalLine (name : String) (hname : name.toList.all isUnescaped = true)
    (o : Option String) (hs : Reads ('\n' :: more) (.members ms) rest) :
    Reads ('\n' :: ((optionalLine name o).toList ++ more))
      (.members (o.toList.map (fun text => (name, .string text)) ++ ms)) rest := by
  cases o with
  | none => exact hs
  | some text => exact reads_fieldLine name hname (writes_quoted text) hs

/-- Lines with a comma behind each but the last are the elements of an array. -/
theorem reads_lines {α : Type} {f : α → String} {g : α → Value}
    (h : ∀ a cs cs', Spaces cs cs' → Reads ('\n' :: ((f a).toList ++ cs)) (.element (g a)) cs')
    (hcs : Spaces cs (']' :: rest)) (a : α) (as : List α) :
    Reads ('\n' :: ((String.intercalate ",\n" ((a :: as).map f)).toList ++ cs))
      (.elements ((a :: as).map g)) (']' :: rest) := by
  induction as generalizing a with
  | nil => simpa using (h a _ _ hcs).lastElement
  | cons a' as ih =>
    have hread := (h a _ _ (.refl (',' :: _))).nextElement (ih a')
    simpa [String.intercalate_cons_cons] using hread

theorem writes_notes (notes : List String) :
    Writes ("[\n" ++ noteLines notes ++ "    ]") (.array (notes.map .string)) := by
  intro rest
  cases notes with
  | nil =>
    have hspaces : Spaces ('\n' :: ' ' :: ' ' :: ' ' :: ' ' :: ']' :: rest) (']' :: rest) :=
      ⟨['\n', ' ', ' ', ' ', ' '], rfl, rfl⟩
    simpa [noteLines] using Reads.emptyArray hspaces
  | cons note notes =>
    have hspaces : Spaces ('\n' :: ' ' :: ' ' :: ' ' :: ' ' :: ']' :: rest) (']' :: rest) :=
      ⟨['\n', ' ', ' ', ' ', ' '], rfl, rfl⟩
    have hread := reads_lines (f := fun note => "      " ++ quoted note) (g := Value.string)
      (fun note cs cs' hcs => by
        simpa using (writes_quoted note).element ['\n', ' ', ' ', ' ', ' ', ' ', ' '] rfl hcs)
      hspaces note notes
    simpa [noteLines] using hread.array

/-- The last line of an object holds the notes. -/
theorem reads_notesLine (notes : List String) (cs : List Char) :
    Reads ('\n' :: ("    \"notes\": [\n".toList ++
        ((noteLines notes).toList ++ ("    ]\n  \x7d".toList ++ cs))))
      (.members [("notes", .array (notes.map .string))]) ('\x7d' :: cs) := by
  have hend : Spaces ('\n' :: ' ' :: ' ' :: '\x7d' :: cs) ('\x7d' :: cs) :=
    ⟨['\n', ' ', ' '], rfl, rfl⟩
  simpa using (reads_named "notes" rfl (writes_notes notes) hend).lastMember

theorem plain_code (code : DiagnosticCode) : code.render.toList.all isUnescaped = true := by
  cases code <;> rfl

theorem plain_severity (severity : Severity) :
    severity.render.toList.all isUnescaped = true := by
  cases severity <;> rfl

/-- A report is read as its object. -/
theorem reads_item (file : Option String) (d : Diagnostic) (hcs : Spaces cs cs') :
    Reads ('\n' :: ((item file d).toList ++ cs)) (.element (described file d)) cs' := by
  have hnotes := reads_notesLine d.notes cs
  have hlabel := reads_optionalLine "label" rfl d.label hnotes
  have hlength := reads_fieldLine "length" rfl (writes_count d.location.length) hlabel
  have hoffset := reads_fieldLine "offset" rfl
    (writes_count d.location.start.offset) hlength
  have hcolumn := reads_fieldLine "column" rfl
    (writes_count d.location.start.column) hoffset
  have hline := reads_fieldLine "line" rfl (writes_count d.location.start.line) hcolumn
  have hfile := reads_optionalLine "file" rfl file hline
  have hmessage := reads_fieldLine "message" rfl (writes_quoted d.message) hfile
  have hseverity := reads_fieldLine "severity" rfl
    (writes_plain (plain_severity d.severity)) hmessage
  have hcode := reads_fieldLine "code" rfl (writes_plain (plain_code d.code)) hseverity
  have hobject := Reads.element ⟨['\n', ' ', ' '], rfl, rfl⟩ hcode.object hcs
  unfold item
  simp only [String.toList_append, List.append_assoc]
  exact hobject

end Members

/-! ## The array -/

namespace Emitter

variable {e : Emitter} {items : List (Option String × Diagnostic)}

/-- The array is open, and these reports are in it. -/
structure Wrote (e : Emitter) (items : List (Option String × Diagnostic)) : Prop where
  text : e.text = "[\n" ++ String.intercalate ",\n" (items.map fun (file, d) => item file d)
  first : e.first = items.isEmpty

theorem wrote_begin : empty.begin.Wrote [] := ⟨by decide, rfl⟩

theorem Wrote.setFile (h : e.Wrote items) (file : Option String) : (e.setFile file).Wrote items :=
  ⟨h.text, h.first⟩

theorem file_emit (e : Emitter) (d : Diagnostic) : (e.emit d).file = e.file := by
  unfold emit
  split <;> rfl

/-- One more report is in the array, with the file that was set. -/
theorem Wrote.emit (h : e.Wrote items) (d : Diagnostic) :
    (e.emit d).Wrote (items ++ [(e.file, d)]) := by
  refine ⟨?_, by simp [Emitter.emit]⟩
  cases items with
  | nil =>
    have hfirst : e.first = true := h.first
    simp [Emitter.emit, hfirst, write, h.text]
  | cons x items =>
    have hfirst : e.first = false := h.first
    rw [List.map_append, String.intercalate_append_of_ne_nil (by simp) (by simp)]
    simp [Emitter.emit, hfirst, write, h.text, String.append_assoc]

theorem Wrote.emitAll (h : e.Wrote items) (ds : List Diagnostic) :
    (e.emitAll ds).Wrote (items ++ ds.map (e.file, ·)) := by
  induction ds generalizing e items with
  | nil => simpa [Emitter.emitAll] using h
  | cons d ds ih =>
    have hall := ih (h.emit d)
    rw [file_emit] at hall
    simpa [Emitter.emitAll] using hall

/-- All groups are in the array, each report with the file of its group. -/
theorem Wrote.groups (h : e.Wrote items) (groups : List (Option String × List Diagnostic)) :
    (groups.foldl (fun e (file, ds) => (e.setFile file).emitAll ds) e).Wrote
      (items ++ groups.flatMap fun (file, ds) => ds.map (file, ·)) := by
  induction groups generalizing e items with
  | nil => simpa using h
  | cons group groups ih =>
    have hall := ih ((h.setFile group.1).emitAll group.2)
    simpa [Emitter.setFile] using hall

/-- What is written for reports once the array is closed is read as an array of them. -/
theorem Wrote.denotes (h : e.Wrote items) :
    Denotes e.finish.text.toList (.array (items.map fun (file, d) => described file d)) := by
  have hend : Spaces ['\n'] [] := ⟨['\n'], rfl, rfl⟩
  cases items with
  | nil =>
    have hfirst : e.first = true := h.first
    have hread := Reads.emptyArray (⟨['\n'], rfl, rfl⟩ : Spaces ['\n', ']', '\n'] [']', '\n'])
    simpa [Denotes, finish, write, hfirst, h.text] using Reads.element (.refl _) hread hend
  | cons x items =>
    have hfirst : e.first = false := h.first
    have hread := reads_lines (fun (x : Option String × Diagnostic) cs cs' => reads_item x.1 x.2)
      (⟨['\n'], rfl, rfl⟩ : Spaces ['\n', ']', '\n'] [']', '\n']) x items
    simpa [Denotes, finish, write, hfirst, h.text] using Reads.element (.refl _) hread.array hend

end Emitter

/-- The text that is written for the reports of several files stands for one array, which holds an
object for each report, in order, with all of its data. It stands for nothing else. -/
theorem denotes_ofGroups (groups : List (Option String × List Diagnostic)) (v : Value) :
    Denotes (ofGroups groups).toList v ↔
      v = .array (groups.flatMap fun (file, ds) => ds.map (described file)) := by
  have hread := (Emitter.wrote_begin.groups groups).denotes
  rw [List.nil_append, List.map_flatMap] at hread
  simp only [List.map_map] at hread
  constructor
  · exact fun h => h.unique hread
  · rintro rfl
    exact hread

end FrontEnd.Json
