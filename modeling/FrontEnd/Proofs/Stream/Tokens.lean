import FrontEnd.Lexer

/-!
# The tokens that a lexer has still to make

A lexer is a state that makes tokens one at a time. What it will make is a list, and all that is
said about parsing is said in terms of that list.

- `Lexer.tokens`: the tokens that are left, by `Lexer.drain`;
- `Lexer.next_induction`, `Lexer.forall_tokens`: induction over what a lexer goes on to make;
- `Lexer.tokens_of_next_some`, `Lexer.pull_spec`: making tokens takes them off the front;
- `Lexer.log_of_next_some`, `Lexer.log_tokenize`: **a lexer reports the unknown tokens that it
  makes, and nothing else**.
-/

namespace FrontEnd

/-- What a lexer reports when it makes the token: only a character without a rule. -/
def Token.complaints (t : Token) : List Diagnostic :=
  if t.id = .unknown then [.unrecognizedCharacter (t.text.toList.headD default) t.position] else []

/-- A token without its place. -/
structure Lexeme where
  id : TokenId
  text : String
  deriving DecidableEq, Repr

/-- A token without its place. -/
def Token.lexeme (t : Token) : Lexeme := ⟨t.id, t.text⟩

namespace DiagnosticLog

@[simp] theorem toList_record (log : DiagnosticLog) (d : Diagnostic) :
    (log.record d).toList = log.toList ++ [d] := by
  simp [record, toList]

@[simp] theorem toList_extend (log : DiagnosticLog) (ds : List Diagnostic) :
    (log.extend ds).toList = log.toList ++ ds := by
  induction ds generalizing log with
  | nil => simp [extend]
  | cons d ds ih =>
    show ((log.record d).extend ds).toList = log.toList ++ d :: ds
    rw [ih, toList_record, List.append_assoc, List.singleton_append]

end DiagnosticLog

namespace Lexer

variable {l l' : Lexer} {c : Char} {rest : List Char} {w : Workspace} {m : LexemeMatch}

/-! ## The four things that making a token can be -/

theorem next_nil (h : l.cursor.rest = []) : l.next = (none, l) := by
  rw [next]
  split
  · rfl
  · next hc => rw [h] at hc; cases hc

theorem next_unknown (h : l.cursor.rest = c :: rest)
    (hm : l.table.longestMatch l.workspace (c :: rest) = (none, w)) :
    l.next = (some ⟨.unknown, String.ofList [c], l.position⟩, l.reject c w) := by
  rw [next]
  split
  · next hn => rw [h] at hn; cases hn
  · next hc =>
    obtain ⟨rfl, rfl⟩ := List.cons.inj (h.symm.trans hc)
    simp only [hm]

theorem next_trivia (h : l.cursor.rest = c :: rest)
    (hm : l.table.longestMatch l.workspace (c :: rest) = (some m, w))
    (ht : m.trivia = true ∧ l.mode = .skip) : l.next = (l.skip m.length w).next := by
  rw [next]
  split
  · next hn => rw [h] at hn; cases hn
  · next hc =>
    obtain ⟨rfl, rfl⟩ := List.cons.inj (h.symm.trans hc)
    simp only [hm, if_pos ht]

theorem next_lexeme (h : l.cursor.rest = c :: rest)
    (hm : l.table.longestMatch l.workspace (c :: rest) = (some m, w))
    (ht : ¬ (m.trivia = true ∧ l.mode = .skip)) :
    l.next = (some ⟨m.id, String.ofList (Text.take m.length (c :: rest)), l.position⟩,
      { l.skip m.length w with produced := l.produced + 1 }) := by
  rw [next]
  split
  · next hn => rw [h] at hn; cases hn
  · next hc =>
    obtain ⟨rfl, rfl⟩ := List.cons.inj (h.symm.trans hc)
    simp only [hm, if_neg ht]

/-! ## Lexers that differ in their reports only -/

/-- The two lexers read the same text in the same way; what they have reported may differ. -/
structure Agree (l l' : Lexer) : Prop where
  table : l.table = l'.table
  cursor : l.cursor = l'.cursor
  mode : l.mode = l'.mode
  workspace : l.workspace = l'.workspace

theorem Agree.position (h : Agree l l') : l.position = l'.position :=
  congrArg Cursor.position h.cursor

theorem Agree.skip (h : Agree l l') (bytes : Nat) (w : Workspace) :
    Agree (l.skip bytes w) (l'.skip bytes w) :=
  ⟨h.table, congrArg (·.advanceBy bytes) h.cursor, h.mode, rfl⟩

/-- Reports are written and never read: agreeing lexers make the same token and still agree. -/
theorem Agree.next (h : Agree l l') : l.next.1 = l'.next.1 ∧ Agree l.next.2 l'.next.2 := by
  fun_induction Lexer.next l generalizing l' with
  | case1 l hrest =>
    rw [next_nil (h.cursor ▸ hrest)]
    exact ⟨rfl, h⟩
  | case2 l c rest hrest w hfound =>
    rw [next_unknown (h.cursor ▸ hrest) (h.table ▸ h.workspace ▸ hfound), h.position]
    exact ⟨rfl, h.table, congrArg Cursor.advance h.cursor, h.mode, rfl⟩
  | case3 l c rest hrest w m after hskip hfound =>
    rename_i ih
    rw [next_trivia (l := l') (h.cursor ▸ hrest) (h.table ▸ h.workspace ▸ hfound) (h.mode ▸ hskip)]
    exact ih (h.skip m.length w)
  | case4 l c rest hrest w m after hskip =>
    rename_i hfound
    rw [next_lexeme (h.cursor ▸ hrest) (h.table ▸ h.workspace ▸ hfound) (h.mode ▸ hskip),
      h.position]
    have hs := h.skip m.length w
    exact ⟨rfl, hs.table, hs.cursor, hs.mode, hs.workspace⟩

/-! ## The list of what is left -/

/-- The tokens that the lexer has still to make. -/
def tokens (l : Lexer) : List Token := (l.drain #[]).1.toList

theorem drain_of_next_none (h : l.next = (none, l')) (made : Array Token) :
    l.drain made = (made, l') := by
  rw [drain]
  split
  · next hn => rw [h] at hn; cases hn; rfl
  · next hs => rw [h] at hs; cases hs

theorem drain_of_next_some {t : Token} (h : l.next = (some t, l')) (made : Array Token) :
    l.drain made = l'.drain (made.push t) := by
  rw [drain]
  split
  · next hn => rw [h] at hn; cases hn
  · next hs => rw [h] at hs; cases hs; rfl

/-- Lexers that make the same token next make the same from then on. -/
theorem drain_congr (h : l.next = l'.next) (made : Array Token) : l.drain made = l'.drain made := by
  rcases hl : l'.next with ⟨_ | t, l₁⟩
  · rw [drain_of_next_none (h.trans hl), drain_of_next_none hl]
  · rw [drain_of_next_some (h.trans hl), drain_of_next_some hl]

/-- A lexer makes no token, or makes one and goes on. It comes to an end because a token takes a
character at least. -/
@[elab_as_elim]
theorem next_induction {motive : Lexer → Prop} (stop : ∀ l l', l.next = (none, l') → motive l)
    (token : ∀ l t l', l.next = (some t, l') → motive l' → motive l) (l : Lexer) : motive l := by
  generalize hn : l.cursor.rest.length = n
  induction n using Nat.strongRecOn generalizing l with
  | _ n ih =>
    rcases hnext : l.next with ⟨_ | t, l'⟩
    · exact stop l l' hnext
    · have hlt : l'.cursor.rest.length < n := hn ▸ l.next_lt t l' hnext
      exact token l t l' hnext (ih _ hlt l' rfl)

theorem drain_toList (l : Lexer) (made : Array Token) :
    (l.drain made).1.toList = made.toList ++ l.tokens := by
  induction l using next_induction generalizing made with
  | stop l l' hnext => simp [tokens, drain_of_next_none hnext]
  | token l t l' hnext ih =>
    rw [tokens, drain_of_next_some hnext, drain_of_next_some hnext, ih, ih (#[].push t)]
    simp

theorem tokens_of_next_none (h : l.next = (none, l')) : l.tokens = [] := by
  rw [tokens, drain_of_next_none h]

theorem tokens_of_next_some {t : Token} (h : l.next = (some t, l')) :
    l.tokens = t :: l'.tokens := by
  rw [tokens, drain_of_next_some h]
  simpa using drain_toList l' #[t]

/-- Every token takes at least one character. -/
theorem length_tokens_le (l : Lexer) : l.tokens.length ≤ l.cursor.rest.length := by
  induction l using next_induction with
  | stop l l' hnext =>
    rw [tokens_of_next_none hnext]
    exact Nat.zero_le _
  | token l t l' hnext ih =>
    rw [tokens_of_next_some hnext]
    exact Nat.lt_of_le_of_lt ih (l.next_lt t l' hnext)

/-- What the lexer keeps while it makes tokens with a property, all its tokens have. -/
theorem forall_tokens {I : Lexer → Prop} {P : Token → Prop}
    (hnext : ∀ {l t l'}, I l → l.next = (some t, l') → I l' ∧ P t) (h : I l) :
    ∀ t ∈ l.tokens, P t := by
  induction l using next_induction with
  | stop l l' hnone =>
    rw [tokens_of_next_none hnone]
    exact List.forall_mem_nil _
  | token l t l' hsome ih =>
    obtain ⟨hlater, ht⟩ := hnext h hsome
    rw [tokens_of_next_some hsome]
    exact List.forall_mem_cons.2 ⟨ht, ih hlater⟩

/-- Lexers that make the same token next make the same tokens. -/
theorem tokens_congr (h : l.next = l'.next) : l.tokens = l'.tokens := by
  rw [tokens, tokens, drain_congr h]

theorem tokenize_toList (table : TokenTable) (mode : TriviaMode) (text : List Char) :
    (tokenize table mode text).1.toList = (ofText table mode text).tokens := rfl

/-- At the end of the text nothing is left, and nothing ever will be. -/
theorem tokens_after_none (h : l.next = (none, l')) : l'.tokens = [] := by
  have hl' : l'.cursor.rest = [] := by
    fun_induction Lexer.next l with
    | case1 l hrest =>
      obtain ⟨-, rfl⟩ := Prod.mk.inj h
      exact hrest
    | case2 => simp at h
    | case3 l c rest hrest w m hfound after hskip ih => exact ih h
    | case4 => simp at h
  exact tokens_of_next_none (next_nil hl')

/-- What a lexer will make does not depend on what it has reported. -/
theorem Agree.tokens (h : Agree l l') : l.tokens = l'.tokens := by
  induction l using next_induction generalizing l' with
  | stop l l₁ hnext =>
    have hnone : l'.next = (none, l'.next.2) := Prod.ext (by rw [← h.next.1, hnext]) rfl
    rw [tokens_of_next_none hnext, tokens_of_next_none hnone]
  | token l t l₁ hnext ih =>
    obtain ⟨hmade, hagree⟩ := h.next
    rw [hnext] at hmade hagree
    have hsome : l'.next = (some t, l'.next.2) := Prod.ext hmade.symm rfl
    rw [tokens_of_next_some hnext, tokens_of_next_some hsome, ih hagree]

/-! ## What the tokens are -/

theorem id_ne_eof_of_next {t : Token} (h : l.next = (some t, l')) : t.id ≠ .eof := by
  fun_induction Lexer.next l with
  | case1 => simp at h
  | case2 =>
    obtain ⟨ht, -⟩ := Prod.mk.inj h
    cases ht
    simp
  | case3 l c rest hrest w m hfound after hskip ih => exact ih h
  | case4 =>
    obtain ⟨ht, -⟩ := Prod.mk.inj h
    cases ht
    simp [LexemeMatch.id]

/-- The end of the input is no token. -/
theorem id_ne_eof {t : Token} (h : t ∈ l.tokens) : t.id ≠ .eof :=
  forall_tokens (I := fun _ => True) (fun _ hnext => ⟨trivial, id_ne_eof_of_next hnext⟩) trivial t h

theorem log_of_next_none (h : l.next = (none, l')) : l'.log = l.log := by
  fun_induction Lexer.next l with
  | case1 =>
    obtain ⟨-, rfl⟩ := Prod.mk.inj h
    rfl
  | case2 => simp at h
  | case3 l c rest hrest w m hfound after hskip ih => exact ih h
  | case4 => simp at h

/-- Making a token adds exactly the complaint about it. -/
theorem log_of_next_some {t : Token} (h : l.next = (some t, l')) :
    l'.log.toList = l.log.toList ++ t.complaints := by
  fun_induction Lexer.next l with
  | case1 => simp at h
  | case2 =>
    obtain ⟨ht, rfl⟩ := Prod.mk.inj h
    cases ht
    simp [Token.complaints, reject]
  | case3 l c rest hrest w m hfound after hskip ih => exact ih h
  | case4 =>
    obtain ⟨ht, rfl⟩ := Prod.mk.inj h
    cases ht
    simp only [Token.complaints, LexemeMatch.id, reduceCtorEq, if_false, List.append_nil]
    rfl

/-- A lexer that has made all its tokens has complained about all of them. -/
theorem log_drain (l : Lexer) (made : Array Token) :
    (l.drain made).2.log.toList = l.log.toList ++ l.tokens.flatMap Token.complaints := by
  induction l using next_induction generalizing made with
  | stop l l' hnext =>
    rw [drain_of_next_none hnext, log_of_next_none hnext, tokens_of_next_none hnext,
      List.flatMap_nil, List.append_nil]
  | token l t l' hnext ih =>
    rw [drain_of_next_some hnext, ih, log_of_next_some hnext, tokens_of_next_some hnext,
      List.flatMap_cons, List.append_assoc]

/-- What a lexer reports about a text is what there is to say about its tokens. -/
theorem log_tokenize (table : TokenTable) (mode : TriviaMode) (text : List Char) :
    (tokenize table mode text).2.log.toList
      = (ofText table mode text).tokens.flatMap Token.complaints :=
  log_drain _ _

theorem table_next (l : Lexer) : l.next.2.table = l.table := by
  fun_induction Lexer.next l with
  | case1 => rfl
  | case2 => rfl
  | case3 l c rest hrest w m hfound after hskip ih => exact ih
  | case4 => rfl

/-- What making a token keeps, reading tokens keeps; and what is known of a lexer at the end of the
text is known of one that came there. -/
theorem pull_invariant {I E : Lexer → Prop}
    (hsome : ∀ {l t l'}, I l → l.next = (some t, l') → I l')
    (hnone : ∀ {l l'}, I l → l.next = (none, l') → I l' ∧ E l') (h : I l) (taken : List Token)
    (n : Nat) : I (pull taken n l).2.2 ∧ ((pull taken n l).2.1 = true → E (pull taken n l).2.2) := by
  induction n generalizing taken l with
  | zero => exact ⟨h, nofun⟩
  | succ n ih =>
    rw [pull]
    split
    · next l' hnext =>
      obtain ⟨hlast, hend⟩ := hnone h hnext
      exact ⟨hlast, fun _ => hend⟩
    · next t l' hnext => exact ih (hsome h hnext) (t :: taken)

theorem table_pull (taken : List Token) (n : Nat) (l : Lexer) :
    (pull taken n l).2.2.table = l.table := by
  have htable : ∀ {l₁ l₂ : Lexer} {t : Option Token}, l₁.table = l.table → l₁.next = (t, l₂) →
      l₂.table = l.table := by
    intro l₁ l₂ t h hnext
    rw [← h, ← l₁.table_next, hnext]
  exact (pull_invariant (E := fun _ => True) htable (fun h hnext => ⟨htable h hnext, trivial⟩)
    rfl taken n).1

/-- Reading `n` tokens takes them off the front; fewer are there when the text ends first. -/
theorem pull_spec (taken : List Token) (n : Nat) (l : Lexer) :
    (pull taken n l).1 = taken.reverse ++ l.tokens.take n ∧
      ((pull taken n l).2.1 = true → l.tokens.length < n) ∧
      ((pull taken n l).2.1 = false → n ≤ l.tokens.length) ∧
      (pull taken n l).2.2.tokens = l.tokens.drop n ∧
      (pull taken n l).2.2.log.toList
        = l.log.toList ++ (l.tokens.take n).flatMap Token.complaints := by
  induction n generalizing taken l with
  | zero => simp [pull]
  | succ n ih =>
    rw [pull]
    split
    · next l' h =>
      simp [tokens_of_next_none h, tokens_after_none h, log_of_next_none h]
    · next t l' h =>
      obtain ⟨hread, hended, hmore, hleft, hlog⟩ := ih (t :: taken) l'
      simp only [tokens_of_next_some h, List.take_succ_cons, List.drop_succ_cons,
        List.length_cons, List.flatMap_cons]
      refine ⟨by simpa using hread, fun he => ?_, fun he => ?_, hleft, ?_⟩
      · have := hended he; omega
      · have := hmore he; omega
      · rw [hlog, log_of_next_some h, List.append_assoc]

end Lexer

end FrontEnd
