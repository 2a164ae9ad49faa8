import FrontEnd.Proofs.Parser.Hearing
import FrontEnd.Proofs.Parser.Returns
import FrontEnd.Proofs.Stream.Division
import FrontEnd.Proofs.Stream.Seams
import FrontEnd.Proofs.Tree.Extents

/-!
# Where the nodes of a parse begin and end

A parse makes its leaves from left to right, and where it makes an empty node the next token is the
one behind the leaves that are there. So every node covers a run of tokens: it begins where the
first of them does, nodes do not overlap, and those below a node are inside it. The end of a node is
that of its last token, **but for nodes that end in an empty node**: these reach over the blanks to
the next token.

- `Lexer.ordered_nth`: the tokens of a text do not overlap;
- `Workpiece.Spread`: the row of nodes covers the tokens that are taken, and the next one is seen;
- `Parser.Act.spread`: **each act keeps it**;
- `Parser.spans_of_answers`: the places of the nodes of a tree;
- `Parser.nested_of_answers`: **spans nest, and siblings do not overlap**;
- `Parser.stop_ne_endPosition_ragged`: a rule that ends behind a blank.
-/

namespace FrontEnd

/-! ## The tokens of a text, and then its end -/

/-- Token number `k`. Behind the last one stands the end of the text, again and again. -/
def Token.nth (text : List Char) (ts : List Token) (k : Nat) : Token :=
  ts[k]?.getD (.endOfInput (Position.start.through text []))

namespace Lexer

variable {text : List Char} {l l' : Lexer} {t : Token}

/-- A token ends where the lexer goes on. -/
theorem offset_endPosition (h : l.cursor.Within text) (hnext : l.next = (some t, l')) :
    t.endPosition.offset = l'.position.offset := by
  obtain ⟨-, c, hstretch, -⟩ := stretch_of_next hnext
  obtain ⟨u, v, -, hplace⟩ := (stands_of_next_some h hnext).2
  have hle : c.position.offset ≤ Position.limit := by
    rw [← hstretch.place, hplace, Position.offset_start_through]
    exact Nat.min_le_right ..
  rw [Token.offset_endPosition, hstretch.position, hstretch.place, Position.offset_through hle]

/-- What comes next stands where the lexer does, or further on. -/
theorem offset_le_nth (h : l.cursor.Within text) :
    l.position.offset ≤ (Token.nth text l.tokens 0).position.offset := by
  match hl : l.tokens with
  | [] =>
    show l.cursor.position.offset ≤ (Position.start.through text []).offset
    rw [h.position_eq, Position.offset_start_through, Position.offset_start_through, h.text_eq,
      Text.size_append]
    exact Position.bounded_le (Nat.le_add_right ..)
  | t :: ts => exact (ordered_tokens h).2 t (hl ▸ List.mem_cons_self)

/-- The tokens of a text do not overlap. -/
theorem ordered_nth (h : l.cursor.Within text) : Arena.Ordered (Token.nth text l.tokens) := by
  intro k
  induction l using next_induction generalizing k with
  | stop l l' hl =>
    have hend : (Token.nth text [] k).endPosition.offset = (Token.nth text [] k).position.offset := by
      rw [Token.offset_endPosition]
      show Position.bounded ((Position.start.through text []).offset + 0) = _
      rw [Position.offset_start_through, Position.bounded_bounded_add, Nat.add_zero,
        ← Position.offset_start_through text []]
      rfl
    rw [tokens_of_next_none hl]
    exact ⟨hend.ge, hend.le⟩
  | token l t l' hl ih =>
    have hwithin := (stands_of_next_some h hl).1
    rw [tokens_of_next_some hl]
    cases k with
    | zero =>
      have hend := offset_endPosition h hl
      exact ⟨hend ▸ (offset_of_next_some h hl).2, hend ▸ offset_le_nth hwithin⟩
    | succ k => exact ih hwithin k

end Lexer

/-! ## The tokens below a node -/

theorem filterMap_getElem?_range' (xs : List Token) (i n : Nat) :
    (List.range' i n).filterMap (fun k => xs[k]?) = (xs.drop i).take n := by
  induction n generalizing i with
  | zero => rw [List.take_zero]; rfl
  | succ n ih =>
    rw [List.range'_succ, List.filterMap_cons, ih]
    cases hi : xs[i]? with
    | none =>
      have hle := List.getElem?_eq_none_iff.1 hi
      rw [List.drop_eq_nil_of_le hle, List.drop_eq_nil_of_le (Nat.le_succ_of_le hle)]
      simp
    | some t =>
      obtain ⟨hlt, rfl⟩ := List.getElem?_eq_some_iff.1 hi
      rw [List.drop_eq_getElem_cons hlt, List.take_succ_cons]

/-- The tokens on the leaves below a node that covers a run are the tokens of the run. -/
theorem Arena.Covers.leafTokens {nth : Nat → Token} {a : Arena} {id : NodeId} {i j : Nat}
    (h : a.Covers nth id i j) : a.leafTokens id = (a.tokens.toList.drop i).take (j - i) := by
  rw [leafTokens_eq, h.leaves, ← filterMap_getElem?_range']
  simp only [Array.getElem?_toList]

/-- The first and the last of them. -/
theorem Arena.Covers.ends {nth : Nat → Token} {a : Arena} {id : NodeId} {i j : Nat}
    (h : a.Covers nth id i j) (hnth : ∀ k < a.tokens.size, a.tokens[k]? = some (nth k)) :
    (∀ t ∈ (a.leafTokens id).head?, t = nth i) ∧
      ∀ t ∈ (a.leafTokens id).getLast?, t = nth (j - 1) := by
  have hle := h.le
  have hsize := h.le_size
  have hlength : (a.leafTokens id).length = j - i := by
    rw [h.leafTokens, List.length_take, List.length_drop, Array.length_toList]
    omega
  have hget : ∀ k t, (a.leafTokens id)[k]? = some t → t = nth (i + k) := by
    intro k t ht
    have hk := (List.getElem?_eq_some_iff.1 ht).1
    rw [h.leafTokens, List.getElem?_take_of_lt (hlength ▸ hk), List.getElem?_drop,
      Array.getElem?_toList, hnth _ (by omega)] at ht
    exact (Option.some.inj ht).symm
  refine ⟨fun t ht => ?_, fun t ht => ?_⟩
  · exact hget 0 t (List.head?_eq_getElem?.symm.trans ht)
  · have hlast := List.getLast?_eq_getElem?.symm.trans ht
    have hlt := (List.getElem?_eq_some_iff.1 hlast).1
    rw [hget _ t hlast, hlength]
    congr 1
    omega

/-! ## What an act does -/

/-- Every node with a slot for an operator has children. -/
def Arena.Manned (a : Arena) : Prop :=
  ∀ id kind, a.kind? id = some kind → kind.slot? ≠ none → a.children id ≠ []

theorem Arena.Manned.earlier {a a' : Arena} (h : a'.Manned) (hextends : a.Extends a') :
    a.Manned := by
  intro id kind hkind hslot
  have hid := Arena.lt_of_kind? hkind
  rw [← hextends.children_eq hid]
  exact h id kind ((hextends.kind?_eq hid).trans hkind) hslot

theorem Arena.Formed.manned_finish {a : Arena} (h : a.Formed) (children : List NodeId)
    (place : Position) : (a.finish children place).Manned := by
  intro id kind hkind hslot hnone
  by_cases hroot : id = (a.finish children place).root
  · subst hroot
    cases (Arena.kind?_root a children place).symm.trans hkind
    exact hslot rfl
  · obtain ⟨⟨slot, op⟩, hop⟩ := Option.ne_none_iff_exists'.1 hslot
    obtain ⟨t, ht, -⟩ := (h.fits_finish hkind hroot).operator slot op hop
    rw [hnone] at ht
    cases ht

variable {text : List Char} {ts : List Token} {w w' : Workpiece} {place : Position}

/-- The row of nodes covers the tokens that are taken, and the stream stands behind them. -/
structure Workpiece.Spread (text : List Char) (ts : List Token) (w : Workpiece) : Prop where
  arena : w.state.arena.Spread (Token.nth text ts) w.loose
  stream : ∃ told, TokenStream.Follows text ⟨ts, .endOfInput (Position.start.through text []),
    min w.state.arena.tokens.size ts.length⟩ told w.state.stream

/-- The list shows the token behind those that are taken. -/
theorem TokenList.ahead_eq_nth (k : Nat) :
    TokenList.ahead ⟨ts, .endOfInput (Position.start.through text []), min k ts.length⟩ 0
      = Token.nth text ts k := by
  rw [TokenList.ahead, Token.nth, Nat.add_zero]
  rcases Nat.lt_or_ge k ts.length with hlt | hge
  · rw [Nat.min_eq_left (Nat.le_of_lt hlt)]
  · rw [Nat.min_eq_right hge, List.getElem?_eq_none (Nat.le_refl _), List.getElem?_eq_none hge]

/-- Tokens are taken behind those that are taken already. -/
theorem TokenList.take_eq {k n : Nat} {finish : Token} (hn : n ≤ ts.length - k) :
    TokenList.take ⟨ts, finish, min k ts.length⟩ n = ⟨ts, finish, min (k + n) ts.length⟩ := by
  rw [TokenList.take, TokenList.mk.injEq]
  refine ⟨rfl, rfl, ?_⟩
  show min k ts.length + n = min (k + n) ts.length
  omega

/-- The next tokens outside a set stand behind those that are taken. -/
theorem TokenList.outside_eq (text : List Char) (ts : List Token) (finish : Token) (k : Nat)
    (sync : TokenSet) :
    (TokenList.outside ⟨ts, finish, min k ts.length⟩ sync).length ≤ ts.length - k ∧
      ∀ i t, (TokenList.outside ⟨ts, finish, min k ts.length⟩ sync)[i]? = some t →
        t = Token.nth text ts (k + i) := by
  generalize hrun : TokenList.outside ⟨ts, finish, min k ts.length⟩ sync = run
  obtain ⟨rest, hrest⟩ : run <+: ts.drop (min k ts.length) := hrun ▸ List.takeWhile_prefix _
  have hlength := congrArg List.length hrest
  rw [List.length_append, List.length_drop] at hlength
  refine ⟨by omega, fun i t ht => ?_⟩
  have hi := (List.getElem?_eq_some_iff.1 ht).1
  have hget : (run ++ rest)[i]? = some t := (List.getElem?_append_left hi).trans ht
  rw [hrest, List.getElem?_drop] at hget
  rw [Token.nth, ← Nat.min_eq_left (show k ≤ ts.length by omega), hget]
  rfl

namespace Workpiece.Spread

theorem ahead (h : w.Spread text ts) : (w.state.stream.fill 0).ahead 0
    = Token.nth text ts w.state.arena.tokens.size := by
  obtain ⟨told, hfollows⟩ := h.stream
  rw [hfollows.ahead_fill, TokenList.ahead_eq_nth]

/-- What a stream sees is the place of the token behind those that are taken. -/
theorem place_eq (h : w.Spread text ts) (hsees : w.state.stream.Sees place) :
    place = (Token.nth text ts w.state.arena.tokens.size).position := by
  rw [← h.ahead, hsees.fill_eq]
  exact hsees.place.symm

/-- At the end of the input all tokens are taken. -/
theorem length_le (h : w.Spread text ts) (hend : w.state.next = .eof) :
    ts.length ≤ w.state.arena.tokens.size := by
  refine Nat.le_of_not_lt fun hlt => ?_
  have hid : (Token.nth text ts w.state.arena.tokens.size).id = .eof := by
    rw [← h.ahead, ← hend]
    exact w.state.id_current_fill
  rw [Token.nth, List.getElem?_eq_getElem hlt, Option.getD_some] at hid
  obtain ⟨told, hfollows⟩ := h.stream
  exact hfollows.id_ne_eof _ (List.getElem_mem hlt) hid

end Workpiece.Spread

namespace Parser

/-- The nodes that were there before an act are there after it. -/
theorem Act.later (h : Act w w') : w.state.arena.Later w'.state.arena := by
  cases h with
  | look k st loose => exact .refl _
  | note hnotes loose =>
    rw [hnotes.arena]
    exact .refl _
  | report st d hplace hcode loose => exact .refl _
  | take st loose => exact .pushLeaf _ _
  | skip sync place st loose hplace =>
    exact (ParseState.gains_pushError { st with stream := _ } _ place).later
  | wrap kind hkind children place st before hplace => exact .pushNode _ kind children place

theorem spread_take {st : ParseState} {loose : List NodeId}
    (h : Workpiece.Spread text ts ⟨st, loose⟩) :
    Workpiece.Spread text ts ⟨(st.fill 0).takeLeaf.2, loose ++ [(st.fill 0).takeLeaf.1]⟩ := by
  obtain ⟨told, hfollows⟩ := h.stream
  have htoken : (st.stream.fill 0).consume.1 = Token.nth text ts st.arena.tokens.size := by
    rw [TokenStream.fst_consume, TokenStream.fill_fill]
    exact h.ahead
  have hsize : (st.fill 0).takeLeaf.2.arena.tokens.size = st.arena.tokens.size + 1 := by
    simp [ParseState.takeLeaf, ParseState.pushLeaf, Arena.pushLeaf, Arena.push, ParseState.fill]
  refine ⟨h.arena.pushLeaf htoken, told, ?_⟩
  have hconsume := (hfollows.fill 0).consume
  have hlist : ∀ finish, (if min st.arena.tokens.size ts.length < ts.length then
      TokenList.take ⟨ts, finish, min st.arena.tokens.size ts.length⟩ 1
      else ⟨ts, finish, min st.arena.tokens.size ts.length⟩)
        = ⟨ts, finish, min (st.arena.tokens.size + 1) ts.length⟩ := by
    intro finish
    split
    · exact TokenList.take_eq (by omega)
    · rw [TokenList.mk.injEq]
      exact ⟨rfl, rfl, by omega⟩
  show TokenStream.Follows text ⟨ts, _, min (st.fill 0).takeLeaf.2.arena.tokens.size _⟩ told
    (st.stream.fill 0).consume.2
  rw [hsize, ← hlist]
  exact hconsume

theorem spread_skip (sync : TokenSet) {st : ParseState} {loose : List NodeId}
    (h : Workpiece.Spread text ts ⟨st, loose⟩) (hsees : st.stream.Sees place) :
    Workpiece.Spread text ts
      ⟨({ st with stream := (st.stream.synchronize sync []).2 }.pushError
        (st.stream.synchronize sync []).1 place).2, loose ++
        [({ st with stream := (st.stream.synchronize sync []).2 }.pushError
          (st.stream.synchronize sync []).1 place).1]⟩ := by
  obtain ⟨told, hfollows⟩ := h.stream
  obtain ⟨htokens, hbehind⟩ := hfollows.synchronize sync
  generalize hskipped : (st.stream.synchronize sync []).1 = skipped at htokens ⊢
  obtain ⟨hlength, hnth⟩ := TokenList.outside_eq text ts
    (.endOfInput (Position.start.through text [])) st.arena.tokens.size sync
  rw [TokenList.take_eq hlength] at hbehind
  rw [← htokens] at hnth hbehind
  have hleaves := h.arena.leaves skipped hnth
  have hsize : (skipped.foldl Arena.pushLeaf st.arena).tokens.size
      = st.arena.tokens.size + skipped.length := by
    have hgrows : st.arena.Grows [] [] st.arena [] := .refl
    rw [← Array.length_toList, (hgrows.leaves skipped).tokens]
    simp
  refine ⟨hleaves.pushNode rfl fun hnil => ?_, told, ?_⟩
  · have hnone : skipped = [] := by simpa using hnil
    subst hnone
    exact h.place_eq hsees
  · show TokenStream.Follows text
      ⟨ts, _, min (skipped.foldl Arena.pushLeaf st.arena).tokens.size _⟩ told _
    rw [hsize]
    exact hbehind

theorem Act.spread (h : Act w w') (hmanned : w'.state.arena.Manned) (hw : w.Spread text ts) :
    w'.Spread text ts := by
  cases h with
  | look k st loose =>
    obtain ⟨told, hfollows⟩ := hw.stream
    exact ⟨hw.arena, told, hfollows.fill k⟩
  | @note st st' hnotes loose =>
    obtain ⟨harena, hstream⟩ := hw
    refine ⟨?_, ?_⟩
    · show st'.arena.Spread _ loose
      rwa [hnotes.arena]
    · show ∃ told, TokenStream.Follows text ⟨ts, _, min st'.arena.tokens.size _⟩ told st'.stream
      rwa [hnotes.arena, hnotes.stream]
  | report st d hplace hcode loose =>
    obtain ⟨told, hfollows⟩ := hw.stream
    exact ⟨hw.arena, _, (hfollows.fill 0).takeDiagnostics⟩
  | take st loose => exact spread_take hw
  | skip sync place st loose hsees => exact spread_skip sync hw hsees
  | wrap kind hkind children place st before hsees =>
    refine ⟨hw.arena.pushNode hkind fun hnil => ?_, hw.stream⟩
    by_cases hslot : kind.slot? = none
    · exact hw.place_eq (hsees hnil hslot)
    · -- The node of an operator has children, so this one would be out of order.
      have hpresent : ∀ c ∈ children, c < st.arena.nodes.size := hnil ▸ List.forall_mem_nil _
      have hchildren := Arena.children_pushNode kind place hpresent
      exact absurd (hchildren.trans hnil)
        (hmanned _ kind (st.arena.kind?_pushNode kind children place) hslot)

theorem Acts.spread (h : Acts w w') (hmanned : w'.state.arena.Manned) (hw : w.Spread text ts) :
    w'.Spread text ts := by
  have hspread : w'.state.arena.Manned → w'.Spread text ts :=
    h.invariant (I := fun w' => w'.state.arena.Manned → w'.Spread text ts)
      (fun _ _ hact ih hmanned => hact.spread hmanned
        (ih (hmanned.earlier hact.later.toExtends)))
      (fun _ => hw)
  exact hspread hmanned

/-! ## The tree of a parse -/

section Answered

variable {decls : List GrammarDecl} {g : Grammar} {sync : TokenSet} {table : TokenTable}
  {mode : TriviaMode} {depth : Nat} {q : Parse} {id : NodeId}

/-- The whole tree covers the tokens of the text. -/
theorem Answers.spread (hg : Grammar.ofDecls decls = .ok g)
    (hq : Parser.Answers ⟨g, sync⟩ (.ofLexer (.ofText table mode text) depth) q) :
    q.tree.Spread (Token.nth text (Lexer.tokenize table mode text).1.toList) [q.tree.root] ∧
      (Lexer.tokenize table mode text).1.toList.length ≤ q.tree.tokens.size := by
  have hc := Grammar.checked_of_ofDecls hg
  obtain ⟨n, hhalted, hfinish⟩ := (answers_iff ..).1 hq
  obtain ⟨a, children, place, hformed, htree⟩ :=
    exists_formed_finish (Reaches.tidy (p := ⟨g, sync⟩) hc ⟨n, rfl⟩)
  have hmanned : q.tree.Manned := by
    rw [hfinish, htree]
    exact hformed.manned_finish children place
  obtain ⟨w, heffects, hend, hsees, htree⟩ := finish_effects (p := ⟨g, sync⟩) hhalted
  have hacts := ((Reaches.effects (p := ⟨g, sync⟩) hc ⟨n, rfl⟩).trans heffects).acts
  have hroot : q.tree = w.state.arena.finish w.loose w.state.current.position := by
    rw [hfinish, htree]
  rw [hroot] at hmanned ⊢
  have hw := hacts.spread (hmanned.earlier (.pushNode w.state.arena .root w.loose _))
    ⟨.empty, [], .ofText table mode text depth⟩
  have hrow : w.state.arena.Spread (Token.nth text (Lexer.tokenize table mode text).1.toList)
      ([] ++ w.loose) := hw.arena
  exact ⟨hrow.pushNode rfl fun _ => hw.place_eq hsees, hw.length_le hend⟩

/-- Every node of a tree ends where it begins or behind that, its children follow each other, and
each of them is inside it. -/
theorem nested_of_answers (hg : Grammar.ofDecls decls = .ok g)
    (hq : Parser.Answers ⟨g, sync⟩ (.ofLexer (.ofText table mode text) depth) q)
    (hid : id < q.tree.size) :
    (q.tree.startOf id).offset ≤ (q.tree.stopOf id).offset ∧
      (q.tree.children id).IsChain q.tree.Precedes ∧
      ∀ c ∈ q.tree.children id, q.tree.Inside c id :=
  (hq.spread hg).1.measured.nested (Lexer.ordered_nth (Cursor.within_ofText text)) hid

/-- The tokens of a tree are divided by each of its nodes: some stand before it, some on the leaves
below it, and some behind it. It begins where the first of its tokens does. It ends where the last
one does if a walk below it ends in a leaf; else the last node below it is empty, and it reaches to
the token behind, over the blanks in between. -/
theorem spans_of_answers (hg : Grammar.ofDecls decls = .ok g)
    (hq : Parser.Answers ⟨g, sync⟩ (.ofLexer (.ofText table mode text) depth) q)
    (hid : id < q.tree.size) :
    ∃ before behind, q.tree.tokens.toList = before ++ q.tree.leafTokens id ++ behind ∧
      (∀ t ∈ (q.tree.leafTokens id).head?, q.tree.startOf id = t.position) ∧
      ∀ t ∈ (q.tree.leafTokens id).getLast?, q.tree.stopOf id =
        if q.tree.endsInLeaf id then t.endPosition
        else (behind.head?.map Token.position).getD (Position.start.through text []) := by
  obtain ⟨hspread, hlength⟩ := hq.spread hg
  obtain ⟨i, j, hcovers, -⟩ := hspread.measured id hid
  obtain ⟨hfirst, hlast⟩ := hcovers.ends hspread.tokens
  refine ⟨q.tree.tokens.toList.take i, q.tree.tokens.toList.drop j, ?_, fun t ht => ?_,
    fun t ht => ?_⟩
  · have hdrop : q.tree.tokens.toList.drop j = (q.tree.tokens.toList.drop i).drop (j - i) := by
      rw [List.drop_drop, Nat.add_sub_of_le hcovers.le]
    rw [hcovers.leafTokens, hdrop, List.append_assoc, List.take_append_drop, List.take_append_drop]
  · rw [hfirst t ht, hcovers.start]
  · rw [hlast t ht, hcovers.stop, List.head?_drop, Array.getElem?_toList]
    -- Behind the last token that was taken there is only the end of the text.
    have hbehind : (Token.nth text (Lexer.tokenize table mode text).1.toList j).position
        = (q.tree.tokens[j]?.map Token.position).getD (Position.start.through text []) := by
      rcases Nat.lt_or_ge j q.tree.tokens.size with hlt | hge
      · rw [hspread.tokens j hlt]
        rfl
      · rw [Array.getElem?_eq_none hge, Token.nth,
          List.getElem?_eq_none (Nat.le_trans hlength hge)]
        rfl
    rw [hbehind]

/-- A text with a character that is no token, and with one name too many, has a tree. -/
theorem exists_answer_twoNames :
    ∃ q, Parser.Answers ⟨.sample, ∅⟩ (.ofText sampleTable ['x', '?', 'x'] 1) q ∧
      q.tree.root < q.tree.size := by
  obtain ⟨q, hanswers⟩ := exists_answer_of_complete (p := ⟨.sample, ∅⟩) Grammar.checked_sample
    (Grammar.lacks_sample nofun) Grammar.defined_sample (.ofText sampleTable ['x', '?', 'x'] 1)
  have hspread := (hanswers.spread Grammar.ofDecls_sample).1
  exact ⟨q, hanswers, hspread.row.lt _ (List.mem_singleton_self _)⟩

/-- The nodes below its root follow each other. -/
theorem nested_of_answers_sample :
    ∃ q, Parser.Answers ⟨.sample, ∅⟩ (.ofText sampleTable ['x', '?', 'x'] 1) q ∧
      (q.tree.children q.tree.root).IsChain q.tree.Precedes := by
  obtain ⟨q, hanswers, hroot⟩ := exists_answer_twoNames
  exact ⟨q, hanswers, (nested_of_answers Grammar.ofDecls_sample hanswers hroot).2.1⟩

/-- The root begins where the first of its tokens does, and ends where the last one does or at the
token behind. -/
theorem spans_of_answers_sample :
    ∃ q before behind, Parser.Answers ⟨.sample, ∅⟩ (.ofText sampleTable ['x', '?', 'x'] 1) q ∧
      q.tree.tokens.toList = before ++ q.tree.leafTokens q.tree.root ++ behind ∧
      (∀ t ∈ (q.tree.leafTokens q.tree.root).head?, q.tree.startOf q.tree.root = t.position) ∧
      ∀ t ∈ (q.tree.leafTokens q.tree.root).getLast?, q.tree.stopOf q.tree.root =
        if q.tree.endsInLeaf q.tree.root then t.endPosition
        else (behind.head?.map Token.position).getD (Position.start.through ['x', '?', 'x'] []) := by
  obtain ⟨q, hanswers, hroot⟩ := exists_answer_twoNames
  obtain ⟨before, behind, htokens, hstart, hstop⟩ :=
    spans_of_answers Grammar.ofDecls_sample hanswers hroot
  exact ⟨q, before, behind, hanswers, htokens, hstart, hstop⟩

end Answered

end Parser

/-! ## A node that ends in front of the next token -/

namespace TokenTable

variable {t : TokenTable}

/-- Behind the letter the blank is left out. -/
theorem lexes_blank (h : ofDecls blankDecls = .ok t) :
    t.Lexes .skip ['a', ' '] [⟨.kind 1, "a"⟩] := by
  have hforms : List.Forall₂ Compiles blankDecls ([' ', 'a'].map fun c => .literal [c]) :=
    .cons rfl (.cons rfl .nil)
  have hrules := rules_of_declares (indexed_of_ofDecls h).2 hforms
  have hname := wins_character (n := 1) h hforms rfl (by decide) [' ']
  have hblank := wins_character (n := 0) h hforms rfl nofun []
  have htrivia : t.isTrivia (.kind 1) = false ∧ t.isTrivia (.kind 0) = true := by
    simp only [isTrivia, rule?, ← Array.getElem?_toList, hrules]
    exact ⟨rfl, rfl⟩
  have hkept : t.kept .skip ['a'] 1 = [⟨.kind 1, "a"⟩] ∧ t.kept .skip [' '] 0 = [] := by
    rw [kept, kept, htrivia.1, htrivia.2]
    exact ⟨rfl, rfl⟩
  have hrest : t.Lexes .skip [' '] (t.kept .skip [' '] 0 ++ []) := .wins hblank rfl .nil
  have hlexes := Lexes.wins hname rfl hrest
  rwa [hkept.1, hkept.2] at hlexes

end TokenTable

/-- The letter is the only token, and it stands at the start. -/
theorem Lexer.tokens_blank {t : TokenTable}
    (h : TokenTable.ofDecls TokenTable.blankDecls = .ok t) :
    (tokenize t .skip ['a', ' ']).1.toList = [⟨.kind 1, "a", .start⟩] := by
  have ht := (TokenTable.indexed_of_ofDecls h).1
  have hlasts : Lasts t ['a', ' '] := lasts_of_decls h (by decide)
  have hlexemes := (lexes_tokenize ht .skip hlasts).unique ht (TokenTable.lexes_blank h)
  obtain ⟨⟨id, text, place⟩, none, htokens, hlexeme, hnone⟩ := List.map_eq_cons_iff.1 hlexemes
  obtain rfl := List.map_eq_nil_iff.1 hnone
  cases hlexeme
  have hmem : (⟨.kind 1, "a", place⟩ : Token) ∈ (ofText t .skip ['a', ' ']).tokens := by
    rw [← tokenize_toList, htokens]
    exact List.mem_singleton_self _
  obtain ⟨u, v, htext, hplace⟩ := stands_of_mem_tokens (Cursor.within_ofText _) hmem
  have htext : ['a', ' '] = u ++ 'a' :: v := by simpa using htext
  have hplace : place = Position.start.through u _ := hplace
  -- There is no second letter.
  have hu : u = [] := by
    rcases u with _ | ⟨c, _ | ⟨c', u⟩⟩
    · rfl
    · cases htext
    · cases u <;> cases htext
  rw [htokens, hplace, hu]
  rfl

namespace Grammar

/-- A name, and then a rule for the empty text. -/
def raggedDecls : List GrammarDecl :=
  [.rule "none" [⟨[], []⟩], .rule "start" [⟨[.token (.kind 1), .rule 0], []⟩], .start 1]

/-- The grammar of these declarations. -/
def ragged : Grammar := (GrammarDraft.ofDecls raggedDecls).finished 1

theorem ofDecls_ragged : ofDecls raggedDecls = .ok ragged := by
  refine GrammarDraft.build_eq_ok_iff.2 ⟨1, ?_, ?_, ?_, rfl⟩
  · decide +kernel
  · decide +kernel
  · cbv

theorem body_ragged :
    ragged.body 0 = .sequence [Analysis.alternative ragged.nullable ragged.first ⟨[], []⟩] ∧
      ragged.body 1 = .sequence
        [Analysis.alternative ragged.nullable ragged.first ⟨[.token (.kind 1), .rule 0], []⟩] := by
  have hrules : (GrammarDraft.ofDecls raggedDecls).rules =
      #[⟨"none", .sequence [⟨[], []⟩], false⟩,
        ⟨"start", .sequence [⟨[.token (.kind 1), .rule 0], []⟩], false⟩] := by decide +kernel
  rw [ragged, GrammarDraft.body_finished, GrammarDraft.body_finished, hrules]
  exact ⟨rfl, rfl⟩

end Grammar

/-- The nodes of a name with an empty node behind it. -/
def Arena.ragged (t : Token) (place place' : Position) : Arena :=
  ((Arena.empty.pushLeaf t).pushNode (.rule 0) [] place).pushNode (.rule 1) [0, 1] place'

theorem Arena.size_ragged (t : Token) (place place' : Position) :
    (ragged t place place').nodes.size = 3 := by
  rw [ragged, size_pushNode, size_pushNode, size_pushLeaf]
  rfl

theorem Arena.kinds_ragged (t : Token) (place place' : Position) :
    (ragged t place place').kinds [2] = [.rule 1, .leaf 0, .rule 0] := by
  have hleaf : (Arena.empty.pushLeaf t).kinds [0] = [.leaf 0] := kinds_pushLeaf .empty t
  have hempty : ((Arena.empty.pushLeaf t).pushNode (.rule 0) [] place).kinds [1] = [.rule 0] :=
    kinds_pushNode _ (.rule 0) place (List.forall_mem_nil _)
  have hsame : ((Arena.empty.pushLeaf t).pushNode (.rule 0) [] place).kinds [0]
      = (Arena.empty.pushLeaf t).kinds [0] :=
    (Extends.pushNode ..).kinds (by simp [size_pushLeaf])
  have hrow : ((Arena.empty.pushLeaf t).pushNode (.rule 0) [] place).kinds ([0] ++ [1])
      = [.leaf 0, .rule 0] := by
    rw [kinds_append, hsame, hleaf, hempty]
    rfl
  have hnode := kinds_pushNode _ (.rule 1) place'
    (show ∀ c ∈ [0, 1], c < ((Arena.empty.pushLeaf t).pushNode (.rule 0) [] place).nodes.size by
      simp [size_pushNode, size_pushLeaf])
  exact hnode.trans (congrArg (_ :: ·) hrow)

namespace Parser

/-- The name is taken, and the rule for the empty text is begun. -/
theorem begin_ragged {st : ParseState} (hids : st.ids = [.kind 1]) (harena : st.arena = .empty)
    (follow : TokenSet) :
    ∃ t follow' st', run ⟨.ragged, ∅⟩ 4 ⟨.rule 1 follow, [], [], st⟩
        = ⟨.rule 0 follow', [.steps [] follow, .rule 1 st.consumed []], [0], st'⟩ ∧
      st'.arena = Arena.empty.pushLeaf t ∧ st'.ids = [] := by
  have hname := Grammar.body_ragged.2
  have hstep := step_of_choose_eq (p := ⟨.ragged, ∅⟩) hname (ParseState.choose_singleton _ st.ids)
    follow [] []
  have hstays := st.stays_select .ragged 1 [Analysis.alternative Grammar.ragged.nullable
    Grammar.ragged.first ⟨[.token (.kind 1), .rule 0], []⟩]
  have hsame := (st.select_same .ragged 1 [Analysis.alternative Grammar.ragged.nullable
    Grammar.ragged.first ⟨[.token (.kind 1), .rule 0], []⟩]).1
  generalize (st.select _ _ _).2 = st₁ at hstep hstays hsame
  rw [harena] at hsame
  have hnext : st₁.next = .kind 1 := by
    rw [hstays.next, ParseState.next, hids]
    rfl
  -- The next token is the name, which is taken whatever frames there are.
  have htake : ∀ frames, expect ⟨.ragged, ∅⟩ (.kind 1) frames [] st₁
      = ⟨.done .proceeding, frames, [0], (st₁.fill 0).takeLeaf.2⟩ := by
    intro frames
    have hleaf : (st₁.fill 0).takeLeaf.1 = 0 := congrArg Arena.nextId hsame
    simp only [expect, ParseState.id_current_fill]
    rw [if_pos hnext, hleaf]
  refine ⟨(st₁.fill 0).stream.consume.1, followOf ⟨.rule 0, ∅, true⟩ follow,
    (st₁.fill 0).takeLeaf.2, ?_, ?_, ?_⟩
  · show step _ (step _ (step _ (step _ _))) = _
    rw [hstep]
    show step _ (step _ (expect _ (.kind 1) _ [] st₁)) = _
    rw [htake]
    rfl
  · rw [← hsame]
    rfl
  · rw [(st₁.fill 0).takes_takeLeaf.ids, ParseState.ids_fill, hstays.ids_eq, hids]
    rfl

/-- The run over one name. -/
theorem run_ragged {st : ParseState} (hids : st.ids = [.kind 1]) (harena : st.arena = .empty)
    (follow : TokenSet) :
    ∃ t place place' last, run ⟨.ragged, ∅⟩ (4 + (3 + 3)) ⟨.rule 1 follow, [], [], st⟩
        = ⟨.done .proceeding, [], [2], last⟩ ∧
      last.arena = .ragged t place place' ∧ last.next = .eof := by
  obtain ⟨t, follow', st₁, hbegin, harena₁, hids₁⟩ := begin_ragged hids harena follow
  obtain ⟨place, st₂, hrun, harena₂, hids₂⟩ := run_of_empty (p := ⟨.ragged, ∅⟩)
    Grammar.body_ragged.1 rfl (by decide +kernel) follow'
    [.steps [] follow, .rule 1 st.consumed []] [0] st₁
  rw [harena₁] at hrun harena₂
  have hnode : hasNode ⟨.ragged, ∅⟩ 1 = true := by decide +kernel
  have hid : (st₂.fill 0).arena.nextId = 2 := by
    show st₂.arena.nextId = 2
    rw [harena₂]
    rfl
  refine ⟨t, place, _, ((st₂.fill 0).pushNode (.rule 1) [0, 1] (st₂.fill 0).current.position).2,
    ?_, congrArg (Arena.pushNode · (.rule 1) [0, 1] _) harena₂, ?_⟩
  · rw [run_add, hbegin, run_add, hrun]
    show leaveRule ⟨.ragged, ∅⟩ 1 .proceeding [] [] [1, 0] st₂ = _
    rw [leaveRule, if_pos hnode]
    show Machine.mk _ _ [(st₂.fill 0).arena.nextId] _ = _
    rw [hid]
    rfl
  · have hlast : ((st₂.fill 0).pushNode (.rule 1) [0, 1]
        (st₂.fill 0).current.position).2.ids = [] := by
      rw [(ParseState.stays_pushNode ..).ids_eq, ParseState.ids_fill, hids₂, hids₁]
    rw [ParseState.next, hlast]
    rfl

/-- The tree of the parse. -/
theorem exists_answer_ragged {table : TokenTable}
    (htable : TokenTable.ofDecls TokenTable.blankDecls = .ok table) :
    ∃ q, Parser.Answers ⟨.ragged, ∅⟩ (.ofText table ['a', ' '] 1) q ∧
      2 < q.tree.size ∧ q.tree.kinds [2] = [.rule 1, .leaf 0, .rule 0] := by
  have hids : Lexer.textIds table ['a', ' '] = [.kind 1] := by
    rw [Lexer.textIds, Lexer.tokens_blank htable]
    rfl
  obtain ⟨htask, hframes⟩ := task_start ⟨.ragged, ∅⟩ 1 (hids ▸ List.cons_ne_nil _ _)
  have hstart : (start ⟨.ragged, ∅⟩ (.ofText table ['a', ' '] 1)).state.ids = [.kind 1] :=
    (ids_start ..).trans hids
  obtain ⟨t, place, place', last, hrun, harena, hnext⟩ := run_ragged hstart rfl (.single .eof)
  have hhalt : run ⟨.ragged, ∅⟩ 10 (start ⟨.ragged, ∅⟩ (.ofText table ['a', ' '] 1))
      = ⟨.done .proceeding, [], [2], last⟩ := by
    rw [show start ⟨.ragged, ∅⟩ (.ofText table ['a', ' '] 1) = ⟨.rule 1 (.single .eof), [], [],
      (start ⟨.ragged, ∅⟩ (.ofText table ['a', ' '] 1)).state⟩ from
        congrArg₂ (fun task frames => Machine.mk task frames [] _) htask hframes]
    exact hrun
  have htree : (finish ⟨.done .proceeding, [], [2], last⟩).tree
      = last.arena.finish [2] (last.fill 0).current.position := by
    unfold finish
    simp only [ParseState.id_current_fill]
    rw [if_pos hnext]
    rfl
  have hextends := Arena.Extends.pushNode last.arena .root [2] (last.fill 0).current.position
  have htwo : 2 < last.arena.nodes.size := by
    rw [harena, Arena.size_ragged]
    exact Nat.lt_succ_self 2
  refine ⟨_, (answers_iff ..).2 ⟨10, by rw [hhalt]; rfl, rfl⟩, ?_⟩
  rw [hhalt, htree]
  refine ⟨Nat.lt_of_lt_of_le htwo hextends.size_le, ?_⟩
  rw [Arena.finish, hextends.kinds (List.forall_mem_singleton.2 htwo), harena, Arena.kinds_ragged]

/-- The rule ends behind the blank, and its only token in front of it. -/
theorem stop_ne_endPosition_ragged :
    ∃ table, TokenTable.ofDecls TokenTable.blankDecls = .ok table ∧
      Grammar.ofDecls Grammar.raggedDecls = .ok .ragged ∧
      ∃ q, Parser.Answers ⟨.ragged, ∅⟩ (.ofText table ['a', ' '] 1) q ∧
        ∃ id t, (q.tree.leafTokens id).getLast? = some t ∧ q.tree.stopOf id ≠ t.endPosition := by
  obtain ⟨table, htable⟩ := TokenTable.exists_ofDecls_blank
  obtain ⟨q, hq, hid, hkinds⟩ := exists_answer_ragged htable
  obtain ⟨hspread, -⟩ := hq.spread Grammar.ofDecls_ragged
  rw [Lexer.tokens_blank htable] at hspread
  obtain ⟨i, j, hcovers, -⟩ := hspread.measured 2 hid
  have hleaves := hcovers.leaves
  rw [hkinds] at hleaves
  obtain ⟨rfl, hj⟩ := List.range'_eq_singleton_iff.1 hleaves.symm
  obtain rfl : j = 1 := hj
  refine ⟨table, htable, Grammar.ofDecls_ragged, q, hq, 2, ⟨.kind 1, "a", .start⟩, ?_, ?_⟩
  · have hget := hspread.tokens 0 hcovers.le_size
    rw [Arena.leafTokens_eq, hkinds]
    show (List.filterMap (fun k => q.tree.tokens[k]?) [0]).getLast? = _
    rw [List.filterMap_cons, hget]
    rfl
  · rw [hcovers.stop, Arena.endsInLeaf, hkinds]
    decide

end Parser

end FrontEnd
