import FrontEnd.Proofs.Grammar.LL1
import FrontEnd.Proofs.Parser.Acts
import FrontEnd.Proofs.Parser.Resuming

/-!
# Every token is on one leaf

Whatever is wrong with a text, the tree of its parse has the tokens of the text on its leaves, from
left to right. An act that takes tokens puts leaves for them at the right end of the row of nodes
without a parent, and all other acts leave the order as it is. Only the end of the input may be put
on leaves that stand for no text.

- `Parser.Feeds`: tokens go from the front of the input to the right end of the row;
- `Parser.Act.feeds`: **each act does that and nothing else**;
- `Parser.complete_of_answers`: so the tree has every token of the text on one leaf, in order.
-/

namespace FrontEnd

/-- Does the token stand for text? The end of the input does not. -/
def Token.isText (t : Token) : Bool := t.id != .eof

namespace Parser

/-- Tokens have gone from the front of the input to leaves at the right end of the row. -/
def Feeds (w w' : Workpiece) : Prop :=
  ∃ taken, w.state.arena.Grows w.loose taken w'.state.arena w'.loose ∧
    w'.state.stream.upcoming <:+ w.state.stream.upcoming ∧
    w.state.stream.upcoming.filter Token.isText
      = (taken ++ w'.state.stream.upcoming).filter Token.isText

variable {p : Parser} {w w' w'' : Workpiece} {st st' : ParseState} {loose : List NodeId}

namespace Feeds

theorem refl (w : Workpiece) : Feeds w w := ⟨[], .refl, List.suffix_rfl, rfl⟩

theorem trans (h : Feeds w w') (h' : Feeds w' w'') : Feeds w w'' := by
  obtain ⟨taken, hgrows, hsuffix, hup⟩ := h
  obtain ⟨taken', hgrows', hsuffix', hup'⟩ := h'
  refine ⟨taken ++ taken', hgrows.trans hgrows', hsuffix'.trans hsuffix, ?_⟩
  rw [hup, List.filter_append, hup', ← List.filter_append, List.append_assoc]

/-- Nothing happens to the tokens and to the nodes. -/
theorem of_same (harena : st'.arena = st.arena)
    (hup : st'.stream.upcoming = st.stream.upcoming) : Feeds ⟨st, loose⟩ ⟨st', loose⟩ := by
  refine ⟨[], ?_, by rw [hup], by rw [hup]; rfl⟩
  show st.arena.Grows loose [] st'.arena loose
  rw [harena]
  exact .refl

end Feeds

theorem upcoming_report (st : ParseState) (d : Diagnostic) :
    (st.report d).stream.upcoming = st.stream.upcoming :=
  st.stream.upcoming_takeDiagnostics

/-- The token that is taken is the first one to come, or the end of the input. -/
theorem feeds_takeLeaf (st : ParseState) (loose : List NodeId) :
    Feeds ⟨st, loose⟩ ⟨st.takeLeaf.2, loose ++ [st.takeLeaf.1]⟩ := by
  have hleaf : ∀ t, st.arena.Grows loose [t] (st.arena.pushLeaf t) (loose ++ [st.arena.nextId]) :=
    fun t => Arena.Grows.refl.leaf t
  match hup : st.stream.upcoming with
  | [] =>
    rw [ParseState.takeLeaf, TokenStream.consume_of_nil hup]
    have hfill := st.stream.upcoming_fill 0
    refine ⟨[(st.stream.fill 0).endToken], hleaf _, ⟨[], hfill⟩, ?_⟩
    show st.stream.upcoming.filter Token.isText
      = ([(st.stream.fill 0).endToken] ++ (st.stream.fill 0).upcoming).filter Token.isText
    rw [hfill, hup]
    rfl
  | t :: ts =>
    obtain ⟨rest, hbuffer⟩ := TokenStream.buffer_fill_zero_cons hup
    rw [ParseState.takeLeaf, TokenStream.consume_of_cons hup]
    have hpop : st.stream.upcoming = [t] ++ (st.stream.fill 0).pop.upcoming := by
      rw [(TokenStream.advances_pop hbuffer).upcoming, TokenStream.upcoming_fill, hup]
      rfl
    exact ⟨[t], hleaf t, ⟨[t], hpop.symm⟩, congrArg _ hpop⟩

/-- Tokens that are skipped hang on the error node. -/
theorem feeds_skip (sync : TokenSet) (place : Position) (st : ParseState) (loose : List NodeId) :
    Feeds ⟨st, loose⟩
      ⟨({ st with stream := (st.stream.synchronize sync []).2 }.pushError
        (st.stream.synchronize sync []).1 place).2, loose ++
        [({ st with stream := (st.stream.synchronize sync []).2 }.pushError
          (st.stream.synchronize sync []).1 place).1]⟩ := by
  obtain ⟨htaken, read, hadv⟩ := TokenStream.synchronize_spec sync [] st.stream
  rw [List.reverse_nil, List.nil_append] at htaken
  have hempty : st.arena.Grows loose [] st.arena loose := .refl
  have hleaves := hempty.leaves (st.stream.synchronize sync []).1
  -- What is skipped is a beginning of what is to come.
  have hsplit : (st.stream.synchronize sync []).1 ++ (st.stream.synchronize sync []).2.upcoming
      = st.stream.upcoming := by
    rw [hadv.upcoming, htaken]
    exact (List.prefix_iff_eq_append.1 (List.takeWhile_prefix _))
  exact ⟨(st.stream.synchronize sync []).1, hleaves.node rfl place, ⟨_, hsplit⟩,
    congrArg _ hsplit.symm⟩

theorem Act.feeds (h : Act w w') : Feeds w w' := by
  cases h with
  | look k st loose => exact .of_same rfl (st.stream.upcoming_fill k)
  | note h loose => exact .of_same h.arena (congrArg TokenStream.upcoming h.stream)
  | report st d hplace hcode loose =>
    exact .of_same rfl ((upcoming_report _ d).trans (st.stream.upcoming_fill 0))
  | take st loose =>
    have hlook : Feeds ⟨st, loose⟩ ⟨st.fill 0, loose⟩ := .of_same rfl (st.stream.upcoming_fill 0)
    exact hlook.trans (feeds_takeLeaf _ loose)
  | skip sync place st loose => exact feeds_skip sync place st loose
  | wrap kind hkind children place st before =>
    exact ⟨[], Arena.Grows.refl.node hkind place, List.suffix_rfl, rfl⟩

theorem Acts.feeds (h : Acts w w') : Feeds w w' :=
  h.invariant (I := Feeds w) (fun _ _ hact hfeeds => hfeeds.trans hact.feeds) (.refl w)

/-- What is to come is an end of the text. -/
theorem Acts.suffix {table : TokenTable} {text : List Char} {depth : Nat}
    (h : Acts ⟨.ofStream (.ofText table text depth), loose⟩ w) :
    w.state.stream.upcoming <:+ (Lexer.ofText table .skip text).tokens := by
  obtain ⟨taken, -, hsuffix, -⟩ := h.feeds
  rwa [show (ParseState.ofStream (.ofText table text depth)).stream.upcoming
    = (Lexer.ofText table .skip text).tokens from TokenStream.upcoming_ofLexer _ depth] at hsuffix

/-- Before the end of the input the tokens to come stand for text. -/
theorem upcoming_of_next_eof {table : TokenTable} {text : List Char} {st : ParseState}
    (hsuffix : st.stream.upcoming <:+ (Lexer.ofText table .skip text).tokens)
    (hend : st.next = .eof) : st.stream.upcoming = [] := by
  cases hup : st.stream.upcoming with
  | nil => rfl
  | cons t ts =>
    rw [ParseState.next, ParseState.ids, hup] at hend
    have hmem : t ∈ st.stream.upcoming := hup ▸ List.mem_cons_self
    exact absurd hend (Lexer.id_ne_eof (hsuffix.subset hmem))

/-- At the end of the input the leaves have every token of the text. -/
theorem Acts.tokens_eq {table : TokenTable} {text : List Char} {depth : Nat}
    (h : Acts ⟨.ofStream (.ofText table text depth), []⟩ w) (hend : w.state.next = .eof) :
    w.state.arena.tokens.toList.filter Token.isText
      = (Lexer.tokenize table .skip text).1.toList := by
  obtain ⟨taken, hgrows, -, hup⟩ := h.feeds
  have htokens : w.state.arena.tokens.toList = taken := hgrows.tokens
  have hstart : (ParseState.ofStream (.ofText table text depth)).stream.upcoming
      = (Lexer.ofText table .skip text).tokens := TokenStream.upcoming_ofLexer _ depth
  have hall : (Lexer.ofText table .skip text).tokens.filter Token.isText
      = (Lexer.ofText table .skip text).tokens :=
    List.filter_eq_self.2 fun t ht => bne_iff_ne.2 (Lexer.id_ne_eof ht)
  rw [hstart, hall, upcoming_of_next_eof h.suffix hend, List.append_nil, ← htokens] at hup
  exact hup.symm

/-- The tree of a parse has the tokens of the text on its leaves, in order and each once. Apart from
ends of the input it has no others. -/
theorem complete_of_answers {decls : List GrammarDecl} {g : Grammar}
    (hg : Grammar.ofDecls decls = .ok g) {sync : TokenSet} {table : TokenTable}
    {text : List Char} {depth : Nat} {q : Parse}
    (hq : Parser.Answers ⟨g, sync⟩ (.ofText table text depth) q) :
    q.tree.tokens.toList.filter Token.isText = (Lexer.tokenize table .skip text).1.toList ∧
      q.tree.leaves = List.range q.tree.tokens.size := by
  obtain ⟨w, hacts, hend, rfl⟩ := hq.acts (Grammar.checked_of_ofDecls hg)
  obtain ⟨taken, hgrows, -⟩ := hacts.feeds
  have hcomplete := hgrows.complete ⟨nofun, rfl⟩
  exact ⟨hacts.tokens_eq hend, (Arena.leaves_finish _ _ hcomplete.lt).trans hcomplete.leaves⟩

/-- A text with a character that is no token, and with one name too many. -/
theorem complete_of_answers_sample :
    ∃ q, Parser.Answers ⟨.sample, ∅⟩ (.ofText sampleTable ['x', '?', 'x'] 1) q ∧
      q.tree.tokens.toList.filter Token.isText
        = (Lexer.tokenize sampleTable .skip ['x', '?', 'x']).1.toList ∧
      q.tree.leaves = List.range q.tree.tokens.size := by
  obtain ⟨q, hanswers⟩ := exists_answer_of_complete (p := ⟨.sample, ∅⟩) Grammar.checked_sample
    (Grammar.lacks_sample nofun) Grammar.defined_sample (.ofText sampleTable ['x', '?', 'x'] 1)
  exact ⟨q, hanswers, complete_of_answers Grammar.ofDecls_sample hanswers⟩

end Parser

end FrontEnd
