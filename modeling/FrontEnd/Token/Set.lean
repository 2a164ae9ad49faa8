import FrontEnd.Token.Basic

/-!
# Sets of token ids

A set is a row of words of 64 bits, and bit `id.index` of the row says whether `id` is a member.
The row grows as far as the members need it. It never shrinks, so sets with the same members can
differ in words of zeros at the end, and **`==` looks at members only**.

- `TokenSet.insert`, `TokenSet.unionWith`, `TokenSet.inter`: sets made from sets;
- `TokenSet.contains`, `TokenSet.members`: the two views of a set;
- `TokenSet.expectation`: a set as a phrase of a message.
-/

namespace FrontEnd

/-- 64 places for members. -/
abbrev Word := BitVec 64

namespace Word

/-- Clearing the lowest one of a word makes it smaller. -/
theorem toNat_clear_lt {w : Word} (h : w ≠ 0#64) : (w &&& (w - 1#64)).toNat < w.toNat := by
  have hpos : w.toNat ≠ 0 := fun h0 => h (BitVec.eq_of_toNat_eq h0)
  have hsub : (w - 1#64).toNat = w.toNat - 1 := by
    rw [BitVec.toNat_sub_of_le] <;> simp [BitVec.le_def]
    omega
  rw [BitVec.toNat_and, hsub]
  have := Nat.and_le_right (n := w.toNat) (m := w.toNat - 1)
  omega

/-- The places of the ones, lowest first: each is found and cleared. -/
def places (w : Word) : List Nat :=
  if _ : w = 0#64 then [] else w.ctz.toNat :: places (w &&& (w - 1#64))
termination_by w.toNat
decreasing_by exact toNat_clear_lt ‹_›

/-- Adds words to words, place by place, and says whether that changed one. -/
def merge : List Word → List Word → List Word × Bool
  | mine :: more, theirs :: others =>
    let (rest, changed) := merge more others
    ((mine ||| theirs) :: rest, (mine ||| theirs) != mine || changed)
  | words, _ => (words, false)

/-- The words, with zeros behind them up to a number of words. -/
def resize (words : List Word) (n : Nat) : List Word :=
  words ++ List.replicate (n - words.length) 0#64

end Word

/-- A finite set of token ids. -/
structure TokenSet where
  words : List Word
  deriving DecidableEq, Repr

namespace TokenSet

/-- No ids. -/
def empty : TokenSet := ⟨[]⟩

instance : EmptyCollection TokenSet := ⟨empty⟩

instance : Inhabited TokenSet := ⟨empty⟩

/-- Have the sets the same members? Missing words count as zeros. -/
instance : BEq TokenSet where
  beq a b := (List.range (max a.words.length b.words.length)).all fun i =>
    a.words.getD i 0#64 == b.words.getD i 0#64

/-- Is the id a member? -/
def contains (s : TokenSet) (id : TokenId) : Bool :=
  s.words[id.index / 64]?.any fun word => word.getLsbD (id.index % 64)

instance : Membership TokenId TokenSet := ⟨fun s id => s.contains id = true⟩

instance (id : TokenId) (s : TokenSet) : Decidable (id ∈ s) :=
  inferInstanceAs (Decidable (s.contains id = true))

/-- The set with one more member. -/
def insert (s : TokenSet) (id : TokenId) : TokenSet :=
  ⟨(Word.resize s.words (id.index / 64 + 1)).modify (id.index / 64)
    (· ||| BitVec.twoPow 64 (id.index % 64))⟩

/-- One id alone. -/
def single (id : TokenId) : TokenSet := empty.insert id

/-- The set with more members. -/
def insertMany (s : TokenSet) (ids : List TokenId) : TokenSet := ids.foldl insert s

/-- The ids of a list. -/
def ofList (ids : List TokenId) : TokenSet := empty.insertMany ids

/-- The ids of either set, and whether `b` has any that `a` has not. -/
def unionWith (a b : TokenSet) : TokenSet × Bool :=
  let (words, changed) := Word.merge (Word.resize a.words b.words.length) b.words
  (⟨words⟩, changed)

/-- The ids of either set. -/
def union (a b : TokenSet) : TokenSet := (a.unionWith b).1

/-- Does the union with `b` hold more than `a`? -/
def grows (a b : TokenSet) : Bool := (a.unionWith b).2

/-- The ids of both sets. -/
def inter (a b : TokenSet) : TokenSet := ⟨List.zipWith (· &&& ·) a.words b.words⟩

/-- Do the sets share an id? -/
def intersects (a b : TokenSet) : Bool :=
  (List.zipWith (· &&& ·) a.words b.words).any (· != 0#64)

def isEmpty (s : TokenSet) : Bool := s.words.all (· == 0#64)

/-- The number of members. -/
def count (s : TokenSet) : Nat := s.words.foldl (fun n word => n + word.cpop.toNat) 0

/-- The members in ascending order. -/
def members (s : TokenSet) : List TokenId :=
  s.words.zipIdx.flatMap fun (word, i) =>
    word.places.filterMap fun bit => TokenId.ofIndex? (i * 64 + bit)

/-- The members by name, in a phrase that says any of them would do. -/
def expectation (names : Names) (s : TokenSet) : String :=
  match s.members.map names.token with
  | [] => "nothing"
  | [a] => a
  | [a, b] => s!"{a} or {b}"
  | all => String.intercalate ", " all.dropLast ++ ", or " ++ all.getLast?.getD ""

/-- The members in braces, each as it is made. -/
def structural (s : TokenSet) : String :=
  "\x7b" ++ String.intercalate ", " (s.members.map TokenId.structural) ++ "\x7d"

end TokenSet

end FrontEnd
