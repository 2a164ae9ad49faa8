import FrontEnd.Pattern.Basic

/-!
# Matching patterns

A pattern becomes a nondeterministic automaton, and a text is matched by following all live states
at once, so the work is bounded by the length of the text times the number of states.

- `Automaton.ofPattern`: the automaton of a pattern;
- `Workspace`: marks on states, reused from one match to the next; a state is marked when its mark
  is the current stamp, so **a new stamp clears all marks at once**, as long as there are new ones:
  stamps are numbers of 32 bits and wrap around;
- `Automaton.longestMatch`: the length of the longest prefix of a text that the pattern accepts.
-/

namespace FrontEnd

/-- A state of an automaton. Others are named by their place in the array of states. -/
inductive AutomatonState where
  /-- The text so far is accepted. -/
  | accept
  /-- Reads a character of the class. -/
  | read (cls : CharClass) (next : Nat)
  /-- Goes both ways without reading. -/
  | fork (left right : Nat)
  deriving Repr, Inhabited

/-- A compiled pattern. -/
structure Automaton where
  /-- The first state is the accepting one, and it is the only one. -/
  states : Array AutomatonState
  start : Nat
  /-- The classes that a first character can be in. -/
  first : List CharClass
  deriving Repr, Inhabited

/-- Marks for the states of an automaton. Marks and stamps are numbers of 32 bits. -/
structure Workspace where
  marks : Array UInt32
  stamp : UInt32
  deriving Repr, Inhabited

namespace Workspace

/-- No marks yet. -/
def empty : Workspace := ⟨#[], 0⟩

/-- Room for the marks of `n` states. -/
def ofSize (n : Nat) : Workspace := ⟨Array.replicate n 0, 0⟩

/-- The stamps end here; then all marks are cleared and counting begins again. -/
def stampLimit : UInt32 := 4294967294

/-- Ready for a match with `n` states: room for them, and none of them marked. -/
def reset (w : Workspace) (n : Nat) : Workspace :=
  let marks := w.marks ++ Array.replicate (n - w.marks.size) 0
  if stampLimit ≤ w.stamp then ⟨Array.replicate marks.size 0, 1⟩ else ⟨marks, w.stamp + 1⟩

/-- Takes the next stamp, which clears all marks. **Behind the last stamp counting begins again at
zero**, and then the marks that are zero are set. -/
def fresh (w : Workspace) : Workspace := { w with stamp := w.stamp + 1 }

/-- How many states are not marked. -/
def unmarked (w : Workspace) : Nat := w.marks.countP (· != w.stamp)

/-- Marks a state. -/
def mark (w : Workspace) (s : Nat) (h : s < w.marks.size) : Workspace :=
  { w with marks := w.marks.set s w.stamp }

theorem unmarked_mark (w : Workspace) (s : Nat) (h : s < w.marks.size)
    (hs : (w.marks[s] != w.stamp) = true) : (w.mark s h).unmarked < w.unmarked := by
  have hpos : 0 < w.marks.countP (· != w.stamp) :=
    Array.countP_pos_iff.2 ⟨w.marks[s], Array.getElem_mem h, hs⟩
  simp only [unmarked, mark, Array.countP_set, hs, if_true, bne_self_eq_false]
  exact Nat.sub_lt hpos Nat.one_pos

end Workspace

namespace Automaton

/-! ## From patterns to automata -/

mutual

/-- Adds the states of a pattern that goes on to the state `out`, and gives its first state. -/
def build (out : Nat) (states : Array AutomatonState) :
    Pattern → Nat × Array AutomatonState
  | .empty => (out, states)
  | .chars cls => (states.size, states.push (.read cls out))
  | .concat parts => buildConcat out states parts
  | .alt alternatives => buildAlt out states alternatives
  | .opt inner =>
    let (body, states) := build out states inner
    (states.size, states.push (.fork body out))
  | .star inner =>
    let loop := states.size
    let (body, states) := build loop (states.push (.fork 0 out)) inner
    (loop, states.setIfInBounds loop (.fork body out))
  | .plus inner =>
    let loop := states.size
    let (body, states) := build loop (states.push (.fork 0 out)) inner
    (body, states.setIfInBounds loop (.fork body out))

/-- Adds the states of patterns one after the other. -/
def buildConcat (out : Nat) (states : Array AutomatonState) :
    List Pattern → Nat × Array AutomatonState
  | [] => (out, states)
  | p :: ps =>
    let (next, states) := buildConcat out states ps
    build next states p

/-- Adds the states of alternatives. -/
def buildAlt (out : Nat) (states : Array AutomatonState) :
    List Pattern → Nat × Array AutomatonState
  | [] => (out, states)
  | [p] => build out states p
  | p :: ps =>
    let (left, states) := build out states p
    let (right, states) := buildAlt out states ps
    (states.size, states.push (.fork left right))

end

/-! ## Following states -/

/-- Adds to `found` the unmarked states that can be reached from `stack` without reading, except
for forks, and marks all states on the way. -/
def closure (a : Automaton) (w : Workspace) (found : Array Nat) :
    List Nat → Workspace × Array Nat
  | [] => (w, found)
  | s :: stack =>
    if h : s < w.marks.size then
      if hs : (w.marks[s] != w.stamp) = true then
        match a.states[s]? with
        | some (.fork left right) => closure a (w.mark s h) found (left :: right :: stack)
        | some _ => closure a (w.mark s h) (found.push s) stack
        | none => closure a w found stack
      else closure a w found stack
    else closure a w found stack
termination_by stack => (w.unmarked, stack.length)
decreasing_by
  · exact Prod.Lex.left _ _ (w.unmarked_mark s h hs)
  · exact Prod.Lex.left _ _ (w.unmarked_mark s h hs)
  · exact Prod.Lex.right _ (by simp)
  · exact Prod.Lex.right _ (by simp)
  · exact Prod.Lex.right _ (by simp)

/-- The states before the first character. -/
def initial (a : Automaton) (w : Workspace) : Workspace × Array Nat :=
  a.closure (w.reset a.states.size) #[] [a.start]

/-- Adds the states behind `c` from one live state. -/
def follow (a : Automaton) (c : Char) (state : Workspace × Array Nat) (s : Nat) :
    Workspace × Array Nat :=
  match a.states[s]? with
  | some (.read cls next) =>
    if cls.accepts c then a.closure state.1 state.2 [next] else state
  | _ => state

/-- The states behind `c` from all live ones. -/
def advance (a : Automaton) (c : Char) (w : Workspace) (live : Array Nat) :
    Workspace × Array Nat :=
  live.foldl (a.follow c) (w.fresh, #[])

/-- Does some live state accept? -/
def accepts (live : Array Nat) : Bool := live.contains 0

/-- Follows a text from live states on; `size` bytes are read and `longest` is the longest match
so far. -/
def scan (a : Automaton) (w : Workspace) (live : Array Nat) (size : Nat) (longest : Option Nat) :
    List Char → Option Nat × Workspace
  | [] => (longest, w)
  | c :: rest =>
    let (w, live) := a.advance c w live
    if live.isEmpty then (longest, w)
    else
      let size := size + c.utf8Size
      a.scan w live size (if accepts live then some size else longest) rest

/-- The length in bytes of the longest prefix of `text` that is accepted. -/
def longestMatch (a : Automaton) (w : Workspace) (text : List Char) : Option Nat × Workspace :=
  let (w, live) := a.initial w
  a.scan w live 0 (if accepts live then some 0 else none) text

/-- Is the empty text accepted? -/
def matchesEmpty (a : Automaton) : Bool := accepts (a.initial .empty).2

/-- Can an accepted text begin with the character? -/
def canStartWith (a : Automaton) (c : Char) : Bool := a.first.any (·.accepts c)

/-- The class that a state reads. -/
def class? (a : Automaton) (s : Nat) : Option CharClass :=
  match a.states[s]? with
  | some (.read cls _) => some cls
  | _ => none

/-- The automaton of a pattern. -/
def ofPattern (p : Pattern) : Automaton :=
  let (start, states) := build 0 #[.accept] p
  let a : Automaton := ⟨states, start, []⟩
  { a with first := (a.initial .empty).2.toList.filterMap a.class? }

end Automaton

end FrontEnd
