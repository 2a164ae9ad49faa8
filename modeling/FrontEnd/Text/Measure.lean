/-!
# Measuring and cutting text in bytes

Offsets and lengths in this library count the bytes of the UTF-8 form. Text is handled as a list
of characters, and these functions measure and cut such lists.

- `Text.size`: the length in bytes;
- `Text.take`: the characters that begin inside the first bytes.
-/

namespace FrontEnd.Text

/-- Length in bytes. -/
def size (cs : List Char) : Nat := cs.foldl (fun n c => n + c.utf8Size) 0

/-- Moves the characters that begin within the first `bytes` bytes to `taken`, latest first. -/
def takeOnto (taken : List Char) (bytes : Nat) : List Char → List Char
  | [] => taken
  | c :: rest =>
    if bytes = 0 then taken else takeOnto (c :: taken) (bytes - c.utf8Size) rest

/-- The characters that begin within the first `bytes` bytes. -/
def take (bytes : Nat) (cs : List Char) : List Char := (takeOnto [] bytes cs).reverse

end FrontEnd.Text
