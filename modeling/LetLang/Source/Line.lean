import LetLang.Text.Bytes

/-! The line of a text that a byte offset falls on.

A line ends with its newline, and the last one, empty if the text ends with a
newline, has none. `lineAt?` numbers lines from 1 and measures columns in bytes;
the end of the text belongs to the last line. -/
namespace LetLang
open Text (byteSize)

structure Line where
  number : Nat
  text : List Char
  column : Nat
deriving DecidableEq, Repr

namespace Line

/-- Puts a character in front of the first line, or a newline on a line of its own before it. -/
def splitStep (c : Char) : List (List Char) → List (List Char)
  | [] => [[c]]
  | line :: lines => if c = '\n' then [c] :: line :: lines else (c :: line) :: lines

/-- The lines of a text in order; there is always a last one. -/
def split (cs : List Char) : List (List Char) := cs.foldr splitStep [[]]

/-- Looks for byte `offset` in `lines`, of which the first has the given number. -/
def find? (number offset : Nat) : List (List Char) → Option Line
  | [] => none
  | [line] => if offset ≤ byteSize line then some ⟨number, line, offset⟩ else none
  | line :: lines =>
    let size := byteSize line
    if offset < size then some ⟨number, line, offset⟩ else find? (number + 1) (offset - size) lines

/-! ### Laws -/

@[simp] theorem split_nil : split [] = [[]] := rfl

theorem split_cons (c : Char) (cs : List Char) : split (c :: cs) = splitStep c (split cs) := rfl

theorem splitStep_ne_nil (c : Char) (lines : List (List Char)) : splitStep c lines ≠ [] := by
  unfold splitStep
  split
  · simp
  · split <;> simp

theorem split_ne_nil (cs : List Char) : split cs ≠ [] := by
  cases cs with
  | nil => simp
  | cons c cs => exact splitStep_ne_nil c _

theorem flatten_splitStep (c : Char) (lines : List (List Char)) :
    (splitStep c lines).flatten = c :: lines.flatten := by
  unfold splitStep
  split
  · rfl
  · split <;> rfl

theorem flatten_split (cs : List Char) : (split cs).flatten = cs := by
  induction cs with
  | nil => rfl
  | cons c cs ih => rw [split_cons, flatten_splitStep, ih]

end Line

/-- The line of `text` that holds byte `offset`, unless the text ends before it. -/
def lineAt? (text : String) (offset : Nat) : Option Line :=
  Line.find? 1 offset (Line.split text.toList)

end LetLang
