import LetLang.Source.Line

/-! The line of a text, looked for piece by piece.

The pieces of a text are what its newlines end, and what is left behind the last of
them if anything is. A search goes through them with the number of the piece and the
offset where it starts. The end of the text lies in none of them: it belongs to the
last piece if no newline ends that one, and otherwise to an empty line after it. -/
namespace LetLang
open Text (byteSize)
namespace Line

/-- No piece is empty. -/
def pieces (cs : List Char) : List (List Char) := cs.foldr splitStep []

/-- Looks for byte `offset` in pieces of which the first has the given number and start, and goes on
with `last` if it is in none of them. -/
def searchFrom (offset : Nat) (last : Nat → Line) (number start : Nat) : List (List Char) → Line
  | [] => last number
  | piece :: rest =>
    let stop := start + byteSize piece
    if start ≤ offset ∧ offset < stop then ⟨number, piece, offset - start⟩
    else searchFrom offset last (number + 1) stop rest

/-- The line that the end of a text belongs to, from its last piece and the number after that
one's. -/
def atEnd (last : Option (List Char)) (number : Nat) : Line :=
  match last with
  | some piece =>
    if piece.getLast? = some '\n' then ⟨number, [], 0⟩ else ⟨number - 1, piece, byteSize piece⟩
  | none => ⟨number, [], 0⟩

/-- The line that holds byte `offset`, unless the text ends before it. -/
def search? (cs : List Char) (offset : Nat) : Option Line :=
  if byteSize cs < offset then none
  else some (searchFrom offset (atEnd (pieces cs).getLast?) 1 0 (pieces cs))

end Line
end LetLang
