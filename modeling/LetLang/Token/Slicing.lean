import LetLang.Token.Lexer

/-! Reading a token in small steps of the offset.

Every look at the text slices it at the offset where the lexer is then, and every step
moves that offset by a length: of what a pattern matched, of a character, or by one or
two bytes where the characters are known to be of one byte. A slice that would end past
the text or inside a character fails, and so does everything that takes it. -/
namespace LetLang
open Text (byteSize splitAtByte?)

namespace Lexer
open Token (Kind Lexeme isGap isDigit isWordStart isWordPart)

/-- The text between two byte offsets. -/
def slice? (start stop : Nat) (l : Lexer) : Option (List Char) := do
  let (before, _) ← splitAtByte? stop l.source.text.toList
  let (_, between) ← splitAtByte? start before
  return between

/-- The character at the offset, unless the text ends there. -/
def at? (l : Lexer) : Option (Option Char) := l.remainder?.map List.head?

/-- The character after that one, if there is one. -/
def peek? (l : Lexer) : Option (Option Char) := l.remainder?.map fun cs => cs[1]?

/-- What a pattern finds at the front: a first character and as many of its parts as follow. -/
def match? (first part : Char → Bool) : List Char → Option (List Char)
  | [] => none
  | c :: cs => if first c then some (c :: cs.takeWhile part) else none

def skipGaps? (l : Lexer) : Option Lexer := do
  match match? isGap isGap (← l.remainder?) with
  | some gaps => return l.advance (byteSize gaps)
  | none => return l

/-- The token from byte `start` up to the offset. -/
def tokenFrom (start : Nat) (kind : Kind) (text : List Char) (l : Lexer) : Token :=
  ⟨kind, String.ofList text, .ofOffsets l.source.name start l.offset⟩

/-- A token for one character. -/
def single (kind : Kind) (c : Char) (l : Lexer) : Token × Lexer :=
  let l' := l.advance c.utf8Size
  (l'.tokenFrom l.offset kind [c], l')

/-- A token for a sign, and for the `=` behind it if there is one. -/
def oneOrTwo? (alone followed : Kind) (l : Lexer) : Option (Token × Lexer) := do
  let (kind, size) := if (← l.peek?) = some '=' then (followed, 2) else (alone, 1)
  let l' := l.advance size
  return (l'.tokenFrom l.offset kind (← l'.slice? l.offset l'.offset), l')

/-- A token for what a pattern finds, or for nothing if it finds nothing. -/
def matching? (first part : Char → Bool) (kind : List Char → Kind) (l : Lexer) :
    Option (Token × Lexer) := do
  let text := (match? first part (← l.remainder?)).getD []
  let l' := l.advance (byteSize text)
  return (l'.tokenFrom l.offset (kind text) text, l')

/-- The next token, read slice by slice, and the lexer after it. -/
def nextSlicing? (l : Lexer) : Option (Token × Lexer) := do
  let l ← l.skipGaps?
  match ← l.at? with
  | none => return (l.tokenFrom l.offset .eof [], l)
  | some c =>
    if isWordStart c then
      l.matching? isWordStart isWordPart fun text => Kind.ofWord (String.ofList text)
    else if isDigit c then l.matching? isDigit isDigit fun _ => .integer
    else
      match Lexeme.sign? c with
      | some (alone, followed) => l.oneOrTwo? alone followed
      | none => return l.single (Lexeme.mark c) c

/-! ### Calls -/

/-- What can be asked of one of several lexers. -/
inductive Call where
  | next
  | head
  | peek
  | remainder
  | clone

/-- The lexers after a call to number `i` of them, which leaves the others alone. A clone is put
behind the others. If there is no such lexer, nothing is called. -/
def Call.perform? (pool : List Lexer) (i : Nat) (call : Call) : Option (List Lexer) :=
  match pool[i]? with
  | none => some pool
  | some l =>
    match call with
    | next => l.nextSlicing?.map fun (_, l') => pool.set i l'
    | head => l.at?.map fun _ => pool
    | peek => l.peek?.map fun _ => pool
    | remainder => l.remainder?.map fun _ => pool
    | clone => some (pool ++ [l])

/-- Performs one call after another, until one of them fails. -/
def performAll? (pool : List Lexer) (calls : List (Nat × Call)) : Option (List Lexer) :=
  calls.foldlM (fun pool (i, call) => call.perform? pool i) pool

end Lexer
end LetLang
