import LetLang.Token.Scan

/-! A lexer: a source, and the byte offset that reading goes on from.

`advance` moves the offset without looking, so it may end up inside a character
or past the end. Every operation that reads is `none` there. -/
namespace LetLang
open Text (byteSize splitAtByte?)

structure Lexer where
  source : Source
  offset : Nat
deriving DecidableEq, Repr

namespace Lexer

def ofSource (source : Source) : Lexer := ⟨source, 0⟩

def advance (n : Nat) (l : Lexer) : Lexer := { l with offset := l.offset + n }

/-- The text that is still to be read. -/
def remainder? (l : Lexer) : Option (List Char) :=
  (splitAtByte? l.offset l.source.text.toList).map Prod.snd

/-- The next token and the lexer after it. The token for the end comes again and again. -/
def next? (l : Lexer) : Option (Token × Lexer) := do
  let cs ← l.remainder?
  match Token.next? l.source.name l.offset cs with
  | some n => return (n.token, { l with offset := n.offset })
  | none =>
    return (Token.scanEnd l.source.name l.offset cs, l.advance (byteSize cs))

/-- All tokens that are still to be read, without the end. -/
def tokens? (l : Lexer) : Option (List Token) :=
  l.remainder?.map (Token.scan l.source.name l.offset)

/-- The token for the end of the source. -/
def end? (l : Lexer) : Option Token :=
  l.remainder?.map (Token.scanEnd l.source.name l.offset)

end Lexer
end LetLang
