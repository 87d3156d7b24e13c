import LetLang.Source.Basic
import LetLang.Token.Kind

/-! Tokens: a kind, the text it was read from, and where that text stands. -/
namespace LetLang

structure Token where
  kind : Token.Kind
  literal : String
  span : Span
deriving DecidableEq, Repr

namespace Token

def start (t : Token) : Position := t.span.start

def stop (t : Token) : Position := t.span.stop

/-- The token that stands for the end of a text. -/
def endOfInput (p : Position) : Token := ⟨.eof, "", ⟨p, p⟩⟩

/-- The kind, with the text in parentheses where the kind leaves it open. -/
def describe (t : Token) : String :=
  let text := if t.kind.variesInText then t.literal else ""
  s!"{t.kind} ({text})"

/-- The number that the digits of an integer stand for. -/
def value (t : Token) : Nat := Nat.ofDigitChars 10 t.literal.toList 0

/-- The operator that a compound assignment computes with: its own text without the final `=`. -/
def arithmeticOperator (t : Token) : String :=
  let cs := t.literal.toList
  if cs.getLast? = some '=' then String.ofList cs.dropLast else t.literal

end Token
end LetLang
