import LetLang.Parser.State

/-! The two tokens that a parser holds.

A parser that takes over from a lexer has read two tokens before it looks at the
first: the current one and the one after it. Each token it consumes makes room for
one more from the lexer, which is therefore always two tokens ahead, and at the end
of the input goes on giving the end. -/
namespace LetLang.Parser

structure Window where
  lexer : Lexer
  current : Token
  peek : Token
  lastEnd : Position
deriving DecidableEq, Repr

namespace Window

/-- Reads the first two tokens. Nothing was consumed yet, so the last end is where the first starts. -/
def ofLexer? (l : Lexer) : Option Window := do
  let (current, l) ← l.next?
  let (peek, l) ← l.next?
  return ⟨l, current, peek, current.start⟩

/-- Consumes the current token and reads one more. -/
def advance? (w : Window) : Option Window := do
  let (next, lexer) ← w.lexer.next?
  return ⟨lexer, w.peek, next, w.current.stop⟩

/-- Consumes `n` tokens. -/
def advanceBy? : Nat → Window → Option Window
  | 0, w => some w
  | n + 1, w => (w.advanceBy? n).bind advance?

end Window
end LetLang.Parser
