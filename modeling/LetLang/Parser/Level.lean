import LetLang.Parser.Loop
import LetLang.Token.Power
import LetLang.Tree.Basic

/-! What a construct is made of.

The parser of a construct does not call itself: it is given a level, the parsers
for an expression and for a block that open one more level of nesting than the
construct itself. Both consume something whenever they succeed. -/
namespace LetLang.Parser

structure Level where
  /-- An expression up to the first operator that binds no tighter than the bound. -/
  expr : Power → Parser Expr
  block : Parser Block
  expr_consumes : ∀ bound, (expr bound).Consumes
  block_consumes : block.Consumes

end LetLang.Parser
