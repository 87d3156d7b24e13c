import LetLang.Parse

/-! What can be asked of a parser from outside, one thing after another.

Besides the single steps these are the parsers of the constructs. Each of them can
be run wherever the parser stands, also where the construct does not begin, and
what a failed one consumed stays consumed. -/
namespace LetLang.Parser
open Token (Kind)

inductive Operation where
  | advance
  | expect (kind : Kind)
  /-- Fails with a diagnostic of the caller's. -/
  | expectOr (kind : Kind) (d : Diagnostic)
  | skip (kind : Kind)
  | enter
  | leave
  | report (d : Diagnostic)
  | synchronize
  | program
  | statement
  | binding
  | returning
  | expressionStatement
  | block
  | expr (bound : Power)
  | literal
  | unary
  | group
  | conditional
  | function
  | binary (left : Expr) (power : Power)
  | assignment (left : Expr)
  | call (callee : Expr)

namespace Operation

/-- Runs `p` for what it does to the state. -/
def doing {α : Type} (p : Parser α) : Parser Bool := do
  let _ ← p
  return true

/-- The parser of a construct, which may open as many levels as are left. -/
def making {α : Type} (p : Level → Parser α) : Parser Bool := doing (within maxNesting p)

/-- What an operation runs, and whether it did what it was asked for. -/
def parser : Operation → Parser Bool
  | advance => doing Parser.advance
  | expect kind => doing (Parser.expect kind)
  | expectOr kind d => doing (Parser.expectOr kind d)
  | skip kind => Parser.skip kind
  | enter => doing (Parser.enter maxNesting)
  | leave => doing Parser.leave
  | report d => doing (Parser.report d)
  | synchronize => doing Parser.synchronize
  | program => making Parser.program
  | statement => making Parser.statement
  | binding => making Parser.binding
  | returning => making Parser.returning
  | expressionStatement => making Parser.expressionStatement
  | block => making Level.block
  | expr bound => making fun inner => inner.expr bound
  | literal => doing Parser.literal
  | unary => making Parser.unary
  | group => making Parser.group
  | conditional => making Parser.conditional
  | function => making Parser.function
  | binary left power => making fun inner => Parser.binary inner left power
  | assignment left => making fun inner => Parser.assignment inner left
  | call callee => making fun inner => Parser.call inner callee

/-- The state after an operation, whether it succeeds or fails. -/
def perform (op : Operation) (s : State) : State := (op.parser.run s).state

def Fails (op : Operation) (s : State) : Prop := ∀ t, op.parser.run s ≠ .ok true t

/-- An operation that looks at where the parser stands before it does anything. -/
def isCheck : Operation → Bool
  | expect _ | expectOr _ _ | skip _ | enter => true
  | _ => false

end Operation

/-- Performs one operation after another, whether they succeed or fail. -/
def State.performAll (s : State) (ops : List Operation) : State :=
  ops.foldl (fun t op => op.perform t) s

end LetLang.Parser
