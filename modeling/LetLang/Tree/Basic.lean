import LetLang.Token.Basic

/-! The tree of a program.

Every node keeps the token it is named for, and the span of its own text where
that is more than the token. Parentheses that only group leave no node. -/
namespace LetLang

/-- A name, where it is used or where it is bound. -/
structure Name where
  token : Token
deriving DecidableEq, Repr

def Name.text (name : Name) : String := name.token.literal

mutual

inductive Expr where
  | name (name : Name)
  | integer (token : Token) (value : Nat)
  | boolean (token : Token) (value : Bool)
  /-- `!` or `-` before its operand. -/
  | unary (operator : Token) (operand : Expr) (span : Span)
  | binary (left : Expr) (operator : Token) (right : Expr) (span : Span)
  /-- A compound assignment such as `x += 1`. -/
  | assign (target : Name) (operator : Token) (value : Expr) (span : Span)
  | conditional (token : Token) (condition : Expr) (consequence : Block)
      (alternative : Option Block) (span : Span)
  | function (token : Token) (parameters : List Name) (body : Block) (span : Span)
  /-- The token is the opening parenthesis. -/
  | call (callee : Expr) (token : Token) (arguments : List Expr) (span : Span)

inductive Stmt where
  | binding (token : Token) (name : Name) (value : Expr) (span : Span)
  | returning (token : Token) (value : Expr) (span : Span)
  /-- The token is the first one of the expression, its parentheses included. -/
  | expression (token : Token) (value : Expr) (span : Span)
  | block (block : Block)

inductive Block where
  | mk (token : Token) (statements : List Stmt) (span : Span)

end

deriving instance Repr for Expr, Stmt, Block

structure Program where
  statements : List Stmt
deriving Repr

/-! ### Tokens and spans -/

namespace Block

def token : Block → Token
  | mk token _ _ => token

def statements : Block → List Stmt
  | mk _ statements _ => statements

def span : Block → Span
  | mk _ _ span => span

end Block

namespace Expr

def token : Expr → Token
  | name n => n.token
  | integer token _ => token
  | boolean token _ => token
  | unary operator _ _ => operator
  | binary _ operator _ _ => operator
  | assign _ operator _ _ => operator
  | conditional token _ _ _ _ => token
  | function token _ _ _ => token
  | call _ token _ _ => token

def span : Expr → Span
  | name n => n.token.span
  | integer token _ => token.span
  | boolean token _ => token.span
  | unary _ _ span => span
  | binary _ _ _ span => span
  | assign _ _ _ span => span
  | conditional _ _ _ _ span => span
  | function _ _ _ span => span
  | call _ _ _ span => span

def start (e : Expr) : Position := e.span.start

def stop (e : Expr) : Position := e.span.stop

end Expr

namespace Stmt

def token : Stmt → Token
  | binding token _ _ _ => token
  | returning token _ _ => token
  | expression token _ _ => token
  | block b => b.token

def span : Stmt → Span
  | binding _ _ _ span => span
  | returning _ _ span => span
  | expression _ _ span => span
  | block b => b.span

end Stmt

/-- What the first statement starts with; empty for a program without statements. -/
def Program.literal (p : Program) : String :=
  (p.statements.head?.map fun s => s.token.literal).getD ""

end LetLang
