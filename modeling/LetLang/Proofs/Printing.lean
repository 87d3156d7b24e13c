import LetLang.Proofs.Grammar.Tightness
import LetLang.Proofs.Redraw
import LetLang.Proofs.Spelling

/-! Programs written out.

A tree is printed as tokens, with a semicolon after every statement that is not
a block and with parentheses only where the tree would be read otherwise
(`Expr.printed`). The text of a program has its tokens with a blank between them
(`Program.text`), and `Program.respelled` is the program with the tokens that are
printed for it. What can be printed so that it reads back is a proper program:
names are names, operators are of the right kind and integers small enough. -/
namespace LetLang
open Token (Kind)

/-! ### Tokens of no place -/

/-- The place of a token that was never read. -/
def Span.nowhere : Span := ⟨⟨0, ""⟩, ⟨0, ""⟩⟩

/-- The same tree without its places. -/
def Redraw.unplaced : Redraw where
  empties _ := false
  move _ := ⟨0, ""⟩

namespace Token

def unplaced (kind : Kind) (literal : String) : Token := ⟨kind, literal, .nowhere⟩

/-- The token of a kind that is written in one way only. -/
def fixed (kind : Kind) : Token := unplaced kind (kind.spelling?.getD "")

def number (n : Nat) : Token := unplaced .integer (toString n)

def truth (b : Bool) : Token := fixed (if b then .kwTrue else .kwFalse)

end Token

def Name.respelled (x : Name) : Name := ⟨.unplaced .identifier x.text⟩

/-! ### Printing -/

/-- What was printed, and how many levels of nesting are open in it at once at most; a level is
what the grammar counts as one. -/
structure Printed where
  tokens : List Token
  levels : Nat

namespace Printed

def empty : Printed := ⟨[], 0⟩

def token (t : Token) : Printed := ⟨[t], 0⟩

def kind (k : Kind) : Printed := token (.fixed k)

instance : Append Printed := ⟨fun p q => ⟨p.tokens ++ q.tokens, max p.levels q.levels⟩⟩

def deeper (p : Printed) : Printed := { p with levels := p.levels + 1 }

def parenthesized (p : Printed) : Printed := kind .openParen ++ p ++ kind .closeParen

/-- In parentheses of its own if it needs them. -/
def groupedIf (needed : Bool) (p : Printed) : Printed :=
  if needed then p.deeper.parenthesized else p

def commaSeparated : List Printed → Printed
  | [] => empty
  | [p] => p
  | p :: ps => p ++ kind .comma ++ commaSeparated ps

end Printed

/-- How tightly the outermost operator binds; without one an expression holds together like a
call. -/
def Expr.power : Expr → Power
  | assign .. => .assignment
  | binary _ operator _ _ => operator.kind.power
  | unary .. => .unary
  | _ => .call

def Name.printed (x : Name) : Printed := .token x.respelled.token

mutual

def Expr.printed : Expr → Printed
  | .name x => x.printed
  | .integer _ n => .token (.number n)
  | .boolean _ b => .token (.truth b)
  | .unary o e _ => .kind o.kind ++ (e.printed.groupedIf (e.power < .unary)).deeper
  | .binary l o r _ =>
    l.printed.groupedIf (l.power < o.kind.power) ++ .kind o.kind ++
      (r.printed.groupedIf !(o.kind.power < r.power)).deeper
  | .assign x o e _ => x.printed ++ .kind o.kind ++ e.printed.deeper
  | .conditional _ c b a _ =>
    .kind .kwIf ++ c.printed.deeper.parenthesized ++ b.printed ++ Block.printedElse a
  | .function _ xs b _ =>
    .kind .kwFn ++ (Printed.commaSeparated (xs.map Name.printed)).parenthesized ++ b.printed
  | .call f _ es _ =>
    f.printed.groupedIf (f.power < .call) ++
      (Printed.commaSeparated (Expr.printedAll es)).parenthesized

/-- The arguments of a call, one by one. -/
def Expr.printedAll : List Expr → List Printed
  | [] => []
  | e :: es => e.printed.deeper :: Expr.printedAll es

def Stmt.printed : Stmt → Printed
  | .binding _ x e _ =>
    .kind .kwLet ++ x.printed ++ .kind .assignment ++ e.printed.deeper ++ .kind .semicolon
  | .returning _ e _ => .kind .kwReturn ++ e.printed.deeper ++ .kind .semicolon
  | .expression _ e _ => e.printed.deeper ++ .kind .semicolon
  | .block b => b.printed

def Stmt.printedAll : List Stmt → Printed
  | [] => .empty
  | s :: ss => s.printed ++ Stmt.printedAll ss

def Block.printed : Block → Printed
  | .mk _ ss _ => (.kind .openCurly ++ Stmt.printedAll ss ++ .kind .closeCurly : Printed).deeper

def Block.printedElse : Option Block → Printed
  | none => .empty
  | some b => .kind .kwElse ++ b.printed

end

def Program.printed (p : Program) : Printed := Stmt.printedAll p.statements

/-- The tokens of the program as they are written, with a blank between them. -/
def Program.text (p : Program) : String := " ".intercalate (p.printed.tokens.map Token.literal)

/-! ### Proper programs -/

/-- The text is a word, and not a reserved one. -/
def Name.isProper (x : Name) : Bool :=
  match x.text.toList with
  | [] => false
  | c :: cs => Token.isWordStart c && cs.all Token.isWordPart && Kind.ofWord x.text == .identifier

def Token.Kind.isBinary (k : Kind) : Bool :=
  [Grammar.Tier.equality, .relational, .additive, .multiplicative].any (k ∈ ·.operators)

mutual

def Expr.isProper : Expr → Bool
  | .name x => x.isProper
  | .integer _ n => n ≤ Parser.maxInteger
  | .boolean _ _ => true
  | .unary o e _ => o.kind ∈ Grammar.signs && e.isProper
  | .binary l o r _ => l.isProper && o.kind.isBinary && r.isProper
  | .assign x o e _ => x.isProper && o.kind.isCompound && e.isProper
  | .conditional _ c b a _ => c.isProper && b.isProper && Block.isProperOption a
  | .function _ xs b _ => xs.all Name.isProper && b.isProper
  | .call f _ es _ => f.isProper && Expr.areProper es

def Expr.areProper : List Expr → Bool
  | [] => true
  | e :: es => e.isProper && Expr.areProper es

def Stmt.isProper : Stmt → Bool
  | .binding _ x e _ => x.isProper && e.isProper
  | .returning _ e _ => e.isProper
  | .expression _ e _ => e.isProper
  | .block b => b.isProper

def Stmt.areProper : List Stmt → Bool
  | [] => true
  | s :: ss => s.isProper && Stmt.areProper ss

def Block.isProper : Block → Bool
  | .mk _ ss _ => Stmt.areProper ss

def Block.isProperOption : Option Block → Bool
  | none => true
  | some b => b.isProper

end

def Program.isProper (p : Program) : Bool := Stmt.areProper p.statements

/-! ### Trees of printed tokens -/

mutual

def Expr.respelled : Expr → Expr
  | .name x => .name x.respelled
  | .integer _ n => .integer (.number n) n
  | .boolean _ b => .boolean (.truth b) b
  | .unary o e _ => .unary (.fixed o.kind) e.respelled .nowhere
  | .binary l o r _ => .binary l.respelled (.fixed o.kind) r.respelled .nowhere
  | .assign x o e _ => .assign x.respelled (.fixed o.kind) e.respelled .nowhere
  | .conditional _ c b a _ =>
    .conditional (.fixed .kwIf) c.respelled b.respelled (Block.respelledOption a) .nowhere
  | .function _ xs b _ =>
    .function (.fixed .kwFn) (xs.map Name.respelled) b.respelled .nowhere
  | .call f _ es _ => .call f.respelled (.fixed .openParen) (Expr.respelledAll es) .nowhere

def Expr.respelledAll : List Expr → List Expr
  | [] => []
  | e :: es => e.respelled :: Expr.respelledAll es

/-- The token of an expression statement is the first one printed for it. -/
def Stmt.respelled : Stmt → Stmt
  | .binding _ x e _ => .binding (.fixed .kwLet) x.respelled e.respelled .nowhere
  | .returning _ e _ => .returning (.fixed .kwReturn) e.respelled .nowhere
  | .expression _ e _ =>
    .expression (e.printed.tokens.headD (.fixed .eof)) e.respelled .nowhere
  | .block b => .block b.respelled

def Stmt.respelledAll : List Stmt → List Stmt
  | [] => []
  | s :: ss => s.respelled :: Stmt.respelledAll ss

def Block.respelled : Block → Block
  | .mk _ ss _ => .mk (.fixed .openCurly) (Stmt.respelledAll ss) .nowhere

def Block.respelledOption : Option Block → Option Block
  | none => none
  | some b => some b.respelled

end

def Program.respelled (p : Program) : Program := ⟨Stmt.respelledAll p.statements⟩

end LetLang
