import LetLang.Tree.Basic

/-! How many statements a tree has, at any depth.

Every block counts as a statement, the body of a function and the branches of a
conditional included. -/
namespace LetLang

mutual

def Expr.count : Expr → Nat
  | .name _ => 0
  | .integer _ _ => 0
  | .boolean _ _ => 0
  | .unary _ e _ => e.count
  | .binary l _ r _ => l.count + r.count
  | .assign _ _ e _ => e.count
  | .conditional _ c b a _ => c.count + b.count + Block.countOption a
  | .function _ _ b _ => b.count
  | .call f _ es _ => f.count + Expr.countAll es

def Expr.countAll : List Expr → Nat
  | [] => 0
  | e :: es => e.count + Expr.countAll es

def Stmt.count : Stmt → Nat
  | .binding _ _ e _ => e.count + 1
  | .returning _ e _ => e.count + 1
  | .expression _ e _ => e.count + 1
  | .block b => b.count

def Stmt.countAll : List Stmt → Nat
  | [] => 0
  | s :: ss => s.count + Stmt.countAll ss

def Block.count : Block → Nat
  | .mk _ ss _ => Stmt.countAll ss + 1

def Block.countOption : Option Block → Nat
  | none => 0
  | some b => b.count

end

def Program.count (p : Program) : Nat := Stmt.countAll p.statements

/-- What was left out has no statements. -/
theorem Stmt.countAll_filterMap (x : Option Stmt) (found : List (Option Stmt)) :
    Stmt.countAll ((x :: found).filterMap id) =
      x.elim 0 Stmt.count + Stmt.countAll (found.filterMap id) := by
  cases x with
  | none => exact (Nat.zero_add _).symm
  | some s => rfl

end LetLang
