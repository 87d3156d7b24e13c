import LetLang.Tree.Node

/-! How high a tree is.

The height of a node is how many nodes stand one above the other at most, itself
included. Two steps down have a weight of their own, the one from a binary operator to
its left operand and the one from a call to its callee: these operands were complete
before the node was begun. Where both count once the height is the common one
(`Node.height_eq`). -/
namespace LetLang

section
-- how often the steps to a left operand and to a callee are counted
variable (left callee : Nat)

mutual

/-- A name that is bound or assigned to is a leaf, and never the furthest down. -/
def Expr.height : Expr → Nat
  | .name _ => 1
  | .integer _ _ => 1
  | .boolean _ _ => 1
  | .unary _ e _ => e.height + 1
  | .binary l _ r _ => max (l.height + left) (r.height + 1)
  | .assign _ _ e _ => e.height + 1
  | .conditional _ c b a _ => max c.height (max b.height (Block.heightOption a)) + 1
  | .function _ _ b _ => b.height + 1
  | .call f _ es _ => max (f.height + callee) (Expr.heightAll es + 1)

def Expr.heightAll : List Expr → Nat
  | [] => 0
  | e :: es => max e.height (Expr.heightAll es)

def Stmt.height : Stmt → Nat
  | .binding _ _ e _ => e.height + 1
  | .returning _ e _ => e.height + 1
  | .expression _ e _ => e.height + 1
  | .block b => b.height

def Stmt.heightAll : List Stmt → Nat
  | [] => 0
  | s :: ss => max s.height (Stmt.heightAll ss)

def Block.height : Block → Nat
  | .mk _ ss _ => Stmt.heightAll ss + 1

def Block.heightOption : Option Block → Nat
  | none => 0
  | some b => b.height

end

/-- The program is a node too. -/
def Program.height (p : Program) : Nat := Stmt.heightAll left callee p.statements + 1

def Node.height : Node → Nat
  | expr e => e.height left callee
  | stmt s => s.height left callee

end

theorem Block.height_pos (left callee : Nat) (b : Block) : 0 < b.height left callee := by
  cases b
  exact Nat.succ_pos _

theorem Expr.height_pos (left callee : Nat) (e : Expr) : 0 < e.height left callee := by
  cases e with
  | name | integer | boolean => exact Nat.one_pos
  | binary _ _ r _ => exact Nat.lt_of_lt_of_le (Nat.succ_pos _) (Nat.le_max_right ..)
  | call _ _ es _ => exact Nat.lt_of_lt_of_le (Nat.succ_pos _) (Nat.le_max_right ..)
  | _ => exact Nat.succ_pos _

/-- The height of the highest node among the pieces, which need not have one. -/
def Piece.highest (left callee : Nat) : List Piece → Nat
  | [] => 0
  | .token _ :: ps => highest left callee ps
  | .node n :: ps => max (n.height left callee) (highest left callee ps)

section
variable {left callee : Nat}

theorem Piece.highest_names (xs : List Name) (b : Block) :
    highest left callee (xs.map (fun x => .node (.name x)) ++ [.node (.block b)]) =
      b.height left callee := by
  have hpos := b.height_pos left callee
  induction xs with
  | nil => exact Nat.max_zero _
  | cons x xs ih =>
    rw [List.map_cons, List.cons_append, highest, ih]
    exact Nat.max_eq_right hpos

theorem Piece.highest_exprs (es : List Expr) :
    highest left callee (es.map fun e => .node (.expr e)) = Expr.heightAll left callee es := by
  induction es with
  | nil => rfl
  | cons e es ih => rw [List.map_cons, highest, ih]; rfl

theorem Piece.highest_stmts (ss : List Stmt) :
    highest left callee (ss.map fun s => .node (.stmt s)) = Stmt.heightAll left callee ss := by
  induction ss with
  | nil => rfl
  | cons s ss ih => rw [List.map_cons, highest, ih]; rfl

end

/-- With every step counted once, a node is one higher than the highest right below it. -/
theorem Node.height_eq (n : Node) : n.height 1 1 = Piece.highest 1 1 n.pieces + 1 := by
  -- the name in front of a value is lower than the value
  have hname : ∀ e : Expr, max 1 (max (e.height 1 1) 0) = e.height 1 1 := by
    intro e
    have hpos := e.height_pos 1 1
    omega
  cases n with
  | expr e =>
    cases e with
    | name | integer | boolean => rfl
    | unary _ e _ => exact congrArg (· + 1) (Nat.max_zero _).symm
    | binary l _ r _ =>
      show max (l.height 1 1 + 1) (r.height 1 1 + 1) = max (l.height 1 1) (max (r.height 1 1) 0) + 1
      omega
    | assign _ _ e _ => exact congrArg (· + 1) (hname e).symm
    | conditional _ c b a _ =>
      cases a with
      | none => rfl
      | some a =>
        show max _ (max _ (a.height 1 1)) + 1 = max _ (max _ (max (a.height 1 1) 0)) + 1
        rw [Nat.max_zero]
        rfl
    | function _ xs b _ => exact congrArg (· + 1) (Piece.highest_names xs b).symm
    | call f _ es _ =>
      show max (f.height 1 1 + 1) (Expr.heightAll 1 1 es + 1) =
        max (f.height 1 1) (Piece.highest 1 1 (es.map fun e => .node (.expr e))) + 1
      rw [Piece.highest_exprs]
      omega
  | stmt s =>
    cases s with
    | binding _ _ e _ => exact congrArg (· + 1) (hname e).symm
    | returning _ e _ | expression _ e _ => exact congrArg (· + 1) (Nat.max_zero _).symm
    | block b =>
      cases b with
      | mk _ ss _ => exact congrArg (· + 1) (Piece.highest_stmts ss).symm

end LetLang
