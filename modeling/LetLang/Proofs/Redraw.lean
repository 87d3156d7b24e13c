import LetLang.Diagnostic
import LetLang.Tree.Basic

/-! Trees drawn again in another place.

A `Redraw` moves every position of a tree, and empties the blocks that it is told
to empty. The nodes, their kinds and their texts stay as they are. -/
namespace LetLang

structure Redraw where
  /-- The blocks that open with this token lose their statements. -/
  empties : Token → Bool
  move : Position → Position

namespace Redraw
variable (v : Redraw)

def span (s : Span) : Span := ⟨v.move s.start, v.move s.stop⟩

def token (t : Token) : Token := { t with span := v.span t.span }

def name (x : Name) : Name := ⟨v.token x.token⟩

def diagnostic (d : Diagnostic) : Diagnostic := { d with position := v.move d.position }

mutual

def expr : Expr → Expr
  | .name x => .name (v.name x)
  | .integer t n => .integer (v.token t) n
  | .boolean t b => .boolean (v.token t) b
  | .unary o e s => .unary (v.token o) (expr e) (v.span s)
  | .binary l o r s => .binary (expr l) (v.token o) (expr r) (v.span s)
  | .assign x o e s => .assign (v.name x) (v.token o) (expr e) (v.span s)
  | .conditional t c b a s => .conditional (v.token t) (expr c) (block b) (blockOption a) (v.span s)
  | .function t xs b s => .function (v.token t) (xs.map v.name) (block b) (v.span s)
  | .call f t as s => .call (expr f) (v.token t) (exprs as) (v.span s)

def exprs : List Expr → List Expr
  | [] => []
  | e :: es => expr e :: exprs es

def stmt : Stmt → Stmt
  | .binding t x e s => .binding (v.token t) (v.name x) (expr e) (v.span s)
  | .returning t e s => .returning (v.token t) (expr e) (v.span s)
  | .expression t e s => .expression (v.token t) (expr e) (v.span s)
  | .block b => .block (block b)

def stmts : List Stmt → List Stmt
  | [] => []
  | x :: xs => stmt x :: stmts xs

def block : Block → Block
  | .mk t xs s => .mk (v.token t) (if v.empties t then [] else stmts xs) (v.span s)

def blockOption : Option Block → Option Block
  | none => none
  | some b => some (block b)

end

def program (p : Program) : Program := ⟨v.stmts p.statements⟩

/-- The same tree, as many bytes further on. -/
def shift (n : Nat) : Redraw where
  empties _ := false
  move p := ⟨p.offset + n, p.file⟩

/-! ### What is drawn where -/

@[simp] theorem kind_token (t : Token) : (v.token t).kind = t.kind := rfl

@[simp] theorem literal_token (t : Token) : (v.token t).literal = t.literal := rfl

@[simp] theorem value_token (t : Token) : (v.token t).value = t.value := rfl

@[simp] theorem start_token (t : Token) : (v.token t).start = v.move t.start := rfl

@[simp] theorem stop_token (t : Token) : (v.token t).stop = v.move t.stop := rfl

/-- A token that is moved to where another one stands is that token, if it says the same. -/
theorem token_eq {t u : Token} (hk : t.kind = u.kind) (hl : t.literal = u.literal)
    (hs : v.move t.start = u.start) (he : v.move t.stop = u.stop) : v.token t = u := by
  obtain ⟨kind, literal, start, stop⟩ := u
  simp only [Token.start, Token.stop] at hs he
  simp only [token, span, hs, he, hk, hl]

theorem exprs_eq_map (es : List Expr) : v.exprs es = es.map v.expr := by
  induction es with
  | nil => simp [exprs]
  | cons e es ih => simp [exprs, ih]

theorem stmts_eq_map (xs : List Stmt) : v.stmts xs = xs.map v.stmt := by
  induction xs with
  | nil => simp [stmts]
  | cons x xs ih => simp [stmts, ih]

@[simp] theorem span_expr (e : Expr) : (v.expr e).span = v.span e.span := by
  cases e <;> rw [expr] <;> rfl

@[simp] theorem token_expr (e : Expr) : (v.expr e).token = v.token e.token := by
  cases e <;> rw [expr] <;> rfl

@[simp] theorem start_expr (e : Expr) : (v.expr e).start = v.move e.start := by
  rw [Expr.start, span_expr]
  rfl

@[simp] theorem stop_expr (e : Expr) : (v.expr e).stop = v.move e.stop := by
  rw [Expr.stop, span_expr]
  rfl

/-- A name is drawn from a name only. -/
theorem expr_eq_name {e : Expr} {x : Name} (h : v.expr e = .name x) :
    ∃ y, e = .name y ∧ x = v.name y := by
  cases e <;> rw [expr] at h <;> cases h
  exact ⟨_, rfl, rfl⟩

end Redraw

/-- The tokens, as many bytes further on. -/
def Token.shifted (n : Nat) (ts : List Token) : List Token := ts.map (Redraw.shift n).token

end LetLang
