import LetLang.Tree.Basic

/-! The nodes of a tree, and what each is made of.

A node is made of pieces: the token it is named for and the nodes right below it, in
the order in which they stand in the source (`Node.pieces`). The token of a statement
that is an expression is no piece, since the expression has it already. Read from
left to right, the pieces of all nodes give the tokens that a tree stores
(`Program.tokens`). -/
namespace LetLang

/-- A name is a node as the expression that it would be, and a block as a statement. -/
inductive Node where
  | expr (e : Expr)
  | stmt (s : Stmt)

inductive Piece where
  | token (t : Token)
  | node (n : Node)

namespace Node

def name (x : Name) : Node := expr (.name x)

def block (b : Block) : Node := stmt (.block b)

def token : Node → Token
  | expr e => e.token
  | stmt s => s.token

def span : Node → Span
  | expr e => e.span
  | stmt s => s.span

def pieces : Node → List Piece
  | expr (.name x) => [.token x.token]
  | expr (.integer t _) => [.token t]
  | expr (.boolean t _) => [.token t]
  | expr (.unary t e _) => [.token t, .node (expr e)]
  | expr (.binary l t r _) => [.node (expr l), .token t, .node (expr r)]
  | expr (.assign x t e _) => [.node (name x), .token t, .node (expr e)]
  | expr (.conditional t c b none _) => [.token t, .node (expr c), .node (block b)]
  | expr (.conditional t c b (some b') _) =>
    [.token t, .node (expr c), .node (block b), .node (block b')]
  | expr (.function t xs b _) => .token t :: xs.map (fun x => .node (name x)) ++ [.node (block b)]
  | expr (.call f t es _) => .node (expr f) :: .token t :: es.map fun e => .node (expr e)
  | stmt (.binding t x e _) => [.token t, .node (name x), .node (expr e)]
  | stmt (.returning t e _) => [.token t, .node (expr e)]
  | stmt (.expression _ e _) => [.node (expr e)]
  | stmt (.block (.mk t ss _)) => .token t :: ss.map fun s => .node (stmt s)

end Node

def Piece.span : Piece → Span
  | token t => t.span
  | node n => n.span

/-- The nodes of a program: its statements, and what they are made of, at any depth. -/
inductive Program.Has (p : Program) : Node → Prop where
  | statement {s : Stmt} (h : s ∈ p.statements) : Has p (.stmt s)
  | inside {n m : Node} (h : Has p n) (hm : .node m ∈ n.pieces) : Has p m

/-! ### The tokens of a tree -/

mutual

def Expr.tokens : Expr → List Token
  | .name x => [x.token]
  | .integer t _ => [t]
  | .boolean t _ => [t]
  | .unary t e _ => t :: e.tokens
  | .binary l t r _ => l.tokens ++ t :: r.tokens
  | .assign x t e _ => x.token :: t :: e.tokens
  | .conditional t c b a _ => t :: (c.tokens ++ (b.tokens ++ Block.tokensOption a))
  | .function t xs b _ => t :: (xs.map Name.token ++ b.tokens)
  | .call f t es _ => f.tokens ++ t :: Expr.tokensAll es

def Expr.tokensAll : List Expr → List Token
  | [] => []
  | e :: es => e.tokens ++ Expr.tokensAll es

def Stmt.tokens : Stmt → List Token
  | .binding t x e _ => t :: x.token :: e.tokens
  | .returning t e _ => t :: e.tokens
  | .expression _ e _ => e.tokens
  | .block b => b.tokens

def Stmt.tokensAll : List Stmt → List Token
  | [] => []
  | s :: ss => s.tokens ++ Stmt.tokensAll ss

def Block.tokens : Block → List Token
  | .mk t ss _ => t :: Stmt.tokensAll ss

def Block.tokensOption : Option Block → List Token
  | none => []
  | some b => b.tokens

end

/-- The tokens that the nodes of the program are named for, in the order of the source. -/
def Program.tokens (p : Program) : List Token := Stmt.tokensAll p.statements

def Node.tokens : Node → List Token
  | expr e => e.tokens
  | stmt s => s.tokens

def Piece.tokens : Piece → List Token
  | token t => [t]
  | node n => n.tokens

@[simp] theorem Piece.tokens_token (t : Token) : (token t).tokens = [t] := rfl

@[simp] theorem Piece.tokens_expr (e : Expr) : (node (.expr e)).tokens = e.tokens := rfl

@[simp] theorem Piece.tokens_stmt (s : Stmt) : (node (.stmt s)).tokens = s.tokens := rfl

@[simp] theorem Piece.tokens_name (x : Name) : (node (.name x)).tokens = [x.token] := rfl

@[simp] theorem Piece.tokens_block (b : Block) : (node (.block b)).tokens = b.tokens := rfl

theorem Expr.tokensAll_eq (es : List Expr) : Expr.tokensAll es = es.flatMap Expr.tokens := by
  induction es with
  | nil => rfl
  | cons e es ih => rw [Expr.tokensAll, ih, List.flatMap_cons]

theorem Stmt.tokensAll_eq (ss : List Stmt) : Stmt.tokensAll ss = ss.flatMap Stmt.tokens := by
  induction ss with
  | nil => rfl
  | cons s ss ih => rw [Stmt.tokensAll, ih, List.flatMap_cons]

/-- A node has the tokens that its pieces have. -/
theorem Node.tokens_eq (n : Node) : n.tokens = n.pieces.flatMap Piece.tokens := by
  cases n with
  | expr e =>
    cases e with
    | conditional t c b a s => cases a <;> simp [tokens, pieces, Expr.tokens, Block.tokensOption]
    | function t xs b s =>
      have hnames : xs.map Name.token = xs.flatMap fun x => [x.token] := List.map_eq_flatMap
      simp [tokens, pieces, Expr.tokens, hnames, List.flatMap_map]
    | call f t es s => simp [tokens, pieces, Expr.tokens, Expr.tokensAll_eq, List.flatMap_map]
    | _ => simp [tokens, pieces, Expr.tokens]
  | stmt s =>
    cases s with
    | block b =>
      obtain ⟨t, ss, s⟩ := b
      simp [tokens, pieces, Stmt.tokens, Block.tokens, Stmt.tokensAll_eq, List.flatMap_map]
    | _ => simp [tokens, pieces, Stmt.tokens]

end LetLang
