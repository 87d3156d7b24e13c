import LetLang.Proofs.RoundTrip
import LetLang.Tree.Height

/-! How high a tree can grow.

A level of nesting is opened for an expression and for a block, but not for the operand
or the callee that was complete before its operator came. So the limit bounds the height
of a tree if steps to such operands and callees are not counted (`level_low`). If they
are, there is no bound: a sum may be as long as one likes, and so may a row of calls
(`exists_higher`). -/
namespace LetLang
open Token (Kind)

/-! ### What a parser finds -/

namespace Parser
variable {α β : Type}

/-- What is found, if anything is, has the property. -/
def Result.Gives (Q : α → Prop) (r : Result α) : Prop := ∀ a t, r = .ok a t → Q a

def Gives (Q : α → Prop) (p : Parser α) : Prop := ∀ s, (p.run s).Gives Q

section Gives
variable {Q : α → Prop} {Q' : β → Prop} {p : Parser α} {f : α → Parser β}

theorem Result.gives_bind {s : State} (hp : (p.run s).Gives Q)
    (hf : ∀ a t, p.run s = .ok a t → Q a → ((f a).run t).Gives Q') :
    ((p >>= f).run s).Gives Q' := by
  rw [run_bind]
  cases hr : p.run s with
  | ok a t => exact hf a t hr (hp a t hr)
  | error d t => exact fun _ _ h => by cases h

theorem gives_bind (hp : Gives Q p) (hf : ∀ a, Q a → Gives Q' (f a)) : Gives Q' (p >>= f) :=
  fun s => Result.gives_bind (hp s) fun a t _ ha => hf a ha t

/-- Nothing is known of what was found first. -/
theorem gives_after (hf : ∀ a, Gives Q' (f a)) : Gives Q' (p >>= f) :=
  gives_bind (Q := fun _ => True) (fun _ _ _ _ => trivial) fun a _ => hf a

theorem gives_pure {a : α} (h : Q a) : Gives Q (pure a) := by
  rintro s _ t ⟨⟩
  exact h

theorem gives_fail (d : Diagnostic) : Gives Q (fail d) := by
  rintro s a t ⟨⟩

theorem gives_failHere (problem : Problem) : Gives Q (failHere problem) := by
  rintro s a t ⟨⟩

theorem gives_many {p : Parser (Option α)} {hp : p.Advances} (h : Gives (fun x => ∀ a ∈ x, Q a) p)
    (s : State) : ((many p hp).run s).Gives fun as => ∀ a ∈ as, Q a := by
  rw [many_eq]
  refine Result.gives_bind (h s) fun found t hrun hfound => ?_
  cases found with
  | none => exact gives_pure (by simp) t
  | some a =>
    refine Result.gives_bind (gives_many h t) fun as u _ has => ?_
    exact gives_pure (List.forall_mem_cons.2 ⟨hfound a rfl, has⟩) u
termination_by s.ahead.length
decreasing_by exact hp s a t hrun

theorem gives_iterate {f : α → Parser (Option α)} {hf : ∀ a, (f a).Advances}
    (h : ∀ a, Q a → Gives (fun x => ∀ b ∈ x, Q b) (f a)) {a : α} (ha : Q a) (s : State) :
    ((iterate f hf a).run s).Gives Q := by
  rw [iterate_eq]
  refine Result.gives_bind (h a ha s) fun found t hrun hfound => ?_
  cases found with
  | none => exact gives_pure ha t
  | some b => exact gives_iterate h (hfound b rfl) t
termination_by s.ahead.length
decreasing_by exact hf a s b t hrun

theorem gives_recovering {resume : Parser Unit} (h : Gives Q p) :
    Gives (fun x => ∀ a ∈ x, Q a) (recovering p resume) := by
  intro s
  rw [run_recovering]
  cases hp : p.run s with
  | ok a t =>
    rintro _ u ⟨⟩ b ⟨⟩
    exact h s a t hp
  | error d t =>
    simp only
    cases resume.run (t.report d) with
    | ok c u => rintro _ v ⟨⟩ b ⟨⟩
    | error e u => rintro _ v ⟨⟩

theorem gives_nest (h : Gives Q p) : Gives Q (nest p) := by
  intro s
  simp only [nest]
  cases hp : p.run s.opened with
  | ok a t =>
    rintro _ u ⟨⟩
    exact h s.opened a t hp
  | error d t => rintro _ u ⟨⟩

/-- The items of a list in parentheses. -/
theorem gives_untilParen (h : Gives Q p) : Gives (fun as => ∀ a ∈ as, Q a) (untilParen p) := by
  have hafter : Gives (fun x => ∀ a ∈ x, Q a) (afterComma p) := by
    refine gives_after fun found => ?_
    split
    · exact gives_bind h fun a ha => gives_pure (by simpa using ha)
    · exact gives_pure (by simp)
  have hbefore : Gives (fun as => ∀ a ∈ as, Q a) (beforeParen p) := by
    refine gives_after fun t => ?_
    split
    · exact gives_pure (by simp)
    · refine gives_bind h fun a ha => gives_bind (gives_many hafter) fun as has => ?_
      exact gives_pure (List.forall_mem_cons.2 ⟨ha, has⟩)
  exact gives_bind hbefore fun as has => gives_after fun _ => gives_pure has

end Gives

/-! ### What is low -/

theorem heightAll_expr_le {left callee k : Nat} {es : List Expr}
    (h : ∀ e ∈ es, e.height left callee ≤ k) : Expr.heightAll left callee es ≤ k := by
  induction es with
  | nil => exact Nat.zero_le k
  | cons e es ih =>
    obtain ⟨he, hes⟩ := List.forall_mem_cons.1 h
    exact Nat.max_le.2 ⟨he, ih hes⟩

theorem heightAll_stmt_le {left callee k : Nat} {ss : List Stmt}
    (h : ∀ s ∈ ss, s.height left callee ≤ k) : Stmt.heightAll left callee ss ≤ k := by
  induction ss with
  | nil => exact Nat.zero_le k
  | cons s ss ih =>
    obtain ⟨hs, hss⟩ := List.forall_mem_cons.1 h
    exact Nat.max_le.2 ⟨hs, ih hss⟩

/-- Low enough for `n` levels: two levels make three nodes of height at most, since a block in a
block costs one level, and so does an expression in an expression, but a statement costs none. -/
def LowExpr (n : Nat) (e : Expr) : Prop := 2 * e.height 0 0 + 1 ≤ 3 * n

def LowBlock (n : Nat) (b : Block) : Prop := 2 * b.height 0 0 ≤ 3 * n

def LowStmt (n : Nat) (s : Stmt) : Prop := 2 * s.height 0 0 ≤ 3 * n + 1

section Low
variable {n : Nat} {e l r c f : Expr} {b : Block} {es : List Expr} {ss : List Stmt}

theorem low_leaf (h : e.height 0 0 = 1) : LowExpr (n + 1) e := by
  rw [LowExpr, h]
  omega

theorem low_above (h : LowExpr n e) (hr : r.height 0 0 = e.height 0 0 + 1) : LowExpr (n + 1) r := by
  rw [LowExpr] at h ⊢
  omega

theorem low_binary (hl : LowExpr (n + 1) l) (hr : LowExpr n r) (o : Token) (s : Span) :
    LowExpr (n + 1) (.binary l o r s) := by
  rw [LowExpr] at hl hr ⊢
  rw [Expr.height]
  omega

theorem low_conditional {a : Option Block} (hc : LowExpr n c) (hb : LowBlock n b)
    (ha : ∀ b ∈ a, LowBlock n b) (t : Token) (s : Span) :
    LowExpr (n + 1) (.conditional t c b a s) := by
  have ha : 2 * Block.heightOption 0 0 a ≤ 3 * n := by
    cases a with
    | none => exact Nat.zero_le _
    | some a => exact ha a rfl
  rw [LowExpr] at hc ⊢
  rw [LowBlock] at hb
  rw [Expr.height]
  omega

theorem low_function (hb : LowBlock n b) (t : Token) (xs : List Name) (s : Span) :
    LowExpr (n + 1) (.function t xs b s) := by
  rw [LowBlock] at hb
  rw [LowExpr, Expr.height]
  omega

theorem low_call (hf : LowExpr (n + 1) f) (hes : ∀ e ∈ es, LowExpr n e) (t : Token) (s : Span) :
    LowExpr (n + 1) (.call f t es s) := by
  have hall : Expr.heightAll 0 0 es ≤ (3 * n - 1) / 2 := by
    refine heightAll_expr_le fun e he => ?_
    have hlow := hes e he
    rw [LowExpr] at hlow
    omega
  rw [LowExpr] at hf ⊢
  rw [Expr.height]
  omega

theorem low_statement {s : Stmt} (h : LowExpr n e) (hs : s.height 0 0 = e.height 0 0 + 1) :
    LowStmt n s := by
  rw [LowExpr] at h
  rw [LowStmt, hs]
  omega

theorem low_blockStatement (h : LowBlock n b) : LowStmt n (.block b) := by
  rw [LowBlock] at h
  rw [LowStmt, Stmt.height]
  omega

theorem low_statements (h : ∀ s ∈ ss, LowStmt n s) : 2 * Stmt.heightAll 0 0 ss ≤ 3 * n + 1 := by
  have hall : Stmt.heightAll 0 0 ss ≤ (3 * n + 1) / 2 := by
    refine heightAll_stmt_le fun s hs => ?_
    have hlow := h s hs
    rw [LowStmt] at hlow
    omega
  omega

theorem low_block (h : ∀ s ∈ ss, LowStmt n s) (t : Token) (s : Span) :
    LowBlock (n + 1) (.mk t ss s) := by
  have hall := low_statements h
  rw [LowBlock, Block.height]
  omega

end Low

/-! ### Constructs -/

/-- What the parsers of a level with `n` left find. -/
structure Level.Low (n : Nat) (inner : Level) : Prop where
  expr : ∀ bound, Gives (LowExpr n) (inner.expr bound)
  block : Gives (LowBlock n) inner.block

section Constructs
variable {n : Nat} {inner : Level}

theorem literal_low : Gives (LowExpr (n + 1)) literal := by
  refine gives_after fun t => ?_
  split
  · split
    · exact gives_pure (low_leaf rfl)
    · exact gives_fail _
  · exact gives_pure (low_leaf rfl)
  · exact gives_pure (low_leaf rfl)
  · exact gives_pure (low_leaf rfl)
  · exact gives_fail _

variable (hi : inner.Low n)
include hi

theorem unary_low : Gives (LowExpr (n + 1)) (unary inner) :=
  gives_after fun _ => gives_bind (hi.expr _) fun _ he => gives_pure (low_above he rfl)

theorem group_low : Gives (LowExpr (n + 1)) (group inner) := by
  refine gives_after fun _ => gives_bind (hi.expr _) fun e he => ?_
  refine gives_after fun _ => gives_pure ?_
  rw [LowExpr] at he ⊢
  omega

theorem alternative_low : Gives (fun a => ∀ b ∈ a, LowBlock n b) (alternative inner) := by
  refine gives_after fun found => ?_
  split
  · exact gives_bind hi.block fun b hb => gives_pure (by simpa using hb)
  · exact gives_pure (by simp)

theorem conditional_low : Gives (LowExpr (n + 1)) (conditional inner) := by
  refine gives_after fun _ => gives_after fun _ => gives_bind (hi.expr _) fun c hc => ?_
  refine gives_after fun _ => gives_bind hi.block fun b hb => ?_
  refine gives_bind (alternative_low hi) fun a ha => gives_after fun _ => ?_
  exact gives_pure (low_conditional hc hb ha _ _)

theorem function_low : Gives (LowExpr (n + 1)) (function inner) := by
  refine gives_after fun _ => gives_after fun _ => gives_after fun _ => ?_
  refine gives_bind hi.block fun b hb => gives_after fun _ => ?_
  exact gives_pure (low_function hb _ _ _)

theorem operand_low : Gives (LowExpr (n + 1)) (operand inner) := by
  refine gives_after fun t => ?_
  split
  · rename_i p hp
    rcases operand?_cases inner hp with rfl | ⟨-, rfl⟩ | ⟨-, rfl⟩ | ⟨-, rfl⟩ | ⟨-, rfl⟩
    · exact literal_low
    · exact unary_low hi
    · exact group_low hi
    · exact conditional_low hi
    · exact function_low hi
  · exact gives_failHere _

section Operators
variable {left : Expr} (hleft : LowExpr (n + 1) left)
include hleft

theorem binary_low (power : Power) : Gives (LowExpr (n + 1)) (binary inner left power) :=
  gives_after fun _ => gives_bind (hi.expr _) fun _ he => gives_pure (low_binary hleft he _ _)

theorem assignment_low : Gives (LowExpr (n + 1)) (assignment inner left) := by
  unfold assignment
  split
  · exact gives_after fun _ => gives_bind (hi.expr _) fun _ he => gives_pure (low_above he rfl)
  · exact gives_fail _

theorem call_low : Gives (LowExpr (n + 1)) (call inner left) := by
  refine gives_after fun _ => gives_bind (gives_untilParen (hi.expr _)) fun es hes => ?_
  exact gives_after fun _ => gives_pure (low_call hleft hes _ _)

theorem operatorAbove_low (bound : Power) :
    Gives (fun x => ∀ e ∈ x, LowExpr (n + 1) e) (operatorAbove inner bound left) := by
  refine gives_after fun t => ?_
  split
  · split
    · rename_i p hp
      have hfound : Gives (LowExpr (n + 1)) (p left t.kind.power) := by
        rcases operator?_cases inner hp with rfl | rfl | rfl
        · exact assignment_low hi hleft
        · exact binary_low hi hleft _
        · exact call_low hi hleft
      exact gives_bind hfound fun e he => gives_pure (by simpa using he)
    · exact gives_pure (by simp)
  · exact gives_pure (by simp)

end Operators

theorem expression_low (bound : Power) : Gives (LowExpr (n + 1)) (expression inner bound) := by
  refine gives_bind (operand_low hi) fun left hleft => ?_
  exact gives_iterate (fun _ he => operatorAbove_low hi he bound) hleft

omit hi in
theorem terminated_low {p : Parser (Position → Stmt)}
    (h : Gives (fun make => ∀ stop, LowStmt n (make stop)) p) :
    Gives (LowStmt n) (terminated p) :=
  gives_bind h fun _ hmake => gives_after fun _ => gives_after fun _ => gives_pure (hmake _)

theorem statement_low : Gives (LowStmt n) (statement inner) := by
  refine gives_after fun t => ?_
  unfold statementFrom
  split
  · refine terminated_low (gives_after fun _ => gives_after fun _ => gives_after fun _ => ?_)
    exact gives_bind (hi.expr _) fun e he => gives_pure fun _ => low_statement he rfl
  · refine terminated_low (gives_after fun _ => gives_bind (hi.expr _) fun e he => ?_)
    exact gives_pure fun _ => low_statement he rfl
  · exact gives_bind hi.block fun _ hb => gives_pure (low_blockStatement hb)
  · refine terminated_low (gives_after fun _ => gives_bind (hi.expr _) fun e he => ?_)
    exact gives_pure fun _ => low_statement he rfl

theorem statements_low {ends : Option Token → Bool} {resume : Parser Unit}
    (ha : (statementUnless inner ends resume).Advances) :
    Gives (fun found => ∀ s ∈ found.filterMap id, LowStmt n s)
      (many (statementUnless inner ends resume) ha) := by
  have hstep : Gives (fun found => ∀ x ∈ found, ∀ s ∈ x, LowStmt n s)
      (statementUnless inner ends resume) := by
    refine gives_after fun next => ?_
    split
    · exact gives_pure (by simp)
    · exact gives_bind (gives_recovering (statement_low hi)) fun x hx => gives_pure (by simpa using hx)
  intro s found t hrun x hx
  obtain ⟨y, hy, rfl⟩ := List.mem_filterMap.1 hx
  exact gives_many hstep s found t hrun _ hy x rfl

theorem block_low : Gives (LowBlock (n + 1)) (block inner) := by
  refine gives_after fun t => ?_
  have hbody : Gives (fun ss => ∀ s ∈ ss, LowStmt n s) (blockBody inner) :=
    gives_bind (statements_low hi _) fun _ hfound => gives_pure hfound
  refine gives_bind hbody fun ss hss => gives_after fun _ => gives_after fun _ => ?_
  exact gives_pure (low_block hss _ _)

theorem program_low : Gives (fun p => ∀ s ∈ p.statements, LowStmt n s) (program inner) :=
  gives_bind (statements_low hi _) fun _ hfound => gives_pure hfound

end Constructs

theorem level_low (limit n : Nat) : (level limit n).Low n := by
  induction n with
  | zero => exact ⟨fun _ => gives_failHere _, gives_failHere _⟩
  | succ n ih =>
    exact ⟨fun bound => gives_nest (expression_low ih bound), gives_nest (block_low ih)⟩

end Parser

open LetLang.Parser

/-! ### Long chains -/

/-- The expression is what some source is parsed as, apart from where its tokens stand. -/
theorem exists_source {e : Expr} (he : e.isProper) (hlevels : e.printed.levels < maxNesting) :
    ∃ source t e' s, (parse source).program = ⟨[.expression t e' s]⟩ ∧
      Redraw.unplaced.expr e' = e.respelled := by
  let p : Program := ⟨[.expression (.fixed .eof) e .nowhere]⟩
  have hp : p.isProper := by simpa [p, Program.isProper, Stmt.areProper, Stmt.isProper] using he
  have hnesting : p.printed.levels ≤ maxNesting := by
    show max (max (e.printed.levels + 1) 0) 0 ≤ maxNesting
    omega
  obtain ⟨ss, hss, heq⟩ := Grammar.yieldsStatements hp maxNesting
    (tokenize ⟨"shell", p.text⟩).dropLast ⟨tokenize_text "shell" hp, hnesting⟩
  have hprogram := ((parseWithin_iff_derives maxNesting ⟨"shell", p.text⟩ ss).2 hss).2
  rw [Stmt.respelledAll, Stmt.respelledAll, Stmt.respelled] at heq
  cases ss with
  | nil =>
    rw [Redraw.stmts] at heq
    cases heq
  | cons x xs =>
    rw [Redraw.stmts, List.cons.injEq] at heq
    obtain ⟨hx, hxs⟩ := heq
    cases xs with
    | cons y ys =>
      rw [Redraw.stmts] at hxs
      cases hxs
    | nil =>
      cases x with
      | expression t e' s =>
        rw [Redraw.stmt, Stmt.expression.injEq] at hx
        exact ⟨⟨"shell", p.text⟩, t, e', s, hprogram, hx.2.1⟩
      | _ =>
        rw [Redraw.stmt] at hx
        cases hx

/-- The name `a`, to which it is added over and over. -/
def Expr.sum : Nat → Expr
  | 0 => .name ⟨.unplaced .identifier "a"⟩
  | n + 1 => .binary (sum n) (.fixed .plus) (.name ⟨.unplaced .identifier "a"⟩) .nowhere

/-- The name `a`, called over and over. -/
def Expr.calls : Nat → Expr
  | 0 => .name ⟨.unplaced .identifier "a"⟩
  | n + 1 => .call (calls n) (.fixed .openParen) [] .nowhere

/-- It is one level deep, and is printed without parentheses where the power is demanded. -/
structure Expr.IsShallow (bound : Power) (e : Expr) : Prop where
  proper : e.isProper
  levels : e.printed.levels ≤ 1
  power : ¬e.power < bound

theorem Expr.IsShallow.levels_operand {bound : Power} {e : Expr} (h : e.IsShallow bound) :
    (e.printed.groupedIf (e.power < bound)).levels ≤ 1 := by
  rw [decide_eq_false h.power, Printed.groupedIf, if_neg Bool.false_ne_true]
  exact h.levels

theorem sum_shallow (n : Nat) : (Expr.sum n).IsShallow .additive := by
  induction n with
  | zero => exact ⟨by decide, by decide, by decide⟩
  | succ n ih =>
    refine ⟨?_, ?_, Nat.lt_irrefl _⟩
    · rw [Expr.sum, Expr.isProper, ih.proper]
      decide
    · show max (max (Printed.groupedIf (decide ((Expr.sum n).power < .additive)) _).levels 0) 1 ≤ 1
      have hlevels := ih.levels_operand
      omega

theorem calls_shallow (n : Nat) : (Expr.calls n).IsShallow .call := by
  induction n with
  | zero => exact ⟨by decide, by decide, by decide⟩
  | succ n ih =>
    refine ⟨?_, ?_, Nat.lt_irrefl _⟩
    · rw [Expr.calls, Expr.isProper, ih.proper]
      decide
    · show max (Printed.groupedIf (decide ((Expr.calls n).power < .call)) _).levels 0 ≤ 1
      have hlevels := ih.levels_operand
      omega

section Chains
variable {left callee : Nat}

theorem sum_height {n : Nat} {e : Expr} (h : Redraw.unplaced.expr e = (Expr.sum n).respelled) :
    left * n < e.height left callee := by
  induction n generalizing e with
  | zero => exact e.height_pos left callee
  | succ n ih =>
    cases e with
    | binary l o r s =>
      rw [Redraw.expr, Expr.sum, Expr.respelled, Expr.binary.injEq] at h
      have hlow := ih h.1
      rw [Expr.height, Nat.mul_succ]
      omega
    | _ => rw [Redraw.expr, Expr.sum, Expr.respelled] at h; cases h

theorem calls_height {n : Nat} {e : Expr} (h : Redraw.unplaced.expr e = (Expr.calls n).respelled) :
    callee * n < e.height left callee := by
  induction n generalizing e with
  | zero => exact e.height_pos left callee
  | succ n ih =>
    cases e with
    | call f t es s =>
      rw [Redraw.expr, Expr.calls, Expr.respelled, Expr.call.injEq] at h
      have hlow := ih h.1
      rw [Expr.height, Nat.mul_succ]
      omega
    | _ => rw [Redraw.expr, Expr.calls, Expr.respelled] at h; cases h

/-- Where a step to a left operand or to a callee counts, some tree is higher than any bound. -/
theorem exists_higher (h : left ≠ 0 ∨ callee ≠ 0) (bound : Nat) :
    ∃ source, bound < (parse source).program.height left callee := by
  have hchain : ∃ (e : Expr) (power : Power), e.IsShallow power ∧
      ∀ e', Redraw.unplaced.expr e' = e.respelled → bound < e'.height left callee := by
    rcases h with h | h
    · have hle : bound ≤ left * bound := Nat.le_mul_of_pos_left bound (Nat.pos_of_ne_zero h)
      exact ⟨_, _, sum_shallow bound, fun e' he' => Nat.lt_of_le_of_lt hle (sum_height he')⟩
    · have hle : bound ≤ callee * bound := Nat.le_mul_of_pos_left bound (Nat.pos_of_ne_zero h)
      exact ⟨_, _, calls_shallow bound, fun e' he' => Nat.lt_of_le_of_lt hle (calls_height he')⟩
  obtain ⟨e, power, hshallow, hhigh⟩ := hchain
  obtain ⟨source, t, e', s, hparse, he'⟩ :=
    exists_source hshallow.proper (Nat.lt_of_le_of_lt hshallow.levels (by decide))
  have hlt := hhigh e' he'
  refine ⟨source, ?_⟩
  rw [hparse, Program.height]
  show bound < max (e'.height left callee + 1) 0 + 1
  omega

end Chains

/-- The limit bounds the height of a tree by three nodes for two levels, left operands and callees
not counted. If either is counted, nothing bounds it. -/
theorem limit_bounds_height :
    (∀ limit source, 2 * (parseWithin limit source).program.height 0 0 ≤ 3 * (limit + 1)) ∧
    ∀ left callee, (∃ bound, ∀ source, (parse source).program.height left callee ≤ bound) ↔
      left = 0 ∧ callee = 0 := by
  have hbound : ∀ limit source,
      2 * (parseWithin limit source).program.height 0 0 ≤ 3 * (limit + 1) := by
    intro limit source
    obtain ⟨program, u, hrun, hparse⟩ := parseWithin_eq limit source
    have hlow := low_statements (program_low (level_low limit limit) _ program u hrun)
    rw [hparse]
    show 2 * (Stmt.heightAll 0 0 program.statements + 1) ≤ 3 * (limit + 1)
    omega
  refine ⟨hbound, fun left callee => ⟨fun ⟨bound, hle⟩ => ?_, ?_⟩⟩
  · by_contra hne
    obtain ⟨source, hlt⟩ := exists_higher (Decidable.not_and_iff_or_not.1 hne) bound
    exact Nat.not_le_of_lt hlt (hle source)
  · rintro ⟨rfl, rfl⟩
    refine ⟨3 * (maxNesting + 1), fun source => ?_⟩
    have hle := hbound maxNesting source
    rw [parse]
    omega

/-- The height of a tree, each step counted, has no bound. -/
theorem height_unbounded : ¬∃ bound, ∀ source, (parse source).program.height 1 1 ≤ bound := by
  rintro ⟨bound, hle⟩
  obtain ⟨source, hlt⟩ := exists_higher (.inl Nat.one_ne_zero) bound
  exact Nat.not_le_of_lt hlt (hle source)

end LetLang
