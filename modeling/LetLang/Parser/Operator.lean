import LetLang.Parser.Operand

/-! Operators: what an expression can go on with.

`operator?` chooses a parser by the kind of the operator; it takes the expression
on the left and the power of the operator. An expression is an operand that grows
to the right as long as the next operator binds tighter than the bound. -/
namespace LetLang.Parser
open Token (Kind)

variable (inner : Level)

/-- A binary operator and its right operand, which stops before the next operator of equal power. -/
def binary (left : Expr) (power : Power) : Parser Expr := do
  let operator ← advance
  let right ← inner.expr power
  return .binary left operator right ⟨left.start, right.stop⟩

/-- A compound assignment to a name. The value goes on as far as an expression can, so a chain of
assignments groups to the right. -/
def assignment (left : Expr) : Parser Expr :=
  match left with
  | .name target => do
    let operator ← advance
    let value ← inner.expr .lowest
    return .assign target operator value ⟨target.token.start, value.stop⟩
  | _ => fail ⟨.notAssignable left.token.literal, left.start⟩

def call (callee : Expr) : Parser Expr := do
  let t ← advance
  let arguments ← untilParen (inner.expr .lowest)
  return .call callee t arguments ⟨callee.start, ← lastEnd⟩

/-- The parser for what an operator of the given kind makes of the expression before it. -/
def operator? : Kind → Option (Expr → Power → Parser Expr)
  | .plusEquals | .minusEquals | .starEquals | .slashEquals =>
    some fun left _ => assignment inner left
  | .equals | .notEquals | .less | .lessEquals | .greater | .greaterEquals
  | .plus | .dash | .star | .slash => some (binary inner)
  | .openParen => some fun left _ => call inner left
  | _ => none

/-- The expression with one more operator, if the next token is one that binds tighter than the
bound. -/
def operatorAbove (bound : Power) (left : Expr) : Parser (Option Expr) := do
  let t ← current
  if bound < t.kind.power then
    match operator? inner t.kind with
    | some p => return some (← p left t.kind.power)
    | none => return none
  else return none

/-! ### An operator takes something -/

theorem binary_consumes (left : Expr) (power : Power) : (binary inner left power).Consumes :=
  consumes_bind_right _ fun _ => consumes_bind_left (inner.expr_consumes _) _

theorem assignment_consumes (left : Expr) : (assignment inner left).Consumes := by
  unfold assignment
  split
  · exact consumes_bind_right _ fun _ => consumes_bind_left (inner.expr_consumes _) _
  · exact consumes_fail _

theorem call_consumes (callee : Expr) : (call inner callee).Consumes :=
  consumes_bind_right _ fun _ => consumes_bind_left (untilParen_consumes _) _

theorem operator?_cases {kind : Kind} {p : Expr → Power → Parser Expr}
    (h : operator? inner kind = some p) :
    p = (fun left _ => assignment inner left) ∨ p = binary inner ∨
      p = fun left _ => call inner left := by
  unfold operator? at h
  split at h <;> cases h
  case h_1 | h_2 | h_3 | h_4 => exact .inl rfl
  case h_15 => exact .inr (.inr rfl)
  all_goals exact .inr (.inl rfl)

theorem operator?_consumes {kind : Kind} {p : Expr → Power → Parser Expr}
    (h : operator? inner kind = some p) (left : Expr) (power : Power) :
    (p left power).Consumes := by
  rcases operator?_cases inner h with rfl | rfl | rfl
  · exact assignment_consumes inner left
  · exact binary_consumes inner left power
  · exact call_consumes inner left

theorem operatorAbove_advances (bound : Power) (left : Expr) :
    (operatorAbove inner bound left).Advances := by
  intro s e u h
  simp only [operatorAbove, run_bind, run_current] at h
  split at h
  · split at h
    · rename_i p hp
      simp only [run_bind] at h
      split at h
      · rename_i e' t ht
        simp only [run_pure, Result.ok.injEq] at h
        exact h.2 ▸ operator?_consumes inner hp left _ s e' t ht
      · simp at h
    · simp at h
  · simp at h

/-- An operand and every operator after it that binds tighter than the bound. -/
def expression (bound : Power) : Parser Expr := do
  let left ← operand inner
  iterate (operatorAbove inner bound) (operatorAbove_advances inner bound) left

theorem expression_consumes (bound : Power) : (expression inner bound).Consumes :=
  consumes_bind_left (operand_consumes inner) _

end LetLang.Parser
