import LetLang.Parser.Level

/-! Operands: what an expression can start with.

`operand?` chooses a parser by the kind of the first token. Each parser takes its
first token as it comes, so it can also be run where that token is another. -/
namespace LetLang.Parser
open Token (Kind)

/-- The largest integer: literals are read into 64 bits with a sign. -/
def maxInteger : Nat := 0x7fffffffffffffff

def literal : Parser Expr := do
  let t ← advance
  match t.kind with
  | .integer =>
    if t.value ≤ maxInteger then return .integer t t.value
    else fail ⟨.integerTooLarge t.literal, t.start⟩
  | .identifier => return .name ⟨t⟩
  | .kwTrue => return .boolean t true
  | .kwFalse => return .boolean t false
  | _ => fail ⟨.noOperand t.kind t.literal, t.start⟩

variable (inner : Level)

def unary : Parser Expr := do
  let operator ← advance
  let operand ← inner.expr .unary
  return .unary operator operand ⟨operator.start, operand.stop⟩

/-- The expression between parentheses, as if they were not there. -/
def group : Parser Expr := do
  let _ ← advance
  let e ← inner.expr .lowest
  let _ ← expect .closeParen
  return e

def alternative : Parser (Option Block) := do
  if ← skip .kwElse then return some (← inner.block) else return none

def conditional : Parser Expr := do
  let t ← advance
  let _ ← expect .openParen
  let condition ← inner.expr .lowest
  let _ ← expect .closeParen
  let consequence ← inner.block
  let alternative ← alternative inner
  return .conditional t condition consequence alternative ⟨t.start, ← lastEnd⟩

def parameter : Parser Name := do
  return ⟨← expect .identifier⟩

/-- Nothing before a closing parenthesis, otherwise findings of `p` with commas between them. -/
def beforeParen {α : Type} (p : Parser α) : Parser (List α) := do
  let t ← current
  if t.kind = .closeParen then return [] else commaSeparated p

/-- What `p` finds up to a closing parenthesis, which is consumed with it. -/
def untilParen {α : Type} (p : Parser α) : Parser (List α) := do
  let found ← beforeParen p
  let _ ← expect .closeParen
  return found

def function : Parser Expr := do
  let t ← advance
  let _ ← expect .openParen
  let parameters ← untilParen parameter
  let body ← inner.block
  return .function t parameters body ⟨t.start, ← lastEnd⟩

/-- The parser for an operand that starts with a token of the given kind. -/
def operand? : Kind → Option (Parser Expr)
  | .integer | .identifier | .kwTrue | .kwFalse => some literal
  | .not | .dash => some (unary inner)
  | .openParen => some (group inner)
  | .kwIf => some (conditional inner)
  | .kwFn => some (function inner)
  | _ => none

/-- What is wrong with a token that no operand starts with. -/
def noOperand (t : Token) : Problem :=
  if t.kind = .illegal then .illegalCharacter t.literal else .noOperand t.kind t.literal

def operand : Parser Expr := do
  let t ← current
  match operand? inner t.kind with
  | some p => p
  | none => failHere (noOperand t)

/-! ### Operands are never empty -/

theorem literal_consumes : literal.Consumes := by
  intro s e u h
  simp only [literal, run_bind, run_advance] at h
  have hs : s.ahead ≠ [] := by
    apply State.ahead_ne_nil
    intro hk
    simp [hk] at h
  have hu : u = s.advance := by
    split at h
    · split at h <;> simp_all
    all_goals simp_all
  exact hu ▸ State.length_ahead_advance_lt hs

theorem untilParen_consumes {α : Type} (p : Parser α) : (untilParen p).Consumes :=
  consumes_bind_right _ fun _ => consumes_bind_left (consumes_expect (by simp)) _

theorem unary_consumes : (unary inner).Consumes :=
  consumes_bind_right _ fun _ => consumes_bind_left (inner.expr_consumes _) _

theorem group_consumes : (group inner).Consumes :=
  consumes_bind_right _ fun _ => consumes_bind_left (inner.expr_consumes _) _

theorem conditional_consumes : (conditional inner).Consumes :=
  consumes_bind_right _ fun _ => consumes_bind_left (consumes_expect (by simp)) _

theorem function_consumes : (function inner).Consumes :=
  consumes_bind_right _ fun _ => consumes_bind_left (consumes_expect (by simp)) _

theorem operand?_cases {kind : Kind} {p : Parser Expr} (h : operand? inner kind = some p) :
    p = literal ∨ ((kind = .not ∨ kind = .dash) ∧ p = unary inner) ∨
      (kind = .openParen ∧ p = group inner) ∨ (kind = .kwIf ∧ p = conditional inner) ∨
        (kind = .kwFn ∧ p = function inner) := by
  unfold operand? at h
  split at h <;> cases h
  case h_1 | h_2 | h_3 | h_4 => exact .inl rfl
  case h_5 => exact .inr (.inl ⟨.inl rfl, rfl⟩)
  case h_6 => exact .inr (.inl ⟨.inr rfl, rfl⟩)
  case h_7 => exact .inr (.inr (.inl ⟨rfl, rfl⟩))
  case h_8 => exact .inr (.inr (.inr (.inl ⟨rfl, rfl⟩)))
  case h_9 => exact .inr (.inr (.inr (.inr ⟨rfl, rfl⟩)))

theorem operand?_consumes {kind : Kind} {p : Parser Expr} (h : operand? inner kind = some p) :
    p.Consumes := by
  rcases operand?_cases inner h with rfl | ⟨-, rfl⟩ | ⟨-, rfl⟩ | ⟨-, rfl⟩ | ⟨-, rfl⟩
  · exact literal_consumes
  · exact unary_consumes inner
  · exact group_consumes inner
  · exact conditional_consumes inner
  · exact function_consumes inner

theorem operand_consumes : (operand inner).Consumes := by
  refine consumes_bind_right _ fun t => ?_
  split
  · rename_i p hp
    exact operand?_consumes inner hp
  · exact consumes_failHere _

end LetLang.Parser
