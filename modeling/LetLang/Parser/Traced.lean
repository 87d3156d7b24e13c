import LetLang.Parse

/-! Which statements a run asks for.

A traced parser is a parser together with the calls for a statement that it makes from
a state, in the order in which they come to an end. Every construct is put together
as its parser is, and only a turn of a loop over statements makes a call of its own.
To trace a parser does not change it (`parsers_level`, `parser_program`), so the calls
of a traced program are those that a run over the source makes (`calls`). -/
namespace LetLang.Parser
open Token (Kind)

/-- A call for a statement: what the statement is made of, and where it starts. -/
structure Call where
  inner : Level
  start : State

namespace Call

/-- The index of the token that the statement starts with. -/
def index (c : Call) : Nat := c.start.consumed

/-- What is wrong, if no statement is found. -/
def mistake (c : Call) : Option Diagnostic := ((statement c.inner).run c.start).error?

end Call

@[ext] structure Traced (α : Type) where
  parser : Parser α
  calls : State → List Call

namespace Traced

variable {α β : Type}

/-! ### Putting traced parsers together -/

/-- A parser that asks for no statement. -/
def quiet (p : Parser α) : Traced α := ⟨p, fun _ => []⟩

/-- The second parser makes its calls from where the first one ends, unless that failed. -/
def andThen (x : Traced α) (f : α → Traced β) : Traced β where
  parser := x.parser >>= fun a => (f a).parser
  calls s := x.calls s ++
    match x.parser.run s with
    | .ok a t => (f a).calls t
    | .error _ _ => []

instance : Monad Traced where
  pure a := quiet (pure a)
  bind := andThen

instance : MonadLift Parser Traced := ⟨quiet⟩

def manyCalls (x : Traced (Option α)) (hx : x.parser.Advances) (s : State) : List Call :=
  x.calls s ++
    match _hr : x.parser.run s with
    | .ok (some _) t => manyCalls x hx t
    | _ => []
termination_by s.ahead.length
decreasing_by exact hx s _ t _hr

def many (x : Traced (Option α)) (hx : x.parser.Advances) : Traced (List α) :=
  ⟨Parser.many x.parser hx, manyCalls x hx⟩

def iterateCalls (f : α → Traced (Option α)) (hf : ∀ a, (f a).parser.Advances) (a : α)
    (s : State) : List Call :=
  (f a).calls s ++
    match _hr : (f a).parser.run s with
    | .ok (some b) t => iterateCalls f hf b t
    | _ => []
termination_by s.ahead.length
decreasing_by exact hf a s b t _hr

def iterate (f : α → Traced (Option α)) (hf : ∀ a, (f a).parser.Advances) (a : α) : Traced α :=
  ⟨Parser.iterate (fun a => (f a).parser) hf a, iterateCalls f hf a⟩

def nest (x : Traced α) : Traced α := ⟨Parser.nest x.parser, fun s => x.calls s.opened⟩

/-- To resume asks for no statement. -/
def recovering (x : Traced α) (resume : Parser Unit) : Traced (Option α) :=
  ⟨Parser.recovering x.parser resume, x.calls⟩

@[simp] theorem parser_lift (p : Parser α) : (liftM p : Traced α).parser = p := rfl

@[simp] theorem parser_pure (a : α) : (pure a : Traced α).parser = pure a := rfl

@[simp] theorem parser_bind (x : Traced α) (f : α → Traced β) :
    (x >>= f).parser = x.parser >>= fun a => (f a).parser := rfl

@[simp] theorem parser_ite (c : Prop) [Decidable c] (x y : Traced α) :
    (if c then x else y).parser = if c then x.parser else y.parser := apply_ite ..

theorem calls_bind (x : Traced α) (f : α → Traced β) (s : State) :
    (x >>= f).calls s = x.calls s ++
      match x.parser.run s with
      | .ok a t => (f a).calls t
      | .error _ _ => [] := rfl

/-- The calls are those of the first turn and those of the turns after it. -/
theorem many_eq (x : Traced (Option α)) (hx : x.parser.Advances) :
    many x hx = x >>= fun found =>
      match found with
      | none => pure []
      | some a => many x hx >>= fun rest => pure (a :: rest) := by
  apply Traced.ext
  · show Parser.many x.parser hx = _
    rw [Parser.many_eq]
    apply congrArg (x.parser >>= ·)
    funext found
    cases found <;> rfl
  · funext s
    rw [calls_bind]
    show manyCalls x hx s = _
    rw [manyCalls]
    cases x.parser.run s with
    | error d t => rfl
    | ok found t =>
      cases found with
      | none => rfl
      | some a =>
        show x.calls s ++ manyCalls x hx t = x.calls s ++ (many x hx >>= _).calls t
        rw [calls_bind]
        show _ = x.calls s ++ (manyCalls x hx t ++ _)
        cases (many x hx).parser.run t <;> simp [pure, quiet]

theorem iterate_eq (f : α → Traced (Option α)) (hf : ∀ a, (f a).parser.Advances) (a : α) :
    iterate f hf a = f a >>= fun found =>
      match found with
      | none => pure a
      | some b => iterate f hf b := by
  apply Traced.ext
  · show Parser.iterate (fun a => (f a).parser) hf a = _
    rw [Parser.iterate_eq]
    apply congrArg ((f a).parser >>= ·)
    funext found
    cases found <;> rfl
  · funext s
    rw [calls_bind]
    show iterateCalls f hf a s = _
    rw [iterateCalls]
    cases (f a).parser.run s with
    | error d t => rfl
    | ok found t => cases found <;> rfl

/-! ### Lists with commas -/

def afterComma (x : Traced α) : Traced (Option α) := do
  if ← skip .comma then return some (← x) else return none

theorem parser_afterComma (x : Traced α) : (afterComma x).parser = Parser.afterComma x.parser := by
  simp [afterComma, Parser.afterComma]

def commaSeparated (x : Traced α) : Traced (List α) := do
  let a ← x
  let as ← many (afterComma x) (by rw [parser_afterComma]; exact afterComma_advances x.parser)
  return a :: as

def beforeParen (x : Traced α) : Traced (List α) := do
  let t ← current
  if t.kind = .closeParen then return [] else commaSeparated x

def untilParen (x : Traced α) : Traced (List α) := do
  let found ← beforeParen x
  let _ ← expect .closeParen
  return found

theorem parser_untilParen (x : Traced α) : (untilParen x).parser = Parser.untilParen x.parser := by
  simp [untilParen, Parser.untilParen, beforeParen, Parser.beforeParen, commaSeparated,
    Parser.commaSeparated, many, parser_afterComma]

/-! ### Constructs -/

/-- What a construct is made of, traced. -/
structure Level where
  expr : Power → Traced Expr
  block : Traced Block
  expr_consumes : ∀ bound, (expr bound).parser.Consumes
  block_consumes : block.parser.Consumes

def Level.parsers (inner : Level) : Parser.Level where
  expr bound := (inner.expr bound).parser
  block := inner.block.parser
  expr_consumes := inner.expr_consumes
  block_consumes := inner.block_consumes

theorem Level.parsers_eq {inner : Level} {plain : Parser.Level}
    (he : ∀ bound, (inner.expr bound).parser = plain.expr bound)
    (hb : inner.block.parser = plain.block) : inner.parsers = plain := by
  have he : (fun bound => (inner.expr bound).parser) = plain.expr := funext he
  cases plain
  simp only [Level.parsers, he, hb]

variable (inner : Level)

def unary : Traced Expr := do
  let operator ← advance
  let operand ← inner.expr .unary
  return .unary operator operand ⟨operator.start, operand.stop⟩

def group : Traced Expr := do
  let _ ← advance
  let e ← inner.expr .lowest
  let _ ← expect .closeParen
  return e

def alternative : Traced (Option Block) := do
  if ← skip .kwElse then return some (← inner.block) else return none

def conditional : Traced Expr := do
  let t ← advance
  let _ ← expect .openParen
  let condition ← inner.expr .lowest
  let _ ← expect .closeParen
  let consequence ← inner.block
  let alternative ← alternative inner
  return .conditional t condition consequence alternative ⟨t.start, ← lastEnd⟩

def function : Traced Expr := do
  let t ← advance
  let _ ← expect .openParen
  let parameters ← untilParen (quiet parameter)
  let body ← inner.block
  return .function t parameters body ⟨t.start, ← lastEnd⟩

def operand? : Kind → Option (Traced Expr)
  | .integer | .identifier | .kwTrue | .kwFalse => some (quiet literal)
  | .not | .dash => some (unary inner)
  | .openParen => some (group inner)
  | .kwIf => some (conditional inner)
  | .kwFn => some (function inner)
  | _ => none

def operand : Traced Expr := do
  let t ← current
  match operand? inner t.kind with
  | some x => x
  | none => quiet (failHere (noOperand t))

def binary (left : Expr) (power : Power) : Traced Expr := do
  let operator ← advance
  let right ← inner.expr power
  return .binary left operator right ⟨left.start, right.stop⟩

def assignment (left : Expr) : Traced Expr :=
  match left with
  | .name target => do
    let operator ← advance
    let value ← inner.expr .lowest
    return .assign target operator value ⟨target.token.start, value.stop⟩
  | _ => quiet (fail ⟨.notAssignable left.token.literal, left.start⟩)

def call (callee : Expr) : Traced Expr := do
  let t ← advance
  let arguments ← untilParen (inner.expr .lowest)
  return .call callee t arguments ⟨callee.start, ← lastEnd⟩

def operator? : Kind → Option (Expr → Power → Traced Expr)
  | .plusEquals | .minusEquals | .starEquals | .slashEquals =>
    some fun left _ => assignment inner left
  | .equals | .notEquals | .less | .lessEquals | .greater | .greaterEquals
  | .plus | .dash | .star | .slash => some (binary inner)
  | .openParen => some fun left _ => call inner left
  | _ => none

def operatorAbove (bound : Power) (left : Expr) : Traced (Option Expr) := do
  let t ← current
  if bound < t.kind.power then
    match operator? inner t.kind with
    | some x => return some (← x left t.kind.power)
    | none => return none
  else return none

theorem parser_alternative :
    (alternative inner).parser = Parser.alternative inner.parsers := by
  simp [alternative, Parser.alternative, Level.parsers]

theorem parser_conditional :
    (conditional inner).parser = Parser.conditional inner.parsers := by
  simp only [conditional, parser_bind, parser_alternative]
  rfl

theorem parser_function : (function inner).parser = Parser.function inner.parsers := by
  simp only [function, parser_bind, parser_untilParen]
  rfl

theorem parser_operand? (kind : Kind) :
    (operand? inner kind).map parser = Parser.operand? inner.parsers kind := by
  cases kind <;> simp [operand?, Parser.operand?, parser_conditional, parser_function] <;> rfl

theorem parser_operand : (operand inner).parser = Parser.operand inner.parsers := by
  simp only [operand, Parser.operand, parser_bind, ← parser_operand?]
  congr 1
  funext t
  cases operand? inner t.kind <;> rfl

theorem parser_assignment (left : Expr) :
    (assignment inner left).parser = Parser.assignment inner.parsers left := by
  cases left <;> rfl

theorem parser_call (callee : Expr) :
    (call inner callee).parser = Parser.call inner.parsers callee := by
  simp only [call, parser_bind, parser_untilParen]
  rfl

theorem parser_operator? (kind : Kind) :
    (operator? inner kind).map (fun f left power => (f left power).parser) =
      Parser.operator? inner.parsers kind := by
  cases kind <;> simp [operator?, Parser.operator?, parser_assignment, parser_call] <;> rfl

theorem parser_operatorAbove (bound : Power) (left : Expr) :
    (operatorAbove inner bound left).parser = Parser.operatorAbove inner.parsers bound left := by
  simp only [operatorAbove, Parser.operatorAbove, parser_bind, parser_ite, ← parser_operator?]
  congr 1
  funext t
  cases operator? inner t.kind <;> rfl

def expression (bound : Power) : Traced Expr := do
  let left ← operand inner
  iterate (operatorAbove inner bound)
    (fun a => by rw [parser_operatorAbove]; exact operatorAbove_advances inner.parsers bound a) left

theorem parser_expression (bound : Power) :
    (expression inner bound).parser = Parser.expression inner.parsers bound := by
  simp only [expression, Parser.expression, parser_bind, parser_operand, iterate,
    parser_operatorAbove]

/-! ### Statements -/

/-- A statement from where it ends, a semicolon after it included. -/
def ending (make : Position → Stmt) : Traced Stmt := do
  let _ ← skip .semicolon
  return make (← lastEnd)

def binding : Traced Stmt := do
  let t ← advance
  let name ← expect .identifier
  let _ ← expect .assignment
  let value ← inner.expr .lowest
  ending fun stop => .binding t ⟨name⟩ value ⟨t.start, stop⟩

def returning : Traced Stmt := do
  let t ← advance
  let value ← inner.expr .lowest
  ending fun stop => .returning t value ⟨t.start, stop⟩

def expressionStatement : Traced Stmt := do
  let t ← current
  let value ← inner.expr .lowest
  ending fun stop => .expression t value ⟨t.start, stop⟩

def blockStatement : Traced Stmt := do
  return .block (← inner.block)

def statementFrom : Kind → Traced Stmt
  | .kwLet => binding inner
  | .kwReturn => returning inner
  | .openCurly => blockStatement inner
  | _ => expressionStatement inner

def statement : Traced Stmt := do
  let t ← current
  statementFrom inner t.kind

theorem terminated_bind (p : Parser α) (f : α → Parser (Position → Stmt)) :
    terminated (p >>= f) = p >>= fun a => terminated (f a) := by
  apply Parser.ext
  funext s
  simp only [run_terminated, run_bind]
  cases p.run s <;> rfl

theorem parser_statementFrom (kind : Kind) :
    (statementFrom inner kind).parser = Parser.statementFrom inner.parsers kind := by
  unfold statementFrom Parser.statementFrom
  split
  · simp only [Parser.binding, terminated_bind]
    rfl
  · simp only [Parser.returning, terminated_bind]
    rfl
  · rfl
  · simp only [Parser.expressionStatement, terminated_bind]
    rfl

theorem parser_statement : (statement inner).parser = Parser.statement inner.parsers := by
  simp only [statement, Parser.statement, parser_bind, parser_statementFrom]
  rfl

/-- A statement that is asked for: the call comes to its end after all calls inside it. -/
def called : Traced Stmt where
  parser := (statement inner).parser
  calls s := (statement inner).calls s ++ [⟨inner.parsers, s⟩]

def statementUnless (ends : Option Token → Bool) (resume : Parser Unit) :
    Traced (Option (Option Stmt)) := do
  if ends (← next?) then return none
  else return some (← recovering (called inner) resume)

theorem parser_statementUnless (ends : Option Token → Bool) (resume : Parser Unit) :
    (statementUnless inner ends resume).parser =
      Parser.statementUnless inner.parsers ends resume := by
  simp [statementUnless, Parser.statementUnless, recovering, called, parser_statement]

theorem statementUnless_advances {ends : Option Token → Bool} {resume : Parser Unit}
    (h : Resumes ends resume) : (statementUnless inner ends resume).parser.Advances := by
  rw [parser_statementUnless]
  exact Parser.statementUnless_advances inner.parsers h

def blockBody : Traced (List Stmt) := do
  let found ← many (statementUnless inner blockEnds synchronize)
    (statementUnless_advances inner synchronize_resumes)
  return found.filterMap id

def block : Traced Block := do
  let t ← expect .openCurly
  let body ← blockBody inner
  let _ ← expect .closeCurly
  return .mk t body ⟨t.start, ← lastEnd⟩

def program : Traced Program := do
  let found ← many (statementUnless inner Option.isNone resumeOutside)
    (statementUnless_advances inner resumeOutside_resumes)
  return ⟨found.filterMap id⟩

theorem parser_block : (block inner).parser = Parser.block inner.parsers := by
  simp only [block, blockBody, parser_bind, many, parser_statementUnless]
  rfl

theorem parser_program : (program inner).parser = Parser.program inner.parsers := by
  simp only [program, parser_bind, many, parser_statementUnless]
  rfl

/-! ### Levels -/

def level (limit : Nat) : Nat → Level
  | 0 =>
    { expr := fun _ => quiet (failHere (.tooDeep limit))
      block := quiet (failHere (.tooDeep limit))
      expr_consumes := fun _ => consumes_failHere _
      block_consumes := consumes_failHere _ }
  | n + 1 =>
    let inner := level limit n
    { expr := fun bound => nest (expression inner bound)
      block := nest (block inner)
      expr_consumes := fun bound => by
        rw [nest, parser_expression]
        exact consumes_nest (expression_consumes inner.parsers bound)
      block_consumes := by
        rw [nest, parser_block]
        exact consumes_nest (block_consumes inner.parsers) }

theorem parsers_level (limit n : Nat) : (level limit n).parsers = Parser.level limit n := by
  induction n with
  | zero => rfl
  | succ n ih =>
    apply Level.parsers_eq
    · intro bound
      show Parser.nest (expression (level limit n) bound).parser = _
      rw [parser_expression, ih]
      rfl
    · show Parser.nest (block (level limit n)).parser = _
      rw [parser_block, ih]
      rfl

end Traced

/-- The calls for a statement that parsing a source makes. -/
def calls (source : Source) : List Call :=
  (Traced.program (Traced.level maxNesting maxNesting)).calls (.ofSource source)

end LetLang.Parser
