import LetLang.Parser.Level
import LetLang.Parser.Recovery

/-! Statements, and blocks of them.

A statement may end with a semicolon, which its span then includes. Inside a
block a mistake is reported and costs only the statement it is in; the block
itself fails only for want of a brace. -/
namespace LetLang.Parser

open Token (Kind)

variable (inner : Level)

/-- What `p` makes of the place where the statement ends, a semicolon after it included. -/
def terminated (p : Parser (Position → Stmt)) : Parser Stmt := do
  let make ← p
  let _ ← skip .semicolon
  return make (← lastEnd)

theorem run_terminated (p : Parser (Position → Stmt)) (s : State) :
    (terminated p).run s =
      match p.run s with
      | .ok make t => .ok (make (t.past .semicolon).lastEnd) (t.past .semicolon)
      | .error d t => .error d t := by
  rw [terminated, run_bind]
  cases p.run s with
  | error d t => rfl
  | ok make t =>
    simp only [run_bind, run_skip, State.past]
    by_cases h : t.current.kind = .semicolon
    · simp only [h, if_true, run_lastEnd, run_pure]
    · simp only [h, if_false, run_lastEnd, run_pure]

def binding : Parser Stmt := terminated do
  let t ← advance
  let name ← expect .identifier
  let _ ← expect .assignment
  let value ← inner.expr .lowest
  return fun stop => .binding t ⟨name⟩ value ⟨t.start, stop⟩

def returning : Parser Stmt := terminated do
  let t ← advance
  let value ← inner.expr .lowest
  return fun stop => .returning t value ⟨t.start, stop⟩

def expressionStatement : Parser Stmt := terminated do
  let t ← current
  let value ← inner.expr .lowest
  return fun stop => .expression t value ⟨t.start, stop⟩

def blockStatement : Parser Stmt := do
  return .block (← inner.block)

/-- The parser for a statement that starts with a token of the given kind. -/
def statementFrom : Kind → Parser Stmt
  | .kwLet => binding inner
  | .kwReturn => returning inner
  | .openCurly => blockStatement inner
  | _ => expressionStatement inner

def statement : Parser Stmt := do
  let t ← current
  statementFrom inner t.kind

theorem run_statement (s : State) :
    (statement inner).run s = (statementFrom inner s.current.kind).run s := rfl

theorem statement_consumes : (statement inner).Consumes := by
  refine consumes_bind_right _ fun t => ?_
  unfold statementFrom
  split
  · exact consumes_bind_left
      (consumes_bind_right _ fun _ => consumes_bind_left (consumes_expect (by simp)) _) _
  · exact consumes_bind_left
      (consumes_bind_right _ fun _ => consumes_bind_left (inner.expr_consumes _) _) _
  · exact consumes_bind_left inner.block_consumes _
  · exact consumes_bind_left
      (consumes_bind_right _ fun _ => consumes_bind_left (inner.expr_consumes _) _) _

/-! ### Lists of statements -/

/-- The next statement, or nothing in place of one that failed, unless the list ends before the
token ahead. -/
def statementUnless (ends : Option Token → Bool) (resume : Parser Unit) :
    Parser (Option (Option Stmt)) := do
  if ends (← next?) then return none
  else return some (← recovering (statement inner) resume)

/-- Where a list goes on, what resumes consumes. -/
def Resumes (ends : Option Token → Bool) (resume : Parser Unit) : Prop :=
  ∀ s t, ends s.ahead.head? = false → resume.run s = .ok () t → t.ahead.length < s.ahead.length

theorem recovering_lt {ends : Option Token → Bool} {resume : Parser Unit}
    (h : Resumes ends resume) {s t : State} (hs : ends s.ahead.head? = false) {x : Option Stmt}
    (hx : (recovering (statement inner) resume).run s = .ok x t) :
    t.ahead.length < s.ahead.length :=
  run_recovering_lt (statement_consumes inner) (fun u v hu hv => h u v (hu ▸ hs) hv) hx

theorem statementUnless_advances {ends : Option Token → Bool} {resume : Parser Unit}
    (h : Resumes ends resume) : (statementUnless inner ends resume).Advances := by
  intro s a u hu
  simp only [statementUnless, run_bind, run_next?] at hu
  split at hu
  · simp at hu
  · rename_i he
    simp only [run_bind] at hu
    split at hu
    · rename_i b v hv
      simp only [run_pure, Result.ok.injEq] at hu
      exact hu.2 ▸ recovering_lt inner h (by simpa using he) hv
    · simp at hu

theorem statementUnless_succeeds {ends : Option Token → Bool} {resume : Parser Unit}
    (h : resume.Succeeds) : (statementUnless inner ends resume).Succeeds := by
  intro s
  simp only [statementUnless, run_bind, run_next?]
  split
  · exact ⟨none, s, rfl⟩
  · obtain ⟨a, t, ht⟩ := recovering_succeeds (statement inner) h s
    exact ⟨some a, t, by simp [run_bind, ht]⟩

/-! ### Blocks -/

/-- A block ends at a closing brace, and at the end of input where that is missing. -/
def blockEnds : Option Token → Bool
  | none => true
  | some t => t.kind == .closeCurly

theorem synchronize_resumes : Resumes blockEnds synchronize := by
  intro s t h ht
  simp only [run_synchronize, Result.ok.injEq, true_and] at ht
  subst ht
  obtain ⟨u, us, hu⟩ : ∃ u us, s.ahead = u :: us := by
    cases hs : s.ahead with
    | nil => simp [blockEnds, hs] at h
    | cons u us => exact ⟨u, us, rfl⟩
  refine length_ahead_synchronized_lt (by simp [hu]) ?_
  simpa [State.current, blockEnds, hu] using h

def blockBody : Parser (List Stmt) := do
  let found ← many (statementUnless inner blockEnds synchronize)
    (statementUnless_advances inner synchronize_resumes)
  return found.filterMap id

def block : Parser Block := do
  let t ← expect .openCurly
  let body ← blockBody inner
  let _ ← expect .closeCurly
  return .mk t body ⟨t.start, ← lastEnd⟩

theorem block_consumes : (block inner).Consumes :=
  consumes_bind_left (consumes_expect (by simp)) _

/-! ### Programs -/

/-- Resumes after a mistake outside all blocks, where no block is left for a brace to close. -/
def resumeOutside : Parser Unit := do
  synchronize
  let _ ← skip .closeCurly

theorem run_resumeOutside (s : State) :
    resumeOutside.run s = .ok () (s.synchronized.past .closeCurly) := by
  simp only [resumeOutside, run_bind, run_synchronize, run_skip, State.past]
  by_cases h : s.synchronized.current.kind = .closeCurly
  · simp only [h, if_true, run_pure]
  · simp only [h, if_false, run_pure]

theorem resumeOutside_resumes : Resumes Option.isNone resumeOutside := by
  intro s t h ht
  have hs : s.ahead ≠ [] := by simpa using h
  rw [run_resumeOutside, Result.ok.injEq, State.past] at ht
  obtain ⟨-, rfl⟩ := ht
  have hle : s.synchronized.ahead.length ≤ s.ahead.length := by
    rw [State.ahead_synchronized]
    exact (List.drop_suffix ..).length_le
  by_cases hc : s.synchronized.current.kind = .closeCurly
  · have hne : s.synchronized.ahead ≠ [] := State.ahead_ne_nil (by simp [hc])
    rw [if_pos hc]
    exact Nat.lt_of_lt_of_le (State.length_ahead_advance_lt hne) hle
  · rw [if_neg hc]
    by_cases hk : s.current.kind = .closeCurly
    · have hb : boundary 0 s.ahead = 0 := by
        obtain ⟨u, us, hu⟩ := List.exists_cons_of_ne_nil hs
        simp only [State.current, hu, List.headD_cons] at hk
        simp [hu, boundary, hk]
      simp [State.synchronized, hb, State.advanceBy, hk] at hc
    · exact length_ahead_synchronized_lt hs hk

theorem resumeOutside_succeeds : resumeOutside.Succeeds := fun s => ⟨(), _, run_resumeOutside s⟩

/-- All statements up to the end of input. -/
def program : Parser Program := do
  let found ← many (statementUnless inner Option.isNone resumeOutside)
    (statementUnless_advances inner resumeOutside_resumes)
  return ⟨found.filterMap id⟩

/-- A program is never refused, whatever is wrong with its statements. -/
theorem program_succeeds : (program inner).Succeeds := by
  intro s
  obtain ⟨found, t, ht⟩ := many_succeeds (statementUnless_advances inner resumeOutside_resumes)
    (statementUnless_succeeds inner resumeOutside_succeeds) s
  exact ⟨⟨found.filterMap id⟩, t, by simp [program, run_bind, ht]⟩

end LetLang.Parser
