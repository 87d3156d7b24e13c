import LetLang.Parser.State

/-! Parsers: what they are, how they are put together, and their single steps.

A parser runs from a state to a value or a diagnostic, and in both cases to the
state that it leaves behind: what a failed parser consumed or reported stays
consumed and reported. All it ever does to a state is to take steps (`steps`), so
it consumes from the front (`forward`) and takes no report back (`reported`). And
it looks no further than the current token: what lies behind a token that it has
not come to makes no difference (`unseen`). -/
namespace LetLang

namespace Parser

inductive Result (α : Type) where
  | ok (value : α) (state : State)
  | error (diagnostic : Diagnostic) (state : State)
deriving Repr

namespace Result

def state {α : Type} : Result α → State
  | ok _ s => s
  | error _ s => s

def error? {α : Type} : Result α → Option Diagnostic
  | ok _ _ => none
  | error d _ => some d

def extend {α : Type} (more : List Token) (finish : Position) : Result α → Result α
  | ok a s => ok a (s.extend more finish)
  | error d s => error d (s.extend more finish)

end Result

end Parser

@[ext] structure Parser (α : Type) where
  run : Parser.State → Parser.Result α
  steps : ∀ s, Parser.State.Steps s (run s).state
  unseen : ∀ (s : Parser.State) (more : List Token) (finish : Position),
    (run s).state.ahead ≠ [] → run (s.extend more finish) = (run s).extend more finish

namespace Parser
open Token (Kind)

variable {α β : Type}

theorem forward (p : Parser α) (s : State) : (p.run s).state.ahead <:+ s.ahead := (p.steps s).ahead

theorem reported (p : Parser α) (s : State) :
    s.reported.toList <+: (p.run s).state.reported.toList := (p.steps s).reported

/-- What is still ahead after a run was ahead before it. -/
theorem ahead_ne_nil (p : Parser α) {s : State} (h : (p.run s).state.ahead ≠ []) : s.ahead ≠ [] := by
  intro hs
  exact h (List.suffix_nil.1 (hs ▸ p.forward s))

/-! ### Putting parsers together -/

def succeed (a : α) : Parser α where
  run s := .ok a s
  steps s := .refl s
  unseen _ _ _ _ := rfl

/-- Goes on with what the first parser found, unless it failed. -/
def andThen (p : Parser α) (f : α → Parser β) : Parser β where
  run s :=
    match p.run s with
    | .ok a t => (f a).run t
    | .error d t => .error d t
  steps s := by
    have hp := p.steps s
    split
    · rename_i a t h
      rw [h] at hp
      exact hp.trans ((f a).steps t)
    · rename_i d t h
      rwa [h] at hp
  unseen s more finish hs := by
    have hp := p.unseen s more finish
    split at hs
    · rename_i a t h
      rw [h] at hp
      rw [hp ((f a).ahead_ne_nil hs), Result.extend]
      exact (f a).unseen t more finish hs
    · rename_i d t h
      rw [h] at hp
      rw [hp hs]
      rfl

instance : Monad Parser where
  pure := succeed
  bind := andThen

def fail (d : Diagnostic) : Parser α where
  run s := .error d s
  steps s := .refl s
  unseen _ _ _ _ := rfl

/-- Goes on with `f` where `p` fails. -/
def orElse (p : Parser α) (f : Diagnostic → Parser α) : Parser α where
  run s :=
    match p.run s with
    | .ok a t => .ok a t
    | .error d t => (f d).run t
  steps s := by
    have hp := p.steps s
    split
    · rename_i a t h
      rwa [h] at hp
    · rename_i d t h
      rw [h] at hp
      exact hp.trans ((f d).steps t)
  unseen s more finish hs := by
    have hp := p.unseen s more finish
    split at hs
    · rename_i a t h
      rw [h] at hp
      rw [hp hs]
      rfl
    · rename_i d t h
      rw [h] at hp
      rw [hp ((f d).ahead_ne_nil hs), Result.extend]
      exact (f d).unseen t more finish hs

/-! ### Single steps -/

/-- What `f` sees in the state, which must not be anything behind the current token. -/
def look (f : State → α)
    (hf : ∀ s more finish, s.ahead ≠ [] → f (s.extend more finish) = f s) : Parser α where
  run s := .ok (f s) s
  steps s := .refl s
  unseen s more finish hs := by
    rw [hf s more finish hs]
    rfl

def current : Parser Token :=
  look State.current fun _ more finish hs => State.current_extend hs more finish

def lastEnd : Parser Position := look State.lastEnd fun _ _ _ _ => rfl

/-- The token ahead, if any is left. -/
def next? : Parser (Option Token) :=
  look (fun s => s.ahead.head?) fun s more finish hs => by
    obtain ⟨t, ts, ht⟩ := List.exists_cons_of_ne_nil hs
    simp [State.extend, ht]

/-- Consumes a token, whatever it is. -/
def advance : Parser Token where
  run s := .ok s.current s.advance
  steps s := (State.Steps.refl s).advance
  unseen s more finish hs := by
    have hne : s.ahead ≠ [] := fun h => hs (by simp [Result.state, h])
    rw [State.current_extend hne, State.advance_extend hne]
    rfl

/-- Reports something and goes on. -/
def report (d : Diagnostic) : Parser Unit where
  run s := .ok () (s.report d)
  steps s := (State.Steps.refl s).report d
  unseen _ _ _ _ := rfl

/-- Opens a level of nesting if the limit allows one more. -/
def enter (limit : Nat) : Parser Unit where
  run s :=
    if s.depth < limit then .ok () s.opened else .error ⟨.tooDeep limit, s.position⟩ s
  steps s := by
    split
    · exact (State.Steps.refl s).opened
    · exact .refl s
  unseen s more finish hs := by
    have hs : s.ahead ≠ [] := by
      split at hs <;> exact hs
    rw [State.position, State.current_extend hs]
    show (if s.depth < limit then _ else _) = _
    split <;> rfl

def leave : Parser Unit where
  run s := .ok () s.closed
  steps s := (State.Steps.refl s).closed
  unseen _ _ _ _ := rfl

/-- Fails where the parser stands. -/
def failHere (problem : Problem) : Parser α := do
  let t ← current
  fail ⟨problem, t.start⟩

/-- Consumes a token of the given kind, or fails with `d`. -/
def expectOr (kind : Kind) (d : Diagnostic) : Parser Token := do
  let t ← current
  if t.kind = kind then advance else fail d

/-- Consumes a token of the given kind, or fails on the one that is there instead. -/
def expect (kind : Kind) : Parser Token := do
  let t ← current
  expectOr kind ⟨.unexpected kind t.kind t.literal, t.start⟩

/-- Consumes the current token if it is of the given kind, and says whether it was. -/
def skip (kind : Kind) : Parser Bool := do
  let t ← current
  if t.kind = kind then
    let _ ← advance
    return true
  else return false

/-! ### Runs -/

@[simp] theorem run_pure (a : α) (s : State) : (pure a : Parser α).run s = .ok a s := rfl

@[simp] theorem run_fail (d : Diagnostic) (s : State) :
    (fail d : Parser α).run s = .error d s := rfl

theorem run_bind (p : Parser α) (f : α → Parser β) (s : State) :
    (p >>= f).run s =
      match p.run s with
      | .ok a t => (f a).run t
      | .error d t => .error d t := rfl

@[simp] theorem run_current (s : State) : current.run s = .ok s.current s := rfl

@[simp] theorem run_lastEnd (s : State) : lastEnd.run s = .ok s.lastEnd s := rfl

@[simp] theorem run_next? (s : State) : next?.run s = .ok s.ahead.head? s := rfl

@[simp] theorem run_advance (s : State) : advance.run s = .ok s.current s.advance := rfl

@[simp] theorem run_report (d : Diagnostic) (s : State) :
    (report d).run s = .ok () (s.report d) := rfl

@[simp] theorem run_failHere (problem : Problem) (s : State) :
    (failHere problem : Parser α).run s = .error ⟨problem, s.position⟩ s := rfl

theorem run_expectOr (kind : Kind) (d : Diagnostic) (s : State) :
    (expectOr kind d).run s =
      if s.current.kind = kind then .ok s.current s.advance else .error d s := by
  simp only [expectOr, run_bind, run_current]
  split <;> rfl

theorem run_expect (kind : Kind) (s : State) :
    (expect kind).run s =
      if s.current.kind = kind then .ok s.current s.advance
      else .error ⟨.unexpected kind s.current.kind s.current.literal, s.position⟩ s := by
  simp only [expect, run_bind, run_current, run_expectOr]
  rfl

theorem run_skip (kind : Kind) (s : State) :
    (skip kind).run s =
      if s.current.kind = kind then .ok true s.advance else .ok false s := by
  simp only [skip, run_bind, run_current]
  split <;> rfl

end Parser
end LetLang
