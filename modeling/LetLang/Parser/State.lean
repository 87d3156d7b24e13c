import LetLang.Diagnostic
import LetLang.Token.Lexer

/-! Where a parser stands.

A parser reads its tokens from the front of `ahead`; when none is left it goes on
reading the token for the end of the input. Besides, it remembers where the last
token it consumed ended, how many it consumed, what it has reported, and how many
levels of nesting are open. -/
namespace LetLang.Parser

structure State where
  ahead : List Token
  /-- Where the input ends. -/
  finish : Position
  lastEnd : Position
  /-- How many tokens were consumed, the end counted as often as it was. -/
  consumed : Nat
  reported : Array Diagnostic
  /-- How many levels are open. -/
  depth : Nat
  /-- How many levels were open at once at most. -/
  deepest : Nat
deriving Repr

namespace State

def endToken (s : State) : Token := .endOfInput s.finish

/-- The next token to be consumed. -/
def current (s : State) : Token := s.ahead.headD s.endToken

/-- The token after the current one. -/
def peek (s : State) : Token := s.ahead.tail.headD s.endToken

def position (s : State) : Position := s.current.start

/-- A parser at the start of `tokens`, which are followed by the end of input at `finish`. -/
def ofTokens (tokens : List Token) (finish : Position) : State where
  ahead := tokens
  finish
  lastEnd := (tokens.headD (.endOfInput finish)).start
  consumed := 0
  reported := #[]
  depth := 0
  deepest := 0

/-- A parser at the start of a source. -/
def ofSource (source : Source) : State :=
  let cs := source.text.toList
  ofTokens (Token.scan source.name 0 cs) (Token.scanEnd source.name 0 cs).start

/-- A parser that takes over from a lexer, if the lexer can read on from where it is. -/
def ofLexer? (l : Lexer) : Option State := do
  return ofTokens (← l.tokens?) (← l.end?).start

/-! ### Steps -/

/-- Consumes the current token. At the end of input nothing is left to go away. -/
def advance (s : State) : State :=
  { s with ahead := s.ahead.tail, lastEnd := s.current.stop, consumed := s.consumed + 1 }

/-- Consumes `n` tokens. -/
def advanceBy (s : State) : Nat → State
  | 0 => s
  | n + 1 => s.advance.advanceBy n

/-- Consumes the current token if it is of the given kind. -/
def past (kind : Token.Kind) (s : State) : State := if s.current.kind = kind then s.advance else s

def report (d : Diagnostic) (s : State) : State := { s with reported := s.reported.push d }

/-- Opens a level of nesting. -/
def opened (s : State) : State :=
  { s with depth := s.depth + 1, deepest := max s.deepest (s.depth + 1) }

/-- Closes a level of nesting, if one is open. -/
def closed (s : State) : State := { s with depth := s.depth - 1 }

/-- The same, in front of more tokens and another end. -/
def extend (more : List Token) (finish : Position) (s : State) : State :=
  { s with ahead := s.ahead ++ more, finish }

/-! ### What a step leaves alone -/

@[simp] theorem ahead_advance (s : State) : s.advance.ahead = s.ahead.tail := rfl

@[simp] theorem ahead_report (d : Diagnostic) (s : State) : (s.report d).ahead = s.ahead := rfl

@[simp] theorem ahead_opened (s : State) : s.opened.ahead = s.ahead := rfl

@[simp] theorem ahead_closed (s : State) : s.closed.ahead = s.ahead := rfl

theorem ahead_advanceBy (s : State) (n : Nat) : (s.advanceBy n).ahead = s.ahead.drop n := by
  induction n generalizing s with
  | zero => rfl
  | succ n ih => rw [advanceBy, ih, ahead_advance, List.drop_tail]

theorem reported_advanceBy (s : State) (n : Nat) : (s.advanceBy n).reported = s.reported := by
  induction n generalizing s with
  | zero => rfl
  | succ n ih => exact ih s.advance

theorem reported_past (kind : Token.Kind) (s : State) : (s.past kind).reported = s.reported := by
  rw [past]
  split <;> rfl

theorem current_extend {s : State} (h : s.ahead ≠ []) (more : List Token) (finish : Position) :
    (s.extend more finish).current = s.current := by
  obtain ⟨t, ts, ht⟩ := List.exists_cons_of_ne_nil h
  simp [current, extend, ht]

theorem advance_extend {s : State} (h : s.ahead ≠ []) (more : List Token) (finish : Position) :
    (s.extend more finish).advance = s.advance.extend more finish := by
  have hc := current_extend h more finish
  obtain ⟨t, ts, ht⟩ := List.exists_cons_of_ne_nil h
  simp only [advance, hc]
  simp [extend, ht]

theorem past_extend {s : State} (h : s.ahead ≠ []) (kind : Token.Kind) (more : List Token)
    (finish : Position) :
    (s.extend more finish).past kind = (s.past kind).extend more finish := by
  rw [past, past, current_extend h, advance_extend h]
  split <;> rfl

theorem advanceBy_extend {s : State} {n : Nat} (h : n ≤ s.ahead.length) (more : List Token)
    (finish : Position) :
    (s.extend more finish).advanceBy n = (s.advanceBy n).extend more finish := by
  induction n generalizing s with
  | zero => rfl
  | succ n ih =>
    have hs : s.ahead ≠ [] := List.length_pos_iff.1 (Nat.lt_of_lt_of_le n.succ_pos h)
    have hn : n ≤ s.advance.ahead.length := by
      simp only [ahead_advance, List.length_tail]
      omega
    rw [advanceBy, advance_extend hs, ih hn, advanceBy]

/-- Only a token that is ahead has a kind other than that of the end. -/
theorem ahead_ne_nil {s : State} (h : s.current.kind ≠ .eof) : s.ahead ≠ [] := by
  intro hs
  exact h (by simp [current, hs, endToken, Token.endOfInput])

theorem length_ahead_advance_lt {s : State} (h : s.ahead ≠ []) :
    s.advance.ahead.length < s.ahead.length := by
  have := List.length_pos_iff.2 h
  simp
  omega

/-! ### Runs of steps -/

/-- The second state comes from the first by steps. -/
inductive Steps : State → State → Prop where
  | refl (s : State) : Steps s s
  | advance {s t : State} (h : Steps s t) : Steps s t.advance
  | report {s t : State} (d : Diagnostic) (h : Steps s t) : Steps s (t.report d)
  | opened {s t : State} (h : Steps s t) : Steps s t.opened
  | closed {s t : State} (h : Steps s t) : Steps s t.closed

namespace Steps

theorem trans {s t u : State} (h : Steps s t) (h' : Steps t u) : Steps s u := by
  induction h' with
  | refl => exact h
  | advance _ ih => exact ih.advance
  | report d _ ih => exact ih.report d
  | opened _ ih => exact ih.opened
  | closed _ ih => exact ih.closed

theorem advanceBy {s t : State} (h : Steps s t) (n : Nat) : Steps s (t.advanceBy n) := by
  induction n generalizing t with
  | zero => exact h
  | succ n ih => exact ih h.advance

/-- Tokens go away from the front only. -/
theorem ahead {s t : State} (h : Steps s t) : t.ahead <:+ s.ahead := by
  induction h with
  | refl => exact List.suffix_refl s.ahead
  | advance _ ih => exact (List.tail_suffix _).trans ih
  | report _ _ ih => exact ih
  | opened _ ih => exact ih
  | closed _ ih => exact ih

/-- What was reported stays reported. -/
theorem reported {s t : State} (h : Steps s t) : s.reported.toList <+: t.reported.toList := by
  induction h with
  | refl => exact List.prefix_refl _
  | advance _ ih => exact ih
  | report d _ ih => exact ih.trans (by simp [State.report])
  | opened _ ih => exact ih
  | closed _ ih => exact ih

/-- What is ahead, after so many tokens that were consumed. -/
theorem exists_drop {s t : State} (h : Steps s t) :
    ∃ n, t.consumed = s.consumed + n ∧ t.ahead = s.ahead.drop n := by
  induction h with
  | refl => exact ⟨0, rfl, rfl⟩
  | advance _ ih =>
    obtain ⟨n, hn, hd⟩ := ih
    refine ⟨n + 1, congrArg (· + 1) hn, ?_⟩
    rw [ahead_advance, hd, List.tail_drop]
  | report _ _ ih => exact ih
  | opened _ ih => exact ih
  | closed _ ih => exact ih

theorem consumed_le {s t : State} (h : Steps s t) : s.consumed ≤ t.consumed := by
  obtain ⟨n, hn, -⟩ := h.exists_drop
  omega

/-- What is not ahead any more was consumed. -/
theorem consumed_lt {s t : State} (h : Steps s t) (hlt : t.ahead.length < s.ahead.length) :
    s.consumed < t.consumed := by
  obtain ⟨n, hn, hd⟩ := h.exists_drop
  rw [hd, List.length_drop] at hlt
  omega

theorem finish {s t : State} (h : Steps s t) : t.finish = s.finish := by
  induction h with
  | refl => rfl
  | advance _ ih => exact ih
  | report _ _ ih => exact ih
  | opened _ ih => exact ih
  | closed _ ih => exact ih

end Steps
end State
end LetLang.Parser
