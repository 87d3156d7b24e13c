import LetLang.Proofs.Layout
import LetLang.Proofs.Walk.Constructs

/-! What a construct leaves behind it.

`Trail limit s t`: the second state stands at a later token of the same input, and
everything that was reported between the two is true of a token between them. What
it means for a problem to be true of a token is `Problem.IsTrueOf`. `Passes s ts t`
names the tokens that were consumed. -/
namespace LetLang
open Token (Kind)

/-- What the problem says is so of the token, which the others come after. -/
def Problem.IsTrueOf (limit : Nat) (t : Token) (after : List Token) : Problem → Prop
  | .unexpected expected found literal =>
    found = t.kind ∧ literal = t.literal ∧ expected ≠ found
  | .noOperand kind literal =>
    kind = t.kind ∧ literal = t.literal ∧ kind ≠ .illegal ∧ ∀ inner, Parser.operand? inner kind = none
  | .illegalCharacter literal => t.kind = .illegal ∧ literal = t.literal
  | .integerTooLarge literal =>
    t.kind = .integer ∧ literal = t.literal ∧ Parser.maxInteger < t.value
  -- what cannot be assigned to comes before the operator that would assign to it
  | .notAssignable literal =>
    ∃ u operator, [u, operator].Sublist (t :: after) ∧ literal = u.literal ∧ operator.kind.isCompound
  | .tooDeep n => n = limit

namespace Parser

/-! ### Tokens to come -/

/-- The tokens ahead, with the one for the end. -/
def State.stream (s : State) : List Token := s.ahead ++ [s.endToken]

theorem State.stream_eq (s : State) : s.stream = s.current :: s.stream.tail := by
  rw [State.stream, State.current]
  cases s.ahead <;> rfl

theorem State.stream_advance (s : State) : s.advance.stream <:+ s.stream := by
  cases hs : s.ahead with
  | nil => exact ⟨[], by simp [State.stream, hs, State.advance, State.endToken]⟩
  | cons t ts => exact ⟨[t], by simp [State.stream, hs, State.advance, State.endToken]⟩

theorem State.stream_advanceBy (s : State) (n : Nat) : (s.advanceBy n).stream <:+ s.stream := by
  induction n generalizing s with
  | zero => exact List.suffix_refl _
  | succ n ih => exact (ih s.advance).trans s.stream_advance

theorem State.stream_past (s : State) (kind : Kind) : (s.past kind).stream <:+ s.stream := by
  rw [State.past]
  split
  · exact s.stream_advance
  · exact List.suffix_refl _

theorem ahead_of_stream {s t : State} {ts : List Token} (h : s.stream = ts ++ t.stream) :
    s.ahead = ts ++ t.ahead := by
  have := congrArg List.dropLast h
  simpa [State.stream, ← List.append_assoc] using this

/-! ### Trails -/

/-- The diagnostic is true of a token between the two states. -/
def Told (limit : Nat) (s : State) (d : Diagnostic) (t : State) : Prop :=
  ∃ x after, x :: after <:+ s.stream ∧ t.stream <:+ x :: after ∧ d.position = x.start ∧
    d.problem.IsTrueOf limit x after

structure Trail (limit : Nat) (s t : State) : Prop where
  stream : t.stream <:+ s.stream
  told : ∃ ds, t.reported.toList = s.reported.toList ++ ds ∧ ∀ d ∈ ds, Told limit s d t

variable {limit : Nat} {s t u : State}

/-- What is true of the current token may be told wherever the parser has come to since. -/
theorem Told.current {problem : Problem} (h : problem.IsTrueOf limit s.current s.stream.tail)
    (hs : t.stream <:+ s.stream) : Told limit s ⟨problem, s.position⟩ t := by
  have hstream := s.stream_eq
  exact ⟨s.current, s.stream.tail, hstream ▸ List.suffix_refl _, hstream ▸ hs, rfl, h⟩

namespace Trail

theorem refl (s : State) : Trail limit s s := ⟨List.suffix_refl _, [], by simp, by simp⟩

theorem trans (h : Trail limit s t) (h' : Trail limit t u) : Trail limit s u := by
  obtain ⟨hst, ds, hds, hd⟩ := h
  obtain ⟨htu, es, hes, he⟩ := h'
  refine ⟨htu.trans hst, ds ++ es, by rw [hes, hds, List.append_assoc], fun d hmem => ?_⟩
  rcases List.mem_append.1 hmem with hmem | hmem
  · obtain ⟨x, after, hx, hxt, htrue⟩ := hd d hmem
    exact ⟨x, after, hx, htu.trans hxt, htrue⟩
  · obtain ⟨x, after, hx, hxt, htrue⟩ := he d hmem
    exact ⟨x, after, hx.trans hst, hxt, htrue⟩

/-- Moving on without a report. -/
theorem later (hs : t.stream <:+ s.stream) (hr : t.reported = s.reported) : Trail limit s t :=
  ⟨hs, [], by simp [hr], by simp⟩

theorem advance (h : Trail limit s t) : Trail limit s t.advance :=
  h.trans (later t.stream_advance rfl)

theorem report (h : Trail limit s t) {d : Diagnostic} (hd : Told limit s d t) :
    Trail limit s (t.report d) := by
  obtain ⟨hst, ds, hds, htold⟩ := h
  refine ⟨hst, ds ++ [d], by simp [State.report, hds], fun e he => ?_⟩
  rcases List.mem_append.1 he with he | he
  · exact htold e he
  · exact List.mem_singleton.1 he ▸ hd

theorem reportHere (h : Trail limit s t) {problem : Problem}
    (hp : problem.IsTrueOf limit t.current t.stream.tail) :
    Trail limit s (t.report ⟨problem, t.position⟩) :=
  h.trans ((refl t).report (.current hp (List.suffix_refl _)))

theorem sorted (h : Trail limit s t) (hs : s.Sorted) : t.Sorted := by
  have hstarts : ∀ u : State, u.starts = u.stream.map fun x => x.start.offset := by
    intro u
    simp [State.starts, State.stream, State.endToken, Token.endOfInput, Token.start]
  rw [State.Sorted, hstarts] at hs ⊢
  exact hs.sublist (h.stream.sublist.map _)

end Trail

/-! ### What is consumed -/

/-- The second state is the first after `ts` were consumed, whatever was reported meanwhile. -/
structure Passes (s : State) (ts : List Token) (t : State) : Prop where
  stream : s.stream = ts ++ t.stream
  lastEnd : t.lastEnd = (ts.getLast?.map Token.stop).getD s.lastEnd
  subset : s.reported.toList ⊆ t.reported.toList

namespace Passes

theorem nil (s : State) : Passes s [] s := ⟨rfl, rfl, List.Subset.refl _⟩

theorem trans {ts us : List Token} (h : Passes s ts t) (h' : Passes t us u) :
    Passes s (ts ++ us) u := by
  refine ⟨by rw [h.stream, h'.stream, List.append_assoc], ?_, List.Subset.trans h.subset h'.subset⟩
  rw [h'.lastEnd, h.lastEnd, List.getLast?_append]
  cases us.getLast? <;> rfl

theorem current (h : s.current.kind ≠ .eof) : Passes s [s.current] s.advance := by
  obtain ⟨x, rest, hs⟩ := List.exists_cons_of_ne_nil (State.ahead_ne_nil h)
  refine ⟨?_, ?_, List.Subset.refl _⟩
  · simp [State.stream, State.current, hs, State.endToken, State.advance]
  · simp [State.advance]

/-- Where the parser stopped last is where the last token ends, whatever came before it. -/
theorem after {x : Token} {ts xs : List Token} (h : Passes t (x :: xs) u)
    (hs : s.stream = ts ++ t.stream) (hsub : s.reported.toList ⊆ t.reported.toList) :
    Passes s (ts ++ x :: xs) u := by
  refine ⟨by rw [hs, h.stream, List.append_assoc], ?_, List.Subset.trans hsub h.subset⟩
  rw [h.lastEnd, List.getLast?_append, List.getLast?_cons]
  rfl

/-- What is consumed begins with the current token. -/
theorem current_eq {x : Token} {ts : List Token} (h : Passes s (x :: ts) t) : s.current = x := by
  have hstream := h.stream
  rw [s.stream_eq] at hstream
  exact (List.cons.inj hstream).1

/-- From the first token to where the second state stopped. -/
theorem covering {x : Token} {ts : List Token} (h : Passes s (x :: ts) t) :
    (⟨x.start, t.lastEnd⟩ : Span) = .covering x ts := by
  rw [h.lastEnd, List.getLast?_cons, Span.covering, List.getLastD_eq_getLast?]
  rfl

end Passes

/-- The tokens that were consumed are laid out as the part. -/
def Lies (s : State) (φ : Part) (t : State) : Prop :=
  ∃ ts, Passes s ts t ∧ Laid t.reported.toList φ ts

/-! ### Runs -/

variable {α : Type} {Q : α → State → Prop}

/-- However the run ends, it leaves a trail, and what it finds lies over what it consumed. -/
def Leaves (limit : Nat) (s : State) (φ : α → Part) : Result α → Prop :=
  Moves (Trail limit) s fun a t => Lies s (φ a) t

theorem Moves.along {r : Result α} (h : Moves (Trail limit) t Q r) (hs : Trail limit s t) :
    Moves (Trail limit) s Q r := h.lift (fun _ h => hs.trans h) fun _ _ _ h => h

/-- Two things that hold of one run. -/
theorem Moves.and {R R' : State → State → Prop} {s' : State} {Q' : α → State → Prop} {r : Result α}
    (h : Moves R s Q r) (h' : Moves R' s' Q' r) :
    Moves R s (fun a t => Q a t ∧ R' s' t ∧ Q' a t) r := by
  cases r with
  | ok a t => exact ⟨h.1, h.2, h'⟩
  | error d t => exact h

theorem trail_advance (h : Trail limit s t) (hk : t.current.kind ≠ .eof) :
    Moves (Trail limit) s (fun x u => x = t.current ∧ Passes t [x] u) (advance.run t) :=
  ⟨h.advance, rfl, .current hk⟩

theorem trail_expect {kind : Kind} (hk : kind ≠ .eof) (h : Trail limit s t) :
    Moves (Trail limit) s (fun x u => x.kind = kind ∧ Passes t [x] u) ((expect kind).run t) := by
  rw [run_expect]
  split
  · rename_i hc
    exact ⟨h.advance, hc, .current (hc ▸ hk)⟩
  · rename_i hc
    exact h.reportHere ⟨rfl, rfl, fun heq => hc heq.symm⟩

theorem leaves_nest {p : Parser α} {φ : α → Part} (h : Leaves limit s.opened φ (p.run s.opened)) :
    Leaves limit s φ ((nest p).run s) := by
  have hsame : ∀ t, Trail limit s.opened t → Trail limit s t := fun _ h => ⟨h.stream, h.told⟩
  refine moves_nest (h.lift hsame fun _ _ _ h => h) (fun _ h => ⟨h.stream, h.told⟩) ?_
  rintro a t ⟨ts, ⟨hpass, hlast, hreported⟩, hlaid⟩
  exact ⟨ts, ⟨hpass, hlast, hreported⟩, hlaid⟩

/-- What a loop finds is what its steps find, one after the other. -/
theorem moves_collect {R : State → State → Prop} {p : Parser (Option α)} {hp : p.Advances}
    {Q : State → List α → State → Prop}
    (step : ∀ t, R s t → Moves R s
      (fun found u =>
        match found with
        | none => Q t [] u
        | some a => ∀ as v, Q u as v → Q t (a :: as) v)
      (p.run t))
    {t : State} (h : R s t) : Moves R s (Q t) ((many p hp).run t) := by
  rw [run_many]
  have hstep := step t h
  cases hr : p.run t with
  | error d u =>
    rw [hr] at hstep
    exact hstep
  | ok found u =>
    rw [hr] at hstep
    cases found with
    | none => exact hstep
    | some a =>
      have hrest : Moves R s (Q u) ((many p hp).run u) := moves_collect step hstep.1
      simp only
      cases hm : (many p hp).run u with
      | ok as v =>
        rw [hm] at hrest
        exact ⟨hrest.1, hstep.2 as v hrest.2⟩
      | error d v =>
        rw [hm] at hrest
        exact hrest
termination_by t.ahead.length
decreasing_by exact hp t a u hr

end Parser
end LetLang
