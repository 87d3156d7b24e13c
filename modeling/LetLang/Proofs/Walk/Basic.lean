import LetLang.Parser.Nesting
import LetLang.Proofs.Braces

/-! How a construct moves through the tokens.

`Orderly s t`: between the two states everything was reported in source order,
apart from complaints about the target of an assignment, which come when the
target has been read already; and every report is about a place between them.
`Walk loose s t`: besides, every brace that was opened was closed, unless the
tokens ran out, and no semicolon was passed outside all braces, unless `loose`.

`Moves` says of a run, whether it finds something or fails, that it moves so, and
composes with the parsers. -/
namespace LetLang

def Diagnostic.offset (d : Diagnostic) : Nat := d.position.offset

/-- The second of two diagnostics is not about an earlier place, unless it is about a target. -/
def Diagnostic.InOrder (d e : Diagnostic) : Prop :=
  d.offset ≤ e.offset ∨ ∃ literal, e.problem = .notAssignable literal

namespace Parser
open Token (Kind)
open Diagnostic (InOrder)

def State.offset (s : State) : Nat := s.position.offset

/-- Where the tokens ahead start, and where the input ends. -/
def State.starts (s : State) : List Nat := s.ahead.map (fun t => t.start.offset) ++ [s.finish.offset]

/-- The tokens ahead stand in source order. -/
def State.Sorted (s : State) : Prop := s.starts.Pairwise (· ≤ ·)

theorem State.Sorted.advance {s : State} (h : s.Sorted) :
    s.advance.Sorted ∧ s.offset ≤ s.advance.offset := by
  cases hs : s.ahead with
  | nil =>
    have hstarts : s.advance.starts = s.starts := by simp [State.starts, hs, State.advance]
    have hoffset : s.advance.offset = s.offset := by
      simp [State.offset, State.position, State.current, hs, State.endToken, State.advance]
    exact ⟨by rwa [State.Sorted, hstarts], Nat.le_of_eq hoffset.symm⟩
  | cons t ts =>
    have hstarts : s.starts = s.offset :: s.advance.starts := by
      simp [State.starts, State.offset, State.position, State.current, hs, State.advance]
    rw [State.Sorted, hstarts, List.pairwise_cons] at h
    refine ⟨h.2, h.1 _ ?_⟩
    cases ts <;> simp [State.starts, State.offset, State.position, State.current, hs,
      State.endToken, State.advance, Token.endOfInput, Token.start]

/-! ### Orderly moves -/

structure Orderly (s t : State) : Prop where
  sorted : t.Sorted
  offset : s.offset ≤ t.offset
  reports : ∃ ds, t.reported.toList = s.reported.toList ++ ds ∧
    (∀ d ∈ ds, s.offset ≤ d.offset ∧ d.offset ≤ t.offset) ∧ ds.Pairwise InOrder

namespace Orderly

theorem refl {s : State} (h : s.Sorted) : Orderly s s :=
  ⟨h, Nat.le_refl _, [], by simp, by simp, .nil⟩

theorem trans {s t u : State} (h : Orderly s t) (h' : Orderly t u) : Orderly s u := by
  obtain ⟨-, hle, ds, hds, hin, hord⟩ := h
  obtain ⟨hsorted, hle', ds', hds', hin', hord'⟩ := h'
  refine ⟨hsorted, Nat.le_trans hle hle', ds ++ ds', by rw [hds', hds, List.append_assoc], ?_, ?_⟩
  · intro d hd
    rcases List.mem_append.1 hd with hd | hd
    · exact ⟨(hin d hd).1, Nat.le_trans (hin d hd).2 hle'⟩
    · exact ⟨Nat.le_trans hle (hin' d hd).1, (hin' d hd).2⟩
  · refine List.pairwise_append.2 ⟨hord, hord', fun d hd e he => .inl ?_⟩
    exact Nat.le_trans (hin d hd).2 (hin' e he).1

theorem advance {s t : State} (h : Orderly s t) : Orderly s t.advance := by
  obtain ⟨hsorted, hle, ds, hds, hin, hord⟩ := h
  obtain ⟨hsorted, hle'⟩ := hsorted.advance
  exact ⟨hsorted, Nat.le_trans hle hle', ds, hds,
    fun d hd => ⟨(hin d hd).1, Nat.le_trans (hin d hd).2 hle'⟩, hord⟩

theorem advanceBy {s t : State} (h : Orderly s t) (n : Nat) : Orderly s (t.advanceBy n) := by
  induction n generalizing t with
  | zero => exact h
  | succ n ih => exact ih h.advance

/-- What is reported must come after all that was, or be about a target. -/
theorem report {s t : State} {d : Diagnostic} (h : Orderly s t) (hs : s.offset ≤ d.offset)
    (ht : d.offset ≤ t.offset)
    (hd : d.offset = t.offset ∨ ∃ literal, d.problem = .notAssignable literal) :
    Orderly s (t.report d) := by
  obtain ⟨hsorted, hle, ds, hds, hin, hord⟩ := h
  refine ⟨hsorted, hle, ds ++ [d], by simp [State.report, hds], ?_, ?_⟩
  · intro e he
    rcases List.mem_append.1 he with he | he
    · exact hin e he
    · rw [List.mem_singleton.1 he]
      exact ⟨hs, ht⟩
  · refine List.pairwise_append.2 ⟨hord, List.pairwise_singleton _ _, fun e he e' he' => ?_⟩
    rw [List.mem_singleton.1 he']
    refine hd.imp_left fun hd => ?_
    exact hd ▸ (hin e he).2

theorem reportHere {s t : State} (h : Orderly s t) (problem : Problem) :
    Orderly s (t.report ⟨problem, t.position⟩) :=
  h.report h.offset (Nat.le_refl _) (.inl rfl)

end Orderly

/-! ### Walks -/

structure Walk (loose : Bool) (s t : State) : Prop extends Orderly s t where
  eats : ∃ ts k, s.ahead = ts ++ t.ahead ∧ depth? loose 0 ts = some k ∧ (k = 0 ∨ t.ahead = [])

namespace Walk
variable {loose : Bool} {s t u : State}

theorem refl (h : s.Sorted) : Walk loose s s := ⟨.refl h, [], 0, rfl, depth?_nil, .inl rfl⟩

theorem trans (h : Walk loose s t) (h' : Walk loose t u) : Walk loose s u := by
  refine ⟨h.toOrderly.trans h'.toOrderly, ?_⟩
  obtain ⟨ts, k, hs, hd, hk⟩ := h.eats
  obtain ⟨us, m, ht, hd', hm⟩ := h'.eats
  rcases hk with rfl | hnil
  · exact ⟨ts ++ us, m, by rw [hs, ht, List.append_assoc], by rw [depth?_append, hd]; exact hd', hm⟩
  · rw [hnil] at ht
    obtain ⟨rfl, hu⟩ := List.append_eq_nil_iff.1 ht.symm
    exact ⟨ts, k, by rw [hs, hnil, hu], hd, .inr hu⟩

theorem loosen (h : Walk loose s t) : Walk true s t := by
  obtain ⟨ts, k, hs, hd, hk⟩ := h.eats
  exact ⟨h.toOrderly, ts, k, hs, depth?_of_any hd, hk⟩

/-- A token that is no brace may be passed, and a semicolon only if semicolons may. -/
theorem step (h : s.Sorted) (ho : s.current.kind ≠ .openCurly) (hc : s.current.kind ≠ .closeCurly)
    (hs : loose = true ∨ s.current.kind ≠ .semicolon) : Walk loose s s.advance := by
  refine ⟨(Orderly.refl h).advance, ?_⟩
  cases hahead : s.ahead with
  | nil => exact ⟨[], 0, by simp [hahead], depth?_nil, .inl rfl⟩
  | cons t ts =>
    simp only [State.current, hahead, List.headD_cons] at ho hc hs
    refine ⟨[t], 0, by simp [hahead], ?_, .inl rfl⟩
    rcases hs with rfl | hs
    · rw [depth?_loose ho hc, depth?_nil]
    · rw [depth?_plain ⟨ho, hc, hs⟩, depth?_nil]

theorem advance (h : Walk loose s t) (hp : Plain t.current.kind) : Walk loose s t.advance :=
  h.trans (.step h.sorted hp.1 hp.2.1 (.inr hp.2.2))

theorem reportHere (h : Walk loose s t) (problem : Problem) :
    Walk loose s (t.report ⟨problem, t.position⟩) :=
  ⟨h.toOrderly.reportHere problem, h.eats⟩

theorem synchronized (h : Walk true s t) : Walk true s t.synchronized := by
  refine h.trans ⟨(Orderly.refl h.sorted).advanceBy _, ?_⟩
  obtain ⟨k, hd, hk⟩ := depth?_boundary 0 t.ahead
  rw [State.ahead_synchronized]
  exact ⟨_, k, (List.take_append_drop _ _).symm, hd, hk⟩

/-- A body in braces: whatever it is, it ends where the tokens do or where its brace is closed. -/
theorem braced (loose : Bool) (hsort : s.Sorted) (hs : s.current.kind = .openCurly)
    (h : Walk true s.advance t) :
    (t.ahead = [] → Walk loose s t) ∧ (t.current.kind = .closeCurly → Walk loose s t.advance) := by
  obtain ⟨x, xs, hahead⟩ := List.exists_cons_of_ne_nil (State.ahead_ne_nil (s := s) (by simp [hs]))
  simp only [State.current, hahead, List.headD_cons] at hs
  obtain ⟨ts, k, hts, hd, hk⟩ := h.eats
  have horderly : Orderly s t := (Orderly.refl hsort).advance.trans h.toOrderly
  have heats : s.ahead = (x :: ts) ++ t.ahead := by
    rw [hahead, List.cons_append, ← hts, State.ahead_advance, hahead, List.tail_cons]
  have hd' : depth? loose 0 (x :: ts) = some (k + 1) := by
    rw [depth?_open hs]
    exact depth?_succ hd
  constructor
  · intro hnil
    exact ⟨horderly, x :: ts, k + 1, heats, hd', .inr hnil⟩
  · intro hc
    obtain ⟨y, ys, hy⟩ := List.exists_cons_of_ne_nil (State.ahead_ne_nil (s := t) (by simp [hc]))
    simp only [State.current, hy, List.headD_cons] at hc
    obtain rfl : k = 0 := hk.resolve_right (by simp [hy])
    refine ⟨horderly.advance, x :: ts ++ [y], 0, ?_, ?_, .inl rfl⟩
    · rw [heats, hy, State.ahead_advance, hy]
      simp
    · rw [depth?_append, hd', Option.bind_some, depth?_close hc, depth?_nil]

end Walk

/-! ### Runs -/

/-- However the run ends, `R` holds between `s` and where it ends, with the mistake reported if there
was one; and `Q` holds of what was found. -/
def Moves {α : Type} (R : State → State → Prop) (s : State) (Q : α → State → Prop) : Result α → Prop
  | .ok a t => R s t ∧ Q a t
  | .error d t => R s (t.report d)

variable {α β : Type} {R R' : State → State → Prop} {s t : State}

theorem moves_bind {p : Parser α} {f : α → Parser β} {Q : α → State → Prop} {Q' : β → State → Prop}
    (h : Moves R s Q (p.run t)) (hf : ∀ a u, R s u → Q a u → Moves R s Q' ((f a).run u)) :
    Moves R s Q' ((p >>= f).run t) := by
  rw [run_bind]
  cases hp : p.run t with
  | ok a u =>
    rw [hp] at h
    exact hf a u h.1 h.2
  | error d u =>
    rw [hp] at h
    exact h

theorem Moves.lift {Q Q' : α → State → Prop} {r : Result α} (h : Moves R t Q r)
    (hR : ∀ u, R t u → R' s u) (hQ : ∀ a u, R t u → Q a u → Q' a u) : Moves R' s Q' r := by
  cases r with
  | ok a u => exact ⟨hR u h.1, hQ a u h.1 h.2⟩
  | error d u => exact hR _ h

/-- Where nothing is to be said of what was found. -/
def Anything (_ : α) (_ : State) : Prop := True

theorem Moves.forget {Q : α → State → Prop} {r : Result α} (h : Moves R s Q r) :
    Moves R s Anything r := h.lift (fun _ h => h) fun _ _ _ _ => trivial

/-- What a loop ends with is what holds where its step finds nothing. -/
theorem moves_many {p : Parser (Option α)} {hp : p.Advances} {E : State → Prop} {t : State}
    (step : ∀ t, R s t → Moves R s (fun found u => found = none → E u) (p.run t)) (h : R s t) :
    Moves R s (fun _ u => E u) ((many p hp).run t) := by
  rw [many_eq, run_bind]
  have hstep := step t h
  cases hr : p.run t with
  | error d u =>
    rw [hr] at hstep
    exact hstep
  | ok found u =>
    rw [hr] at hstep
    cases found with
    | none => exact ⟨hstep.1, hstep.2 rfl⟩
    | some a => exact moves_bind (moves_many step hstep.1) fun as v hv hE => ⟨hv, hE⟩
termination_by t.ahead.length
decreasing_by exact hp t a u hr

theorem moves_iterate {f : α → Parser (Option α)} {hf : ∀ a, (f a).Advances} {Q : α → State → Prop}
    (step : ∀ a t, R s t → Q a t → Moves R s (fun found u => Q (found.getD a) u) ((f a).run t))
    {a : α} {t : State} (h : R s t) (ha : Q a t) : Moves R s Q ((iterate f hf a).run t) := by
  rw [iterate_eq, run_bind]
  have hstep := step a t h ha
  cases hr : (f a).run t with
  | error d u =>
    rw [hr] at hstep
    exact hstep
  | ok found u =>
    rw [hr] at hstep
    cases found with
    | none => exact hstep
    | some b => exact moves_iterate step hstep.1 hstep.2
termination_by t.ahead.length
decreasing_by exact hf a t b u hr

/-- Loops of which nothing is said but that they move. -/
theorem moves_many_anything {p : Parser (Option α)} {hp : p.Advances}
    (step : ∀ t, R s t → Moves R s Anything (p.run t)) (h : R s t) :
    Moves R s Anything ((many p hp).run t) := by
  have hstep : ∀ u, R s u → Moves R s (fun found _ => found = none → True) (p.run u) := by
    intro u hu
    exact Moves.lift (t := s) (step u hu) (fun _ h => h) fun _ _ _ _ _ => trivial
  exact (moves_many (E := fun _ => True) hstep h).forget

theorem moves_iterate_anything {f : α → Parser (Option α)} {hf : ∀ a, (f a).Advances}
    (step : ∀ a t, R s t → Moves R s Anything ((f a).run t)) (a : α) (h : R s t) :
    Moves R s Anything ((iterate f hf a).run t) := by
  refine moves_iterate (Q := Anything) (fun b u hu _ => ?_) h trivial
  exact Moves.lift (t := s) (step b u hu) (fun _ h => h) fun _ _ _ _ => trivial

theorem moves_recovering {p : Parser α} {resume : Parser Unit} {Q : α → State → Prop}
    (h : Moves R s Q (p.run t)) (hr : ∀ u, R s u → Moves R s Anything (resume.run u)) :
    Moves R s Anything ((recovering p resume).run t) := by
  rw [run_recovering]
  cases hp : p.run t with
  | ok a u =>
    rw [hp] at h
    exact ⟨h.1, trivial⟩
  | error d u =>
    rw [hp] at h
    have hres := hr (u.report d) h
    simp only
    cases hv : resume.run (u.report d) with
    | ok c v =>
      rw [hv] at hres
      exact ⟨hres.1, trivial⟩
    | error d' v =>
      rw [hv] at hres
      exact hres

/-- What survives the closing of a level survives the level. -/
theorem moves_nest {p : Parser α} {Q Q' : α → State → Prop} (h : Moves R s Q (p.run t.opened))
    (hR : ∀ u, R s u → R s u.closed) (hQ : ∀ a u, Q a u → Q' a u.closed) :
    Moves R s Q' ((nest p).run t) := by
  simp only [nest]
  cases hp : p.run t.opened with
  | ok a u =>
    rw [hp] at h
    exact ⟨hR u h.1, hQ a u h.2⟩
  | error d u =>
    rw [hp] at h
    exact hR (u.report d) h

theorem walk_nest {loose : Bool} {p : Parser α} {Q : α → State → Prop}
    (h : Moves (Walk loose) s.opened Q (p.run s.opened)) (hQ : ∀ a t, Q a t → Q a t.closed) :
    Moves (Walk loose) s Q ((nest p).run s) := by
  have hsame : ∀ t, Walk loose s.opened t → Walk loose s t := by
    rintro t ⟨⟨hsorted, hle, hds⟩, heats⟩
    exact ⟨⟨hsorted, hle, hds⟩, heats⟩
  refine moves_nest (h.lift hsame fun _ _ _ h => h) (fun t ht => ?_) hQ
  obtain ⟨⟨hsorted, hle, hds⟩, heats⟩ := ht
  exact ⟨⟨hsorted, hle, hds⟩, heats⟩

/-! ### Single steps -/

section Steps
variable {loose : Bool}

theorem moves_pure {a : α} {Q : α → State → Prop} (h : R s t) (ha : Q a t) :
    Moves R s Q ((pure a : Parser α).run t) := ⟨h, ha⟩

theorem moves_failHere (problem : Problem) (h : Walk loose s t) {Q : α → State → Prop} :
    Moves (Walk loose) s Q ((failHere problem : Parser α).run t) := h.reportHere problem

/-- The place lies between the two states. -/
def Between (s : State) (place : Nat) (t : State) : Prop := s.offset ≤ place ∧ place ≤ t.offset

theorem Between.later {place : Nat} {u : State} (h : Between s place t) (ht : Orderly t u) :
    Between s place u := ⟨h.1, Nat.le_trans h.2 ht.offset⟩

theorem Between.earlier {place : Nat} {u : State} (hs : Orderly s t) (h : Between t place u) :
    Between s place u := ⟨Nat.le_trans hs.offset h.1, h.2⟩

/-- A token that is consumed starts where the parser stood. -/
theorem moves_advance (h : Walk loose s t) (hp : Plain t.current.kind) :
    Moves (Walk loose) s (fun x u => Between s x.start.offset u) (advance.run t) :=
  ⟨h.advance hp, h.offset, h.sorted.advance.2⟩

theorem moves_expect {kind : Kind} (h : Walk loose s t) (hk : Plain kind) :
    Moves (Walk loose) s (fun x u => Between s x.start.offset u) ((expect kind).run t) := by
  rw [run_expect]
  split
  · rename_i hc
    exact moves_advance h (hc ▸ hk)
  · exact h.reportHere _

theorem moves_skip {kind : Kind} (h : Walk loose s t) (hk : Plain kind) :
    Moves (Walk loose) s Anything ((skip kind).run t) := by
  rw [run_skip]
  split
  · rename_i hc
    exact ⟨h.advance (hc ▸ hk), trivial⟩
  · exact ⟨h, trivial⟩

theorem Moves.since {Q Q' : α → State → Prop} {r : Result α} (h : Moves (Walk loose) t Q r)
    (hs : Walk loose s t) (hQ : ∀ a u, Orderly t u → Q a u → Q' a u) :
    Moves (Walk loose) s Q' r :=
  h.lift (fun _ h => hs.trans h) fun a u h => hQ a u h.toOrderly

end Steps

end Parser
end LetLang
