import LetLang.Parser.Nesting

/-! Runs without a mistake.

`p.Accepts s a t`: from `s`, `p` finds `a`, reports nothing, and leaves `t`. What
was reported stays reported, so a parser put together from others accepts just
when its parts accept one after the other (`accepts_bind`). `Reads s ts t` says
what such a run does to the state: it consumes the tokens `ts`. -/
namespace LetLang.Parser
open Token (Kind)

variable {α β : Type}

/-- It finds `a` and reports nothing on the way. -/
def Accepts (p : Parser α) (s : State) (a : α) (t : State) : Prop :=
  p.run s = .ok a t ∧ t.reported = s.reported

theorem accepts_of_run {p : Parser α} {s u : State} {x : α} (h : p.run s = .ok x u)
    (hu : u.reported = s.reported) {a : α} {t : State} : p.Accepts s a t ↔ a = x ∧ t = u := by
  constructor
  · intro h
    obtain ⟨hr, -⟩ := h
    rw [h] at hr
    cases hr
    exact ⟨rfl, rfl⟩
  · intro h
    obtain ⟨rfl, rfl⟩ := h
    exact ⟨h, hu⟩

theorem not_accepts_of_run {p : Parser α} {s u : State} {d : Diagnostic}
    (h : p.run s = .error d u) {a : α} {t : State} : ¬ p.Accepts s a t := by
  intro h
  obtain ⟨hr, -⟩ := h
  rw [h] at hr
  cases hr

theorem accepts_bind {p : Parser α} {f : α → Parser β} {s u : State} {b : β} :
    (p >>= f).Accepts s b u ↔ ∃ a t, p.Accepts s a t ∧ (f a).Accepts t b u := by
  constructor
  · intro h
    obtain ⟨hr, hu⟩ := h
    rw [run_bind] at hr
    have hp := p.reported s
    split at hr
    · rename_i a t ht
      have hf := (f a).reported t
      rw [ht] at hp
      rw [hr] at hf
      simp only [Result.state] at hp hf
      rw [hu] at hf
      have heq : t.reported = s.reported := Array.toList_inj.1 (hf.eq_of_length_le hp.length_le)
      exact ⟨a, t, ⟨ht, heq⟩, hr, hu.trans heq.symm⟩
    · cases hr
  · intro h
    obtain ⟨a, t, ⟨ht, hst⟩, hr, htu⟩ := h
    refine ⟨?_, htu.trans hst⟩
    rw [run_bind, ht]
    exact hr

@[simp] theorem accepts_pure {a b : α} {s t : State} :
    (pure a : Parser α).Accepts s b t ↔ b = a ∧ t = s := accepts_of_run rfl rfl

@[simp] theorem not_accepts_fail {d : Diagnostic} {a : α} {s t : State} :
    ¬ (fail d : Parser α).Accepts s a t := not_accepts_of_run rfl

@[simp] theorem not_accepts_failHere {problem : Problem} {a : α} {s t : State} :
    ¬ (failHere problem : Parser α).Accepts s a t := not_accepts_of_run rfl

@[simp] theorem accepts_current {x : Token} {s t : State} :
    current.Accepts s x t ↔ x = s.current ∧ t = s := accepts_of_run rfl rfl

@[simp] theorem accepts_lastEnd {x : Position} {s t : State} :
    lastEnd.Accepts s x t ↔ x = s.lastEnd ∧ t = s := accepts_of_run rfl rfl

@[simp] theorem accepts_next? {x : Option Token} {s t : State} :
    next?.Accepts s x t ↔ x = s.ahead.head? ∧ t = s := accepts_of_run rfl rfl

@[simp] theorem accepts_advance {x : Token} {s t : State} :
    advance.Accepts s x t ↔ x = s.current ∧ t = s.advance :=
  accepts_of_run (run_advance s) rfl

@[simp] theorem accepts_expect {kind : Kind} {x : Token} {s t : State} :
    (expect kind).Accepts s x t ↔ s.current.kind = kind ∧ x = s.current ∧ t = s.advance := by
  have hr := run_expect kind s
  by_cases h : s.current.kind = kind
  · rw [if_pos h] at hr
    simp [accepts_of_run hr rfl, h]
  · rw [if_neg h] at hr
    simp [not_accepts_of_run hr, h]

@[simp] theorem accepts_skip {kind : Kind} {found : Bool} {s t : State} :
    (skip kind).Accepts s found t ↔
      (s.current.kind = kind ∧ found = true ∧ t = s.advance) ∨
        (s.current.kind ≠ kind ∧ found = false ∧ t = s) := by
  have hr := run_skip kind s
  by_cases h : s.current.kind = kind
  · rw [if_pos h] at hr
    simp [accepts_of_run hr rfl, h]
  · rw [if_neg h] at hr
    simp [accepts_of_run hr rfl, h]

/-! ### Loops, recovery and nesting -/

theorem accepts_many {p : Parser (Option α)} {hp : p.Advances} {found : List α} {s t : State} :
    (many p hp).Accepts s found t ↔
      (p.Accepts s none t ∧ found = []) ∨
        ∃ a u rest, p.Accepts s (some a) u ∧ (many p hp).Accepts u rest t ∧ found = a :: rest := by
  constructor
  · intro h
    rw [many_eq, accepts_bind] at h
    obtain ⟨r, u, hr, h⟩ := h
    cases r with
    | none =>
      obtain ⟨rfl, rfl⟩ := accepts_pure.1 h
      exact .inl ⟨hr, rfl⟩
    | some a =>
      obtain ⟨rest, v, hv, hpure⟩ := accepts_bind.1 h
      obtain ⟨rfl, rfl⟩ := accepts_pure.1 hpure
      exact .inr ⟨a, u, rest, hr, hv, rfl⟩
  · intro h
    rw [many_eq, accepts_bind]
    rcases h with ⟨hr, rfl⟩ | ⟨a, u, rest, hr, h, rfl⟩
    · exact ⟨none, t, hr, accepts_pure.2 ⟨rfl, rfl⟩⟩
    · exact ⟨some a, u, hr, accepts_bind.2 ⟨rest, t, h, accepts_pure.2 ⟨rfl, rfl⟩⟩⟩

/-- What every turn of a loop keeps holds at its end, where there is no further turn. -/
theorem accepts_iterate_induction {f : α → Parser (Option α)} {hf : ∀ a, (f a).Advances}
    (inv : α → State → Prop)
    (step : ∀ {a b s t}, inv a s → (f a).Accepts s (some b) t → inv b t) {a b : α} {s t : State}
    (h : inv a s) (ha : (iterate f hf a).Accepts s b t) :
    ∃ u, inv b u ∧ (f b).Accepts u none t := by
  rw [iterate_eq, accepts_bind] at ha
  obtain ⟨r, u, hr, hb⟩ := ha
  cases r with
  | none =>
    obtain ⟨rfl, rfl⟩ := accepts_pure.1 hb
    exact ⟨s, h, hr⟩
  | some c => exact accepts_iterate_induction inv step (step h hr) hb
termination_by s.ahead.length
decreasing_by exact hf a s c u hr.1

theorem accepts_recovering {p : Parser α} {resume : Parser Unit} {a : Option α} {s t : State} :
    (recovering p resume).Accepts s a t ↔ ∃ b, p.Accepts s b t ∧ a = some b := by
  constructor
  · intro h
    obtain ⟨hr, ht⟩ := h
    have hp := p.reported s
    rw [run_recovering] at hr
    cases hs : p.run s with
    | ok b u =>
      simp only [hs, Result.ok.injEq] at hr
      obtain ⟨rfl, rfl⟩ := hr
      exact ⟨b, ⟨hs, ht⟩, rfl⟩
    | error d u =>
      exfalso
      simp only [hs] at hr hp
      have hres := resume.reported (u.report d)
      split at hr
      · rename_i c v hv
        rw [Result.ok.injEq] at hr
        obtain ⟨-, rfl⟩ := hr
        rw [hv] at hres
        have hle := hp.length_le
        have hle' := hres.length_le
        simp only [Result.state, State.report, ht, Array.length_toList, Array.size_push] at hle hle'
        omega
      · cases hr
  · intro h
    obtain ⟨b, ⟨hr, ht⟩, rfl⟩ := h
    refine ⟨?_, ht⟩
    rw [run_recovering, hr]

theorem accepts_nest {p : Parser α} {a : α} {s t : State} :
    (nest p).Accepts s a t ↔ ∃ u, p.Accepts s.opened a u ∧ t = u.closed := by
  constructor
  · intro h
    obtain ⟨hr, ht⟩ := h
    simp only [nest] at hr
    split at hr
    · rename_i b u hu
      cases hr
      exact ⟨u, ⟨hu, ht⟩, rfl⟩
    · cases hr
  · intro h
    obtain ⟨u, ⟨hu, hr⟩, rfl⟩ := h
    refine ⟨?_, hr⟩
    simp only [nest, hu]

/-! ### What is consumed -/

/-- The second state is the first after `ts` were consumed and nothing was reported. -/
structure Reads (s : State) (ts : List Token) (t : State) : Prop where
  ahead : s.ahead = ts ++ t.ahead
  reported : t.reported = s.reported
  lastEnd : t.lastEnd = (ts.getLast?.map Token.stop).getD s.lastEnd

namespace Reads

theorem nil (s : State) : Reads s [] s := ⟨rfl, rfl, rfl⟩

theorem trans {s t u : State} {ts us : List Token} (h : Reads s ts t) (h' : Reads t us u) :
    Reads s (ts ++ us) u := by
  refine ⟨?_, h'.reported.trans h.reported, ?_⟩
  · rw [h.ahead, h'.ahead, List.append_assoc]
  · rw [h'.lastEnd, h.lastEnd, List.getLast?_append]
    cases us.getLast? <;> rfl

theorem advance {s : State} {x : Token} {rest : List Token} (h : s.ahead = x :: rest) :
    Reads s [x] s.advance := by
  refine ⟨?_, rfl, ?_⟩
  · simp [h]
  · simp [State.advance, State.current, h]

/-- A token of a kind that is asked for is there to be consumed. -/
theorem current {s : State} (h : s.current.kind ≠ .eof) : Reads s [s.current] s.advance := by
  obtain ⟨x, rest, hs⟩ := List.exists_cons_of_ne_nil (State.ahead_ne_nil h)
  have hx : s.current = x := by simp [State.current, hs]
  rw [hx]
  exact advance hs

theorem after {s t : State} {ts : List Token} (h : s.current.kind ≠ .eof)
    (ht : Reads s.advance ts t) : Reads s (s.current :: ts) t := (Reads.current h).trans ht

theorem nested {s t : State} {ts : List Token} (h : Reads s.opened ts t) :
    Reads s ts t.closed := ⟨h.ahead, h.reported, h.lastEnd⟩

end Reads

theorem State.current_of_ahead {s : State} {x : Token} {rest : List Token}
    (h : s.ahead = x :: rest) : s.current = x := by
  simp [State.current, h]

end LetLang.Parser
