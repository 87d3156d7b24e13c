import LetLang.Proofs.Accepts
import LetLang.Proofs.Strict

/-! Runs to a mistake.

`p.Halts s e u`: from `s`, `p` reports nothing and then makes the mistake `e` where `u`
stands. A parser put together from others halts where one of them does, after the
others before it accept (`halts_bind`). -/
namespace LetLang.Parser
open Token (Kind)

variable {α β : Type} {e : Diagnostic} {s t u : State}

/-- It makes the mistake, and reports nothing on the way. -/
def Halts (p : Parser α) (s : State) (e : Diagnostic) (u : State) : Prop :=
  p.run s = .error e u ∧ u.reported = s.reported

theorem halts_of_run {p : Parser α} {d : Diagnostic} (h : p.run s = .error d t)
    (ht : t.reported = s.reported) : p.Halts s e u ↔ e = d ∧ u = t := by
  constructor
  · intro hu
    obtain ⟨hr, -⟩ := hu
    rw [h] at hr
    cases hr
    exact ⟨rfl, rfl⟩
  · rintro ⟨rfl, rfl⟩
    exact ⟨h, ht⟩

theorem not_halts_of_run {p : Parser α} {a : α} (h : p.run s = .ok a t) : ¬ p.Halts s e u := by
  intro hu
  obtain ⟨hr, -⟩ := hu
  rw [h] at hr
  cases hr

theorem halts_bind {p : Parser α} {f : α → Parser β} :
    (p >>= f).Halts s e u ↔ p.Halts s e u ∨ ∃ a t, p.Accepts s a t ∧ (f a).Halts t e u := by
  constructor
  · intro h
    obtain ⟨hr, hu⟩ := h
    rw [run_bind] at hr
    have hp := p.reported s
    split at hr
    · rename_i a t ht
      have hf := (f a).reported t
      rw [ht] at hp
      rw [hr] at hf
      simp only [Result.state] at hp hf
      rw [hu] at hf
      have heq : t.reported = s.reported := Array.toList_inj.1 (hf.eq_of_length_le hp.length_le)
      exact .inr ⟨a, t, ⟨ht, heq⟩, hr, hu.trans heq.symm⟩
    · rename_i d t ht
      cases hr
      exact .inl ⟨ht, hu⟩
  · rintro (⟨hr, hu⟩ | ⟨a, t, ⟨ht, hst⟩, hr, htu⟩)
    · exact ⟨by rw [run_bind, hr], hu⟩
    · exact ⟨by rw [run_bind, ht]; exact hr, htu.trans hst⟩

@[simp] theorem not_halts_pure {a : α} : ¬ (pure a : Parser α).Halts s e u := not_halts_of_run rfl

@[simp] theorem halts_fail {d : Diagnostic} : (fail d : Parser α).Halts s e u ↔ e = d ∧ u = s :=
  halts_of_run rfl rfl

@[simp] theorem halts_failHere {problem : Problem} :
    (failHere problem : Parser α).Halts s e u ↔ e = ⟨problem, s.position⟩ ∧ u = s :=
  halts_of_run rfl rfl

@[simp] theorem not_halts_current : ¬ current.Halts s e u := not_halts_of_run rfl

@[simp] theorem not_halts_lastEnd : ¬ lastEnd.Halts s e u := not_halts_of_run rfl

@[simp] theorem not_halts_next? : ¬ next?.Halts s e u := not_halts_of_run rfl

@[simp] theorem not_halts_advance : ¬ advance.Halts s e u := not_halts_of_run (run_advance s)

@[simp] theorem halts_expect {kind : Kind} : (expect kind).Halts s e u ↔
    s.current.kind ≠ kind ∧
      e = ⟨.unexpected kind s.current.kind s.current.literal, s.position⟩ ∧ u = s := by
  have hr := run_expect kind s
  by_cases h : s.current.kind = kind
  · rw [if_pos h] at hr
    simp [not_halts_of_run hr, h]
  · rw [if_neg h] at hr
    simp [halts_of_run hr rfl, h]

@[simp] theorem not_halts_skip {kind : Kind} : ¬ (skip kind).Halts s e u := by
  have hr := run_skip kind s
  by_cases h : s.current.kind = kind
  · rw [if_pos h] at hr
    exact not_halts_of_run hr
  · rw [if_neg h] at hr
    exact not_halts_of_run hr

theorem halts_many {p : Parser (Option α)} {hp : p.Advances} : (many p hp).Halts s e u ↔
    p.Halts s e u ∨ ∃ a t, p.Accepts s (some a) t ∧ (many p hp).Halts t e u := by
  constructor
  · intro h
    rw [many_eq, halts_bind] at h
    rcases h with h | ⟨found, t, ht, h⟩
    · exact .inl h
    · cases found with
      | none => exact absurd h not_halts_pure
      | some a =>
        rcases halts_bind.1 h with h | ⟨as, v, -, h⟩
        · exact .inr ⟨a, t, ht, h⟩
        · exact absurd h not_halts_pure
  · intro h
    rw [many_eq, halts_bind]
    rcases h with h | ⟨a, t, ht, h⟩
    · exact .inl h
    · exact .inr ⟨some a, t, ht, halts_bind.2 (.inl h)⟩

/-- What every turn of a loop keeps holds where a turn is not finished. -/
theorem halts_iterate_induction {f : α → Parser (Option α)} {hf : ∀ a, (f a).Advances}
    (inv : α → State → Prop)
    (step : ∀ {a b s t}, inv a s → (f a).Accepts s (some b) t → inv b t) {a : α} {s : State}
    (h : inv a s) (ha : (iterate f hf a).Halts s e u) :
    ∃ b t, inv b t ∧ (f b).Halts t e u := by
  rw [iterate_eq, halts_bind] at ha
  rcases ha with ha | ⟨found, t, hfound, ha⟩
  · exact ⟨a, s, h, ha⟩
  · cases found with
    | none => exact absurd ha not_halts_pure
    | some b => exact halts_iterate_induction inv step (step h hfound) ha
termination_by s.ahead.length
decreasing_by exact hf a s b t hfound.1

theorem halts_openly {p : Parser α} : (openly p).Halts s e u ↔ p.Halts s.opened e u := by
  simp only [Halts, openly]
  cases p.run s.opened with
  | ok a t => simp
  | error d t => rfl

theorem halts_guarded {p : Parser α} : (guarded p).Halts s e u ↔
    (Oversized s.current ∧ e = ⟨.integerTooLarge s.current.literal, s.position⟩ ∧ u = s) ∨
      (¬ Oversized s.current ∧ p.Halts s e u) := by
  simp only [guarded, halts_bind, not_halts_current, accepts_current, false_or]
  constructor
  · rintro ⟨_, _, ⟨rfl, rfl⟩, h⟩
    split at h
    · rename_i hlarge
      exact .inl ⟨hlarge, halts_failHere.1 h⟩
    · rename_i hlarge
      exact .inr ⟨hlarge, h⟩
  · rintro (⟨hlarge, h⟩ | ⟨hlarge, h⟩)
    · exact ⟨_, _, ⟨rfl, rfl⟩, by rw [if_pos hlarge]; exact halts_failHere.2 h⟩
    · exact ⟨_, _, ⟨rfl, rfl⟩, by rwa [if_neg hlarge]⟩

end LetLang.Parser
