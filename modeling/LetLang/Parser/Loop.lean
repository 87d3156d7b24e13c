import LetLang.Parser.Basic

/-! Parsers that repeat a step.

A loop ends because a step that wants to be repeated has consumed something
(`Advances`), and there is only so much to consume. -/
namespace LetLang.Parser
open Token (Kind)

variable {α β : Type}

/-- It finds something from every state. -/
def Succeeds (p : Parser α) : Prop := ∀ s, ∃ a t, p.run s = .ok a t

/-- Whatever it finds, it has consumed something for it. -/
def Consumes (p : Parser α) : Prop :=
  ∀ s a t, p.run s = .ok a t → t.ahead.length < s.ahead.length

/-- Whenever it goes on, it has consumed something. -/
def Advances (p : Parser (Option α)) : Prop :=
  ∀ s a t, p.run s = .ok (some a) t → t.ahead.length < s.ahead.length

/-! ### What consumes -/

theorem length_ahead_le {p : Parser α} {s t : State} {a : α} (h : p.run s = .ok a t) :
    t.ahead.length ≤ s.ahead.length := by
  have hp := p.forward s
  rw [h] at hp
  exact hp.length_le

theorem consumes_fail (d : Diagnostic) : (fail d : Parser α).Consumes := by
  intro s a t h
  simp at h

theorem consumes_failHere (problem : Problem) : (failHere problem : Parser α).Consumes := by
  intro s a t h
  simp at h

theorem consumes_expect {kind : Kind} (hk : kind ≠ .eof) : (expect kind).Consumes := by
  intro s a t h
  rw [run_expect] at h
  split at h
  · rename_i hc
    injection h with _ ht
    exact ht ▸ State.length_ahead_advance_lt (State.ahead_ne_nil (hc ▸ hk))
  · simp at h

/-- If the first of two parsers consumes, both together do. -/
theorem consumes_bind_left {p : Parser α} (hp : p.Consumes) (f : α → Parser β) :
    (p >>= f).Consumes := by
  intro s b u h
  rw [run_bind] at h
  split at h
  · rename_i a t ht
    exact Nat.lt_of_le_of_lt (length_ahead_le h) (hp s a t ht)
  · simp at h

/-- If the second of two parsers consumes, both together do. -/
theorem consumes_bind_right (p : Parser α) {f : α → Parser β} (hf : ∀ a, (f a).Consumes) :
    (p >>= f).Consumes := by
  intro s b u h
  rw [run_bind] at h
  split at h
  · rename_i a t ht
    exact Nat.lt_of_lt_of_le (hf a t b u h) (length_ahead_le ht)
  · simp at h

/-! ### A list of findings -/

def manyRun (p : Parser (Option α)) (hp : p.Advances) (s : State) : Result (List α) :=
  match _hr : p.run s with
  | .error d t => .error d t
  | .ok none t => .ok [] t
  | .ok (some a) t =>
    match manyRun p hp t with
    | .ok as u => .ok (a :: as) u
    | .error d u => .error d u
termination_by s.ahead.length
decreasing_by exact hp s a t _hr

theorem manyRun_eq (p : Parser (Option α)) (hp : p.Advances) (s : State) :
    manyRun p hp s =
      match p.run s with
      | .error d t => .error d t
      | .ok none t => .ok [] t
      | .ok (some a) t =>
        match manyRun p hp t with
        | .ok as u => .ok (a :: as) u
        | .error d u => .error d u := by
  rw [manyRun]
  split <;> simp_all

theorem manyRun_steps (p : Parser (Option α)) (hp : p.Advances) (s : State) :
    s.Steps (manyRun p hp s).state := by
  have hf := p.steps s
  rw [manyRun]
  split
  · rename_i d t hr
    rwa [hr] at hf
  · rename_i t hr
    rwa [hr] at hf
  · rename_i a t hr
    have ih := manyRun_steps p hp t
    rw [hr] at hf
    split
    · rename_i as u hu
      rw [hu] at ih
      exact hf.trans ih
    · rename_i d u hu
      rw [hu] at ih
      exact hf.trans ih
termination_by s.ahead.length
decreasing_by exact hp s _ _ ‹_›

theorem manyRun_unseen (p : Parser (Option α)) (hp : p.Advances) (s : State) (more : List Token)
    (finish : Position) (hs : (manyRun p hp s).state.ahead ≠ []) :
    manyRun p hp (s.extend more finish) = (manyRun p hp s).extend more finish := by
  have hf := p.unseen s more finish
  rw [manyRun_eq] at hs ⊢
  rw [manyRun_eq p hp s]
  cases hr : p.run s with
  | error d t =>
    rw [hr] at hf hs
    rw [hf hs]
    rfl
  | ok found t =>
    rw [hr] at hf hs
    cases found with
    | none =>
      rw [hf hs]
      rfl
    | some a =>
      have ih := manyRun_unseen p hp t more finish
      have hfo := manyRun_steps p hp t
      cases hu : manyRun p hp t with
      | ok as u =>
        simp only [hu] at hs ih hfo
        have ht : t.ahead ≠ [] := fun h => hs (List.suffix_nil.1 (h ▸ hfo.ahead))
        simp only [hf ht, Result.extend, ih hs, hu]
      | error d u =>
        simp only [hu] at hs ih hfo
        have ht : t.ahead ≠ [] := fun h => hs (List.suffix_nil.1 (h ▸ hfo.ahead))
        simp only [hf ht, Result.extend, ih hs, hu]
termination_by s.ahead.length
decreasing_by exact hp s _ _ hr

/-- Everything that `p` finds in turn, until it finds nothing. -/
def many (p : Parser (Option α)) (hp : p.Advances) : Parser (List α) :=
  ⟨manyRun p hp, manyRun_steps p hp, manyRun_unseen p hp⟩

theorem run_many (p : Parser (Option α)) (hp : p.Advances) (s : State) :
    (many p hp).run s =
      match p.run s with
      | .error d t => .error d t
      | .ok none t => .ok [] t
      | .ok (some a) t =>
        match (many p hp).run t with
        | .ok as u => .ok (a :: as) u
        | .error d u => .error d u := manyRun_eq p hp s

/-- A list of findings is what `p` finds now and what it finds after that. -/
theorem many_eq (p : Parser (Option α)) (hp : p.Advances) :
    many p hp = p >>= fun found =>
      match found with
      | none => pure []
      | some a => many p hp >>= fun rest => pure (a :: rest) := by
  apply Parser.ext
  funext s
  rw [run_many, run_bind]
  cases p.run s with
  | error d t => rfl
  | ok found t =>
    cases found with
    | none => rfl
    | some a =>
      simp only [run_bind, run_pure]
      cases (many p hp).run t <;> rfl

theorem many_succeeds {p : Parser (Option α)} (hp : p.Advances) (h : p.Succeeds) :
    (many p hp).Succeeds := by
  intro s
  obtain ⟨a, t, ht⟩ := h s
  rw [run_many, ht]
  cases a with
  | none => exact ⟨[], t, rfl⟩
  | some a =>
    obtain ⟨as, u, hu⟩ := many_succeeds hp h t
    exact ⟨a :: as, u, by simp [hu]⟩
termination_by s => s.ahead.length
decreasing_by exact hp s a t ht

/-! ### A value that grows -/

def iterateRun (f : α → Parser (Option α)) (hf : ∀ a, (f a).Advances) (a : α) (s : State) :
    Result α :=
  match _hr : (f a).run s with
  | .error d t => .error d t
  | .ok none t => .ok a t
  | .ok (some b) t => iterateRun f hf b t
termination_by s.ahead.length
decreasing_by exact hf a s b t _hr

theorem iterateRun_eq (f : α → Parser (Option α)) (hf : ∀ a, (f a).Advances) (a : α) (s : State) :
    iterateRun f hf a s =
      match (f a).run s with
      | .error d t => .error d t
      | .ok none t => .ok a t
      | .ok (some b) t => iterateRun f hf b t := by
  rw [iterateRun]
  split <;> simp_all

theorem iterateRun_steps (f : α → Parser (Option α)) (hf : ∀ a, (f a).Advances) (a : α)
    (s : State) : s.Steps (iterateRun f hf a s).state := by
  have hs := (f a).steps s
  rw [iterateRun]
  split
  · rename_i d t hr
    rwa [hr] at hs
  · rename_i t hr
    rwa [hr] at hs
  · rename_i b t hr
    rw [hr] at hs
    exact hs.trans (iterateRun_steps f hf b t)
termination_by s.ahead.length
decreasing_by exact hf a s _ _ ‹_›

theorem iterateRun_unseen (f : α → Parser (Option α)) (hf : ∀ a, (f a).Advances) (a : α)
    (s : State) (more : List Token) (finish : Position)
    (hs : (iterateRun f hf a s).state.ahead ≠ []) :
    iterateRun f hf a (s.extend more finish) = (iterateRun f hf a s).extend more finish := by
  have hu := (f a).unseen s more finish
  rw [iterateRun_eq] at hs ⊢
  rw [iterateRun_eq f hf a s]
  cases hr : (f a).run s with
  | error d t =>
    rw [hr] at hu hs
    rw [hu hs]
    rfl
  | ok found t =>
    rw [hr] at hu hs
    cases found with
    | none =>
      rw [hu hs]
      rfl
    | some b =>
      have hfo := iterateRun_steps f hf b t
      have ht : t.ahead ≠ [] := fun h => hs (List.suffix_nil.1 (h ▸ hfo.ahead))
      rw [hu ht]
      exact iterateRun_unseen f hf b t more finish hs
termination_by s.ahead.length
decreasing_by exact hf a s _ _ hr

/-- What becomes of `a` by taking `f` again and again, until it finds nothing. -/
def iterate (f : α → Parser (Option α)) (hf : ∀ a, (f a).Advances) (a : α) : Parser α :=
  ⟨iterateRun f hf a, iterateRun_steps f hf a, iterateRun_unseen f hf a⟩

theorem run_iterate (f : α → Parser (Option α)) (hf : ∀ a, (f a).Advances) (a : α) (s : State) :
    (iterate f hf a).run s =
      match (f a).run s with
      | .error d t => .error d t
      | .ok none t => .ok a t
      | .ok (some b) t => (iterate f hf b).run t := iterateRun_eq f hf a s

theorem iterate_eq (f : α → Parser (Option α)) (hf : ∀ a, (f a).Advances) (a : α) :
    iterate f hf a = f a >>= fun found =>
      match found with
      | none => pure a
      | some b => iterate f hf b := by
  apply Parser.ext
  funext s
  rw [run_iterate, run_bind]
  cases (f a).run s with
  | error d t => rfl
  | ok found t =>
    cases found with
    | none => rfl
    | some b => rfl

/-! ### Lists with commas -/

/-- A comma and what `p` finds after it, if there is a comma. -/
def afterComma (p : Parser α) : Parser (Option α) := do
  if ← skip .comma then return some (← p) else return none

theorem afterComma_advances (p : Parser α) : (afterComma p).Advances := by
  intro s a u h
  simp only [afterComma, run_bind, run_skip] at h
  split at h
  · rename_i b t ht
    split at ht
    · rename_i hc
      injection ht with hb ht
      subst hb ht
      have hlt := State.length_ahead_advance_lt (State.ahead_ne_nil (s := s) (by simp [hc]))
      simp only [if_true, run_bind] at h
      split at h
      · rename_i c v hv
        simp only [run_pure, Result.ok.injEq] at h
        exact h.2 ▸ Nat.lt_of_le_of_lt (length_ahead_le hv) hlt
      · simp at h
    · injection ht with hb ht
      subst hb ht
      simp at h
  · simp at h

/-- One or more findings of `p` with commas between them. -/
def commaSeparated (p : Parser α) : Parser (List α) := do
  let a ← p
  let as ← many (afterComma p) (afterComma_advances p)
  return a :: as

end LetLang.Parser
