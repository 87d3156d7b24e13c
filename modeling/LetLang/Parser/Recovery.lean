import LetLang.Parser.Loop

/-! Going on after a mistake.

A statement that fails is reported, and the parser skips to the next statement
boundary: past a semicolon, before the brace that closes the block around, or at
the end. Braces that open on the way are skipped with everything up to the brace
that closes them (`boundary`). `run_recovering_lt` says that a failed statement
is never tried again at the same token. -/
namespace LetLang.Parser

variable {α : Type}

/-- How many of the tokens stand before the next boundary, if so many braces are still to be closed.
A semicolon belongs to what it ends. -/
def boundary : Nat → List Token → Nat
  | _, [] => 0
  | 0, t :: ts =>
    match t.kind with
    | .semicolon => 1
    | .closeCurly => 0
    | .openCurly => boundary 1 ts + 1
    | _ => boundary 0 ts + 1
  | opened + 1, t :: ts =>
    match t.kind with
    | .closeCurly => boundary opened ts + 1
    | .openCurly => boundary (opened + 2) ts + 1
    | _ => boundary (opened + 1) ts + 1

/-- A boundary that is not the end stays where it is when more tokens follow. -/
theorem boundary_append {n : Nat} {ts : List Token} (h : boundary n ts < ts.length)
    (us : List Token) : boundary n (ts ++ us) = boundary n ts := by
  fun_induction boundary n ts <;> simp_all [boundary]

theorem boundary_le (n : Nat) (ts : List Token) : boundary n ts ≤ ts.length := by
  fun_induction boundary n ts <;> simp_all

def State.synchronized (s : State) : State := s.advanceBy (boundary 0 s.ahead)

/-- Skips to the next boundary. -/
def synchronize : Parser Unit where
  run s := .ok () s.synchronized
  steps s := (State.Steps.refl s).advanceBy _
  unseen s more finish hs := by
    have hlt : boundary 0 s.ahead < s.ahead.length := by
      have := List.length_pos_iff.2 hs
      rw [Result.state, State.synchronized, State.ahead_advanceBy, List.length_drop] at this
      omega
    show Result.ok () ((s.extend more finish).advanceBy (boundary 0 (s.ahead ++ more))) = _
    rw [boundary_append hlt, State.advanceBy_extend (Nat.le_of_lt hlt)]
    rfl

/-- Finds what `p` finds; if `p` fails, reports why, resumes, and finds nothing. -/
def recovering (p : Parser α) (resume : Parser Unit) : Parser (Option α) :=
  orElse (do return some (← p)) fun d => do
    report d
    resume
    return none

theorem run_recovering (p : Parser α) (resume : Parser Unit) (s : State) :
    (recovering p resume).run s =
      match p.run s with
      | .ok a t => .ok (some a) t
      | .error d t =>
        match resume.run (t.report d) with
        | .ok _ u => .ok none u
        | .error e u => .error e u := by
  simp only [recovering, orElse, run_bind]
  cases p.run s with
  | ok a t => rfl
  | error d t =>
    simp only [run_report]
    cases resume.run (t.report d) <;> rfl

/-- After a mistake the run is that of resuming. -/
theorem run_recovering_error {p : Parser α} {s t : State} {d : Diagnostic}
    (h : p.run s = .error d t) (resume : Parser Unit) :
    (recovering p resume).run s =
      (do let _ ← resume; return none : Parser (Option α)).run (t.report d) := by
  simp only [run_recovering, h, run_bind]
  cases resume.run (t.report d) <;> rfl

theorem recovering_succeeds (p : Parser α) {resume : Parser Unit} (h : resume.Succeeds) :
    (recovering p resume).Succeeds := by
  intro s
  rw [run_recovering]
  cases p.run s with
  | ok a t => exact ⟨some a, t, rfl⟩
  | error d t =>
    obtain ⟨_, u, hu⟩ := h (t.report d)
    exact ⟨none, u, by simp [hu]⟩

/-! ### Progress -/

theorem boundary_pos {t : Token} {ts : List Token} (h : t.kind ≠ .closeCurly) :
    0 < boundary 0 (t :: ts) := by
  unfold boundary
  split <;> simp_all

theorem State.ahead_synchronized (s : State) :
    s.synchronized.ahead = s.ahead.drop (boundary 0 s.ahead) := ahead_advanceBy ..

@[simp] theorem run_synchronize (s : State) : synchronize.run s = .ok () s.synchronized := rfl

/-- Synchronizing consumes something, unless it stands at a closing brace or at the end. -/
theorem length_ahead_synchronized_lt {s : State} (hs : s.ahead ≠ [])
    (hc : s.current.kind ≠ .closeCurly) : s.synchronized.ahead.length < s.ahead.length := by
  rw [State.ahead_synchronized, List.length_drop]
  have hpos := List.length_pos_iff.2 hs
  have hb : 0 < boundary 0 s.ahead := by
    obtain ⟨t, ts, hts⟩ := List.exists_cons_of_ne_nil hs
    rw [State.current, hts] at hc
    exact hts ▸ boundary_pos hc
  omega

/-- If the second parser resumes past whatever made the first fail, nothing is tried twice. -/
theorem run_recovering_lt {p : Parser α} (hp : p.Consumes) {resume : Parser Unit} {s u : State}
    (hr : ∀ t v, t.ahead = s.ahead → resume.run t = .ok () v → v.ahead.length < t.ahead.length)
    {a : Option α} (h : (recovering p resume).run s = .ok a u) :
    u.ahead.length < s.ahead.length := by
  rw [run_recovering] at h
  have hf := p.forward s
  cases hs : p.run s with
  | ok b t =>
    simp only [hs, Result.ok.injEq] at h
    exact h.2 ▸ hp s b t hs
  | error d t =>
    rw [hs] at hf
    simp only [hs] at h
    split at h
    · rename_i c v hv
      rw [Result.ok.injEq] at h
      obtain ⟨-, rfl⟩ := h
      have hle := length_ahead_le hv
      simp only [State.ahead_report] at hle
      by_cases heq : t.ahead = s.ahead
      · have hlt := hr (t.report d) v heq hv
        rw [State.ahead_report, heq] at hlt
        exact hlt
      · have hne : t.ahead.length ≠ s.ahead.length := fun hl => heq (hf.eq_of_length hl)
        have := hf.length_le
        simp only [Result.state] at this
        omega
    · simp at h

end LetLang.Parser
