import LetLang.Parser.Recovery

/-! Braces in a list of tokens.

`depth?` counts the braces that are open, and has no answer once a brace closes
what is not open; it can also be told to refuse semicolons outside all braces, as
no expression contains one. `unclosed` counts the same and passes over stray
closing braces. The rest of the file is about boundaries: recovery skips matched
braces as a whole (`boundary_matched`), and it has a boundary to come to where
all braces are closed before a semicolon (`boundary_closed`). -/
namespace LetLang
namespace Parser
open Token (Kind)

/-- How many braces are open after the tokens, if `n` were open before, unless one closes that is
not open. Unless `loose`, no semicolon may stand outside all braces. -/
def depth? (loose : Bool) : Nat → List Token → Option Nat
  | n, [] => some n
  | n, t :: ts =>
    if t.kind = .openCurly then depth? loose (n + 1) ts
    else if t.kind = .closeCurly then
      if n = 0 then none else depth? loose (n - 1) ts
    else if t.kind = .semicolon ∧ n = 0 ∧ loose = false then none
    else depth? loose n ts

/-- Every brace has its counterpart. -/
def Balanced (ts : List Token) : Prop := depth? true 0 ts = some 0

instance (ts : List Token) : Decidable (Balanced ts) :=
  inferInstanceAs (Decidable (depth? true 0 ts = some 0))

/-- How many braces are open after the tokens, where a stray closing brace closes nothing. -/
def unclosed : Nat → List Token → Nat
  | n, [] => n
  | n, t :: ts =>
    if t.kind = .openCurly then unclosed (n + 1) ts
    else if t.kind = .closeCurly then unclosed (n - 1) ts
    else unclosed n ts

attribute [local simp] depth? unclosed boundary

/-- A kind that is neither a brace nor a semicolon. -/
def Plain (kind : Kind) : Prop :=
  kind ≠ .openCurly ∧ kind ≠ .closeCurly ∧ kind ≠ .semicolon

instance (kind : Kind) : Decidable (Plain kind) := inferInstanceAs (Decidable (_ ∧ _ ∧ _))

variable {loose : Bool} {n k : Nat} {t : Token} {ts us : List Token}

/-! ### One token -/

@[simp] theorem depth?_nil : depth? loose n [] = some n := rfl

theorem depth?_open (h : t.kind = .openCurly) : depth? loose n (t :: ts) = depth? loose (n + 1) ts :=
  if_pos h

theorem depth?_close (h : t.kind = .closeCurly) :
    depth? loose (n + 1) (t :: ts) = depth? loose n ts := by
  simp [h]

theorem depth?_stray (h : t.kind = .closeCurly) : depth? loose 0 (t :: ts) = none := by
  simp [h]

theorem depth?_inside (ho : t.kind ≠ .openCurly) (hc : t.kind ≠ .closeCurly) :
    depth? loose (n + 1) (t :: ts) = depth? loose (n + 1) ts := by
  rw [depth?, if_neg ho, if_neg hc, if_neg (by simp)]

theorem depth?_loose (ho : t.kind ≠ .openCurly) (hc : t.kind ≠ .closeCurly) :
    depth? true n (t :: ts) = depth? true n ts := by
  rw [depth?, if_neg ho, if_neg hc, if_neg (by simp)]

theorem depth?_plain (h : Plain t.kind) : depth? loose n (t :: ts) = depth? loose n ts := by
  obtain ⟨ho, hc, hs⟩ := h
  rw [depth?, if_neg ho, if_neg hc, if_neg fun h => hs h.1]

theorem depth?_semicolon (h : t.kind = .semicolon) : depth? false 0 (t :: ts) = none := by
  simp [h]

/-! ### More tokens -/

theorem depth?_append :
    depth? loose n (ts ++ us) = (depth? loose n ts).bind fun k => depth? loose k us := by
  fun_induction depth? loose n ts <;> simp_all

/-- One brace more around the tokens, and semicolons among them do no harm. -/
theorem depth?_succ (h : depth? true n ts = some k) : depth? loose (n + 1) ts = some (k + 1) := by
  induction ts generalizing n with
  | nil => simpa using h
  | cons t ts ih =>
    by_cases ho : t.kind = .openCurly
    · rw [depth?_open ho] at h ⊢
      exact ih h
    · by_cases hc : t.kind = .closeCurly
      · cases n with
        | zero =>
          rw [depth?_stray hc] at h
          cases h
        | succ n =>
          rw [depth?_close hc] at h ⊢
          exact ih h
      · rw [depth?_loose ho hc] at h
        rw [depth?_inside ho hc]
        exact ih h

theorem depth?_of_strict (h : depth? false n ts = some k) : depth? true n ts = some k := by
  fun_induction depth? false n ts <;> simp_all

theorem depth?_of_any (h : depth? loose n ts = some k) : depth? true n ts = some k := by
  cases loose with
  | false => exact depth?_of_strict h
  | true => exact h

/-- What is counted up from nothing stays in front of the brace that closes a balanced body. -/
theorem prefix_of_balanced {closing : Token} {rest : List Token}
    (hc : closing.kind = .closeCurly) (hb : Balanced ts)
    (hu : us <+: ts ++ closing :: rest) (hd : depth? loose 0 us = some k) :
    ∃ vs, ts = us ++ vs ∧ depth? true k vs = some 0 := by
  obtain ⟨ws, hws⟩ := hu
  have hd := depth?_of_any hd
  rcases List.append_eq_append_iff.1 hws with ⟨vs, rfl, -⟩ | ⟨vs, rfl, hvs⟩
  · refine ⟨vs, rfl, ?_⟩
    rwa [Balanced, depth?_append, hd] at hb
  · cases vs with
    | nil =>
      rw [List.append_nil] at hd
      rw [Balanced, hd] at hb
      cases hb
      exact ⟨[], by simp, rfl⟩
    | cons v vs =>
      obtain ⟨rfl, -⟩ := List.cons_eq_cons.1 hvs
      rw [depth?_append, hb, Option.bind_some, depth?_stray hc] at hd
      cases hd

/-! ### Stray braces -/

theorem unclosed_append : unclosed n (ts ++ us) = unclosed (unclosed n ts) us := by
  fun_induction unclosed n ts <;> simp_all

theorem unclosed_mono {m : Nat} (h : n ≤ m) : unclosed n ts ≤ unclosed m ts := by
  induction ts generalizing n m with
  | nil => exact h
  | cons t ts ih =>
    by_cases ho : t.kind = .openCurly
    · rw [unclosed, unclosed, if_pos ho, if_pos ho]
      exact ih (by omega)
    · rw [unclosed, unclosed, if_neg ho, if_neg ho]
      by_cases hc : t.kind = .closeCurly
      · rw [if_pos hc, if_pos hc]
        exact ih (by omega)
      · rw [if_neg hc, if_neg hc]
        exact ih h

theorem unclosed_suffix (h : ts <:+ us) (hu : unclosed 0 us = 0) : unclosed 0 ts = 0 := by
  obtain ⟨vs, rfl⟩ := h
  rw [unclosed_append] at hu
  have hle : unclosed 0 ts ≤ unclosed (unclosed 0 vs) ts := unclosed_mono (Nat.zero_le _)
  omega

theorem unclosed_of_depth? (h : depth? loose n ts = some k) : unclosed n ts = k := by
  fun_induction depth? loose n ts <;> simp_all

/-! ### Boundaries -/

/-- Matched braces are skipped as a whole. -/
theorem boundary_matched {closing : Token} (hc : closing.kind = .closeCurly)
    (h : depth? true n ts = some 0) :
    boundary (n + k + 1) (ts ++ closing :: us) = ts.length + 1 + boundary k us := by
  induction ts generalizing n with
  | nil =>
    obtain rfl : n = 0 := by simpa using h
    simp [hc]
    omega
  | cons t ts ih =>
    by_cases ho : t.kind = .openCurly
    · rw [depth?_open ho] at h
      have := ih h
      rw [show n + 1 + k + 1 = n + k + 2 by omega] at this
      simp only [List.cons_append, boundary, ho, this, List.length_cons]
      omega
    · by_cases hcl : t.kind = .closeCurly
      · cases n with
        | zero =>
          rw [depth?_stray hcl] at h
          cases h
        | succ n =>
          rw [depth?_close hcl] at h
          have := ih h
          rw [show n + 1 + k + 1 = n + k + 1 + 1 by omega, List.cons_append, boundary, hcl]
          simp only [this, List.length_cons]
          omega
      · rw [depth?_loose ho hcl] at h
        have := ih h
        rw [List.cons_append, boundary]
        split
        · contradiction
        · contradiction
        · rw [this, List.length_cons]
          omega

/-- A boundary leaves no brace open that was opened on the way, except at the end. -/
theorem depth?_boundary (n : Nat) (ts : List Token) :
    ∃ k, depth? true n (ts.take (boundary n ts)) = some k ∧
      (k = 0 ∨ ts.drop (boundary n ts) = []) := by
  fun_induction boundary n ts <;> simp_all

/-- Tokens that close all their braces and end with a semicolon have a boundary of their own. -/
theorem boundary_closed {semicolon : Token} (hs : semicolon.kind = .semicolon)
    (h : unclosed n (ts ++ [semicolon]) = 0) :
    boundary n (ts ++ semicolon :: us) = boundary n (ts ++ [semicolon]) := by
  induction ts generalizing n with
  | nil =>
    obtain rfl : n = 0 := by simpa [hs] using h
    simp [hs]
  | cons t ts ih =>
    rw [List.cons_append, unclosed] at h
    cases n with
    | zero =>
      rw [List.cons_append, List.cons_append, boundary, boundary]
      split <;> simp_all
    | succ n =>
      rw [List.cons_append, List.cons_append, boundary, boundary]
      split <;> simp_all

end Parser
end LetLang
