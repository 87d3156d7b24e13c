import LetLang.Parser.Skipping
import Mathlib.Logic.Relation
import Mathlib.Order.Bounds.Basic

/-! Skipping stops at the first boundary of the block around.

Where skipping may stop can be said of the tokens alone: they close no brace in front of
it that they do not open, and there is nothing behind it, or no brace is open and a
semicolon or a closing brace stands there (`MayStop`). The boundary is the first such
place, and behind it if a semicolon stands there (`boundary_isLeast`). The loop with a
counter comes to the same place, and its counter, which is the number of braces open,
is never negative (`skipLoop_eq`, `nonneg_of_skipsOn`). So from every state, whatever
the braces ahead are, skipping consumes up to there and does nothing else
(`synchronize_stops`). -/
namespace LetLang.Parser
open Token (Kind)

def kindAt (ts : List Token) (k : Nat) : Option Kind := ts[k]?.map Token.kind

/-- Skipping may stop in front of token `k` if so many braces are open at first. -/
structure MayStop (opened : Int) (ts : List Token) (k : Nat) : Prop where
  inside : k ≤ ts.length
  nonneg : ∀ j ≤ k, 0 ≤ opened + balance (ts.take j)
  stops : k = ts.length ∨ opened + balance (ts.take k) = 0 ∧
    (kindAt ts k = some .semicolon ∨ kindAt ts k = some .closeCurly)

/-- How many tokens are skipped if the stop is in front of token `k`: a semicolon there is, too. -/
def skipped (ts : List Token) (k : Nat) : Nat :=
  if kindAt ts k = some .semicolon then k + 1 else k

variable {t : Token} {ts : List Token} {opened : Int} {n k : Nat} {s : State}

/-! ### One token -/

theorem balance_cons (t : Token) (ts : List Token) :
    balance (t :: ts) = balance [t] + balance ts := by
  simp only [balance, List.countP_cons, List.countP_nil]
  omega

theorem balance_open (h : t.kind = .openCurly) : balance [t] = 1 := by
  simp [balance, h]

theorem balance_close (h : t.kind = .closeCurly) : balance [t] = -1 := by
  simp [balance, h]

theorem balance_other (ho : t.kind ≠ .openCurly) (hc : t.kind ≠ .closeCurly) : balance [t] = 0 := by
  simp [balance, ho, hc]

/-- Only where no brace is open, a closing brace has none to close. -/
theorem opened_nonneg (ho : 0 ≤ opened) (h : ¬(opened = 0 ∧ t.kind = .closeCurly)) :
    0 ≤ opened + balance [t] := by
  by_cases hc : t.kind = .closeCurly
  · have hne : opened ≠ 0 := fun h0 => h ⟨h0, hc⟩
    rw [balance_close hc]
    omega
  · by_cases hopen : t.kind = .openCurly
    · rw [balance_open hopen]
      omega
    · rwa [balance_other hopen hc, Int.add_zero]

theorem boundary_cons {m : Nat} (hm : (m : Int) = n + balance [t])
    (hs : ¬(n = 0 ∧ t.kind = .semicolon)) : boundary n (t :: ts) = boundary m ts + 1 := by
  cases n with
  | zero =>
    rw [boundary]
    split
    · exact absurd ⟨rfl, ‹_›⟩ hs
    · rw [balance_close ‹_›] at hm
      omega
    · rw [balance_open ‹_›] at hm
      obtain rfl : m = 1 := by omega
      rfl
    · rw [balance_other ‹_› ‹_›] at hm
      obtain rfl : m = 0 := by omega
      rfl
  | succ n =>
    rw [boundary]
    split
    · rw [balance_close ‹_›] at hm
      obtain rfl : m = n := by omega
      rfl
    · rw [balance_open ‹_›] at hm
      obtain rfl : m = n + 2 := by omega
      rfl
    · rw [balance_other ‹_› ‹_›] at hm
      obtain rfl : m = n + 1 := by omega
      rfl

/-! ### The first place to stop -/

/-- In front of the first token. -/
theorem mayStop_zero :
    MayStop opened (t :: ts) 0 ↔ opened = 0 ∧ (t.kind = .semicolon ∨ t.kind = .closeCurly) := by
  constructor
  · intro h
    simpa [balance, kindAt] using h.stops
  · rintro ⟨rfl, h⟩
    refine ⟨Nat.zero_le _, fun j hj => ?_, .inr ⟨rfl, by simpa [kindAt] using h⟩⟩
    obtain rfl := Nat.le_zero.1 hj
    exact Int.le_refl 0

/-- Behind the first token. -/
theorem mayStop_succ (ho : 0 ≤ opened) :
    MayStop opened (t :: ts) (k + 1) ↔ MayStop (opened + balance [t]) ts k := by
  have hadd : ∀ us, opened + balance (t :: us) = opened + balance [t] + balance us := by
    intro us
    rw [balance_cons, Int.add_assoc]
  constructor
  · intro h
    refine ⟨Nat.le_of_succ_le_succ h.inside, fun j hj => ?_, ?_⟩
    · rw [← hadd, ← List.take_succ_cons]
      exact h.nonneg (j + 1) (Nat.succ_le_succ hj)
    · rw [← hadd, ← List.take_succ_cons]
      exact h.stops.imp_left Nat.succ.inj
  · intro h
    refine ⟨Nat.succ_le_succ h.inside, fun j hj => ?_, ?_⟩
    · cases j with
      | zero => simpa [balance] using ho
      | succ j =>
        rw [List.take_succ_cons, hadd]
        exact h.nonneg j (Nat.le_of_succ_le_succ hj)
    · rw [List.take_succ_cons, hadd]
      exact h.stops.imp_left (congrArg Nat.succ)

/-- Where skipping may not stop at once, it stops where it does behind the first token. -/
theorem isLeast_succ (ho : 0 ≤ opened) (h0 : ¬MayStop opened (t :: ts) 0)
    (h : IsLeast {k | MayStop (opened + balance [t]) ts k} k) :
    IsLeast {k | MayStop opened (t :: ts) k} (k + 1) := by
  refine ⟨(mayStop_succ ho).2 h.1, fun j hj => ?_⟩
  cases j with
  | zero => exact absurd hj h0
  | succ j => exact Nat.succ_le_succ (h.2 ((mayStop_succ ho).1 hj))

/-- The boundary is the first place to stop, or behind it. -/
theorem boundary_isLeast (n : Nat) (ts : List Token) :
    ∃ k, IsLeast {k | MayStop n ts k} k ∧ boundary n ts = skipped ts k := by
  induction ts generalizing n with
  | nil =>
    refine ⟨0, ⟨⟨Nat.le_refl 0, fun j _ => ?_, .inl rfl⟩, fun _ _ => Nat.zero_le _⟩,
      by cases n <;> rfl⟩
    simp [balance]
  | cons t ts ih =>
    by_cases h0 : MayStop n (t :: ts) 0
    · refine ⟨0, ⟨h0, fun _ _ => Nat.zero_le _⟩, ?_⟩
      obtain ⟨hn, hk⟩ := mayStop_zero.1 h0
      obtain rfl : n = 0 := by omega
      rcases hk with hk | hk <;> simp [boundary, skipped, kindAt, hk]
    · have hn : (0 : Int) ≤ n := Int.natCast_nonneg n
      obtain ⟨m, hm⟩ := Int.eq_ofNat_of_zero_le (opened_nonneg (t := t) hn fun h =>
        h0 (mayStop_zero.2 ⟨h.1, .inr h.2⟩))
      obtain ⟨k, hk, hb⟩ := ih m
      refine ⟨k + 1, isLeast_succ hn h0 (hm ▸ hk), ?_⟩
      rw [boundary_cons hm.symm fun h => h0 (mayStop_zero.2 ⟨by omega, .inl h.2⟩), hb, skipped,
        skipped, show kindAt (t :: ts) (k + 1) = kindAt ts k from rfl]
      split <;> rfl

/-! ### The loop -/

/-- A turn that goes on counts the braces and keeps the counter from going below zero. -/
theorem nonneg_of_skipsOn {before after : Int × State} (h : SkipsOn before after)
    (hn : 0 ≤ before.1) : 0 ≤ after.1 := by
  obtain ⟨counter, s⟩ := before
  obtain ⟨next, u⟩ := after
  cases hs : s.ahead with
  | nil =>
    rw [SkipsOn, run_skipTurn_nil hs] at h
    cases h
  | cons t ts =>
    rw [SkipsOn, run_skipTurn_cons hs] at h
    split at h
    · cases h
    · split at h <;> cases h
      exact opened_nonneg hn ‹_›

/-- The loop stops at the boundary. -/
theorem skipLoop_eq (n : Nat) (s : State) :
    ∃ counter, (skipLoop n).run s = .ok counter (s.advanceBy (boundary n s.ahead)) := by
  generalize hts : s.ahead = ts
  induction ts generalizing n s with
  | nil =>
    refine ⟨n, ?_⟩
    rw [skipLoop, run_iterate, run_skipTurn_nil hts, show boundary n [] = 0 by cases n <;> rfl]
    rfl
  | cons t ts ih =>
    rw [skipLoop, run_iterate, run_skipTurn_cons hts]
    by_cases hsemicolon : (n : Int) = 0 ∧ t.kind = .semicolon
    · obtain ⟨hn, hk⟩ := hsemicolon
      obtain rfl : n = 0 := by omega
      rw [if_pos ⟨hn, hk⟩]
      exact ⟨0, by simp [boundary, hk, State.advanceBy]⟩
    · rw [if_neg hsemicolon]
      by_cases hclose : (n : Int) = 0 ∧ t.kind = .closeCurly
      · obtain ⟨hn, hk⟩ := hclose
        obtain rfl : n = 0 := by omega
        rw [if_pos ⟨hn, hk⟩]
        exact ⟨0, by simp [boundary, hk, State.advanceBy]⟩
      · obtain ⟨m, hm⟩ := Int.eq_ofNat_of_zero_le (opened_nonneg (Int.natCast_nonneg n) hclose)
        have hahead : s.advance.ahead = ts := by rw [State.ahead_advance, hts, List.tail_cons]
        rw [if_neg hclose, hm, boundary_cons hm.symm fun h => hsemicolon ⟨by omega, h.2⟩]
        exact ih m s.advance hahead

/-- Skipping tokens changes nothing but what is left and where the last one ended. -/
theorem advanceBy_eq (n : Nat) (s : State) :
    s.advanceBy n = { s with
      ahead := s.ahead.drop n
      lastEnd := (s.advanceBy n).lastEnd
      consumed := s.consumed + n } := by
  induction n generalizing s with
  | zero => rfl
  | succ n ih =>
    rw [State.advanceBy, ih s.advance]
    simp [State.advance, Nat.add_assoc, Nat.add_comm 1 n]

/-- Among the tokens ahead and the end behind them there is a first place where skipping may stop:
the braces in front of it close none but those that open there, and either they close all of those
and a semicolon or a closing brace stands at the place, or the end does. Skipping, as a whole or by
a loop whose counter is never negative, consumes what stands in front of that place and a semicolon
there, and leaves the reports and the levels as they are. -/
theorem synchronize_stops (s : State) :
    ∃ k t, IsLeast {k | MayStop 0 s.ahead k} k ∧
      synchronize.run s = .ok () t ∧
      ((∃ counter, (skipLoop 0).run s = .ok counter t) ∧
        ∀ counter u, Relation.ReflTransGen SkipsOn (0, s) (counter, u) → 0 ≤ counter) ∧
      (t.ahead = s.ahead.drop (skipped s.ahead k) ∧
        t.consumed = s.consumed + skipped s.ahead k ∧ skipped s.ahead k ≤ s.ahead.length) ∧
      t.reported = s.reported ∧ t.depth = s.depth ∧ t.deepest = s.deepest := by
  obtain ⟨k, hk, hboundary⟩ := boundary_isLeast 0 s.ahead
  refine ⟨k, s.synchronized, hk, rfl, ⟨skipLoop_eq 0 s, fun counter u h => ?_⟩, ?_⟩
  · -- The counter starts at zero, and no turn takes it below.
    generalize hlast : (counter, u) = last at h
    suffices 0 ≤ last.1 by rwa [← hlast] at this
    clear hlast
    induction h with
    | refl => exact Int.le_refl 0
    | tail _ hturn ih => exact nonneg_of_skipsOn hturn ih
  · rw [← hboundary, State.synchronized, advanceBy_eq]
    exact ⟨⟨rfl, rfl, boundary_le ..⟩, rfl, rfl, rfl⟩

end LetLang.Parser
