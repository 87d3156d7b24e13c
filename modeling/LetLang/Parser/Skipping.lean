import LetLang.Parser.Recovery

/-! Skipping to the next boundary token by token.

A loop keeps a counter of the braces that are open. It takes one token a turn, until it
comes to a boundary or no token is left. The counter is an integer: nothing in the loop
holds it at zero when a brace closes. -/
namespace LetLang.Parser

/-- One turn of the loop: the counter for the next turn, or nothing at a boundary. -/
def skipTurn (counter : Int) : Parser (Option Int) := do
  match ← next? with
  | none => return none
  | some t =>
    match t.kind with
    | .semicolon =>
      let _ ← advance
      return if counter = 0 then none else some counter
    | .closeCurly =>
      if counter = 0 then return none
      let _ ← advance
      return some (counter - 1)
    | .openCurly =>
      let _ ← advance
      return some (counter + 1)
    | _ =>
      let _ ← advance
      return some counter

/-- How many more braces the tokens open than they close. -/
def balance (ts : List Token) : Int :=
  ts.countP (fun t => t.kind = .openCurly) - ts.countP (fun t => t.kind = .closeCurly)

theorem run_skipTurn_nil {s : State} (h : s.ahead = []) (counter : Int) :
    (skipTurn counter).run s = .ok none s := by
  simp [skipTurn, run_bind, h]

theorem run_skipTurn_cons {s : State} {t : Token} {ts : List Token} (h : s.ahead = t :: ts)
    (counter : Int) :
    (skipTurn counter).run s =
      if counter = 0 ∧ t.kind = .semicolon then .ok none s.advance
      else if counter = 0 ∧ t.kind = .closeCurly then .ok none s
      else .ok (some (counter + balance [t])) s.advance := by
  simp only [skipTurn, run_bind, run_next?, h, List.head?_cons]
  split <;> rename_i hk
  · by_cases hc : counter = 0 <;> simp [hk, hc, run_bind, balance]
  · by_cases hc : counter = 0 <;> simp [hk, hc, run_bind, balance, Int.sub_eq_add_neg]
  · simp [hk, run_bind, balance]
  · simp_all [run_bind, balance]

theorem skipTurn_advances (counter : Int) : (skipTurn counter).Advances := by
  intro s next t h
  cases hs : s.ahead with
  | nil =>
    rw [run_skipTurn_nil hs] at h
    cases h
  | cons token rest =>
    rw [run_skipTurn_cons hs] at h
    split at h
    · cases h
    · split at h <;> cases h
      exact hs ▸ State.length_ahead_advance_lt (by simp [hs])

/-- Skips to the next boundary, and finds how many braces are still open there. -/
def skipLoop (counter : Int) : Parser Int := iterate skipTurn skipTurn_advances counter

/-- A turn that the loop goes on from: the counter and the state before it and after it. -/
def SkipsOn (before after : Int × State) : Prop :=
  (skipTurn before.1).run before.2 = .ok (some after.1) after.2

end LetLang.Parser
