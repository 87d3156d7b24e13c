import LetLang.Parse
import LetLang.Proofs.Unlimited

/-! The parser that stops at its first mistake.

It is made of the same constructs, but it does not recover, it leaves the levels open
in which it fails, and it looks at the size of an integer before it takes it. So its
last state is the one in which the mistake is made, with the tokens consumed so far
and the levels open then. Up to there the two parsers are in the same state
(`strictLevel_stopping`), and the mistake is the first that is reported
(`program_stopping`). -/
namespace LetLang
namespace Parser
open Token (Kind)

variable {α : Type}

/-- Opens a level for as long as `p` runs, and leaves it open where `p` fails. -/
def openly (p : Parser α) : Parser α where
  run s :=
    match p.run s.opened with
    | .ok a t => .ok a t.closed
    | .error d t => .error d t
  steps s := by
    have hp := (State.Steps.refl s).opened.trans (p.steps s.opened)
    split
    · rename_i a t h
      rw [h] at hp
      exact hp.closed
    · rename_i d t h
      rw [h] at hp
      exact hp
  unseen s more finish hs := by
    have hp := p.unseen s.opened more finish
    have he : (s.extend more finish).opened = s.opened.extend more finish := rfl
    rw [he]
    split at hs
    · rename_i a t h
      rw [h] at hp
      rw [hp hs]
      rfl
    · rename_i d t h
      rw [h] at hp
      rw [hp hs]
      rfl

theorem consumes_openly {p : Parser α} (hp : p.Consumes) : (openly p).Consumes := by
  intro s a u h
  simp only [openly] at h
  split at h
  · rename_i b t ht
    injection h with _ hu
    exact hu ▸ hp s.opened b t ht
  · simp at h

/-- An integer that no literal can hold. -/
def Oversized (t : Token) : Prop := t.kind = .integer ∧ maxInteger < t.value

instance (t : Token) : Decidable (Oversized t) := inferInstanceAs (Decidable (_ ∧ _))

/-- Fails in front of an integer that is too large. -/
def guarded (p : Parser α) : Parser α := do
  let t ← current
  if Oversized t then failHere (.integerTooLarge t.literal) else p

theorem consumes_guarded {p : Parser α} (hp : p.Consumes) : (guarded p).Consumes := by
  refine consumes_bind_right _ fun t => ?_
  split
  · exact consumes_failHere _
  · exact hp

section
variable (inner : Level)

/-- The next statement, unless the list ends before the token ahead. -/
def statementUpTo (ends : Option Token → Bool) : Parser (Option Stmt) := do
  if ends (← next?) then return none else return some (← statement inner)

theorem statementUpTo_advances (ends : Option Token → Bool) :
    (statementUpTo inner ends).Advances := by
  intro s x u hu
  simp only [statementUpTo, run_bind, run_next?] at hu
  split at hu
  · simp at hu
  · simp only [run_bind] at hu
    split at hu
    · rename_i y v hv
      simp only [run_pure, Result.ok.injEq] at hu
      exact hu.2 ▸ statement_consumes inner s y v hv
    · simp at hu

def statementsUpTo (ends : Option Token → Bool) : Parser (List Stmt) :=
  many (statementUpTo inner ends) (statementUpTo_advances inner ends)

def strictBlock : Parser Block := do
  let t ← expect .openCurly
  let body ← statementsUpTo inner blockEnds
  let _ ← expect .closeCurly
  return .mk t body ⟨t.start, ← lastEnd⟩

theorem strictBlock_consumes : (strictBlock inner).Consumes :=
  consumes_bind_left (consumes_expect (by simp)) _

def strictProgram : Parser Program := do
  return ⟨← statementsUpTo inner Option.isNone⟩

end

def strictLevel (limit : Nat) : Nat → Level
  | 0 => level limit 0
  | n + 1 =>
    let inner := strictLevel limit n
    { expr := fun bound => openly (guarded (expression inner bound))
      block := openly (strictBlock inner)
      expr_consumes := fun bound =>
        consumes_openly (consumes_guarded (expression_consumes inner bound))
      block_consumes := consumes_openly (strictBlock_consumes inner) }

/-! ### Both parsers up to the first mistake -/

/-- The first run made a mistake, and the second went on from there and reports the mistake next after
what was reported before. -/
def stopped (base : List Diagnostic) : Parting where
  parted r r' := ∃ d u, r = .error d u ∧ u.reported.toList = base ∧ State.Steps u r'.state ∧
    base ++ [d] <+: r'.reports
  parted_bind := by
    rintro α β γ δ p q f g s s' ⟨d, u, hr, hbase, hsteps, hreports⟩
    exact ⟨d, u, by rw [run_bind, hr], hbase, hsteps.trans (steps_bind q g s'),
      hreports.trans (reports_bind q g s')⟩

/-- Both runs have `depth` levels open, and neither has reported anything since `base`. -/
def stopping (base : List Diagnostic) (depth : Nat) : Simulation :=
  .exactly (fun s => s.reported.toList = base ∧ s.depth = depth) (fun _ h => h) (stopped base)

variable {base : List Diagnostic} {depth : Nat} {V : α → α → Prop} {p q : Parser α}

/-- A mistake that both make stops the first. -/
theorem stopped_of_error {β : Type} {d d' : Diagnostic} {s s' : State} {r' : Result β}
    (hd : (stopping base depth).diagnostic d d') (hs : (stopping base depth).states s s')
    (hsteps : State.Steps s' r'.state) (hr' : s'.reported.toList ++ [d'] <+: r'.reports) :
    (stopped base).parted (.error d s : Result α) r' := by
  obtain ⟨rfl, hbase, -⟩ := hs
  obtain rfl := Likeness.eq_of_diagnostic hd
  exact ⟨d, s, rfl, hbase, hsteps, hbase ▸ hr'⟩

theorem openly_stopping (h : (stopping base (depth + 1)).holds V p q) :
    (stopping base depth).holds V (openly p) (nest q) := by
  rintro s _ ⟨rfl, hbase, rfl⟩
  have hends := h s.opened s.opened ⟨rfl, hbase, rfl⟩
  simp only [openly, nest]
  generalize p.run s.opened = r, q.run s.opened = r' at hends ⊢
  rcases hends with htogether | hparted
  · cases htogether with
    | ok hv ht =>
      obtain ⟨rfl, hbase, hdepth⟩ := ht
      exact .inl (.ok hv ⟨rfl, hbase, by simp [State.closed, hdepth]⟩)
    | error hd ht =>
      exact .inr (stopped_of_error hd ht (State.Steps.refl _).closed (List.prefix_refl _))
  · obtain ⟨d, u, rfl, hu, hsteps, hreports⟩ := hparted
    refine .inr ⟨d, u, rfl, hu, ?_, ?_⟩
    · cases r' <;> exact hsteps.closed
    · cases r' <;> exact hreports

theorem run_oversized {inner : Level} {bound : Power} {s : State} (h : Oversized s.current) :
    (expression inner bound).run s =
      .error ⟨.integerTooLarge s.current.literal, s.position⟩ s.advance := by
  obtain ⟨hk, hv⟩ := h
  have hliteral : literal.run s =
      .error ⟨.integerTooLarge s.current.literal, s.position⟩ s.advance := by
    simp only [literal, run_bind, run_advance, hk, if_neg (Nat.not_le_of_lt hv)]
    rfl
  simp only [expression, operand, run_bind, run_current, hk, operand?, hliteral]

section
variable {inner inner' : Level} (hi : (stopping base depth).Levels inner inner')
include hi

theorem guarded_stopping (bound : Power) :
    (stopping base depth).holds (stopping base depth).expr (guarded (expression inner bound))
      (expression inner' bound) := by
  rintro s _ ⟨rfl, hbase, hdepth⟩
  by_cases hlarge : Oversized s.current
  · have hrun : (guarded (expression inner bound)).run s =
        .error ⟨.integerTooLarge s.current.literal, s.position⟩ s := by
      simp only [guarded, run_bind, run_current, if_pos hlarge, run_failHere]
    rw [hrun, run_oversized hlarge]
    exact .inr ⟨_, s, rfl, hbase, (State.Steps.refl s).advance, hbase ▸ List.prefix_refl _⟩
  · have hrun : (guarded (expression inner bound)).run s = (expression inner bound).run s := by
      simp only [guarded, run_bind, run_current, if_neg hlarge]
    rw [hrun]
    exact (stopping base depth).expression_holds hi bound s s ⟨rfl, hbase, hdepth⟩

/-- Recovering makes no difference before there is a mistake. -/
theorem recovering_stopping (resume : Parser Unit) :
    (stopping base depth).holds (fun x y => ∃ x', y = some x' ∧ (stopping base depth).stmt x x')
      (statement inner) (recovering (statement inner') resume) := by
  intro s s' hs
  have hreports := reports_recovering (statement inner') resume s'
  have hresumed := steps_recovering (statement inner') resume s'
  rcases (stopping base depth).statement_holds hi s s' hs with htogether | hparted
  · generalize hp : (statement inner).run s = r, hq : (statement inner').run s' = r' at htogether
    cases htogether with
    | ok hv ht =>
      rw [run_recovering, hq]
      exact .inl (.ok ⟨_, rfl, hv⟩ ht)
    | error hd ht =>
      rw [hq] at hreports hresumed
      exact .inr (stopped_of_error hd ht hresumed hreports)
  · obtain ⟨d, u, hr, hu, hsteps, hprefix⟩ := hparted
    exact .inr ⟨d, u, hr, hu, hsteps.trans hresumed, hprefix.trans hreports⟩

omit hi in
theorem bind_pure_self {β : Type} (p : Parser β) : (p >>= pure) = p := by
  apply Parser.ext
  funext s
  rw [run_bind]
  cases p.run s <;> rfl

/-- Nothing is left out where nothing fails. -/
theorem statementsUpTo_stopping {ends : Option Token → Bool} {resume : Parser Unit}
    {ha : (statementUnless inner' ends resume).Advances} :
    (stopping base depth).holds (List.Forall₂ (stopping base depth).stmt)
      (statementsUpTo inner ends)
      (many (statementUnless inner' ends resume) ha >>= fun found => pure (found.filterMap id)) := by
  have hnext : (stopping base depth).holds Eq next? next? := by
    rintro s _ ⟨rfl, hs⟩
    exact .inl (.ok rfl ⟨rfl, hs⟩)
  have hstep : (stopping base depth).holds
      (Option.Rel fun x y => ∃ x', y = some x' ∧ (stopping base depth).stmt x x')
      (statementUpTo inner ends) (statementUnless inner' ends resume) := by
    refine Simulation.holds_bind hnext fun x _ hx => ?_
    subst hx
    split
    · exact Simulation.holds_pure .none
    · exact Simulation.holds_bind (recovering_stopping hi resume) fun _ _ h =>
        Simulation.holds_pure (.some h)
  rw [← bind_pure_self (statementsUpTo inner ends)]
  refine Simulation.holds_bind (Simulation.holds_many hstep) fun xs found h => ?_
  refine Simulation.holds_pure ?_
  induction h with
  | nil => exact .nil
  | cons hx _ ih =>
    obtain ⟨x', rfl, hx⟩ := hx
    exact .cons hx ih

theorem strictBlock_stopping :
    (stopping base depth).holds (stopping base depth).block (strictBlock inner) (block inner') := by
  refine Simulation.holds_bind (Simulation.expect_holds _ _) fun _ _ ht => ?_
  refine Simulation.holds_bind (statementsUpTo_stopping hi) fun _ _ hxs => ?_
  refine Simulation.holds_bind (Simulation.expect_holds _ _) fun _ _ _ => ?_
  refine Simulation.holds_bind (Simulation.lastEnd_holds _) fun _ _ hl => ?_
  exact Simulation.holds_pure (.mk ht hxs ⟨congrArg Token.start ht, hl⟩)

theorem strictProgram_stopping :
    (stopping base depth).holds (stopping base depth).program (strictProgram inner)
      (program inner') := by
  have hrun : program inner' = (many (statementUnless inner' Option.isNone resumeOutside)
      (statementUnless_advances inner' resumeOutside_resumes) >>= fun found =>
        pure (found.filterMap id)) >>= fun xs => pure ⟨xs⟩ := by
    apply Parser.ext
    funext s
    simp only [program, run_bind]
    cases (many (statementUnless inner' Option.isNone resumeOutside)
      (statementUnless_advances inner' resumeOutside_resumes)).run s <;> rfl
  rw [hrun]
  refine Simulation.holds_bind (statementsUpTo_stopping hi) fun _ _ hxs => ?_
  exact Simulation.holds_pure hxs

end

/-- The two parsers stay in the same state until the first makes a mistake, and then the second
reports it. -/
theorem strictLevel_stopping (limit n : Nat) (base : List Diagnostic) (depth : Nat) :
    (stopping base depth).Levels (strictLevel limit n) (level limit n) := by
  induction n generalizing depth with
  | zero =>
    exact ⟨fun _ => Simulation.failHere_holds _ .tooDeep, Simulation.failHere_holds _ .tooDeep⟩
  | succ n ih =>
    exact ⟨fun bound => openly_stopping (guarded_stopping (ih (depth + 1)) bound),
      openly_stopping (strictBlock_stopping (ih (depth + 1)))⟩

/-! ### The first mistake -/

/-- A run up to the first mistake. -/
def untilMistake (limit : Nat) (s : State) : Result Program :=
  (strictProgram (strictLevel limit limit)).run s

/-- The mistake that the strict parser stops at is the first that is reported, and nothing is reported
if it makes none. The parser has been where the strict one stops, so it had as many levels open. -/
theorem untilMistake_reports (limit : Nat) (tokens : List Token) (finish : Position) :
    match untilMistake limit (.ofTokens tokens finish) with
    | .ok p _ => (parseTokens limit tokens finish).diagnostics = [] ∧
        (parseTokens limit tokens finish).program = p
    | .error d u => (parseTokens limit tokens finish).diagnostics.head? = some d ∧
        u.reported = #[] ∧ u.depth ≤ (parseTokens limit tokens finish).deepest := by
  obtain ⟨p, t, hrun, hparse⟩ := parseTokens_eq limit tokens finish
  have hends := strictProgram_stopping (strictLevel_stopping limit limit [] 0)
    (.ofTokens tokens finish) _ ⟨rfl, rfl, rfl⟩
  rw [hparse]
  rw [hrun] at hends
  rcases hends with htogether | ⟨d, u, hr, hu, hsteps, hreports⟩
  · obtain ⟨heq, hreported, -⟩ :=
      Simulation.eq_of_together htogether fun _ _ => Likeness.eq_of_program
    rw [untilMistake, heq]
    rw [heq] at hreported
    exact ⟨hreported, rfl⟩
  · rw [untilMistake, hr]
    obtain ⟨ds, hds⟩ := hreports
    have hdepth : u.depth ≤ u.deepest := by
      have hrun := (strictProgram (strictLevel limit limit)).steps (.ofTokens tokens finish)
      rw [hr] at hrun
      exact State.Steps.depth_le hrun (Nat.le_refl _)
    refine ⟨?_, Array.toList_eq_nil_iff.1 hu, Nat.le_trans hdepth hsteps.deepest_le⟩
    show t.reported.toList.head? = some d
    rw [show t.reported.toList = [] ++ [d] ++ ds from hds.symm]
    rfl

end Parser
end LetLang
