import LetLang.Parse
import LetLang.Proofs.Simulation

/-! The limit on nesting changes nothing but what it must.

`unlimited` is the level that is made of itself (`unlimited_expr`,
`unlimited_block`): nothing counts how many of it are open. It exists because a
token is consumed between two openings, so a level that may be opened more often
than there are tokens is never used up. A parser with a limit either finds what
`unlimited` finds, and then the limit was not exceeded, or it refuses something,
and then it was (`parseWithin_unlimited`). -/
namespace LetLang
namespace Parser
open Token (Kind)

/-! ### Levels that are deep enough -/

/-- Both runs stand at the same of fewer than `n` tokens. -/
def shorter (n : Nat) : Simulation :=
  .exactly (fun s => s.ahead.length < n)
    (fun s h => Nat.lt_of_le_of_lt (List.tail_suffix s.ahead).length_le h)
    .never

theorem shorter_recovers (n : Nat) : (shorter n).Recovers :=
  Simulation.exactly_recovers (fun _ _ h => h) False.elim

variable {α : Type} {V : α → α → Prop} {n : Nat} {p q : Parser α} {s : State}

theorem run_eq (h : (shorter n).Ends V (p.run s) (q.run s)) (hV : ∀ a b, V a b → a = b) :
    p.run s = q.run s := by
  rcases h with htogether | hparted
  · exact (Simulation.eq_of_together htogether hV).1
  · exact hparted.elim

/-- No run adds to the tokens ahead. -/
theorem ends_shorter {k : Nat} (h : (shorter k).Ends V (p.run s) (q.run s))
    (hs : s.ahead.length < n) : (shorter n).Ends V (p.run s) (q.run s) := by
  have hlength := (p.forward s).length_le
  rcases h with htogether | hparted
  · generalize p.run s = r, q.run s = r' at htogether hlength ⊢
    cases htogether with
    | ok hv ht => exact .inl (.ok hv ⟨ht.1, Nat.lt_of_le_of_lt hlength hs⟩)
    | error hd ht => exact .inl (.error hd ⟨ht.1, Nat.lt_of_le_of_lt hlength hs⟩)
  · exact hparted.elim

theorem ends_nest (h : (shorter n).Ends V (p.run s.opened) (q.run s.opened)) :
    (shorter n).Ends V ((nest p).run s) ((nest q).run s) := by
  simp only [nest]
  rcases h with htogether | hparted
  · generalize p.run s.opened = r, q.run s.opened = r' at htogether ⊢
    cases htogether with
    | ok hv ht => exact .inl (.ok hv ⟨congrArg State.closed ht.1, ht.2⟩)
    | error hd ht => exact .inl (.error hd ⟨congrArg State.closed ht.1, ht.2⟩)
  · exact hparted.elim

section
variable {inner inner' : Level} (hi : (shorter n).Levels inner inner')
include hi

/-- An expression opens nothing before it has consumed a token. -/
theorem expression_ends (bound : Power) (hs : s.ahead.length < n + 1) :
    (shorter (n + 1)).Ends Likeness.exact.expr ((expression inner bound).run s)
      ((expression inner' bound).run s) := by
  let S : State → State → Prop := fun s s' => s = s' ∧ s.ahead ≠ [] ∧ s.ahead.length < n + 1
  have hS : (shorter n).From S (shorter n).token advance advance := by
    rintro s _ ⟨rfl, hne, hlength⟩
    have hlt : s.advance.ahead.length < n :=
      Nat.lt_of_lt_of_le (State.length_ahead_advance_lt hne) (Nat.le_of_lt_succ hlength)
    exact .inl (.ok rfl ⟨rfl, hlt⟩)
  have hoperand := (shorter n).operand?_holds hi hS s.current.kind
  have hne : (operand? inner s.current.kind).isSome → s.ahead ≠ [] := by
    intro hsome hnil
    simp [State.current, hnil, State.endToken, Token.endOfInput, operand?] at hsome
  have hrun : ∀ inner p, operand? inner s.current.kind = p →
      (operand inner).run s = (p.getD (failHere (noOperand s.current))).run s := by
    rintro inner p rfl
    simp only [operand, run_bind, run_current]
    cases operand? inner s.current.kind <;> rfl
  rw [expression, expression, run_bind, run_bind]
  generalize hp : operand? inner s.current.kind = p, hq : operand? inner' s.current.kind = q
    at hoperand hne
  rw [hrun inner p hp, hrun inner' q hq, ← run_bind, ← run_bind]
  cases hoperand with
  | none =>
    have hproblem := (shorter n).problem_noOperand (t := s.current) rfl
    exact .inl (.error ⟨hproblem, rfl⟩ ⟨rfl, hs⟩)
  | some h =>
    refine ends_shorter (k := n) ?_ hs
    refine Simulation.ends_bind (h s s ⟨rfl, hne rfl, hs⟩) fun l l' t t' hl _ ht => ?_
    exact Simulation.holds_iterate (fun _ _ he => (shorter n).operatorAbove_holds hi he bound) hl
      t t' ht

/-- Nor does a block, which begins with a brace. -/
theorem block_ends (hs : s.ahead.length < n + 1) :
    (shorter (n + 1)).Ends Likeness.exact.block ((block inner).run s) ((block inner').run s) := by
  by_cases hk : s.current.kind = .openCurly
  · let S : State → State → Prop := fun s s' =>
      s = s' ∧ s.current.kind = .openCurly ∧ s.ahead.length < n + 1
    have hS : (shorter n).From S (shorter n).token (expect .openCurly) (expect .openCurly) := by
      rintro s _ ⟨rfl, hk, hlength⟩
      have hne := State.ahead_ne_nil (s := s) (by simp [hk])
      have hlt : s.advance.ahead.length < n :=
        Nat.lt_of_lt_of_le (State.length_ahead_advance_lt hne) (Nat.le_of_lt_succ hlength)
      rw [run_expect, if_pos hk]
      exact .inl (.ok rfl ⟨rfl, hlt⟩)
    exact ends_shorter ((shorter_recovers n).block_holds hi hS s s ⟨rfl, hk, hs⟩) hs
  · have hrun : ∀ inner, (block inner).run s =
        .error ⟨.unexpected .openCurly s.current.kind s.current.literal, s.position⟩ s := by
      intro inner
      rw [block, run_bind, run_expect, if_neg hk]
    rw [hrun, hrun]
    exact .inl (.error ⟨.unexpected ⟨_, _, rfl, rfl, rfl⟩, rfl⟩ ⟨rfl, hs⟩)

end

/-- What may be opened more often than there are tokens is as good as any other such thing. -/
theorem level_levels (limit limit' : Nat) {j k : Nat} (hj : n ≤ j) (hk : n ≤ k) :
    (shorter n).Levels (level limit j) (level limit' k) := by
  induction n generalizing j k with
  | zero =>
    exact ⟨fun _ _ _ h => absurd h.2 (Nat.not_lt_zero _),
      fun _ _ h => absurd h.2 (Nat.not_lt_zero _)⟩
  | succ n ih =>
    obtain ⟨j, rfl⟩ := Nat.exists_eq_add_of_le' hj
    obtain ⟨k, rfl⟩ := Nat.exists_eq_add_of_le' hk
    have hi : (shorter n).Levels (level limit (j + n)) (level limit' (k + n)) :=
      ih (Nat.le_add_left n j) (Nat.le_add_left n k)
    constructor
    · rintro bound s _ ⟨rfl, hs⟩
      exact ends_nest (expression_ends hi bound hs)
    · rintro s _ ⟨rfl, hs⟩
      exact ends_nest (block_ends hi hs)

/-! ### The level that is made of itself -/

/-- A parser of the level that may be opened once more than there are tokens. -/
def deepEnough (p : Level → Parser α)
    (hp : ∀ s n, s.ahead.length < n →
      (p (level 0 n)).run s = (p (level 0 (s.ahead.length + 1))).run s) :
    Parser α where
  run s := (p (level 0 (s.ahead.length + 1))).run s
  steps s := (p _).steps s
  unseen s more finish hs := by
    have hle : s.ahead.length < (s.extend more finish).ahead.length + 1 := by
      simp only [State.extend, List.length_append]
      omega
    rw [← hp s _ hle] at hs ⊢
    exact (p _).unseen s more finish hs

theorem level_expr_run (bound : Power) (s : State) (n : Nat) (h : s.ahead.length < n) :
    ((level 0 n).expr bound).run s = ((level 0 (s.ahead.length + 1)).expr bound).run s :=
  run_eq ((level_levels 0 0 h (Nat.le_refl _)).expr bound s s ⟨rfl, Nat.lt_succ_self _⟩)
    fun _ _ => Likeness.eq_of_expr

theorem level_block_run (s : State) (n : Nat) (h : s.ahead.length < n) :
    (level 0 n).block.run s = (level 0 (s.ahead.length + 1)).block.run s :=
  run_eq ((level_levels 0 0 h (Nat.le_refl _)).block s s ⟨rfl, Nat.lt_succ_self _⟩)
    fun _ _ => Likeness.eq_of_block

def unlimited : Level where
  expr bound := deepEnough (fun l => l.expr bound) (level_expr_run bound)
  block := deepEnough (fun l => l.block) level_block_run
  expr_consumes bound s := ((level 0 (s.ahead.length + 1)).expr_consumes bound) s
  block_consumes s := (level 0 (s.ahead.length + 1)).block_consumes s

/-- On fewer than `n` tokens, `n` levels are as good as any number. -/
theorem level_unlimited (limit n : Nat) : (shorter n).Levels (level limit n) unlimited := by
  constructor
  · rintro bound s _ ⟨rfl, hs⟩
    have hlevels := level_levels limit 0 hs (Nat.le_refl _)
    exact ends_shorter (hlevels.expr bound s s ⟨rfl, Nat.lt_succ_self _⟩) hs
  · rintro s _ ⟨rfl, hs⟩
    have hlevels := level_levels limit 0 hs (Nat.le_refl _)
    exact ends_shorter (hlevels.block s s ⟨rfl, Nat.lt_succ_self _⟩) hs

theorem unlimited_expr (bound : Power) : unlimited.expr bound = nest (expression unlimited bound) := by
  apply Parser.ext
  funext s
  have hi := level_unlimited 0 s.ahead.length
  have hends := ends_nest (expression_ends hi bound (s := s.opened) (Nat.lt_succ_self _))
  exact run_eq (p := nest (expression (level 0 s.ahead.length) bound)) hends fun _ _ =>
    Likeness.eq_of_expr

theorem unlimited_block : unlimited.block = nest (block unlimited) := by
  apply Parser.ext
  funext s
  have hi := level_unlimited 0 s.ahead.length
  have hends := ends_nest (block_ends hi (s := s.opened) (Nat.lt_succ_self _))
  exact run_eq (p := nest (block (level 0 s.ahead.length))) hends fun _ _ => Likeness.eq_of_block

/-! ### What is reported and how deep it went -/

/-- All that was reported, the mistake included that the run ended with. -/
def Result.reports : Result α → List Diagnostic
  | .ok _ s => s.reported.toList
  | .error d s => s.reported.toList ++ [d]

theorem reports_bind {β : Type} (p : Parser α) (f : α → Parser β) (s : State) :
    (p.run s).reports <+: ((p >>= f).run s).reports := by
  rw [run_bind]
  cases p.run s with
  | error d t => exact List.prefix_refl _
  | ok a t =>
    have hf := (f a).reported t
    simp only
    cases hr : (f a).run t with
    | ok b u =>
      rw [hr] at hf
      exact hf
    | error d u =>
      rw [hr] at hf
      exact hf.trans (List.prefix_append _ _)

theorem reports_recovering (p : Parser α) (resume : Parser Unit) (s : State) :
    (p.run s).reports <+: ((recovering p resume).run s).reports := by
  rw [run_recovering]
  cases p.run s with
  | ok a t => exact List.prefix_refl _
  | error d t =>
    have hr := resume.reported (t.report d)
    have hd : (Result.error d t : Result α).reports = (t.report d).reported.toList := by
      simp [Result.reports, State.report]
    rw [hd]
    simp only
    cases hrun : resume.run (t.report d) with
    | ok _ u =>
      rw [hrun] at hr
      exact hr
    | error e u =>
      rw [hrun] at hr
      exact hr.trans (List.prefix_append _ _)

theorem State.Steps.deepest_le {s t : State} (h : State.Steps s t) : s.deepest ≤ t.deepest := by
  induction h with
  | refl => exact Nat.le_refl _
  | opened _ ih => exact Nat.le_trans ih (Nat.le_max_left _ _)
  | advance _ ih | report _ _ ih | closed _ ih => exact ih

theorem State.Steps.depth_le {s t : State} (h : State.Steps s t) (hs : s.depth ≤ s.deepest) :
    t.depth ≤ t.deepest := by
  induction h with
  | refl => exact hs
  | opened _ ih => exact Nat.le_max_right _ _
  | closed _ ih => exact Nat.le_trans (Nat.sub_le _ _) ih
  | advance _ ih | report _ _ ih => exact ih

/-- A run goes on from where the first part of it came to. -/
theorem steps_bind {β : Type} (p : Parser α) (f : α → Parser β) (s : State) :
    State.Steps (p.run s).state ((p >>= f).run s).state := by
  rw [run_bind]
  cases p.run s with
  | error d t => exact .refl t
  | ok a t => exact (f a).steps t

theorem steps_recovering (p : Parser α) (resume : Parser Unit) (s : State) :
    State.Steps (p.run s).state ((recovering p resume).run s).state := by
  rw [run_recovering]
  cases p.run s with
  | ok a t => exact .refl t
  | error d t =>
    have hr := ((State.Steps.refl t).report d).trans (resume.steps (t.report d))
    simp only
    cases hrun : resume.run (t.report d) with
    | ok _ u | error _ u =>
      rw [hrun] at hr
      exact hr

/-! ### A limit that is exceeded -/

/-- Something was refused because the limit was reached. -/
def Result.Refuses (limit : Nat) (r : Result α) : Prop := ∃ d ∈ r.reports, d.problem = .tooDeep limit

/-- The first run refused something because of the limit, and the second went deeper than `most`. -/
def refusing (limit most : Nat) : Parting where
  parted r r' := r.Refuses limit ∧ most < r'.state.deepest
  parted_bind := by
    intro α β γ δ p q f g s s' ⟨⟨d, hd, hp⟩, hdeep⟩
    have hmem := (reports_bind p f s).subset hd
    exact ⟨⟨d, hmem, hp⟩, Nat.lt_of_lt_of_le hdeep (steps_bind q g s').deepest_le⟩

/-- Both runs have `depth` levels open and never had more than `most`. -/
def limited (limit most depth : Nat) : Simulation :=
  .exactly (fun s => s.depth = depth ∧ s.deepest ≤ most) (fun _ h => h) (refusing limit most)

theorem limited_recovers (limit most depth : Nat) : (limited limit most depth).Recovers := by
  apply Simulation.exactly_recovers (fun _ _ h => h)
  intro α β p q resume resume' s s' ⟨⟨d, hd, hp⟩, hdeep⟩
  have hmem := (reports_recovering p resume s).subset hd
  exact ⟨⟨d, hmem, hp⟩, Nat.lt_of_lt_of_le hdeep (steps_recovering q resume' s').deepest_le⟩

theorem limited_nest {limit most depth : Nat} (hlt : depth < most)
    (h : (limited limit most (depth + 1)).holds V p q) :
    (limited limit most depth).holds V (nest p) (nest q) := by
  rintro s _ ⟨rfl, rfl, hdeepest⟩
  have hopened : (limited limit most (s.depth + 1)).states s.opened s.opened :=
    ⟨rfl, rfl, Nat.max_le.2 ⟨hdeepest, hlt⟩⟩
  have hends := h _ _ hopened
  simp only [nest]
  generalize p.run s.opened = r, q.run s.opened = r' at hends ⊢
  rcases hends with htogether | ⟨hrefuses, hdeep⟩
  · cases htogether with
    | ok hv ht =>
      obtain ⟨rfl, hd, hmost⟩ := ht
      exact .inl (.ok hv ⟨rfl, by simp [State.closed, hd], hmost⟩)
    | error hd ht =>
      obtain ⟨rfl, hdepth, hmost⟩ := ht
      exact .inl (.error hd ⟨rfl, by simp [State.closed, hdepth], hmost⟩)
  · refine .inr ⟨?_, ?_⟩
    · cases r <;> exact hrefuses
    · cases r' <;> exact hdeep

/-- With no more levels to open something is refused where the other run goes on. -/
theorem limited_refuses (limit : Nat) {most : Nat} (q : Parser α) :
    (limited limit most most).holds V (failHere (.tooDeep limit)) (nest q) := by
  rintro s _ ⟨rfl, rfl, -⟩
  have hdeep : s.depth + 1 ≤ (q.run s.opened).state.deepest :=
    Nat.le_trans (Nat.le_max_right _ _) (q.steps s.opened).deepest_le
  refine .inr ⟨⟨⟨.tooDeep limit, s.position⟩, by simp [Result.reports], rfl⟩, ?_⟩
  simp only [nest]
  cases hr : q.run s.opened with
  | ok _ t | error _ t =>
    rw [hr] at hdeep
    exact hdeep

theorem level_limited (limit n depth : Nat) :
    (limited limit (depth + n) depth).Levels (level limit n) unlimited := by
  induction n generalizing depth with
  | zero =>
    constructor
    · intro bound
      rw [unlimited_expr]
      exact limited_refuses limit _
    · rw [unlimited_block]
      exact limited_refuses limit _
  | succ n ih =>
    have hi : (limited limit (depth + (n + 1)) (depth + 1)).Levels (level limit n) unlimited := by
      have h := ih (depth + 1)
      rwa [Nat.add_right_comm] at h
    have hlt : depth < depth + (n + 1) := by omega
    constructor
    · intro bound
      rw [unlimited_expr]
      exact limited_nest hlt (Simulation.expression_holds _ hi bound)
    · rw [unlimited_block]
      have hbrace := Simulation.expect_holds (limited limit (depth + (n + 1)) (depth + 1)) .openCurly
      exact limited_nest hlt ((limited_recovers ..).block_holds hi hbrace)

end Parser

open LetLang.Parser

/-- What is parsed if nothing counts the levels that are open. -/
def parseUnlimited (source : Source) : Parsed := .ofResult ((program unlimited).run (.ofSource source))

/-- If more levels were never open than the limit allows, the limit makes no difference at all, and
otherwise something is refused. -/
theorem parseWithin_unlimited (limit : Nat) (source : Source) :
    if (parseUnlimited source).deepest ≤ limit then parseWithin limit source = parseUnlimited source
    else ∃ d ∈ (parseWithin limit source).diagnostics, d.problem = .tooDeep limit := by
  have hi : (limited limit limit 0).Levels (level limit limit) unlimited := by
    have h := level_limited limit limit 0
    rwa [Nat.zero_add] at h
  have hends := (limited_recovers limit limit 0).program_holds hi (.ofSource source) _
    ⟨rfl, rfl, Nat.zero_le _⟩
  obtain ⟨program, s, hrun⟩ := program_succeeds (level limit limit) (.ofSource source)
  obtain ⟨program', s', hrun'⟩ := program_succeeds unlimited (.ofSource source)
  have hparse : parseWithin limit source = .ofResult (.ok program s) := congrArg Parsed.ofResult hrun
  have hfree : parseUnlimited source = .ofResult (.ok program' s') := congrArg Parsed.ofResult hrun'
  rw [hrun, hrun'] at hends
  rw [hparse, hfree]
  rcases hends with htogether | ⟨hrefuses, hdeep⟩
  · obtain ⟨heq, -, hdeepest⟩ :=
      Simulation.eq_of_together htogether fun _ _ => Likeness.eq_of_program
    cases heq
    have hle : (Parsed.ofResult (.ok program s)).deepest ≤ limit := hdeepest
    rw [if_pos hle]
  · have hlt : limit < (Parsed.ofResult (.ok program' s')).deepest := hdeep
    rw [if_neg (Nat.not_le.2 hlt)]
    exact hrefuses

end LetLang
