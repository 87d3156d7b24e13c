import LetLang.Parser.Nesting

/-! Runs without what they leave.

`unseen` says that tokens behind those that a run has come to make no difference
when they are added; here they are cut off. What a run leaves ahead can be left out
(`Cut`): a run that finds something may leave just the tokens that are cut off, since
no decision it made depended on them but by their not going on with it; a run that
fails must have failed before them. For a list of statements only the latter is so,
whether it fails or not, since where it resumes after a mistake is decided by what
comes next (`edge`). -/
namespace LetLang.Parser
open Token (Kind)

variable {α β : Type} {edge : Bool} {s : State} {more : List Token} {finish : Position}

/-- More tokens are left than `more`, or just as many if the run found something and that is enough
(`edge`). -/
def Result.Spares (edge : Bool) (more : List Token) : Result α → Prop
  | .ok _ t => more.length < t.ahead.length ∨ (edge = true ∧ more.length = t.ahead.length)
  | .error _ t => more.length < t.ahead.length

/-- If the run leaves the tokens `more`, it does the same without them. -/
def Cut (edge : Bool) (p : Parser α) (s : State) (more : List Token) (finish : Position) : Prop :=
  (p.run (s.extend more finish)).Spares edge more →
    p.run (s.extend more finish) = (p.run s).extend more finish

def Cuts (edge : Bool) (p : Parser α) : Prop := ∀ s more finish, Cut edge p s more finish

/-! ### Putting parsers together -/

theorem Result.Spares.le {a : α} {t : State} (h : (Result.ok a t).Spares edge more) :
    more.length ≤ t.ahead.length := h.elim Nat.le_of_lt fun h => Nat.le_of_eq h.2

theorem ahead_extend_nil (hs : s.ahead = []) : (s.extend more finish).ahead = more := by
  simp [State.extend, hs]

/-- What is spared in the end was spared all the time. -/
theorem Result.Spares.before {p : Parser β} {a : α} {t : State} (h : (p.run t).Spares edge more) :
    (Result.ok a t).Spares edge more := by
  have hle := (p.forward t).length_le
  cases hr : p.run t with
  | ok b u =>
    rw [hr] at h hle
    simp only [Result.state] at hle
    rcases h with hlt | ⟨hedge, heq⟩
    · exact .inl (Nat.lt_of_lt_of_le hlt hle)
    · exact (Nat.lt_or_eq_of_le (heq ▸ hle)).imp_right fun heq => ⟨hedge, heq⟩
  | error d u =>
    rw [hr] at h hle
    exact .inl (Nat.lt_of_lt_of_le h hle)

theorem cut_pure (a : α) : Cut edge (pure a) s more finish := fun _ => rfl

theorem cut_fail (d : Diagnostic) : Cut edge (fail d : Parser α) s more finish := fun _ => rfl

/-- If the first of two parsers can do without the tokens, it is up to the second. -/
theorem cut_then {p : Parser α} {f : α → Parser β}
    (hp : p.run (s.extend more finish) = (p.run s).extend more finish)
    (hf : ∀ a t, p.run s = .ok a t → Cut edge (f a) t more finish) :
    Cut edge (p >>= f) s more finish := by
  intro h
  rw [run_bind, hp] at h
  rw [run_bind, run_bind, hp]
  cases hr : p.run s with
  | error d t => rfl
  | ok a t =>
    rw [hr] at h
    exact hf a t hr h

theorem cut_bind {p : Parser α} {f : α → Parser β} (hp : Cut edge p s more finish)
    (hf : ∀ a t, p.run s = .ok a t → Cut edge (f a) t more finish) :
    Cut edge (p >>= f) s more finish := by
  intro h
  refine cut_then (hp ?_) hf h
  rw [run_bind] at h
  cases hr : p.run (s.extend more finish) with
  | error d t =>
    rw [hr] at h
    exact h
  | ok a t =>
    rw [hr] at h
    exact h.before

/-- The first may be one that must not come to the edge, if the second consumes something. -/
theorem cut_bind_inside {p : Parser α} {f : α → Parser β} (hp : Cut false p s more finish)
    (hf : ∀ a t, p.run s = .ok a t → Cut true (f a) t more finish) (hc : ∀ a, (f a).Consumes) :
    Cut true (p >>= f) s more finish := by
  intro h
  refine cut_then (hp ?_) hf h
  rw [run_bind] at h
  cases hr : p.run (s.extend more finish) with
  | error d t =>
    rw [hr] at h
    exact h
  | ok a t =>
    rw [hr] at h
    simp only at h
    have hle := ((f a).forward t).length_le
    cases hu : (f a).run t with
    | ok b u =>
      have hlt := hc a t b u hu
      rw [hu] at h
      refine .inl ?_
      rcases h with h | ⟨-, h⟩ <;> omega
    | error d u =>
      rw [hu] at h hle
      exact .inl (Nat.lt_of_lt_of_le h hle)

/-- A parser that consumes something leaves less than there was. -/
theorem cut_of_consumes {p : Parser α} (hp : p.Consumes)
    (h : s.ahead ≠ [] → Cut edge p s more finish) : Cut edge p s more finish := by
  intro hspares
  refine h ?_ hspares
  intro hnil
  have hle := (p.forward (s.extend more finish)).length_le
  rw [ahead_extend_nil hnil] at hle
  cases hr : p.run (s.extend more finish) with
  | ok a t =>
    have hlt := hp _ a t hr
    rw [hr] at hspares
    rw [ahead_extend_nil hnil] at hlt
    rcases hspares with hspares | ⟨-, hspares⟩ <;> omega
  | error d t =>
    rw [hr] at hspares hle
    exact absurd hspares (Nat.not_lt_of_le hle)

theorem Cuts.inside {p : Parser α} (h : p.Cuts true) : p.Cuts false := by
  intro s more finish hspares
  refine h s more finish ?_
  cases hr : p.run (s.extend more finish) with
  | ok a t =>
    rw [hr] at hspares
    exact .inl (hspares.resolve_right fun h => nomatch h.1)
  | error d t =>
    rw [hr] at hspares
    exact hspares

section
variable {p : Parser (Option α)} {hp : p.Advances} {f : α → Parser (Option α)}
  {hf : ∀ a, (f a).Advances}

theorem cut_many (h : p.Cuts edge) (s : State) : Cut edge (many p hp) s more finish := by
  rw [many_eq]
  refine cut_bind (h s more finish) fun found t ht => ?_
  cases found with
  | none => exact cut_pure []
  | some a => exact cut_bind (cut_many h t) fun as u _ => cut_pure _
termination_by s.ahead.length
decreasing_by exact hp s a t ht

theorem cut_iterate (h : ∀ a, (f a).Cuts edge) (a : α) (s : State) :
    Cut edge (iterate f hf a) s more finish := by
  rw [iterate_eq]
  refine cut_bind (h a s more finish) fun found t ht => ?_
  cases found with
  | none => exact cut_pure a
  | some b => exact cut_iterate h b t
termination_by s.ahead.length
decreasing_by exact hf a s b t ht

end

/-! ### Single steps -/

section
variable (hs : s.ahead ≠ [])
include hs

theorem cut_current : Cut edge current s more finish := by
  intro _
  rw [run_current, run_current, State.current_extend hs]
  rfl

theorem cut_advance : Cut edge advance s more finish := by
  intro _
  rw [run_advance, run_advance, State.current_extend hs, State.advance_extend hs]
  rfl

end

theorem cut_lastEnd : Cut edge lastEnd s more finish := fun _ => rfl

theorem cut_failHere (problem : Problem) : Cut edge (failHere problem : Parser α) s more finish :=
  cut_of_consumes (consumes_failHere problem) fun hs =>
    cut_bind (cut_current hs) fun _ _ _ => cut_fail _

theorem cut_expect {kind : Kind} (hk : kind ≠ .eof) : Cut edge (expect kind) s more finish := by
  refine cut_of_consumes (consumes_expect hk) fun hs => ?_
  intro _
  rw [run_expect, run_expect, State.position, State.current_extend hs, State.advance_extend hs]
  split <;> rfl

theorem cut_skip {kind : Kind} (hk : kind ≠ .eof) : Cut edge (skip kind) s more finish := by
  intro hspares
  by_cases hs : s.ahead = []
  · have hcurrent : s.current.kind ≠ kind := by
      simp [State.current, hs, State.endToken, Token.endOfInput, hk.symm]
    rw [run_skip] at hspares ⊢
    rw [run_skip, if_neg hcurrent]
    split
    · -- what is cut off begins with what was skipped, so it was not spared
      rename_i hskip
      have hlt := State.length_ahead_advance_lt (State.ahead_ne_nil (hskip ▸ hk))
      rw [ahead_extend_nil hs] at hlt
      rw [if_pos hskip] at hspares
      exact absurd hspares.le (Nat.not_le_of_lt hlt)
    · rfl
  · rw [run_skip, run_skip, State.current_extend hs, State.advance_extend hs]
    split <;> rfl

/-! ### Lists in parentheses -/

section
variable {p : Parser α} (hp : p.Cuts edge)
include hp

theorem cut_afterComma : (afterComma p).Cuts edge := by
  intro s more finish
  refine cut_bind (cut_skip (by simp)) fun found t _ => ?_
  split
  · exact cut_bind (hp _ _ _) fun a u _ => cut_pure _
  · exact cut_pure _

theorem cut_untilParen : (untilParen p).Cuts edge := by
  intro s more finish
  refine cut_of_consumes (untilParen_consumes p) fun hs => ?_
  have hbefore : Cut edge (beforeParen p) s more finish := by
    refine cut_bind (cut_current hs) fun x t _ => ?_
    split
    · exact cut_pure []
    · refine cut_bind (hp _ _ _) fun a u _ => ?_
      exact cut_bind (cut_many (cut_afterComma hp) u) fun as v _ => cut_pure _
  refine cut_bind hbefore fun as t _ => ?_
  exact cut_bind (cut_expect (by simp)) fun _ u _ => cut_pure as

end

/-! ### Operands -/

/-- What the parsers of a level can do without. -/
structure Level.Cuts (inner : Level) : Prop where
  expr : ∀ bound, (inner.expr bound).Cuts true
  block : inner.block.Cuts true

theorem literal_cuts : literal.Cuts true := by
  intro s more finish
  refine cut_of_consumes literal_consumes fun hs => ?_
  refine cut_bind (cut_advance hs) fun x t _ => ?_
  split
  · split
    · exact cut_pure _
    · exact cut_fail _
  · exact cut_pure _
  · exact cut_pure _
  · exact cut_pure _
  · exact cut_fail _

theorem parameter_cuts : parameter.Cuts true :=
  fun _ _ _ => cut_bind (cut_expect (by simp)) fun _ _ _ => cut_pure _

variable {inner : Level} (hi : inner.Cuts)
include hi

theorem unary_cuts : (unary inner).Cuts true := by
  intro s more finish
  refine cut_of_consumes (unary_consumes inner) fun hs => ?_
  refine cut_bind (cut_advance hs) fun _ _ _ => ?_
  exact cut_bind (hi.expr _ _ _ _) fun _ _ _ => cut_pure _

theorem group_cuts : (group inner).Cuts true := by
  intro s more finish
  refine cut_of_consumes (group_consumes inner) fun hs => ?_
  refine cut_bind (cut_advance hs) fun _ _ _ => ?_
  refine cut_bind (hi.expr _ _ _ _) fun _ _ _ => ?_
  exact cut_bind (cut_expect (by simp)) fun _ _ _ => cut_pure _

theorem alternative_cuts : (alternative inner).Cuts true := by
  intro s more finish
  refine cut_bind (cut_skip (by simp)) fun found _ _ => ?_
  split
  · exact cut_bind (hi.block _ _ _) fun _ _ _ => cut_pure _
  · exact cut_pure _

theorem conditional_cuts : (conditional inner).Cuts true := by
  intro s more finish
  refine cut_of_consumes (conditional_consumes inner) fun hs => ?_
  refine cut_bind (cut_advance hs) fun _ _ _ => ?_
  refine cut_bind (cut_expect (by simp)) fun _ _ _ => ?_
  refine cut_bind (hi.expr _ _ _ _) fun _ _ _ => ?_
  refine cut_bind (cut_expect (by simp)) fun _ _ _ => ?_
  refine cut_bind (hi.block _ _ _) fun _ _ _ => ?_
  refine cut_bind (alternative_cuts hi _ _ _) fun _ _ _ => ?_
  exact cut_bind cut_lastEnd fun _ _ _ => cut_pure _

theorem function_cuts : (function inner).Cuts true := by
  intro s more finish
  refine cut_of_consumes (function_consumes inner) fun hs => ?_
  refine cut_bind (cut_advance hs) fun _ _ _ => ?_
  refine cut_bind (cut_expect (by simp)) fun _ _ _ => ?_
  refine cut_bind (cut_untilParen parameter_cuts _ _ _) fun _ _ _ => ?_
  refine cut_bind (hi.block _ _ _) fun _ _ _ => ?_
  exact cut_bind cut_lastEnd fun _ _ _ => cut_pure _

theorem operand_cuts : (operand inner).Cuts true := by
  intro s more finish
  refine cut_of_consumes (operand_consumes inner) fun hs => ?_
  refine cut_bind (cut_current hs) fun t _ _ => ?_
  split
  · rename_i p hp
    rcases operand?_cases inner hp with rfl | ⟨-, rfl⟩ | ⟨-, rfl⟩ | ⟨-, rfl⟩ | ⟨-, rfl⟩
    · exact literal_cuts _ _ _
    · exact unary_cuts hi _ _ _
    · exact group_cuts hi _ _ _
    · exact conditional_cuts hi _ _ _
    · exact function_cuts hi _ _ _
  · exact cut_failHere _

/-! ### Operators -/

theorem binary_cuts (left : Expr) (power : Power) : (binary inner left power).Cuts true := by
  intro s more finish
  refine cut_of_consumes (binary_consumes inner left power) fun hs => ?_
  refine cut_bind (cut_advance hs) fun _ _ _ => ?_
  exact cut_bind (hi.expr _ _ _ _) fun _ _ _ => cut_pure _

theorem assignment_cuts (left : Expr) : (assignment inner left).Cuts true := by
  intro s more finish
  refine cut_of_consumes (assignment_consumes inner left) fun hs => ?_
  unfold assignment
  split
  · refine cut_bind (cut_advance hs) fun _ _ _ => ?_
    exact cut_bind (hi.expr _ _ _ _) fun _ _ _ => cut_pure _
  · exact cut_fail _

theorem call_cuts (callee : Expr) : (call inner callee).Cuts true := by
  intro s more finish
  refine cut_of_consumes (call_consumes inner callee) fun hs => ?_
  refine cut_bind (cut_advance hs) fun _ _ _ => ?_
  refine cut_bind (cut_untilParen (hi.expr _) _ _ _) fun _ _ _ => ?_
  exact cut_bind cut_lastEnd fun _ _ _ => cut_pure _

theorem operator?_cuts {kind : Kind} {p : Expr → Power → Parser Expr}
    (h : operator? inner kind = some p) (left : Expr) (power : Power) : (p left power).Cuts true := by
  rcases operator?_cases inner h with rfl | rfl | rfl
  · exact assignment_cuts hi left
  · exact binary_cuts hi left power
  · exact call_cuts hi left

omit hi in
/-- Where no operator is found nothing happens. -/
theorem run_operatorAbove_none {bound : Power} {left : Expr} {s t : State}
    (h : (operatorAbove inner bound left).run s = .ok none t) : t = s := by
  simp only [operatorAbove, run_bind, run_current] at h
  split at h
  · split at h
    · rw [run_bind] at h
      split at h
      · cases h
      · cases h
    · exact (Result.ok.inj h).2.symm
  · exact (Result.ok.inj h).2.symm

/-- Where the tokens end there is no operator, and what is cut off begins with none either. -/
theorem operatorAbove_cuts (bound : Power) (left : Expr) :
    (operatorAbove inner bound left).Cuts true := by
  intro s more finish
  by_cases hs : s.ahead = []
  · intro hspares
    have hlowest : ¬ bound < s.current.kind.power := by
      simp [State.current, hs, State.endToken, Token.endOfInput, Token.Kind.power, Power.lt_def,
        Power.rank]
    have hrun : (operatorAbove inner bound left).run s = .ok none s := by
      simp only [operatorAbove, run_bind, run_current, if_neg hlowest]
      rfl
    have hle := ((operatorAbove inner bound left).forward (s.extend more finish)).length_le
    rw [ahead_extend_nil hs] at hle
    rw [hrun]
    cases hr : (operatorAbove inner bound left).run (s.extend more finish) with
    | error d t =>
      rw [hr] at hspares hle
      exact absurd hspares (Nat.not_lt_of_le hle)
    | ok found t =>
      cases found with
      | none =>
        rw [run_operatorAbove_none hr]
        rfl
      | some e =>
        have hlt := operatorAbove_advances inner bound left _ e t hr
        rw [ahead_extend_nil hs] at hlt
        rw [hr] at hspares
        exact absurd hspares.le (Nat.not_le_of_lt hlt)
  · refine cut_bind (cut_current hs) fun t _ _ => ?_
    split
    · split
      · rename_i p hp
        exact cut_bind (operator?_cuts hi hp left _ _ _ _) fun _ _ _ => cut_pure _
      · exact cut_pure _
    · exact cut_pure _

theorem expression_cuts (bound : Power) : (expression inner bound).Cuts true :=
  fun _ _ _ => cut_bind (operand_cuts hi _ _ _) fun left t _ =>
    cut_iterate (operatorAbove_cuts hi bound) left t

/-! ### Statements -/

omit hi in
theorem terminated_cuts {p : Parser (Position → Stmt)} (hp : Cut true p s more finish) :
    Cut true (terminated p) s more finish := by
  refine cut_bind hp fun _ _ _ => ?_
  refine cut_bind (cut_skip (by simp)) fun _ _ _ => ?_
  exact cut_bind cut_lastEnd fun _ _ _ => cut_pure _

theorem statement_cuts : (statement inner).Cuts true := by
  intro s more finish
  refine cut_of_consumes (statement_consumes inner) fun hs => ?_
  refine cut_bind (cut_current hs) fun t u hu => ?_
  cases hu
  unfold statementFrom
  split
  · refine terminated_cuts (cut_bind (cut_advance hs) fun _ _ _ => ?_)
    refine cut_bind (cut_expect (by simp)) fun _ _ _ => ?_
    refine cut_bind (cut_expect (by simp)) fun _ _ _ => ?_
    exact cut_bind (hi.expr _ _ _ _) fun _ _ _ => cut_pure _
  · refine terminated_cuts (cut_bind (cut_advance hs) fun _ _ _ => ?_)
    exact cut_bind (hi.expr _ _ _ _) fun _ _ _ => cut_pure _
  · exact cut_bind (hi.block _ _ _) fun _ _ _ => cut_pure _
  · refine terminated_cuts (cut_bind (cut_current hs) fun _ _ _ => ?_)
    exact cut_bind (hi.expr _ _ _ _) fun _ _ _ => cut_pure _

/-! ### Lists of statements -/

section
omit hi

/-- Where there are no tokens before those that are cut off, none can be left before them. -/
theorem cut_inside {p : Parser α} (h : s.ahead ≠ [] → Cut false p s more finish) :
    Cut false p s more finish := by
  intro hspares
  refine h ?_ hspares
  intro hnil
  have hle := (p.forward (s.extend more finish)).length_le
  rw [ahead_extend_nil hnil] at hle
  cases hr : p.run (s.extend more finish) with
  | ok a t =>
    rw [hr] at hspares hle
    rcases hspares with hlt | ⟨hedge, -⟩
    · exact absurd hlt (Nat.not_lt_of_le hle)
    · cases hedge
  | error d t =>
    rw [hr] at hspares hle
    exact absurd hspares (Nat.not_lt_of_le hle)

theorem cut_next? (hs : s.ahead ≠ []) : Cut edge next? s more finish := by
  intro _
  obtain ⟨t, ts, ht⟩ := List.exists_cons_of_ne_nil hs
  simp [State.extend, ht, Result.extend]

/-- A boundary before the tokens that are cut off does not depend on them. -/
theorem boundary_cut {n : Nat} {ts us : List Token} (h : boundary n (ts ++ us) < ts.length) :
    boundary n ts = boundary n (ts ++ us) := by
  fun_induction boundary n ts <;> simp_all [boundary]

theorem synchronize_cuts : synchronize.Cuts false := by
  intro s more finish hspares
  have hlt : boundary 0 (s.ahead ++ more) < s.ahead.length := by
    rcases hspares with hlt | ⟨hedge, -⟩
    · rw [State.ahead_synchronized, List.length_drop] at hlt
      simp only [State.extend, List.length_append] at hlt
      omega
    · cases hedge
  have hboundary := boundary_cut hlt
  show Result.ok () ((s.extend more finish).advanceBy (boundary 0 (s.ahead ++ more))) = _
  rw [← hboundary] at hlt ⊢
  rw [State.advanceBy_extend (Nat.le_of_lt hlt)]
  rfl

theorem recovering_cuts {p : Parser α} {resume : Parser Unit} (hp : p.Cuts false)
    (hresume : resume.Cuts false) : (recovering p resume).Cuts false := by
  intro s more finish hspares
  cases hr : p.run (s.extend more finish) with
  | ok a t =>
    rw [run_recovering, hr] at hspares
    have hcut := hp s more finish (by rw [hr]; exact hspares)
    rw [run_recovering, run_recovering, hcut]
    rw [hr] at hcut
    cases hs : p.run s with
    | ok b u => rfl
    | error e u =>
      rw [hs] at hcut
      cases hcut
  | error d t =>
    rw [run_recovering_error hr] at hspares ⊢
    have hleft : more.length < t.ahead.length :=
      (hspares.before (a := ())).resolve_right fun h => nomatch h.1
    have hcut := hp s more finish (by rw [hr]; exact hleft)
    rw [hr] at hcut
    cases hs : p.run s with
    | ok b u =>
      rw [hs] at hcut
      cases hcut
    | error e u =>
      rw [hs] at hcut
      cases hcut
      rw [run_recovering_error hs]
      have hextend : (u.extend more finish).report d = (u.report d).extend more finish := rfl
      rw [hextend] at hspares ⊢
      exact cut_bind (hresume _ _ _) (fun _ _ _ => cut_pure none) hspares

end

theorem statementUnless_cuts {ends : Option Token → Bool} {resume : Parser Unit}
    (hresume : resume.Cuts false) : (statementUnless inner ends resume).Cuts false := by
  intro s more finish
  refine cut_inside fun hs => ?_
  refine cut_bind (cut_next? hs) fun found t _ => ?_
  split
  · exact cut_pure none
  · exact cut_bind (recovering_cuts (statement_cuts hi).inside hresume _ _ _) fun _ _ _ =>
      cut_pure _

theorem blockBody_cuts : (blockBody inner).Cuts false :=
  fun _ _ _ => cut_bind (cut_many (statementUnless_cuts hi synchronize_cuts) _) fun _ _ _ =>
    cut_pure _

theorem block_cuts : (block inner).Cuts true := by
  intro s more finish
  refine cut_bind (cut_expect (by simp)) fun x t _ => ?_
  refine cut_bind_inside (blockBody_cuts hi _ _ _) (fun xs u _ => ?_) fun xs => ?_
  · refine cut_bind (cut_expect (by simp)) fun _ _ _ => ?_
    exact cut_bind cut_lastEnd fun _ _ _ => cut_pure _
  · exact consumes_bind_left (consumes_expect (by simp)) _

/-! ### Levels -/

omit hi in
theorem nest_cuts {p : Parser α} (hp : p.Cuts edge) : (nest p).Cuts edge := by
  intro s more finish hspares
  have hcut := hp s.opened more finish
  have hopened : (s.extend more finish).opened = s.opened.extend more finish := rfl
  simp only [nest, hopened] at hspares ⊢
  cases hr : p.run (s.opened.extend more finish) with
  | ok a t =>
    rw [hr] at hspares
    rw [← hr, hcut (hr ▸ hspares)]
    cases p.run s.opened <;> rfl
  | error d t =>
    rw [hr] at hspares
    rw [← hr, hcut (hr ▸ hspares)]
    cases p.run s.opened <;> rfl

omit hi in
theorem level_cuts (limit n : Nat) : (level limit n).Cuts := by
  induction n with
  | zero => exact ⟨fun _ _ _ _ => cut_failHere _, fun _ _ _ => cut_failHere _⟩
  | succ n ih => exact ⟨fun bound => nest_cuts (expression_cuts ih bound), nest_cuts (block_cuts ih)⟩

end LetLang.Parser
