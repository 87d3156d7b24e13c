import LetLang.Proofs.Charging.Basic

/-! Every construct pays for what it finds.

A construct of expressions consumes one token more than its statements cost, and a
block the token that it starts with, so whatever is called for inside starts behind
the token at which the construct does (`level_charges`). A turn of a loop over
statements pays for a statement that fails with the token at which it was called for
(`recovering_charges`). -/
namespace LetLang.Parser.Traced
open Token (Kind)

variable {α : Type} {first paid : Nat} {inner : Level}

/-- What is paid for an expression: its statements, and one token more. -/
def worth (e : Expr) : Nat := e.count + 1

structure Level.Charges (inner : Level) : Prop where
  expr : ∀ bound, (inner.expr bound).Charges 1 0 worth
  block : inner.block.Charges 1 0 Block.count

/-! ### Lists with commas -/

theorem untilParen_charges {x : Traced α} {cost : α → Nat} (total : List α → Nat)
    (hnil : total [] = 0) (hcons : ∀ a as, total (a :: as) = cost a + total as)
    (hx : x.Charges first 0 cost) : (untilParen x).Charges first 0 total := by
  have hcomma : (afterComma x).Charges first 0 fun found => found.elim 0 cost := by
    apply charges_bind (charges_skip _)
    intro found
    cases found with
    | false => exact charges_pure (Nat.le_refl 0)
    | true => exact charges_bind hx fun a => charges_pure (Nat.le_refl (cost a))
  have hlist : (commaSeparated x).Charges first 0 total := by
    apply charges_bind hx
    intro a
    apply charges_bind (charges_frame (charges_many total hnil hcons hcomma) (cost a))
    exact fun as => charges_pure (Nat.le_of_eq (hcons a as))
  have hbefore : (beforeParen x).Charges first 0 total := by
    apply charges_bind charges_current
    intro t
    split
    · exact charges_pure (Nat.le_of_eq hnil)
    · exact hlist
  apply charges_bind hbefore
  intro as
  exact charges_bind (charges_expect _) fun _ => charges_pure (Nat.le_succ _)

/-! ### Operands -/

theorem literal_charges : (quiet literal).Charges first 0 worth := by
  have hrun : ∀ s, (literal.run s).state = s.advance ∧
      ∀ e t, literal.run s = .ok e t → e.count = 0 := by
    intro s
    simp only [literal, run_bind, run_advance]
    split
    · split
      · exact ⟨rfl, fun e t hr => by cases hr; rfl⟩
      · exact ⟨rfl, fun e t hr => by cases hr⟩
    · exact ⟨rfl, fun e t hr => by cases hr; rfl⟩
    · exact ⟨rfl, fun e t hr => by cases hr; rfl⟩
    · exact ⟨rfl, fun e t hr => by cases hr; rfl⟩
    · exact ⟨rfl, fun e t hr => by cases hr⟩
  apply charges_quiet
  · intro s
    rw [(hrun s).1]
    rfl
  · intro s e t hr
    have ht := (hrun s).1
    rw [hr] at ht
    obtain rfl : t = s.advance := ht
    rw [worth, (hrun s).2 e _ hr]
    exact Nat.le_refl _

section Constructs
variable (hi : inner.Charges)
include hi

/-- An operator with the expression behind it, and what is made of both. -/
theorem charges_operator {bound : Power} {make : Token → Expr → Expr}
    (h : ∀ t e, worth (make t e) ≤ paid + 1 + worth e) :
    (do
      let operator ← advance
      let e ← inner.expr bound
      return make operator e : Traced Expr).Charges 1 paid worth := by
  apply charges_bind charges_advance
  intro operator
  apply charges_bind (charges_frame (hi.expr bound) _)
  exact fun e => charges_pure (h operator e)

theorem unary_charges : (unary inner).Charges 1 0 worth := by
  apply charges_operator hi
  intro operator e
  simp only [worth, Expr.count]
  omega

theorem group_charges : (group inner).Charges 1 0 worth := by
  apply charges_bind charges_advance
  intro _
  apply charges_bind (charges_frame (hi.expr _) _)
  intro e
  apply charges_bind (charges_expect _)
  intro _
  apply charges_pure
  omega

theorem alternative_charges : (alternative inner).Charges 1 0 Block.countOption := by
  apply charges_bind (charges_skip _)
  intro found
  cases found with
  | false => exact charges_pure (Nat.le_refl 0)
  | true => exact charges_bind hi.block fun b => charges_pure (Nat.le_refl b.count)

theorem conditional_charges : (conditional inner).Charges 1 0 worth := by
  apply charges_bind charges_advance
  intro t
  apply charges_bind (charges_expect _)
  intro _
  apply charges_bind (charges_frame (hi.expr _) _)
  intro c
  apply charges_bind (charges_expect _)
  intro _
  apply charges_bind (charges_frame hi.block _)
  intro b
  apply charges_bind (charges_frame (alternative_charges hi) _)
  intro a
  apply charges_bind charges_lastEnd
  intro stop
  apply charges_pure
  simp only [worth, Expr.count]
  omega

theorem function_charges : (function inner).Charges 1 0 worth := by
  have hparameters : (untilParen (quiet parameter)).Charges 1 0 fun _ => 0 :=
    untilParen_charges _ rfl (fun _ _ => rfl) charges_parameter
  apply charges_bind charges_advance
  intro t
  apply charges_bind (charges_expect _)
  intro _
  apply charges_bind (charges_frame hparameters _)
  intro xs
  apply charges_bind (charges_frame hi.block _)
  intro b
  apply charges_bind charges_lastEnd
  intro stop
  apply charges_pure
  simp only [worth, Expr.count]
  omega

theorem operand_charges : (operand inner).Charges 1 0 worth := by
  have hchosen : ∀ kind x, operand? inner kind = some x → x.Charges 1 0 worth := by
    intro kind x hx
    unfold operand? at hx
    split at hx <;> cases hx
    case h_5 | h_6 => exact unary_charges hi
    case h_7 => exact group_charges hi
    case h_8 => exact conditional_charges hi
    case h_9 => exact function_charges hi
    all_goals exact literal_charges
  apply charges_bind charges_current
  intro t
  split
  · rename_i x hx
    exact hchosen t.kind x hx
  · exact charges_failHere _

/-! ### Operators -/

theorem binary_charges (left : Expr) (power : Power) :
    (binary inner left power).Charges 1 (worth left) worth := by
  apply charges_operator hi
  intro operator right
  simp only [worth, Expr.count]
  omega

theorem assignment_charges (left : Expr) :
    (assignment inner left).Charges 1 (worth left) worth := by
  unfold assignment
  split
  · apply charges_operator hi
    intro operator value
    simp only [worth, Expr.count]
    omega
  · exact charges_fail _

theorem call_charges (callee : Expr) : (call inner callee).Charges 1 (worth callee) worth := by
  have hargument : (inner.expr .lowest).Charges 1 0 Expr.count :=
    charges_mono (hi.expr _) fun e => Nat.le_succ _
  have harguments := untilParen_charges Expr.countAll rfl (fun _ _ => rfl) hargument
  apply charges_bind charges_advance
  intro t
  apply charges_bind (charges_frame harguments _)
  intro es
  apply charges_bind charges_lastEnd
  intro stop
  apply charges_pure
  simp only [worth, Expr.count]
  omega

theorem operatorAbove_charges (bound : Power) (left : Expr) :
    (operatorAbove inner bound left).Charges 1 (worth left) fun found =>
      worth (found.getD left) := by
  have hchosen : ∀ kind x power, operator? inner kind = some x →
      (x left power).Charges 1 (worth left) worth := by
    intro kind x power hx
    unfold operator? at hx
    split at hx <;> cases hx
    case h_1 | h_2 | h_3 | h_4 => exact assignment_charges hi left
    case h_15 => exact call_charges hi left
    all_goals exact binary_charges hi left power
  apply charges_bind charges_current
  intro t
  split
  · split
    · rename_i x hx
      exact charges_bind (hchosen t.kind x _ hx) fun e => charges_pure (Nat.le_refl (worth e))
    · exact charges_pure (Nat.le_refl _)
  · exact charges_pure (Nat.le_refl _)

theorem expression_charges (bound : Power) : (expression inner bound).Charges 1 0 worth :=
  charges_bind (operand_charges hi) fun left s =>
    charges_iterate (operatorAbove_charges hi bound) left s

/-! ### Statements -/

omit hi in
theorem ending_charges {make : Position → Stmt} (h : ∀ stop, (make stop).count ≤ paid) :
    (ending make).Charges first paid Stmt.count := by
  apply charges_bind (charges_skip _)
  intro _
  exact charges_bind charges_lastEnd fun stop => charges_pure (h stop)

/-- The value of a statement, and what is made of it where the statement ends. -/
theorem charges_value {make : Expr → Position → Stmt}
    (h : ∀ e stop, (make e stop).count ≤ paid + worth e) :
    (inner.expr .lowest >>= fun e => ending (make e)).Charges 1 paid Stmt.count := by
  apply charges_bind (charges_frame (hi.expr .lowest) paid)
  exact fun e => ending_charges (h e)

theorem statement_charges : (statement inner).Charges 1 0 Stmt.count := by
  apply charges_bind charges_current
  intro t
  unfold statementFrom
  split
  · apply charges_bind charges_advance
    intro t
    apply charges_bind (charges_expect _)
    intro name
    apply charges_bind (charges_expect _)
    intro _
    apply charges_value hi
    exact fun e stop => Nat.le_add_left ..
  · apply charges_bind charges_advance
    intro t
    apply charges_value hi
    exact fun e stop => Nat.le_add_left ..
  · exact charges_bind hi.block fun b => charges_pure (Nat.le_refl b.count)
  · apply charges_bind charges_current
    intro t
    apply charges_value hi
    exact fun e stop => Nat.le_add_left ..

/-! ### Loops over statements -/

/-- What resumes consumes, wherever the list goes on, and reports nothing. -/
structure Resuming (ends : Option Token → Bool) (resume : Parser Unit) : Prop where
  resumes : Resumes ends resume
  succeeds : resume.Succeeds
  reported : ∀ s, (resume.run s).state.reported = s.reported

variable {ends : Option Token → Bool} {resume : Parser Unit}

theorem recovering_charges (hres : Resuming ends resume) {s : State}
    (hs : ends s.ahead.head? = false) :
    (recovering (called inner) resume).ChargesAt 0 0 (fun x => x.elim 0 Stmt.count) s := by
  obtain ⟨found, u, hu⟩ := recovering_succeeds (Parser.statement inner.parsers) hres.succeeds s
  have hlt := recovering_lt inner.parsers hres.resumes hs hu
  have hne : s.ahead ≠ [] := List.length_pos_iff.1 (Nat.zero_lt_of_lt hlt)
  have hsteps := (Parser.recovering (Parser.statement inner.parsers) resume).steps s
  rw [hu] at hsteps
  have hconsumed := hsteps.consumed_lt hlt
  have h := statement_charges hi s
  show Charged 0 0 _ s ((statement inner).calls s ++ [⟨inner.parsers, s⟩])
    ((Parser.recovering (statement inner).parser resume).run s)
  rw [parser_statement, hu]
  rw [ChargesAt, parser_statement] at h
  rw [run_recovering] at hu
  cases hr : (Parser.statement inner.parsers).run s with
  | ok a t =>
    rw [hr] at h hu
    cases hu
    exact h.call rfl hne hconsumed (by rw [Call.mistake, hr]; rfl)
  | error d t =>
    obtain ⟨_, v, hv⟩ := hres.succeeds (t.report d)
    have hresume := resume.steps (t.report d)
    have hreported := hres.reported (t.report d)
    rw [hr] at h hu
    rw [hv] at hresume hreported
    simp only [hv] at hu
    cases hu
    exact h.failedCall rfl hne hconsumed (by rw [Call.mistake, hr]; rfl) hresume hreported

theorem statementUnless_charges (hres : Resuming ends resume) :
    (statementUnless inner ends resume).Charges 0 0 fun found =>
      found.elim 0 fun x => x.elim 0 Stmt.count := by
  intro s
  apply chargesAt_bind (charges_free (fun _ => rfl) s)
  intro next t hr
  cases hr
  split
  · apply charges_pure
    exact Nat.le_refl 0
  · rename_i he
    apply chargesAt_bind (recovering_charges hi hres (Bool.eq_false_iff.2 he))
    intro x u _
    apply charges_pure
    exact Nat.le_refl (x.elim 0 Stmt.count)

theorem statements_charges (hres : Resuming ends resume)
    (ha : (statementUnless inner ends resume).parser.Advances) :
    (many (statementUnless inner ends resume) ha).Charges 0 0 fun found =>
      Stmt.countAll (found.filterMap id) :=
  charges_many _ rfl Stmt.countAll_filterMap (statementUnless_charges hi hres)

omit hi in
theorem resuming_synchronize : Resuming blockEnds synchronize where
  resumes := synchronize_resumes
  succeeds s := ⟨(), s.synchronized, rfl⟩
  reported s := s.reported_advanceBy _

omit hi in
theorem resuming_outside : Resuming Option.isNone resumeOutside where
  resumes := resumeOutside_resumes
  succeeds := resumeOutside_succeeds
  reported s := by
    rw [run_resumeOutside]
    exact (State.reported_past ..).trans (s.reported_advanceBy _)

theorem blockBody_charges : (blockBody inner).Charges 0 0 Stmt.countAll :=
  charges_bind (statements_charges hi resuming_synchronize _) fun _ =>
    charges_pure (Nat.le_refl _)

theorem block_charges : (block inner).Charges 1 0 Block.count := by
  apply charges_expect_bind
  intro t
  apply charges_bind (charges_frame (blockBody_charges hi) _)
  intro ss
  apply charges_bind (charges_expect _)
  intro _
  apply charges_bind charges_lastEnd
  intro stop
  apply charges_pure
  rw [Block.count]
  omega

theorem program_charges : (program inner).Charges 0 0 Program.count :=
  charges_bind (statements_charges hi resuming_outside _) fun found =>
    charges_pure (Nat.le_refl (Stmt.countAll (found.filterMap id)))

end Constructs

theorem level_charges (limit n : Nat) : (level limit n).Charges := by
  induction n with
  | zero => exact ⟨fun _ => charges_failHere _, charges_failHere _⟩
  | succ n ih =>
    exact ⟨fun bound => charges_nest (expression_charges ih bound), charges_nest (block_charges ih)⟩

end LetLang.Parser.Traced
