import LetLang.Parse
import LetLang.Proofs.Walk.Constructs

/-! Parsing makes progress, and reads nothing twice.

`s.Strides n t`: the steps between the two states consume `n` tokens, and none of
them consumes the end. A construct takes only such steps, whether it finds something
or fails, since it consumes a token only after it has looked at its kind
(`level_careful`). A turn of a loop over statements takes at least one of them
(`Turns`), so from every state a program is read to its end, and every token ahead is
consumed once (`program_reads_all`). -/
namespace LetLang.Parser
open Token (Kind)

/-- Steps that consume so many tokens, each of them while it is ahead. -/
inductive State.Strides : State → Nat → State → Prop where
  | refl (s : State) : Strides s 0 s
  | advance {s t : State} {n : Nat} (h : Strides s n t) (ht : t.ahead ≠ []) :
      Strides s (n + 1) t.advance
  | report {s t : State} {n : Nat} (d : Diagnostic) (h : Strides s n t) : Strides s n (t.report d)
  | opened {s t : State} {n : Nat} (h : Strides s n t) : Strides s n t.opened
  | closed {s t : State} {n : Nat} (h : Strides s n t) : Strides s n t.closed

namespace State.Strides
variable {s t : State} {n m : Nat}

theorem length_ahead (h : Strides s n t) : s.ahead.length = n + t.ahead.length := by
  induction h with
  | refl => simp
  | advance _ hne ih =>
    have hpos := List.length_pos_iff.2 hne
    rw [ih, ahead_advance, List.length_tail]
    omega
  | report _ _ ih => exact ih
  | opened _ ih => exact ih
  | closed _ ih => exact ih

theorem consumed (h : Strides s n t) : t.consumed = s.consumed + n := by
  induction h with
  | refl => rfl
  | advance _ _ ih => exact congrArg (· + 1) ih
  | report _ _ ih => exact ih
  | opened _ ih => exact ih
  | closed _ ih => exact ih

theorem advanceBy (h : Strides s n t) (hm : m ≤ t.ahead.length) :
    Strides s (n + m) (t.advanceBy m) := by
  induction m generalizing t n with
  | zero => exact h
  | succ m ih =>
    have hne : t.ahead ≠ [] := List.length_pos_iff.1 (Nat.lt_of_lt_of_le m.succ_pos hm)
    have hle : m ≤ t.advance.ahead.length := by
      rw [ahead_advance, List.length_tail]
      omega
    have hrest := ih (h.advance hne) hle
    rwa [Nat.add_right_comm] at hrest

end State.Strides

/-- The end is not consumed on the way. -/
def Onward (s t : State) : Prop := ∃ n, s.Strides n t

variable {α β : Type} {s t u : State} {inner : Level}

theorem Onward.refl (s : State) : Onward s s := ⟨0, .refl s⟩

theorem Onward.advance (h : Onward s t) (ht : t.ahead ≠ []) : Onward s t.advance := by
  obtain ⟨n, hn⟩ := h
  exact ⟨n + 1, hn.advance ht⟩

theorem Onward.report (h : Onward s t) (d : Diagnostic) : Onward s (t.report d) := by
  obtain ⟨n, hn⟩ := h
  exact ⟨n, hn.report d⟩

theorem Onward.advanceBy (h : Onward s t) {m : Nat} (hm : m ≤ t.ahead.length) :
    Onward s (t.advanceBy m) := by
  obtain ⟨n, hn⟩ := h
  exact ⟨n + m, hn.advanceBy hm⟩

/-- A closing brace is looked for before it is consumed. -/
theorem Onward.past (h : Onward s t) {kind : Kind} (hk : kind ≠ .eof) : Onward s (t.past kind) := by
  rw [State.past]
  split
  · rename_i hc
    exact h.advance (State.ahead_ne_nil (hc ▸ hk))
  · exact h

/-! ### Careful parsers -/

/-- From this state it does not consume the end, whether it finds something or fails. -/
def CarefulAt (t : State) (p : Parser α) : Prop :=
  ∀ s, Onward s t → Moves Onward s Anything (p.run t)

def Careful (p : Parser α) : Prop := ∀ t, CarefulAt t p

theorem careful_bind {p : Parser α} {f : α → Parser β} (hp : p.Careful) (hf : ∀ a, (f a).Careful) :
    (p >>= f).Careful :=
  fun t s h => moves_bind (hp t s h) fun a u hu _ => hf a u s hu

/-- A token that is there may be consumed. -/
theorem careful_after {f : Token → Parser β} (ht : t.ahead ≠ []) (hf : ∀ x, (f x).Careful) :
    CarefulAt t (advance >>= f) := by
  intro s h
  have hadvance : Moves Onward s Anything (advance.run t) := ⟨h.advance ht, trivial⟩
  exact moves_bind hadvance fun x u hu _ => hf x u s hu

theorem careful_pure (a : α) : (pure a : Parser α).Careful := fun _ _ h => moves_pure h trivial

theorem careful_fail (d : Diagnostic) : (fail d : Parser α).Careful := fun _ _ h => h.report d

theorem careful_failHere (problem : Problem) : (failHere problem : Parser α).Careful :=
  fun _ _ h => h.report _

theorem careful_current : current.Careful := fun _ _ h => ⟨h, trivial⟩

theorem careful_lastEnd : lastEnd.Careful := fun _ _ h => ⟨h, trivial⟩

theorem careful_expect {kind : Kind} (hk : kind ≠ .eof) : (expect kind).Careful := by
  intro t s h
  rw [run_expect]
  split
  · rename_i hc
    exact ⟨h.advance (State.ahead_ne_nil (hc ▸ hk)), trivial⟩
  · exact h.report _

theorem careful_skip {kind : Kind} (hk : kind ≠ .eof) : (skip kind).Careful := by
  intro t s h
  rw [run_skip]
  split
  · rename_i hc
    exact ⟨h.advance (State.ahead_ne_nil (hc ▸ hk)), trivial⟩
  · exact ⟨h, trivial⟩

theorem careful_many {p : Parser (Option α)} {hp : p.Advances} (h : p.Careful) :
    (many p hp).Careful := fun _ s ht => moves_many_anything (fun u hu => h u s hu) ht

theorem careful_iterate {f : α → Parser (Option α)} {hf : ∀ a, (f a).Advances}
    (h : ∀ a, (f a).Careful) (a : α) : (iterate f hf a).Careful :=
  fun _ s ht => moves_iterate_anything (fun b u hu => h b u s hu) a ht

theorem careful_nest {p : Parser α} (hp : p.Careful) : (nest p).Careful := by
  rintro t s ⟨n, hn⟩
  refine moves_nest (hp t.opened s ⟨n, hn.opened⟩) ?_ fun _ _ h => h
  rintro u ⟨m, hm⟩
  exact ⟨m, hm.closed⟩

theorem careful_synchronize : synchronize.Careful :=
  fun t _ h => ⟨h.advanceBy (boundary_le 0 t.ahead), trivial⟩

theorem careful_resumeOutside : resumeOutside.Careful := by
  intro t s h
  rw [run_resumeOutside]
  exact ⟨(h.advanceBy (boundary_le 0 t.ahead)).past (by simp), trivial⟩

/-! ### Constructs -/

structure Level.Careful (inner : Level) : Prop where
  expr : ∀ bound, (inner.expr bound).Careful
  block : inner.block.Careful

section Constructs

theorem literal_careful (ht : t.ahead ≠ []) : CarefulAt t literal := by
  refine careful_after ht fun x => ?_
  split
  · split
    · exact careful_pure _
    · exact careful_fail _
  · exact careful_pure _
  · exact careful_pure _
  · exact careful_pure _
  · exact careful_fail _

theorem untilParen_careful {p : Parser α} (hp : p.Careful) : (untilParen p).Careful := by
  have hcomma : (afterComma p).Careful := by
    refine careful_bind (careful_skip (by simp)) fun found => ?_
    cases found with
    | false => exact careful_pure _
    | true => exact careful_bind hp fun _ => careful_pure _
  refine careful_bind (careful_bind careful_current fun x => ?_) fun found =>
    careful_bind (careful_expect (by simp)) fun _ => careful_pure _
  split
  · exact careful_pure _
  · exact careful_bind hp fun _ => careful_bind (careful_many hcomma) fun _ => careful_pure _

theorem parameter_careful : parameter.Careful :=
  careful_bind (careful_expect (by simp)) fun _ => careful_pure _

theorem terminated_careful {p : Parser (Position → Stmt)} (hp : CarefulAt t p) :
    CarefulAt t (terminated p) := by
  have hend : ∀ make : Position → Stmt,
      (do let _ ← skip .semicolon; return make (← lastEnd) : Parser Stmt).Careful :=
    fun make => careful_bind (careful_skip (by simp)) fun _ =>
      careful_bind careful_lastEnd fun _ => careful_pure _
  exact fun s h => moves_bind (hp s h) fun make u hu _ => hend make u s hu

variable (hi : inner.Careful)
include hi

theorem unary_careful (ht : t.ahead ≠ []) : CarefulAt t (unary inner) :=
  careful_after ht fun _ => careful_bind (hi.expr _) fun _ => careful_pure _

theorem group_careful (ht : t.ahead ≠ []) : CarefulAt t (group inner) :=
  careful_after ht fun _ => careful_bind (hi.expr _) fun _ =>
    careful_bind (careful_expect (by simp)) fun _ => careful_pure _

theorem alternative_careful : (alternative inner).Careful := by
  refine careful_bind (careful_skip (by simp)) fun found => ?_
  cases found with
  | false => exact careful_pure _
  | true => exact careful_bind hi.block fun _ => careful_pure _

theorem conditional_careful (ht : t.ahead ≠ []) : CarefulAt t (conditional inner) := by
  refine careful_after ht fun _ => careful_bind (careful_expect (by simp)) fun _ => ?_
  refine careful_bind (hi.expr _) fun _ => careful_bind (careful_expect (by simp)) fun _ => ?_
  refine careful_bind hi.block fun _ => careful_bind (alternative_careful hi) fun _ => ?_
  exact careful_bind careful_lastEnd fun _ => careful_pure _

theorem function_careful (ht : t.ahead ≠ []) : CarefulAt t (function inner) := by
  refine careful_after ht fun _ => careful_bind (careful_expect (by simp)) fun _ => ?_
  refine careful_bind (untilParen_careful parameter_careful) fun _ => careful_bind hi.block fun _ => ?_
  exact careful_bind careful_lastEnd fun _ => careful_pure _

/-- An operand is chosen by the kind of its first token, which is none that the end has. -/
theorem operand_careful : (operand inner).Careful := by
  intro t s h
  simp only [operand, run_bind, run_current]
  split
  · rename_i p hp
    have ht : t.ahead ≠ [] := by
      apply State.ahead_ne_nil
      intro hk
      rw [hk] at hp
      cases hp
    rcases operand?_cases inner hp with rfl | ⟨-, rfl⟩ | ⟨-, rfl⟩ | ⟨-, rfl⟩ | ⟨-, rfl⟩
    · exact literal_careful ht s h
    · exact unary_careful hi ht s h
    · exact group_careful hi ht s h
    · exact conditional_careful hi ht s h
    · exact function_careful hi ht s h
  · exact careful_failHere _ t s h

theorem binary_careful (ht : t.ahead ≠ []) (left : Expr) (power : Power) :
    CarefulAt t (binary inner left power) :=
  careful_after ht fun _ => careful_bind (hi.expr _) fun _ => careful_pure _

theorem assignment_careful (ht : t.ahead ≠ []) (left : Expr) :
    CarefulAt t (assignment inner left) := by
  unfold assignment
  split
  · exact careful_after ht fun _ => careful_bind (hi.expr _) fun _ => careful_pure _
  · exact careful_fail _ t

theorem call_careful (ht : t.ahead ≠ []) (callee : Expr) : CarefulAt t (call inner callee) :=
  careful_after ht fun _ => careful_bind (untilParen_careful (hi.expr _)) fun _ =>
    careful_bind careful_lastEnd fun _ => careful_pure _

theorem operator?_careful {p : Expr → Power → Parser Expr}
    (hp : operator? inner t.current.kind = some p) (left : Expr) (power : Power) :
    CarefulAt t (p left power) := by
  have ht : t.ahead ≠ [] := by
    apply State.ahead_ne_nil
    intro hk
    rw [hk] at hp
    cases hp
  rcases operator?_cases inner hp with rfl | rfl | rfl
  · exact assignment_careful hi ht left
  · exact binary_careful hi ht left power
  · exact call_careful hi ht left

theorem operatorAbove_careful (bound : Power) (left : Expr) :
    (operatorAbove inner bound left).Careful := by
  intro t s h
  simp only [operatorAbove, run_bind, run_current]
  split
  · split
    · rename_i p hp
      exact moves_bind (operator?_careful hi hp left _ s h) fun _ _ hu _ => moves_pure hu trivial
    · exact moves_pure h trivial
  · exact moves_pure h trivial

theorem expression_careful (bound : Power) : (expression inner bound).Careful :=
  careful_bind (operand_careful hi) fun left => careful_iterate (operatorAbove_careful hi bound) left

theorem statement_careful : (statement inner).Careful := by
  intro t s h
  rw [run_statement]
  unfold statementFrom
  split
  · rename_i hk
    refine terminated_careful (careful_after (State.ahead_ne_nil (by simp [hk])) fun _ => ?_) s h
    refine careful_bind (careful_expect (by simp)) fun _ => careful_bind (careful_expect (by simp)) ?_
    exact fun _ => careful_bind (hi.expr _) fun _ => careful_pure _
  · rename_i hk
    refine terminated_careful (careful_after (State.ahead_ne_nil (by simp [hk])) fun _ => ?_) s h
    exact careful_bind (hi.expr _) fun _ => careful_pure _
  · exact careful_bind hi.block (fun _ => careful_pure _) t s h
  · refine terminated_careful (careful_bind careful_current (fun _ => ?_) t) s h
    exact careful_bind (hi.expr _) fun _ => careful_pure _

end Constructs

/-! ### Loops over statements -/

/-- What resumes leads on to where the list goes on. -/
theorem statements_onward {ends : Option Token → Bool} {resume : Parser Unit}
    {ha : (statementUnless inner ends resume).Advances} (hi : inner.Careful)
    (hr : resume.Careful) (h : Onward s t) :
    Moves Onward s (fun _ u => ends u.ahead.head? = true)
      ((many (statementUnless inner ends resume) ha).run t) :=
  statements_move (fun u hu _ => statement_careful hi u s hu) (fun u hu => hr u s hu) h

theorem block_careful (hi : inner.Careful) : (block inner).Careful := by
  refine careful_bind (careful_expect (by simp)) fun _ => ?_
  refine careful_bind (careful_bind ?_ fun _ => careful_pure _) fun _ => ?_
  · exact fun t s h => (statements_onward hi careful_synchronize h).forget
  · exact careful_bind (careful_expect (by simp)) fun _ =>
      careful_bind careful_lastEnd fun _ => careful_pure _

theorem level_careful (limit n : Nat) : (level limit n).Careful := by
  induction n with
  | zero => exact ⟨fun _ => careful_failHere _, careful_failHere _⟩
  | succ n ih => exact ⟨fun bound => careful_nest (expression_careful ih bound),
      careful_nest (block_careful ih)⟩

/-- A loop stops where its list ends. Everywhere else it takes a turn, which finds a statement or
leaves one out, and which consumes at least one token but not the end. -/
def Turns (ends : Option Token → Bool) (turn : Parser (Option (Option Stmt))) : Prop :=
  ∀ u, if ends u.ahead.head? then turn.run u = .ok none u
    else ∃ found v n, turn.run u = .ok (some found) v ∧ u.Strides (n + 1) v

theorem statementUnless_turns {ends : Option Token → Bool} {resume : Parser Unit}
    (hi : inner.Careful) (hr : resume.Careful) (hs : resume.Succeeds) (hres : Resumes ends resume) :
    Turns ends (statementUnless inner ends resume) := by
  intro u
  simp only [statementUnless, run_bind, run_next?]
  split
  · rfl
  · rename_i hends
    obtain ⟨found, v, hv⟩ := recovering_succeeds (statement inner) hs u
    have hlt := recovering_lt inner hres (Bool.eq_false_iff.2 hends) hv
    have hmoves : Moves Onward u Anything ((recovering (statement inner) resume).run u) :=
      moves_recovering (statement_careful hi u u (.refl u)) fun w hw => hr w u hw
    rw [hv] at hmoves
    obtain ⟨⟨n, hn⟩, -⟩ := hmoves
    have hlength := hn.length_ahead
    obtain ⟨m, rfl⟩ : ∃ m, n = m + 1 := ⟨n - 1, by omega⟩
    exact ⟨found, v, m, by rw [run_bind, hv]; rfl, hn⟩

/-- From every state a program is read to the end: every token ahead is consumed once, the end never,
and no turn of a loop over statements is without progress, in the program or in a block of it. -/
theorem program_reads_all (s : State) :
    ∃ p t, (within maxNesting program).run s = .ok p t ∧ s.Strides s.ahead.length t ∧
      t.consumed = s.consumed + s.ahead.length ∧ t.current = s.endToken ∧
      ∀ n, Turns Option.isNone (statementUnless (level maxNesting n) Option.isNone resumeOutside) ∧
        Turns blockEnds (statementUnless (level maxNesting n) blockEnds synchronize) := by
  have hlevel := level_careful maxNesting
  obtain ⟨p, t, hrun⟩ := program_succeeds (level maxNesting (maxNesting - s.depth)) s
  have hmoves : Moves Onward s (fun _ t => t.ahead.head?.isNone = true)
      ((program (level maxNesting (maxNesting - s.depth))).run s) :=
    moves_bind (statements_onward (hlevel _) careful_resumeOutside (.refl s)) fun _ _ hu hend =>
      moves_pure hu hend
  have hfinish := (program (level maxNesting (maxNesting - s.depth))).steps s
  rw [hrun] at hmoves hfinish
  obtain ⟨⟨n, hn⟩, hend⟩ := hmoves
  have hnil : t.ahead = [] := by simpa using hend
  have hlength : s.ahead.length = n := by simpa [hnil] using hn.length_ahead
  subst hlength
  refine ⟨p, t, hrun, hn, hn.consumed, ?_, fun n => ⟨?_, ?_⟩⟩
  · have hend : t.finish = s.finish := hfinish.finish
    rw [State.current, hnil, List.headD_nil, State.endToken, State.endToken, hend]
  · exact statementUnless_turns (hlevel n) careful_resumeOutside resumeOutside_succeeds
      resumeOutside_resumes
  · exact statementUnless_turns (hlevel n) careful_synchronize
      (fun u => ⟨(), u.synchronized, rfl⟩) synchronize_resumes

end LetLang.Parser
