import LetLang.Proofs.Parallel.Basic

/-! Every construct keeps two runs together.

A construct decides by the kind of the current token alone, and both runs see the
same kinds; so from related states it comes to results that agree
(`level_agrees`, `program_agrees`). The one place where the runs differ is a block
that is emptied in the second: there the first run reads a body that the second
does not have, to the same closing brace (`emptied_block_agrees`). -/
namespace LetLang.Parser.Matching
open Token (Kind)

variable {m : Matching} {inner : Level} {s t : State}

/-- The tree is drawn again, and begins at a place that is looked at. -/
def DrawnExpr (m : Matching) (a b : Expr) : Prop :=
  b = m.redraw.expr a ∧ m.hides a.start = false

structure Level.Agrees (m : Matching) (inner : Level) : Prop where
  expr : ∀ bound {s t}, m.Aligned s t →
    m.Agree m.Related m.DrawnExpr ((inner.expr bound).run s) ((inner.expr bound).run t)
  block : ∀ {s t}, m.Aligned s t →
    m.Agree m.Related (Drawn m.redraw.block) (inner.block.run s) (inner.block.run t)

/-! ### Operands -/

theorem literal_agrees (h : m.Aligned s t) (ho : s.current.kind ≠ .openCurly) :
    m.Agree m.Related m.DrawnExpr (literal.run s) (literal.run t) := by
  apply agree_bind (agree_advance h ho)
  intro x x' s t hx h
  obtain ⟨rfl, hx⟩ := hx
  simp only [Redraw.kind_token, Redraw.literal_token, Redraw.start_token]
  split
  · by_cases hv : x.value ≤ maxInteger
    · have hv' : (m.redraw.token x).value ≤ maxInteger := hv
      rw [if_pos hv, if_pos hv']
      exact agree_pure ⟨by simp [Redraw.expr], hx⟩ h
    · have hv' : ¬ (m.redraw.token x).value ≤ maxInteger := hv
      rw [if_neg hv, if_neg hv']
      exact ⟨hx, rfl, h.toAligned⟩
  · exact agree_pure ⟨by simp [Redraw.expr, Redraw.name], hx⟩ h
  · exact agree_pure ⟨by simp [Redraw.expr], hx⟩ h
  · exact agree_pure ⟨by simp [Redraw.expr], hx⟩ h
  · exact ⟨hx, rfl, h.toAligned⟩

theorem unary_agrees (hi : Level.Agrees m inner) (h : m.Aligned s t)
    (ho : s.current.kind ≠ .openCurly) :
    m.Agree m.Related m.DrawnExpr ((unary inner).run s) ((unary inner).run t) := by
  apply agree_bind (agree_advance h ho)
  intro x x' s t hx h
  obtain ⟨rfl, hx⟩ := hx
  apply agree_bind (hi.expr _ h.toAligned)
  intro e e' s t he h
  obtain ⟨rfl, -⟩ := he
  exact agree_pure ⟨by simp [Redraw.expr, Redraw.span], hx⟩ h

theorem group_agrees (hi : Level.Agrees m inner) (h : m.Aligned s t)
    (ho : s.current.kind ≠ .openCurly) :
    m.Agree m.Related m.DrawnExpr ((group inner).run s) ((group inner).run t) := by
  apply agree_bind (agree_advance h ho)
  intro _ _ s t _ h
  apply agree_bind (hi.expr _ h.toAligned)
  intro e e' s t he h
  apply agree_bind (agree_expect_plain h.toAligned (by decide))
  intro _ _ s t _ h
  exact agree_pure he h

theorem alternative_agrees (hi : Level.Agrees m inner) (h : m.Related s t) :
    m.Agree m.Related (Drawn m.redraw.blockOption) ((alternative inner).run s)
      ((alternative inner).run t) := by
  apply agree_bind (h.agree_skip (by decide))
  intro found found' s t hfound h
  obtain rfl := hfound
  cases found with
  | false => exact agree_pure (by simp [Drawn, Redraw.blockOption]) h
  | true =>
    apply agree_bind (hi.block h.toAligned)
    intro b b' s t hb h
    obtain rfl := hb
    exact agree_pure (by simp [Drawn, Redraw.blockOption]) h

theorem conditional_agrees (hi : Level.Agrees m inner) (h : m.Aligned s t)
    (ho : s.current.kind ≠ .openCurly) :
    m.Agree m.Related m.DrawnExpr ((conditional inner).run s) ((conditional inner).run t) := by
  apply agree_bind (agree_advance h ho)
  intro x x' s t hx h
  obtain ⟨rfl, hx⟩ := hx
  apply agree_bind (agree_expect_plain h.toAligned (by decide))
  intro _ _ s t _ h
  apply agree_bind (hi.expr _ h.toAligned)
  intro c c' s t hc h
  obtain ⟨rfl, -⟩ := hc
  apply agree_bind (agree_expect_plain h.toAligned (by decide))
  intro _ _ s t _ h
  apply agree_bind (hi.block h.toAligned)
  intro b b' s t hb h
  obtain rfl := hb
  apply agree_bind (alternative_agrees hi h)
  intro a a' s t ha h
  obtain rfl := ha
  apply agree_bind (agree_lastEnd h)
  intro stop stop' s t hstop h
  obtain rfl := hstop
  exact agree_pure ⟨by simp [Redraw.expr, Redraw.span], hx⟩ h

section Lists
variable {α : Type} {V : α → α → Prop} {p : Parser α} {f : α → α}
  (hp : ∀ {s t}, m.Related s t → m.Agree m.Related (Drawn f) (p.run s) (p.run t))
include hp

theorem afterComma_agrees (h : m.Related s t) :
    m.Agree m.Related (Drawn (Option.map f)) ((afterComma p).run s) ((afterComma p).run t) := by
  apply agree_bind (h.agree_skip (by decide))
  intro found found' s t hfound h
  obtain rfl := hfound
  cases found with
  | false => exact agree_pure rfl h
  | true =>
    apply agree_bind (hp h)
    intro a a' s t ha h
    obtain rfl := ha
    exact agree_pure rfl h

theorem beforeParen_agrees (h : m.Related s t) :
    m.Agree m.Related (Drawn (List.map f)) ((beforeParen p).run s) ((beforeParen p).run t) := by
  simp only [beforeParen, run_bind, run_current, h.kind]
  split
  · exact agree_pure rfl h
  · apply agree_bind (hp h)
    intro a a' s t ha h
    obtain rfl := ha
    apply agree_bind (agree_many (fun _ _ h => afterComma_agrees hp h) h)
    intro as as' s t has h
    obtain rfl := has
    exact agree_pure rfl h

theorem untilParen_agrees (h : m.Related s t) :
    m.Agree m.Related (Drawn (List.map f)) ((untilParen p).run s) ((untilParen p).run t) := by
  apply agree_bind (beforeParen_agrees hp h)
  intro as bs s t has h
  apply agree_bind (agree_expect_plain h.toAligned (by decide))
  intro _ _ s t _ h
  exact agree_pure has h

end Lists

theorem parameter_agrees (h : m.Related s t) :
    m.Agree m.Related (Drawn m.redraw.name) (parameter.run s) (parameter.run t) := by
  apply agree_bind (agree_expect_plain h.toAligned (by decide))
  intro x x' s t hx h
  obtain ⟨rfl, -⟩ := hx
  exact agree_pure rfl h

theorem function_agrees (hi : Level.Agrees m inner) (h : m.Aligned s t)
    (ho : s.current.kind ≠ .openCurly) :
    m.Agree m.Related m.DrawnExpr ((function inner).run s) ((function inner).run t) := by
  apply agree_bind (agree_advance h ho)
  intro x x' s t hx h
  obtain ⟨rfl, hx⟩ := hx
  apply agree_bind (agree_expect_plain h.toAligned (by decide))
  intro _ _ s t _ h
  apply agree_bind (untilParen_agrees parameter_agrees h)
  intro xs xs' s t hxs h
  obtain rfl := hxs
  apply agree_bind (hi.block h.toAligned)
  intro b b' s t hb h
  obtain rfl := hb
  apply agree_bind (agree_lastEnd h)
  intro stop stop' s t hstop h
  obtain rfl := hstop
  exact agree_pure ⟨by simp [Redraw.expr, Redraw.span], hx⟩ h

theorem operand_agrees (hi : Level.Agrees m inner) (h : m.Aligned s t) :
    m.Agree m.Related m.DrawnExpr ((operand inner).run s) ((operand inner).run t) := by
  simp only [operand, run_bind, run_current, h.kind]
  split
  · rename_i p hp
    have ho := (plain_of_operand? hp).1
    rcases operand?_cases inner hp with rfl | ⟨-, rfl⟩ | ⟨-, rfl⟩ | ⟨-, rfl⟩ | ⟨-, rfl⟩
    · exact literal_agrees h ho
    · exact unary_agrees hi h ho
    · exact group_agrees hi h ho
    · exact conditional_agrees hi h ho
    · exact function_agrees hi h ho
  · have hsame : noOperand t.current = noOperand s.current := by
      rw [h.current.1]
      rfl
    rw [hsame]
    exact agree_failHere h

/-! ### Operators -/

theorem binary_agrees (hi : Level.Agrees m inner) {a b : Expr} (hv : m.DrawnExpr a b)
    (h : m.Aligned s t) (ho : s.current.kind ≠ .openCurly) (power : Power) :
    m.Agree m.Related m.DrawnExpr ((binary inner a power).run s) ((binary inner b power).run t) := by
  obtain ⟨rfl, ha⟩ := hv
  apply agree_bind (agree_advance h ho)
  intro x x' s t hx h
  obtain ⟨rfl, -⟩ := hx
  apply agree_bind (hi.expr _ h.toAligned)
  intro e e' s t he h
  obtain ⟨rfl, -⟩ := he
  exact agree_pure ⟨by simp [Redraw.expr, Redraw.span], ha⟩ h

theorem assignment_agrees (hi : Level.Agrees m inner) {a b : Expr} (hv : m.DrawnExpr a b)
    (h : m.Aligned s t) (ho : s.current.kind ≠ .openCurly) :
    m.Agree m.Related m.DrawnExpr ((assignment inner a).run s) ((assignment inner b).run t) := by
  obtain ⟨rfl, ha⟩ := hv
  by_cases hname : ∃ x, a = .name x
  · obtain ⟨x, rfl⟩ := hname
    rw [Redraw.expr]
    apply agree_bind (agree_advance h ho)
    intro o o' s t ho h
    obtain ⟨rfl, -⟩ := ho
    apply agree_bind (hi.expr _ h.toAligned)
    intro e e' s t he h
    obtain ⟨rfl, -⟩ := he
    exact agree_pure ⟨by simp [Redraw.expr, Redraw.span, Redraw.name], ha⟩ h
  · have hfail : ∀ {e : Expr}, (¬ ∃ x, e = .name x) →
        assignment inner e = fail ⟨.notAssignable e.token.literal, e.start⟩ := by
      intro e he
      cases e <;> first | rfl | exact absurd ⟨_, rfl⟩ he
    have hname' : ¬ ∃ x, m.redraw.expr a = .name x := by
      intro h
      obtain ⟨x, hx⟩ := h
      obtain ⟨y, rfl, -⟩ := m.redraw.expr_eq_name hx
      exact hname ⟨y, rfl⟩
    rw [hfail hname, hfail hname', Redraw.token_expr, Redraw.start_expr]
    exact ⟨ha, rfl, h⟩

theorem call_agrees (hi : Level.Agrees m inner) {a b : Expr} (hv : m.DrawnExpr a b)
    (h : m.Aligned s t) (ho : s.current.kind ≠ .openCurly) :
    m.Agree m.Related m.DrawnExpr ((call inner a).run s) ((call inner b).run t) := by
  obtain ⟨rfl, ha⟩ := hv
  apply agree_bind (agree_advance h ho)
  intro x x' s t hx h
  obtain ⟨rfl, -⟩ := hx
  have hargument : ∀ {s t}, m.Related s t → m.Agree m.Related (Drawn m.redraw.expr)
      ((inner.expr .lowest).run s) ((inner.expr .lowest).run t) :=
    fun h => (hi.expr _ h.toAligned).mono (fun _ _ h => h) fun _ _ hv => hv.1
  apply agree_bind (untilParen_agrees hargument h)
  intro es es' s t hes h
  obtain rfl := hes
  apply agree_bind (agree_lastEnd h)
  intro stop stop' s t hstop h
  obtain rfl := hstop
  exact agree_pure ⟨by simp [Redraw.expr, Redraw.span, Redraw.exprs_eq_map], ha⟩ h

theorem operatorAbove_agrees (hi : Level.Agrees m inner) (bound : Power) {a b : Expr}
    (hv : m.DrawnExpr a b) (h : m.Related s t) :
    m.Agree m.Related (Option.Rel m.DrawnExpr) ((operatorAbove inner bound a).run s)
      ((operatorAbove inner bound b).run t) := by
  simp only [operatorAbove, run_bind, run_current, h.kind]
  split
  · split
    · rename_i p hp
      have ho := (plain_of_operator? hp).1
      have hfound : m.Agree m.Related m.DrawnExpr ((p a s.current.kind.power).run s)
          ((p b s.current.kind.power).run t) := by
        rcases operator?_cases inner hp with rfl | rfl | rfl
        · exact assignment_agrees hi hv h.toAligned ho
        · exact binary_agrees hi hv h.toAligned ho _
        · exact call_agrees hi hv h.toAligned ho
      exact agree_bind hfound fun _ _ s t he h => agree_pure (.some he) h
    · exact agree_pure .none h
  · exact agree_pure .none h

theorem expression_agrees (hi : Level.Agrees m inner) (bound : Power) (h : m.Aligned s t) :
    m.Agree m.Related m.DrawnExpr ((expression inner bound).run s) ((expression inner bound).run t) :=
  agree_bind (operand_agrees hi h) fun _ _ _ _ hv h =>
    agree_iterate (fun _ _ _ _ hv h => operatorAbove_agrees hi bound hv h) hv h

/-! ### Statements -/

theorem terminated_agrees {p : Parser (Position → Stmt)}
    (hp : m.Agree m.Related (fun f g => ∀ stop, g (m.redraw.move stop) = m.redraw.stmt (f stop))
      (p.run s) (p.run t)) :
    m.Agree m.Related (Drawn m.redraw.stmt) ((terminated p).run s) ((terminated p).run t) := by
  apply agree_bind hp
  intro f g s t hfg h
  apply agree_bind (h.agree_skip (by decide))
  intro _ _ s t _ h
  apply agree_bind (agree_lastEnd h)
  intro stop stop' s t hstop h
  obtain rfl := hstop
  exact agree_pure (hfg stop) h

theorem binding_agrees (hi : Level.Agrees m inner) (h : m.Aligned s t)
    (ho : s.current.kind ≠ .openCurly) :
    m.Agree m.Related (Drawn m.redraw.stmt) ((binding inner).run s) ((binding inner).run t) := by
  refine terminated_agrees (agree_bind (agree_advance h ho) ?_)
  intro x x' s t hx h
  obtain ⟨rfl, -⟩ := hx
  apply agree_bind (agree_expect_plain h.toAligned (by decide))
  intro name name' s t hname h
  obtain ⟨rfl, -⟩ := hname
  apply agree_bind (agree_expect_plain h.toAligned (by decide))
  intro _ _ s t _ h
  apply agree_bind (hi.expr _ h.toAligned)
  intro e e' s t he h
  obtain ⟨rfl, -⟩ := he
  exact agree_pure (fun stop => by simp [Redraw.stmt, Redraw.name, Redraw.span]) h

theorem returning_agrees (hi : Level.Agrees m inner) (h : m.Aligned s t)
    (ho : s.current.kind ≠ .openCurly) :
    m.Agree m.Related (Drawn m.redraw.stmt) ((returning inner).run s) ((returning inner).run t) := by
  refine terminated_agrees (agree_bind (agree_advance h ho) ?_)
  intro x x' s t hx h
  obtain ⟨rfl, -⟩ := hx
  apply agree_bind (hi.expr _ h.toAligned)
  intro e e' s t he h
  obtain ⟨rfl, -⟩ := he
  exact agree_pure (fun stop => by simp [Redraw.stmt, Redraw.span]) h

theorem expressionStatement_agrees (hi : Level.Agrees m inner) (h : m.Aligned s t) :
    m.Agree m.Related (Drawn m.redraw.stmt) ((expressionStatement inner).run s)
      ((expressionStatement inner).run t) := by
  refine terminated_agrees ?_
  simp only [run_bind, run_current]
  rw [h.current.1]
  apply agree_bind (hi.expr _ h)
  intro e e' s' t' he h
  obtain ⟨rfl, -⟩ := he
  exact agree_pure (fun stop => by simp [Redraw.stmt, Redraw.span]) h

theorem statement_agrees (hi : Level.Agrees m inner) (h : m.Aligned s t) :
    m.Agree m.Related (Drawn m.redraw.stmt) ((statement inner).run s) ((statement inner).run t) := by
  rw [run_statement, run_statement, h.kind]
  unfold statementFrom
  split
  · rename_i hk
    exact binding_agrees hi h (by simp [hk])
  · rename_i hk
    exact returning_agrees hi h (by simp [hk])
  · apply agree_bind (hi.block h)
    intro b b' s t hb h
    obtain rfl := hb
    exact agree_pure (by simp [Drawn, Redraw.stmt]) h
  · exact expressionStatement_agrees hi h

theorem statements_agree (hi : Level.Agrees m inner) {ends : Option Token → Bool}
    {resume : Parser Unit} {ha : (statementUnless inner ends resume).Advances}
    (he : ∀ x, ends (x.map m.redraw.token) = ends x)
    (hr : ∀ s t, m.Aligned s t → m.Agree m.Aligned Eq (resume.run s) (resume.run t))
    (h : m.Aligned s t) :
    m.Agree m.Aligned (Drawn (List.map (Option.map m.redraw.stmt)))
      ((many (statementUnless inner ends resume) ha).run s)
      ((many (statementUnless inner ends resume) ha).run t) := by
  refine agree_many (fun s t h => ?_) h
  simp only [statementUnless, run_bind, run_next?, h.head?, he]
  split
  · exact agree_pure rfl h
  · have hstatement := (statement_agrees hi h).mono (fun _ _ h => h.toAligned) fun _ _ h => h
    apply agree_bind (agree_recovering hstatement hr)
    intro x x' s t hx h
    obtain rfl := hx
    exact agree_pure rfl h

theorem filterMap_drawn (found : List (Option Stmt)) :
    (found.map (Option.map m.redraw.stmt)).filterMap id = m.redraw.stmts (found.filterMap id) := by
  rw [Redraw.stmts_eq_map, List.filterMap_map, List.map_filterMap]
  rfl

theorem synchronize_agrees (h : m.Aligned s t) :
    m.Agree m.Aligned Eq (synchronize.run s) (synchronize.run t) := ⟨rfl, h.boundary 0⟩

theorem blockBody_agrees (hi : Level.Agrees m inner) (h : m.Aligned s t) :
    m.Agree m.Aligned (Drawn m.redraw.stmts) ((blockBody inner).run s) ((blockBody inner).run t) := by
  have he : ∀ x : Option Token, blockEnds (x.map m.redraw.token) = blockEnds x := by
    intro x
    cases x <;> rfl
  apply agree_bind (statements_agree hi he (fun _ _ h => synchronize_agrees h) h)
  intro found found' s t hfound h
  obtain rfl := hfound
  exact agree_pure (filterMap_drawn found) h

/-! ### Blocks -/

theorem block_empty {opening closing : Token} {rest : List Token} (ho : opening.kind = .openCurly)
    (hc : closing.kind = .closeCurly) (ht : t.ahead = opening :: closing :: rest) :
    (block inner).run t =
      .ok (.mk opening [] ⟨opening.start, closing.stop⟩) t.advance.advance := by
  have hcurrent : t.current = opening := by simp [State.current, ht]
  have hnext : t.advance.current = closing := by simp [State.current, ht]
  have hends : blockEnds t.advance.ahead.head? = true := by simp [blockEnds, ht, hc]
  have hbody : (blockBody inner).run t.advance = .ok [] t.advance := by
    simp only [blockBody, run_bind]
    rw [run_many]
    simp only [statementUnless, run_bind, run_next?, hends, if_true, run_pure]
    rfl
  have hlast : t.advance.advance.lastEnd = t.advance.current.stop := rfl
  simp only [block, run_bind, run_expect, hcurrent, ho, if_true, hbody, hnext, hc, run_lastEnd,
    hlast, run_pure]

theorem diagnostics_append_hidden (ds es : List Diagnostic)
    (h : ∀ e ∈ es, m.hides e.position = true) :
    m.diagnostics (ds ++ es) = m.diagnostics ds := by
  have hnil : es.filter (fun e => !m.hides e.position) = [] := by
    rw [List.filter_eq_nil_iff]
    intro e he
    simp [h e he]
  rw [diagnostics, List.filter_append, hnil, List.append_nil, diagnostics]

theorem emptied_block_agrees (hw : inner.Walks) (h : m.Aligned s t)
    (he : m.redraw.empties s.current = true) :
    m.Agree m.Related (Drawn m.redraw.block) ((block inner).run s) ((block inner).run t) := by
  have hk := m.empties_open he
  obtain ⟨x, ts, hs⟩ := List.exists_cons_of_ne_nil (State.ahead_ne_nil (s := s) (by simp [hk]))
  have hcurrent : s.current = x := by simp [State.current, hs]
  rw [hcurrent] at he hk
  obtain ⟨-, body, closing, rest, vs, rfl, hb, hc, hus, hrest, hhide⟩ := m.emptied (hs ▸ h.ahead) he
  obtain ⟨ss, s', ds, hrun, hsorted, hahead, hlast, hfin, hrep, hin⟩ :=
    block_matched hw h.sorted hk hc hb hs
  rw [hrun, block_empty (by rwa [Redraw.kind_token]) (by rwa [Redraw.kind_token]) hus]
  have hhidden : ∀ d ∈ ds, m.hides d.position = true := by
    intro d hd
    obtain ⟨hlow, hhigh⟩ := hin d hd
    have hahead : s.advance.ahead = body ++ closing :: rest := by simp [hs]
    cases hbody : body with
    | nil =>
      refine hhide closing (by simp [hbody]) d.position ?_ hhigh
      rwa [State.offset, State.position, State.current, hahead, hbody] at hlow
    | cons y ys =>
      refine hhide y (by simp [hbody]) d.position ?_ hhigh
      rwa [State.offset, State.position, State.current, hahead, hbody] at hlow
  refine ⟨by simp [Drawn, Redraw.block, he, Redraw.span],
    ⟨hsorted, ?_, hfin.trans h.finish, h.finish', ?_⟩, ?_⟩
  · rw [hahead]
    simpa [hus] using hrest
  · obtain ⟨es, hes, hes'⟩ := h.reported
    refine ⟨es ++ ds, by rw [hrep, hes, List.append_assoc], ?_⟩
    rw [diagnostics_append_hidden _ _ hhidden]
    exact hes'
  · rw [hlast]
    simp [State.advance, State.current, hus]

theorem block_agrees (hi : Level.Agrees m inner) (hw : inner.Walks) (h : m.Aligned s t) :
    m.Agree m.Related (Drawn m.redraw.block) ((block inner).run s) ((block inner).run t) := by
  by_cases he : m.redraw.empties s.current = true
  · exact emptied_block_agrees hw h he
  · have he : m.redraw.empties s.current = false := by simpa using he
    apply agree_bind (agree_expect h fun _ => he)
    intro x x' s t hx h
    obtain ⟨⟨rfl, -⟩, he⟩ := hx
    apply agree_bind (blockBody_agrees hi h.toAligned)
    intro ss ss' s t hss h
    obtain rfl := hss
    apply agree_bind (agree_expect_plain h (by decide))
    intro _ _ s t _ h
    apply agree_bind (agree_lastEnd h)
    intro stop stop' s t hstop h
    obtain rfl := hstop
    exact agree_pure (by simp [Drawn, Redraw.block, he, Redraw.span]) h

/-! ### Levels and programs -/

theorem level_agrees (m : Matching) (limit n : Nat) : Level.Agrees m (level limit n) := by
  induction n with
  | zero => exact ⟨fun _ _ _ h => agree_failHere h, fun h => agree_failHere h⟩
  | succ n ih =>
    constructor
    · intro bound s t h
      exact agree_nest (expression_agrees ih bound h.opened)
    · intro s t h
      exact agree_nest (block_agrees ih (level_walks limit n) h.opened)

theorem resumeOutside_agrees (h : m.Aligned s t) :
    m.Agree m.Aligned Eq (resumeOutside.run s) (resumeOutside.run t) := by
  apply agree_bind (synchronize_agrees h)
  intro _ _ s t _ h
  have hskip : m.Agree m.Aligned Eq ((skip .closeCurly).run s) ((skip .closeCurly).run t) :=
    agree_skip h h (fun h => h.toAligned) (by decide)
  exact agree_bind hskip fun _ _ s t _ h => agree_pure rfl h

theorem program_agrees (limit n : Nat) (h : m.Aligned s t) :
    m.Agree m.Aligned (Drawn m.redraw.program) ((program (level limit n)).run s)
      ((program (level limit n)).run t) := by
  have he : ∀ x : Option Token, (x.map m.redraw.token).isNone = x.isNone := by
    intro x
    cases x <;> rfl
  refine agree_bind (statements_agree (level_agrees m limit n) he
    (fun _ _ h => resumeOutside_agrees h) h) ?_
  intro found found' s t hfound h
  obtain rfl := hfound
  exact agree_pure (congrArg Program.mk (filterMap_drawn found)) h

end LetLang.Parser.Matching
