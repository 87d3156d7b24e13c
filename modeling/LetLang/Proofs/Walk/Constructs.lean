import LetLang.Proofs.Walk.Basic

/-! Every construct walks.

Whether it finds something or fails, a construct never leaves a block through the
closing brace, never reads past a semicolon of its own statement, and reports in
order (`level_walks`, `statement_walks`). So a block with a balanced body is read
to the brace that closes it, whatever the body is (`block_matched`), and a whole
program is reported in order (`program_orderly`). -/
namespace LetLang
namespace Parser
open Token (Kind)

variable {α : Type} {R : State → State → Prop} {s t : State}

/-! ### Operands -/

/-- The tree starts between the two states. -/
def StartsBetween (s : State) (e : Expr) (t : State) : Prop := Between s e.start.offset t

/-- What the parsers of a level do. -/
structure Level.Walks (inner : Level) : Prop where
  expr : ∀ bound {s}, s.Sorted → Moves (Walk false) s (StartsBetween s) ((inner.expr bound).run s)
  block : ∀ {s}, s.Sorted → Moves (Walk false) s Anything (inner.block.run s)

variable {inner : Level}

theorem plain_of_operand? {kind : Kind} {p : Parser Expr} (h : operand? inner kind = some p) :
    Plain kind := by
  cases kind <;> first | decide | cases h

theorem literal_walks (hs : s.Sorted) (hp : Plain s.current.kind) :
    Moves (Walk false) s (StartsBetween s) (literal.run s) := by
  have hok : Walk false s s.advance := (Walk.refl hs).advance hp
  have herror : ∀ problem, Walk false s (s.advance.report ⟨problem, s.current.start⟩) :=
    fun problem => Walk.advance ((Walk.refl hs).reportHere problem) hp
  have hstart : Between s s.current.start.offset s.advance := ⟨Nat.le_refl _, hs.advance.2⟩
  simp only [literal, run_bind, run_advance]
  split
  · split
    · exact ⟨hok, hstart⟩
    · exact herror _
  · exact ⟨hok, hstart⟩
  · exact ⟨hok, hstart⟩
  · exact ⟨hok, hstart⟩
  · exact herror _

theorem unary_walks (hi : inner.Walks) (hs : s.Sorted) (hp : Plain s.current.kind) :
    Moves (Walk false) s (StartsBetween s) ((unary inner).run s) := by
  apply moves_bind (moves_advance (.refl hs) hp)
  intro operator t ht hstart
  apply moves_bind ((hi.expr _ ht.sorted).since ht fun e u hu _ => hstart.later hu)
  exact fun e u hu hstart => moves_pure hu hstart

theorem group_walks (hi : inner.Walks) (hs : s.Sorted) (hp : Plain s.current.kind) :
    Moves (Walk false) s (StartsBetween s) ((group inner).run s) := by
  apply moves_bind (moves_advance (.refl hs) hp)
  intro _ t ht _
  apply moves_bind ((hi.expr _ ht.sorted).since ht fun e u _ he => Between.earlier ht.toOrderly he)
  intro e u hu he
  refine moves_bind ((moves_expect (.refl hu.sorted) (by decide)).since hu fun _ v hv _ =>
    he.later hv) ?_
  exact fun _ v hv he => moves_pure hv he

/-- Everything after the first token of an operand, which its tree starts with. -/
theorem keyword_walks {f : Token → Parser Expr} (hs : s.Sorted) (hp : Plain s.current.kind)
    (h : ∀ x t, t.Sorted → Moves (Walk false) t (fun e _ => e.start = x.start) ((f x).run t)) :
    Moves (Walk false) s (StartsBetween s) ((advance >>= f).run s) := by
  apply moves_bind (moves_advance (.refl hs) hp)
  intro x t ht hstart
  refine (h x t ht.sorted).since ht fun e u hu he => ?_
  rw [StartsBetween, he]
  exact hstart.later hu

theorem alternative_walks (hi : inner.Walks) (hs : s.Sorted) :
    Moves (Walk false) s Anything ((alternative inner).run s) := by
  apply moves_bind (moves_skip (.refl hs) (by decide))
  intro found t ht _
  cases found with
  | false => exact moves_pure ht trivial
  | true =>
    apply moves_bind ((hi.block ht.sorted).since ht fun _ _ _ h => h)
    exact fun b u hu _ => moves_pure hu trivial

theorem conditional_walks (hi : inner.Walks) (hs : s.Sorted) (hp : Plain s.current.kind) :
    Moves (Walk false) s (StartsBetween s) ((conditional inner).run s) := by
  refine keyword_walks hs hp fun x s hs => ?_
  apply moves_bind (moves_expect (.refl hs) (by decide)).forget
  intro _ t ht _
  apply moves_bind ((hi.expr _ ht.sorted).forget.since ht fun _ _ _ h => h)
  intro c t ht _
  apply moves_bind (moves_expect ht (by decide)).forget
  intro _ t ht _
  apply moves_bind ((hi.block ht.sorted).since ht fun _ _ _ h => h)
  intro b t ht _
  apply moves_bind ((alternative_walks hi ht.sorted).since ht fun _ _ _ h => h)
  intro a t ht _
  exact ⟨ht, rfl⟩

section Lists
variable {p : Parser α} (hp : ∀ {s}, s.Sorted → Moves (Walk false) s Anything (p.run s))
include hp

theorem afterComma_walks (hs : s.Sorted) :
    Moves (Walk false) s Anything ((afterComma p).run s) := by
  apply moves_bind (moves_skip (.refl hs) (by decide))
  intro found t ht _
  cases found with
  | false => exact moves_pure ht trivial
  | true =>
    apply moves_bind ((hp ht.sorted).since ht fun _ _ _ h => h)
    exact fun a u hu _ => moves_pure hu trivial

theorem beforeParen_walks (hs : s.Sorted) :
    Moves (Walk false) s Anything ((beforeParen p).run s) := by
  simp only [beforeParen, run_bind, run_current]
  split
  · exact moves_pure (.refl hs) trivial
  · apply moves_bind (hp hs)
    intro a t ht _
    refine moves_bind (moves_many_anything (fun u hu => ?_) ht) fun as u hu _ => moves_pure hu trivial
    exact (afterComma_walks hp hu.sorted).since hu fun _ _ _ h => h

theorem untilParen_walks (hs : s.Sorted) :
    Moves (Walk false) s Anything ((untilParen p).run s) := by
  apply moves_bind (beforeParen_walks hp hs)
  intro found t ht _
  apply moves_bind (moves_expect ht (by decide))
  intro _ u hu _
  exact moves_pure hu trivial

end Lists

theorem parameter_walks (hs : s.Sorted) : Moves (Walk false) s Anything (parameter.run s) :=
  moves_bind (moves_expect (.refl hs) (by decide)) fun _ _ ht _ => moves_pure ht trivial

theorem function_walks (hi : inner.Walks) (hs : s.Sorted) (hp : Plain s.current.kind) :
    Moves (Walk false) s (StartsBetween s) ((function inner).run s) := by
  refine keyword_walks hs hp fun x s hs => ?_
  apply moves_bind (moves_expect (.refl hs) (by decide)).forget
  intro _ t ht _
  refine moves_bind ((untilParen_walks parameter_walks ht.sorted).since ht fun _ _ _ h => h)
    fun xs t ht _ => ?_
  apply moves_bind ((hi.block ht.sorted).since ht fun _ _ _ h => h)
  intro b t ht _
  exact ⟨ht, rfl⟩

theorem operand_walks (hi : inner.Walks) (hs : s.Sorted) :
    Moves (Walk false) s (StartsBetween s) ((operand inner).run s) := by
  simp only [operand, run_bind, run_current]
  split
  · rename_i p hp
    have hplain := plain_of_operand? hp
    rcases operand?_cases inner hp with rfl | ⟨-, rfl⟩ | ⟨-, rfl⟩ | ⟨-, rfl⟩ | ⟨-, rfl⟩
    · exact literal_walks hs hplain
    · exact unary_walks hi hs hplain
    · exact group_walks hi hs hplain
    · exact conditional_walks hi hs hplain
    · exact function_walks hi hs hplain
  · exact moves_failHere _ (.refl hs)

/-! ### Operators -/

theorem plain_of_operator? {kind : Kind} {p : Expr → Power → Parser Expr}
    (h : operator? inner kind = some p) : Plain kind := by
  cases kind <;> first | decide | cases h

section Operators
variable {left : Expr} (ht : Walk false s t) (hp : Plain t.current.kind)
  (hleft : StartsBetween s left t) (hi : inner.Walks)
include ht hp hleft

theorem operator_walks {β : Type} {f : Token → Parser β} {Q : β → State → Prop}
    (h : ∀ x u, Walk false s u → StartsBetween s left u → Moves (Walk false) s Q ((f x).run u)) :
    Moves (Walk false) s Q ((advance >>= f).run t) :=
  moves_bind ((moves_advance (.refl ht.sorted) hp).since ht fun _ _ hu _ => hleft.later hu) h

include hi

theorem binary_walks (power : Power) :
    Moves (Walk false) s (StartsBetween s) ((binary inner left power).run t) := by
  refine operator_walks ht hp hleft fun operator u hu hl => ?_
  apply moves_bind ((hi.expr _ hu.sorted).since hu fun _ _ hv _ => hl.later hv)
  exact fun e v hv he => moves_pure hv he

theorem assignment_walks :
    Moves (Walk false) s (StartsBetween s) ((assignment inner left).run t) := by
  unfold assignment
  split
  · refine operator_walks ht hp hleft fun operator u hu hl => ?_
    apply moves_bind ((hi.expr _ hu.sorted).since hu fun _ _ hv _ => hl.later hv)
    exact fun e v hv he => moves_pure hv he
  · exact ⟨ht.toOrderly.report hleft.1 hleft.2 (.inr ⟨_, rfl⟩), ht.eats⟩

theorem call_walks : Moves (Walk false) s (StartsBetween s) ((call inner left).run t) := by
  refine operator_walks ht hp hleft fun _ u hu hl => ?_
  refine moves_bind ((untilParen_walks (fun h => (hi.expr _ h).forget) hu.sorted).since hu
    fun _ _ hv _ => hl.later hv) ?_
  exact fun es v hv he => ⟨hv, he⟩

end Operators

theorem operatorAbove_walks (hi : inner.Walks) (bound : Power) {left : Expr}
    (ht : Walk false s t) (hleft : StartsBetween s left t) :
    Moves (Walk false) s (fun found u => StartsBetween s (found.getD left) u)
      ((operatorAbove inner bound left).run t) := by
  simp only [operatorAbove, run_bind, run_current]
  split
  · split
    · rename_i p hop
      have hp := plain_of_operator? hop
      have hfound : Moves (Walk false) s (StartsBetween s) ((p left t.current.kind.power).run t) := by
        rcases operator?_cases inner hop with rfl | rfl | rfl
        · exact assignment_walks ht hp hleft hi
        · exact binary_walks ht hp hleft hi _
        · exact call_walks ht hp hleft hi
      exact moves_bind hfound fun e u hu he => moves_pure hu he
    · exact moves_pure ht hleft
  · exact moves_pure ht hleft

theorem expression_walks (hi : inner.Walks) (bound : Power) (hs : s.Sorted) :
    Moves (Walk false) s (StartsBetween s) ((expression inner bound).run s) :=
  moves_bind (operand_walks hi hs) fun _ _ ht hleft =>
    moves_iterate (fun _ _ hu he => operatorAbove_walks hi bound hu he) ht hleft

/-! ### Statements -/

/-- A semicolon that ends a statement is the only one the statement passes. -/
theorem terminated_walks {p : Parser (Position → Stmt)}
    (h : Moves (Walk false) s Anything (p.run s)) :
    Moves (Walk true) s Anything ((terminated p).run s) := by
  have hloose : Moves (Walk true) s Anything (p.run s) := h.lift (fun _ => Walk.loosen) fun _ _ _ h => h
  apply moves_bind hloose
  intro make t ht _
  have hskip : Moves (Walk true) s Anything ((skip .semicolon).run t) := by
    rw [run_skip]
    split
    · rename_i hk
      exact ⟨ht.trans (.step ht.sorted (by simp [hk]) (by simp [hk]) (.inl rfl)), trivial⟩
    · exact ⟨ht, trivial⟩
  exact moves_bind hskip fun _ u hu _ => ⟨hu, trivial⟩

/-- A statement passes no semicolon outside all braces, other than one that ends it. -/
theorem statement_cases (hi : inner.Walks) (hs : s.Sorted) :
    Moves (Walk false) s Anything ((statement inner).run s) ∨
      ∃ p, statementFrom inner s.current.kind = terminated p ∧
        Moves (Walk false) s Anything (p.run s) := by
  rw [run_statement]
  unfold statementFrom
  split
  · rename_i hk
    refine .inr ⟨_, rfl, ?_⟩
    apply moves_bind (moves_advance (.refl hs) (hk ▸ by decide)).forget
    intro _ t ht _
    apply moves_bind (moves_expect ht (by decide)).forget
    intro _ t ht _
    apply moves_bind (moves_expect ht (by decide)).forget
    intro _ t ht _
    apply moves_bind ((hi.expr _ ht.sorted).forget.since ht fun _ _ _ h => h)
    intro _ t ht _
    exact moves_pure ht trivial
  · rename_i hk
    refine .inr ⟨_, rfl, ?_⟩
    apply moves_bind (moves_advance (.refl hs) (hk ▸ by decide)).forget
    intro _ t ht _
    apply moves_bind ((hi.expr _ ht.sorted).forget.since ht fun _ _ _ h => h)
    intro _ t ht _
    exact moves_pure ht trivial
  · exact .inl (moves_bind (hi.block hs) fun _ _ ht _ => moves_pure ht trivial)
  · refine .inr ⟨_, rfl, ?_⟩
    simp only [run_bind, run_current]
    exact moves_bind (hi.expr _ hs).forget fun _ t ht _ => moves_pure ht trivial

theorem statement_walks (hi : inner.Walks) (hs : s.Sorted) :
    Moves (Walk true) s Anything ((statement inner).run s) := by
  rcases statement_cases hi hs with h | ⟨p, hp, h⟩
  · exact h.lift (fun _ => Walk.loosen) fun _ _ _ h => h
  · rw [run_statement, hp]
    exact terminated_walks h

/-- A list of statements moves like its statements and its recoveries. -/
theorem statements_move {ends : Option Token → Bool} {resume : Parser Unit}
    {ha : (statementUnless inner ends resume).Advances}
    (hstmt : ∀ t, R s t → ends t.ahead.head? = false →
      Moves R s Anything ((statement inner).run t))
    (hres : ∀ t, R s t → Moves R s Anything (resume.run t)) (h : R s t) :
    Moves R s (fun _ u => ends u.ahead.head? = true)
      ((many (statementUnless inner ends resume) ha).run t) := by
  refine moves_many (fun u hu => ?_) h
  simp only [statementUnless, run_bind, run_next?]
  split
  · rename_i hend
    exact moves_pure hu fun _ => hend
  · rename_i hends
    apply moves_bind (moves_recovering (hstmt u hu (Bool.eq_false_iff.2 hends)) hres)
    intro x v hv _
    exact moves_pure hv fun h => by cases h

theorem blockBody_walks (hi : inner.Walks) (hs : s.Sorted) :
    Moves (Walk true) s (fun _ t => blockEnds t.ahead.head? = true) ((blockBody inner).run s) := by
  refine moves_bind (statements_move (fun t ht _ => ?_) (fun t ht => ?_) (.refl hs))
    fun _ t ht hend => moves_pure ht hend
  · exact (statement_walks hi ht.sorted).since ht fun _ _ _ h => h
  · exact ⟨ht.synchronized, trivial⟩

theorem blockBody_succeeds (inner : Level) : (blockBody inner).Succeeds := by
  intro s
  have hsync : synchronize.Succeeds := fun t => ⟨(), t.synchronized, rfl⟩
  obtain ⟨found, t, ht⟩ := many_succeeds (statementUnless_advances inner synchronize_resumes)
    (statementUnless_succeeds inner hsync) s
  exact ⟨found.filterMap id, t, by simp [blockBody, run_bind, ht]⟩

/-- After its body a block needs nothing but its brace. -/
theorem run_block {ss : List Stmt} {u : State} (ho : s.current.kind = .openCurly)
    (hu : (blockBody inner).run s.advance = .ok ss u) :
    (block inner).run s =
      if u.current.kind = .closeCurly then
        .ok (.mk s.current ss ⟨s.current.start, u.current.stop⟩) u.advance
      else .error ⟨.unexpected .closeCurly u.current.kind u.current.literal, u.position⟩ u := by
  simp only [block, run_bind, run_expect, ho, if_true, hu]
  by_cases hc : u.current.kind = .closeCurly
  · simp only [if_pos hc]
    rfl
  · simp only [if_neg hc]

/-- A block that misses its closing brace ends with the tokens. -/
theorem ahead_of_blockEnds (h : blockEnds t.ahead.head? = true)
    (hc : t.current.kind ≠ .closeCurly) : t.ahead = [] := by
  cases hahead : t.ahead with
  | nil => rfl
  | cons x xs =>
    simp only [State.current, hahead, List.headD_cons] at hc
    simp [blockEnds, hahead, hc] at h

theorem block_walks (hi : inner.Walks) (hs : s.Sorted) :
    Moves (Walk false) s Anything ((block inner).run s) := by
  by_cases hk : s.current.kind = .openCurly
  · have hbody := blockBody_walks hi hs.advance.1
    obtain ⟨ss, u, hu⟩ := blockBody_succeeds inner s.advance
    rw [hu] at hbody
    obtain ⟨hnil, hclose⟩ := Walk.braced false hs hk hbody.1
    rw [run_block hk hu]
    by_cases hc : u.current.kind = .closeCurly
    · rw [if_pos hc]
      exact ⟨hclose hc, trivial⟩
    · rw [if_neg hc]
      exact (hnil (ahead_of_blockEnds hbody.2 hc)).reportHere _
  · rw [block, run_bind, run_expect, if_neg hk]
    exact (Walk.refl hs).reportHere _

/-- A loop over the statements of a block, which leaves no brace open and ends at a closing brace or
with the tokens, takes the whole of a balanced body. -/
theorem body_of_balanced {body rest ts us : List Token} {closing : Token} {k : Nat}
    (hc : closing.kind = .closeCurly) (hb : Balanced body) (h : body ++ closing :: rest = ts ++ us)
    (hd : depth? true 0 ts = some k) (hk : k = 0 ∨ us = []) (hend : blockEnds us.head? = true) :
    us = closing :: rest := by
  obtain ⟨vs, rfl, hvs⟩ := prefix_of_balanced hc hb ⟨us, h.symm⟩ hd
  obtain rfl : us = vs ++ closing :: rest := by simpa using h.symm
  obtain rfl : k = 0 := hk.resolve_right (by simp)
  cases vs with
  | nil => rfl
  | cons v vs =>
    rw [List.cons_append, List.head?_cons] at hend
    rw [depth?_stray (by simpa [blockEnds] using hend)] at hvs
    cases hvs

/-- A block with a balanced body is read to the brace that closes it. What is wrong in the body is
reported at places in the body, or at that brace. -/
theorem block_matched (hi : inner.Walks) (hs : s.Sorted) {opening closing : Token}
    {body rest : List Token} (ho : opening.kind = .openCurly) (hc : closing.kind = .closeCurly)
    (hb : Balanced body) (ha : s.ahead = opening :: (body ++ closing :: rest)) :
    ∃ ss t ds, (block inner).run s = .ok (.mk opening ss ⟨opening.start, closing.stop⟩) t ∧
      t.Sorted ∧ t.ahead = rest ∧ t.lastEnd = closing.stop ∧ t.finish = s.finish ∧
        t.reported.toList = s.reported.toList ++ ds ∧
          ∀ d ∈ ds, s.advance.offset ≤ d.offset ∧ d.offset ≤ closing.start.offset := by
  have hcurrent : s.current = opening := by simp [State.current, ha]
  have hbody := blockBody_walks hi hs.advance.1
  have hsteps := (blockBody inner).steps s.advance
  obtain ⟨ss, u, hu⟩ := blockBody_succeeds inner s.advance
  rw [hu] at hbody hsteps
  obtain ⟨ts, k, hts, hd, hk⟩ := hbody.1.eats
  have hahead : s.advance.ahead = body ++ closing :: rest := by simp [ha]
  have huahead : u.ahead = closing :: rest :=
    body_of_balanced hc hb (hahead.symm.trans hts) hd hk hbody.2
  have huc : u.current = closing := by simp [State.current, huahead]
  obtain ⟨ds, hds, hin, -⟩ := hbody.1.reports
  have hclosing : u.offset = closing.start.offset := by rw [State.offset, State.position, huc]
  refine ⟨ss, u.advance, ds, ?_, hbody.1.sorted.advance.1, by simp [huahead], ?_, hsteps.finish, hds,
    fun d hd => hclosing ▸ hin d hd⟩
  · rw [run_block (hcurrent ▸ ho) hu, huc, if_pos hc, hcurrent]
  · simp only [State.advance, huc]

/-! ### Levels and programs -/

theorem level_walks (limit n : Nat) : (level limit n).Walks := by
  induction n with
  | zero => exact ⟨fun _ _ hs => moves_failHere _ (.refl hs), fun hs => moves_failHere _ (.refl hs)⟩
  | succ n ih =>
    constructor
    · intro bound s hs
      exact walk_nest (expression_walks ih bound hs) fun _ _ h => h
    · intro s hs
      exact walk_nest (block_walks ih hs) fun _ _ h => h

theorem resumeOutside_orderly (h : Orderly s t) :
    Moves Orderly s Anything (resumeOutside.run t) := by
  have hsync : Orderly s t.synchronized := h.advanceBy _
  rw [run_resumeOutside, State.past]
  split
  · exact ⟨hsync.advance, trivial⟩
  · exact ⟨hsync, trivial⟩

/-- A whole program is read in order, though not always with its braces in pairs. -/
theorem program_orderly (limit n : Nat) (hs : s.Sorted) :
    Moves Orderly s Anything ((program (level limit n)).run s) := by
  refine moves_bind (statements_move (fun t ht _ => ?_) (fun t ht => ?_) (.refl hs))
    fun _ t ht _ => moves_pure ht trivial
  · exact (statement_walks (level_walks limit n) ht.sorted).lift
      (fun _ h => ht.trans h.toOrderly) fun _ _ _ h => h
  · exact resumeOutside_orderly ht

end Parser
end LetLang
