import LetLang.Parser.Nesting
import LetLang.Proofs.Likeness

/-! Runs that go together.

A `Simulation` relates the states of two runs, so that the tokens they see go
together, and says how the runs may part for good. It holds of two parsers if from
related states they come to related states with findings that are alike, or part.
It survives putting parsers together, so it holds of a construct made of two levels
whose parsers it holds of (`Simulation.statement_holds`). If it survives recovery, it
also holds of blocks and whole programs (`Simulation.Recovers.program_holds`), and if
it survives the opening of a level, of every level (`Simulation.Nests.level_holds`). -/
namespace LetLang.Parser
open Token (Kind)

/-- When two runs have parted, so that whatever is run after them makes no difference. -/
structure Parting where
  parted : ∀ {α β : Type}, Result α → Result β → Prop
  parted_bind : ∀ {α β γ δ : Type} {p : Parser α} {q : Parser β} {f : α → Parser γ}
    {g : β → Parser δ} {s s'},
    parted (p.run s) (q.run s') → parted ((p >>= f).run s) ((q >>= g).run s')

/-- Runs that never part. -/
def Parting.never : Parting := ⟨fun _ _ => False, False.elim⟩

structure Simulation extends Likeness, Parting where
  states : State → State → Prop
  kind : ∀ {t t'}, token t t' → t.kind = t'.kind
  fits : ∀ {t t'}, token t t' → t.kind = .integer → (t.value ≤ maxInteger ↔ t'.value ≤ maxInteger)
  start : ∀ {t t'}, token t t' → place t.start t'.start
  stop : ∀ {t t'}, token t t' → place t.stop t'.stop
  states_current : ∀ {s s'}, states s s' → token s.current s'.current
  states_lastEnd : ∀ {s s'}, states s s' → place s.lastEnd s'.lastEnd
  states_advance : ∀ {s s'}, states s s' → states s.advance s'.advance

namespace Simulation
variable (m : Simulation) {α β γ δ : Type} {V : α → β → Prop} {W : γ → δ → Prop}

/-- Both runs found something, and what they found goes together; or both made the same mistake. -/
inductive Together (V : α → β → Prop) : Result α → Result β → Prop where
  | ok {a b s s'} : V a b → m.states s s' → Together V (.ok a s) (.ok b s')
  | error {d d' s s'} :
      m.diagnostic d d' → m.states s s' → Together V (.error d s) (.error d' s')

def Ends (V : α → β → Prop) (r : Result α) (r' : Result β) : Prop :=
  m.Together V r r' ∨ m.parted r r'

/-- From the states in `S`, what the parsers find goes together, unless the runs part. -/
def From (S : State → State → Prop) (V : α → β → Prop) (p : Parser α) (q : Parser β) : Prop :=
  ∀ s s', S s s' → m.Ends V (p.run s) (q.run s')

/-- From all related states. -/
def holds (V : α → β → Prop) (p : Parser α) (q : Parser β) : Prop := m.From m.states V p q

/-! ### Putting parsers together -/

section
variable {m}

theorem ends_bind {p : Parser α} {q : Parser β} {f : α → Parser γ} {g : β → Parser δ} {s s' : State}
    (h : m.Ends V (p.run s) (q.run s'))
    (hf : ∀ a b t t', V a b → p.run s = .ok a t → m.states t t' →
      m.Ends W ((f a).run t) ((g b).run t')) :
    m.Ends W ((p >>= f).run s) ((q >>= g).run s') := by
  rcases h with htogether | hparted
  · rw [run_bind, run_bind]
    generalize hp : p.run s = r, q.run s' = r' at htogether
    cases htogether with
    | ok hv ht => exact hf _ _ _ _ hv hp ht
    | error hd ht => exact .inl (.error hd ht)
  · exact .inr (m.parted_bind hparted)

theorem holds_pure {a : α} {b : β} (h : V a b) : m.holds V (pure a) (pure b) :=
  fun _ _ hs => .inl (.ok h hs)

theorem holds_bind {p : Parser α} {q : Parser β} {f : α → Parser γ} {g : β → Parser δ}
    {S : State → State → Prop} (h : m.From S V p q) (hf : ∀ a b, V a b → m.holds W (f a) (g b)) :
    m.From S W (p >>= f) (q >>= g) :=
  fun s s' hs => ends_bind (h s s' hs) fun a b t t' hv _ => hf a b hv t t'

theorem holds_fail {d d' : Diagnostic} (h : m.diagnostic d d') : m.holds V (fail d) (fail d') :=
  fun _ _ hs => .inl (.error h hs)

theorem ends_many {p : Parser (Option α)} {q : Parser (Option β)} (hp : p.Advances)
    (hq : q.Advances) (h : m.holds (Option.Rel V) p q) {s s' : State} (hs : m.states s s') :
    m.Ends (List.Forall₂ V) ((many p hp).run s) ((many q hq).run s') := by
  rw [many_eq p, many_eq q]
  refine ends_bind (h s s' hs) fun found found' t t' hfound hrun ht => ?_
  cases hfound with
  | none => exact holds_pure .nil t t' ht
  | some hv =>
    refine ends_bind (ends_many hp hq h ht) fun as bs u u' hvs _ hu => ?_
    exact holds_pure (.cons hv hvs) u u' hu
termination_by s.ahead.length
decreasing_by exact hp s _ t hrun

theorem holds_many {p : Parser (Option α)} {q : Parser (Option β)} {hp : p.Advances}
    {hq : q.Advances} (h : m.holds (Option.Rel V) p q) :
    m.holds (List.Forall₂ V) (many p hp) (many q hq) :=
  fun _ _ hs => ends_many hp hq h hs

theorem ends_iterate {f : α → Parser (Option α)} {g : β → Parser (Option β)}
    (hf : ∀ a, (f a).Advances) (hg : ∀ b, (g b).Advances)
    (h : ∀ a b, V a b → m.holds (Option.Rel V) (f a) (g b)) {a : α} {b : β} (hv : V a b)
    {s s' : State} (hs : m.states s s') :
    m.Ends V ((iterate f hf a).run s) ((iterate g hg b).run s') := by
  rw [iterate_eq f, iterate_eq g]
  refine ends_bind (h a b hv s s' hs) fun found found' t t' hfound hrun ht => ?_
  cases hfound with
  | none => exact holds_pure hv t t' ht
  | some hv => exact ends_iterate hf hg h hv ht
termination_by s.ahead.length
decreasing_by exact hf a s _ t hrun

theorem holds_iterate {f : α → Parser (Option α)} {g : β → Parser (Option β)}
    {hf : ∀ a, (f a).Advances} {hg : ∀ b, (g b).Advances}
    (h : ∀ a b, V a b → m.holds (Option.Rel V) (f a) (g b)) {a : α} {b : β} (hv : V a b) :
    m.holds V (iterate f hf a) (iterate g hg b) :=
  fun _ _ hs => ends_iterate hf hg h hv hs

end

/-! ### Single steps -/

theorem current_holds : m.holds m.token current current :=
  fun _ _ hs => .inl (.ok (m.states_current hs) hs)

theorem lastEnd_holds : m.holds m.place lastEnd lastEnd :=
  fun _ _ hs => .inl (.ok (m.states_lastEnd hs) hs)

theorem advance_holds : m.holds m.token advance advance :=
  fun _ _ hs => .inl (.ok (m.states_current hs) (m.states_advance hs))

/-- The parsers of two levels go together. -/
structure Levels (inner inner' : Level) : Prop where
  expr : ∀ bound, m.holds m.expr (inner.expr bound) (inner'.expr bound)
  block : m.holds m.block inner.block inner'.block

theorem span_expr {e e' : Expr} (h : m.expr e e') : m.span e.span e'.span := h.span m.start m.stop

theorem failHere_holds {problem : Problem} {problem' : Problem} (h : m.problem problem problem') :
    m.holds V (failHere problem) (failHere problem') :=
  holds_bind m.current_holds fun _ _ ht => holds_fail ⟨h, m.start ht⟩

theorem expect_holds (kind : Kind) : m.holds m.token (expect kind) (expect kind) := by
  refine holds_bind m.current_holds fun t t' ht => holds_bind m.current_holds fun u u' hu => ?_
  rw [← m.kind hu, ← m.kind ht]
  split
  · exact m.advance_holds
  · exact holds_fail ⟨.unexpected ⟨t, t', ht, rfl, rfl⟩, m.start ht⟩

theorem skip_holds (kind : Kind) : m.holds Eq (skip kind) (skip kind) := by
  refine holds_bind m.current_holds fun t t' ht => ?_
  rw [← m.kind ht]
  split
  · exact holds_bind m.advance_holds fun _ _ _ => holds_pure rfl
  · exact holds_pure rfl

/-! ### Lists in parentheses -/

section
variable {p : Parser α} {q : Parser β} (h : m.holds V p q)
include h

theorem afterComma_holds : m.holds (Option.Rel V) (afterComma p) (afterComma q) := by
  refine holds_bind (m.skip_holds .comma) fun found _ hfound => ?_
  subst hfound
  split
  · exact holds_bind h fun _ _ hv => holds_pure (.some hv)
  · exact holds_pure .none

theorem untilParen_holds : m.holds (List.Forall₂ V) (untilParen p) (untilParen q) := by
  have hbefore : m.holds (List.Forall₂ V) (beforeParen p) (beforeParen q) := by
    refine holds_bind m.current_holds fun t t' ht => ?_
    rw [← m.kind ht]
    split
    · exact holds_pure .nil
    · refine holds_bind h fun _ _ hv => ?_
      refine holds_bind (holds_many (m.afterComma_holds h)) fun _ _ hvs => ?_
      exact holds_pure (.cons hv hvs)
  refine holds_bind hbefore fun _ _ hvs => ?_
  refine holds_bind (m.expect_holds _) fun _ _ _ => ?_
  exact holds_pure hvs

end

/-! ### Operands -/

section
variable {S : State → State → Prop} (hS : m.From S m.token advance advance)
include hS

/-- An operand takes its first token first, so it may start from other states. -/
theorem literal_holds : m.From S m.expr literal literal := by
  refine holds_bind hS fun t t' ht => ?_
  have htext : m.text t.literal t'.literal := ⟨t, t', ht, rfl, rfl⟩
  rw [← m.kind ht]
  split
  · rename_i hk
    simp only [m.fits ht hk]
    split
    · exact holds_pure (.integer ht)
    · exact holds_fail ⟨.integerTooLarge htext, m.start ht⟩
  · exact holds_pure (.name ht)
  · exact holds_pure (.boolean ht)
  · exact holds_pure (.boolean ht)
  · exact holds_fail ⟨.noOperand htext, m.start ht⟩

end

theorem parameter_holds : m.holds m.name parameter parameter :=
  holds_bind (m.expect_holds _) fun _ _ ht => holds_pure ht

section
variable {inner inner' : Level} (hi : m.Levels inner inner')
include hi

theorem alternative_holds :
    m.holds (Option.Rel m.block) (alternative inner) (alternative inner') := by
  refine holds_bind (m.skip_holds .kwElse) fun found _ hfound => ?_
  subst hfound
  split
  · exact holds_bind hi.block fun _ _ hb => holds_pure (.some hb)
  · exact holds_pure .none

section
variable {S : State → State → Prop} (hS : m.From S m.token advance advance)
include hS

theorem unary_holds : m.From S m.expr (unary inner) (unary inner') := by
  refine holds_bind hS fun _ _ ho => ?_
  refine holds_bind (hi.expr _) fun _ _ he => ?_
  exact holds_pure (.unary ho he ⟨m.start ho, (m.span_expr he).2⟩)

theorem group_holds : m.From S m.expr (group inner) (group inner') := by
  refine holds_bind hS fun _ _ _ => ?_
  refine holds_bind (hi.expr _) fun _ _ he => ?_
  refine holds_bind (m.expect_holds _) fun _ _ _ => ?_
  exact holds_pure he

theorem conditional_holds : m.From S m.expr (conditional inner) (conditional inner') := by
  refine holds_bind hS fun _ _ ht => ?_
  refine holds_bind (m.expect_holds _) fun _ _ _ => ?_
  refine holds_bind (hi.expr _) fun _ _ hc => ?_
  refine holds_bind (m.expect_holds _) fun _ _ _ => ?_
  refine holds_bind hi.block fun _ _ hb => ?_
  refine holds_bind (m.alternative_holds hi) fun _ _ ha => ?_
  refine holds_bind m.lastEnd_holds fun _ _ hl => ?_
  exact holds_pure (.conditional ht hc hb ha ⟨m.start ht, hl⟩)

theorem function_holds : m.From S m.expr (function inner) (function inner') := by
  refine holds_bind hS fun _ _ ht => ?_
  refine holds_bind (m.expect_holds _) fun _ _ _ => ?_
  refine holds_bind (m.untilParen_holds m.parameter_holds) fun _ _ hxs => ?_
  refine holds_bind hi.block fun _ _ hb => ?_
  refine holds_bind m.lastEnd_holds fun _ _ hl => ?_
  exact holds_pure (.function ht hxs hb ⟨m.start ht, hl⟩)

/-- The kind of the token decides which operand it is, on both sides. -/
theorem operand?_holds (kind : Kind) :
    Option.Rel (m.From S m.expr) (operand? inner kind) (operand? inner' kind) := by
  unfold operand?
  split
  case h_1 | h_2 | h_3 | h_4 => exact .some (m.literal_holds hS)
  case h_5 | h_6 => exact .some (m.unary_holds hi hS)
  case h_7 => exact .some (m.group_holds hi hS)
  case h_8 => exact .some (m.conditional_holds hi hS)
  case h_9 => exact .some (m.function_holds hi hS)
  case h_10 => exact .none

end

omit hi in
theorem problem_noOperand {t t' : Token} (ht : m.token t t') :
    m.problem (noOperand t) (noOperand t') := by
  have htext : m.text t.literal t'.literal := ⟨t, t', ht, rfl, rfl⟩
  rw [noOperand, noOperand, ← m.kind ht]
  split
  · exact .illegalCharacter htext
  · exact .noOperand htext

theorem operand_holds : m.holds m.expr (operand inner) (operand inner') := by
  refine holds_bind m.current_holds fun t t' ht => ?_
  have hoperand := m.operand?_holds hi m.advance_holds t.kind
  rw [← m.kind ht]
  generalize operand? inner t.kind = p, operand? inner' t.kind = q at hoperand ⊢
  cases hoperand with
  | none => exact m.failHere_holds (m.problem_noOperand ht)
  | some h => exact h

/-! ### Operators -/

section
variable {left left' : Expr} (hl : m.expr left left')
include hl

theorem binary_holds (power : Power) :
    m.holds m.expr (binary inner left power) (binary inner' left' power) := by
  refine holds_bind m.advance_holds fun _ _ ho => ?_
  refine holds_bind (hi.expr _) fun _ _ hr => ?_
  exact holds_pure (.binary hl ho hr ⟨(m.span_expr hl).1, (m.span_expr hr).2⟩)

theorem assignment_holds : m.holds m.expr (assignment inner left) (assignment inner' left') := by
  have hfail : m.diagnostic ⟨.notAssignable left.token.literal, left.start⟩
      ⟨.notAssignable left'.token.literal, left'.start⟩ :=
    ⟨.notAssignable ⟨_, _, hl.token, rfl, rfl⟩, (m.span_expr hl).1⟩
  cases hl with
  | name hx =>
    refine holds_bind m.advance_holds fun _ _ ho => ?_
    refine holds_bind (hi.expr _) fun _ _ he => ?_
    exact holds_pure (.assign hx ho he ⟨m.start hx, (m.span_expr he).2⟩)
  | _ => exact holds_fail hfail

theorem call_holds : m.holds m.expr (call inner left) (call inner' left') := by
  refine holds_bind m.advance_holds fun _ _ ht => ?_
  refine holds_bind (m.untilParen_holds (hi.expr _)) fun _ _ hes => ?_
  refine holds_bind m.lastEnd_holds fun _ _ he => ?_
  exact holds_pure (.call hl ht hes ⟨(m.span_expr hl).1, he⟩)

theorem operator?_holds (kind : Kind) (power : Power) :
    Option.Rel (fun p q => m.holds m.expr (p left power) (q left' power))
      (operator? inner kind) (operator? inner' kind) := by
  unfold operator?
  split
  case h_1 | h_2 | h_3 | h_4 => exact .some (m.assignment_holds hi hl)
  case h_15 => exact .some (m.call_holds hi hl)
  case h_16 => exact .none
  all_goals exact .some (m.binary_holds hi hl power)

theorem operatorAbove_holds (bound : Power) :
    m.holds (Option.Rel m.expr) (operatorAbove inner bound left)
      (operatorAbove inner' bound left') := by
  refine holds_bind m.current_holds fun t t' ht => ?_
  have hoperator := m.operator?_holds hi hl t.kind t.kind.power
  rw [← m.kind ht]
  generalize operator? inner t.kind = p, operator? inner' t.kind = q at hoperator ⊢
  split
  · cases hoperator with
    | none => exact holds_pure .none
    | some h => exact holds_bind h fun _ _ he => holds_pure (.some he)
  · exact holds_pure .none

end

theorem expression_holds (bound : Power) :
    m.holds m.expr (expression inner bound) (expression inner' bound) := by
  refine holds_bind (m.operand_holds hi) fun _ _ hl => ?_
  exact holds_iterate (fun _ _ he => m.operatorAbove_holds hi he bound) hl

/-! ### Statements -/

/-- What is made of the end of a statement goes together. -/
def Makes (make make' : Position → Stmt) : Prop := ∀ p p', m.place p p' → m.stmt (make p) (make' p')

omit hi in
theorem terminated_holds {p q : Parser (Position → Stmt)} (h : m.holds m.Makes p q) :
    m.holds m.stmt (terminated p) (terminated q) := by
  refine holds_bind h fun _ _ hmake => ?_
  refine holds_bind (m.skip_holds _) fun _ _ _ => ?_
  refine holds_bind m.lastEnd_holds fun _ _ hl => ?_
  exact holds_pure (hmake _ _ hl)

theorem binding_holds : m.holds m.stmt (binding inner) (binding inner') := by
  apply m.terminated_holds
  refine holds_bind m.advance_holds fun _ _ ht => ?_
  refine holds_bind (m.expect_holds _) fun _ _ hx => ?_
  refine holds_bind (m.expect_holds _) fun _ _ _ => ?_
  refine holds_bind (hi.expr _) fun _ _ he => ?_
  exact holds_pure fun _ _ hp => .binding ht hx he ⟨m.start ht, hp⟩

theorem returning_holds : m.holds m.stmt (returning inner) (returning inner') := by
  apply m.terminated_holds
  refine holds_bind m.advance_holds fun _ _ ht => ?_
  refine holds_bind (hi.expr _) fun _ _ he => ?_
  exact holds_pure fun _ _ hp => .returning ht he ⟨m.start ht, hp⟩

theorem expressionStatement_holds :
    m.holds m.stmt (expressionStatement inner) (expressionStatement inner') := by
  apply m.terminated_holds
  refine holds_bind m.current_holds fun _ _ ht => ?_
  refine holds_bind (hi.expr _) fun _ _ he => ?_
  exact holds_pure fun _ _ hp => .expression ht he ⟨m.start ht, hp⟩

theorem blockStatement_holds : m.holds m.stmt (blockStatement inner) (blockStatement inner') :=
  holds_bind hi.block fun _ _ hb => holds_pure (.block hb)

theorem statement_holds : m.holds m.stmt (statement inner) (statement inner') := by
  refine holds_bind m.current_holds fun t t' ht => ?_
  rw [← m.kind ht, statementFrom.eq_def, statementFrom.eq_def]
  split
  · exact m.binding_holds hi
  · exact m.returning_holds hi
  · exact m.blockStatement_holds hi
  · exact m.expressionStatement_holds hi

end

/-! ### Lists of statements -/

/-- How many tokens stand before a boundary depends on their kinds. -/
theorem boundary_eq {ts ts' : List Token} (h : List.Forall₂ m.token ts ts') (n : Nat) :
    boundary n ts = boundary n ts' := by
  induction h generalizing n with
  | nil => rfl
  | cons ht _ ih =>
    cases n with
    | zero => simp only [boundary, m.kind ht, ih]
    | succ n => simp only [boundary, m.kind ht, ih]

/-- The simulation survives recovery too. -/
structure Recovers : Prop where
  head? : ∀ {s s'}, m.states s s' → Option.Rel m.token s.ahead.head? s'.ahead.head?
  report : ∀ {d d' s s'}, m.diagnostic d d' → m.states s s' → m.states (s.report d) (s'.report d')
  synchronized : ∀ {s s'}, m.states s s' → m.states s.synchronized s'.synchronized
  parted_recovering : ∀ {α β : Type} {p : Parser α} {q : Parser β} {resume resume' : Parser Unit}
    {s s'}, m.parted (p.run s) (q.run s') →
      m.parted ((recovering p resume).run s) ((recovering q resume').run s')

namespace Recovers
variable {m} (hr : m.Recovers) {inner inner' : Level} (hi : m.Levels inner inner')
include hr

theorem next?_holds : m.holds (Option.Rel m.token) next? next? :=
  fun _ _ hs => .inl (.ok (hr.head? hs) hs)

theorem synchronize_holds : m.holds Eq synchronize synchronize :=
  fun _ _ hs => .inl (.ok rfl (hr.synchronized hs))

theorem recovering_holds {p : Parser α} {q : Parser β} {resume resume' : Parser Unit}
    (h : m.holds V p q) (hresume : m.holds Eq resume resume') :
    m.holds (Option.Rel V) (recovering p resume) (recovering q resume') := by
  intro s s' hs
  rcases h s s' hs with htogether | hparted
  · generalize hp : p.run s = r, hq : q.run s' = r' at htogether
    cases htogether with
    | ok hv ht =>
      rw [run_recovering, run_recovering, hp, hq]
      exact .inl (.ok (.some hv) ht)
    | error hd ht =>
      rw [run_recovering_error hp, run_recovering_error hq]
      exact holds_bind hresume (fun _ _ _ => holds_pure .none) _ _ (hr.report hd ht)
  · exact .inr (hr.parted_recovering hparted)

theorem resumeOutside_holds : m.holds Eq resumeOutside resumeOutside := by
  refine holds_bind hr.synchronize_holds fun _ _ _ => ?_
  refine holds_bind (m.skip_holds _) fun _ _ _ => ?_
  exact holds_pure rfl

include hi

/-- Whether a list ends must only depend on kinds. -/
theorem statementUnless_holds {ends : Option Token → Bool} {resume resume' : Parser Unit}
    (hends : ∀ {x x'}, Option.Rel m.token x x' → ends x = ends x')
    (hresume : m.holds Eq resume resume') :
    m.holds (Option.Rel (Option.Rel m.stmt)) (statementUnless inner ends resume)
      (statementUnless inner' ends resume') := by
  refine holds_bind hr.next?_holds fun x x' hx => ?_
  rw [← hends hx]
  split
  · exact holds_pure .none
  · refine holds_bind (hr.recovering_holds (m.statement_holds hi) hresume) fun _ _ h => ?_
    exact holds_pure (.some h)

omit hr hi in
/-- What is left out is left out on both sides. -/
theorem found {found found' : List (Option Stmt)}
    (h : List.Forall₂ (Option.Rel m.stmt) found found') :
    List.Forall₂ m.stmt (found.filterMap id) (found'.filterMap id) := by
  induction h with
  | nil => exact .nil
  | cons hx _ ih =>
    cases hx with
    | none => exact ih
    | some hx => exact .cons hx ih

omit hr hi in
theorem blockEnds_eq {x x' : Option Token} (h : Option.Rel m.token x x') :
    blockEnds x = blockEnds x' := by
  cases h with
  | none => rfl
  | some ht => simp only [blockEnds, m.kind ht]

theorem blockBody_holds : m.holds (List.Forall₂ m.stmt) (blockBody inner) (blockBody inner') := by
  have hstep := hr.statementUnless_holds hi blockEnds_eq hr.synchronize_holds
  refine holds_bind (holds_many hstep) fun _ _ h => ?_
  exact holds_pure (found h)

/-- A block takes its brace first, so it may start from other states too. -/
theorem block_holds {S : State → State → Prop}
    (hS : m.From S m.token (expect .openCurly) (expect .openCurly)) :
    m.From S m.block (block inner) (block inner') := by
  refine holds_bind hS fun _ _ ht => ?_
  refine holds_bind (hr.blockBody_holds hi) fun _ _ hxs => ?_
  refine holds_bind (m.expect_holds _) fun _ _ _ => ?_
  refine holds_bind m.lastEnd_holds fun _ _ hl => ?_
  exact holds_pure (.mk ht hxs ⟨m.start ht, hl⟩)

theorem program_holds : m.holds m.program (program inner) (program inner') := by
  have hends : ∀ {x x'}, Option.Rel m.token x x' → x.isNone = x'.isNone := by
    intro x x' hx
    cases hx <;> rfl
  have hstep := hr.statementUnless_holds hi hends hr.resumeOutside_holds
  refine holds_bind (holds_many hstep) fun _ _ h => ?_
  exact holds_pure (found h)

end Recovers

/-! ### Levels -/

/-- The simulation survives the opening and the closing of a level. -/
structure Nests : Prop where
  opened : ∀ {s s'}, m.states s s' → m.states s.opened s'.opened
  closed : ∀ {s s'}, m.states s s' → m.states s.closed s'.closed
  parted_nest : ∀ {α β : Type} {p : Parser α} {q : Parser β} {s s'},
    m.parted (p.run s.opened) (q.run s'.opened) → m.parted ((nest p).run s) ((nest q).run s')

namespace Nests
variable {m} (hn : m.Nests)
include hn

theorem nest_holds {p : Parser α} {q : Parser β} (h : m.holds V p q) :
    m.holds V (nest p) (nest q) := by
  intro s s' hs
  rcases h s.opened s'.opened (hn.opened hs) with htogether | hparted
  · simp only [nest]
    generalize p.run s.opened = r, q.run s'.opened = r' at htogether ⊢
    cases htogether with
    | ok hv ht => exact .inl (.ok hv (hn.closed ht))
    | error hd ht => exact .inl (.error hd (hn.closed ht))
  · exact .inr (hn.parted_nest hparted)

/-- It holds of the parsers of every level. -/
theorem level_holds (hr : m.Recovers) (limit n : Nat) :
    m.Levels (level limit n) (level limit n) := by
  induction n with
  | zero => exact ⟨fun _ => m.failHere_holds .tooDeep, m.failHere_holds .tooDeep⟩
  | succ n ih =>
    constructor
    · intro bound
      exact hn.nest_holds (m.expression_holds ih bound)
    · exact hn.nest_holds (hr.block_holds ih (m.expect_holds _))

end Nests

/-! ### Runs from one state -/

section Exactly
variable (inv : State → Prop) (inv_advance : ∀ s, inv s → inv s.advance) (apart : Parting)

/-- Both runs stand in the same state, of which `inv` holds, and find the same. -/
def exactly : Simulation where
  toLikeness := .exact
  toParting := apart
  states s s' := s = s' ∧ inv s
  kind h := congrArg Token.kind h
  fits h _ := by rw [show _ = _ from h]
  start h := congrArg Token.start h
  stop h := congrArg Token.stop h
  states_current h := congrArg State.current h.1
  states_lastEnd h := congrArg State.lastEnd h.1
  states_advance h := ⟨congrArg State.advance h.1, inv_advance _ h.2⟩

variable {inv inv_advance apart}

theorem exactly_recovers (hreport : ∀ s d, inv s → inv (s.report d))
    (hparted : ∀ {α β : Type} {p : Parser α} {q : Parser β} {resume resume' : Parser Unit} {s s'},
      apart.parted (p.run s) (q.run s') →
        apart.parted ((recovering p resume).run s) ((recovering q resume').run s')) :
    (exactly inv inv_advance apart).Recovers where
  head? := by
    rintro s _ ⟨rfl, -⟩
    cases s.ahead.head? with
    | none => exact .none
    | some t => exact .some rfl
  report := by
    rintro d _ s _ hd ⟨rfl, hs⟩
    exact ⟨by rw [Likeness.eq_of_diagnostic hd], hreport s d hs⟩
  synchronized := by
    rintro s _ ⟨rfl, hs⟩
    have hadvance : ∀ n t, inv t → inv (t.advanceBy n) := by
      intro n
      induction n with
      | zero => exact fun t ht => ht
      | succ n ih => exact fun t ht => ih _ (inv_advance t ht)
    exact ⟨rfl, hadvance _ s hs⟩
  parted_recovering := hparted

/-- Runs that go together are the same, if what is found is. -/
theorem eq_of_together {V : α → α → Prop} {r r' : Result α}
    (h : (exactly inv inv_advance apart).Together V r r')
    (hV : ∀ a b, V a b → a = b) : r = r' ∧ inv r.state := by
  cases h with
  | ok hv hs =>
    obtain ⟨rfl, hs⟩ := hs
    exact ⟨by rw [hV _ _ hv], hs⟩
  | error hd hs =>
    obtain ⟨rfl, hs⟩ := hs
    exact ⟨by rw [Likeness.eq_of_diagnostic hd], hs⟩

end Exactly

end Simulation
end LetLang.Parser
