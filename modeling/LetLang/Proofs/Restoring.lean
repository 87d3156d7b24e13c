import LetLang.Parser.Operation
import LetLang.Proofs.Simulation

/-! What is opened is closed again.

A level of nesting is opened and closed in one place, around an expression or a block,
and it is closed whether what stands in it is found or fails. So a construct leaves as
many levels open as there were (`level_keeping`), on the way there were never more
than the limit allows, and nothing that was reported is taken back. This holds of each
construct that can be asked for, wherever the parser stands (`construct_restores`). -/
namespace LetLang.Parser

variable {α β : Type} {most depth : Nat}

/-- So many levels are open, and there were never more than `most`. -/
def State.IsOpen (most depth : Nat) (s : State) : Prop := s.depth = depth ∧ s.deepest ≤ most

/-- What holds before a run holds after it, whether it finds something or fails. -/
def Keeps (inv : State → Prop) (p : Parser α) : Prop := ∀ s, inv s → inv (p.run s).state

theorem keeps_bind {inv : State → Prop} {p : Parser α} {f : α → Parser β} (hp : p.Keeps inv)
    (hf : ∀ a, (f a).Keeps inv) : (p >>= f).Keeps inv := by
  intro s hs
  have ht := hp s hs
  rw [run_bind]
  cases hr : p.run s with
  | ok a t =>
    rw [hr] at ht
    exact hf a t ht
  | error d t =>
    rw [hr] at ht
    exact ht

/-! ### A run beside itself -/

/-- Two runs from the same state, with so many levels open. -/
def keeping (most depth : Nat) : Simulation :=
  .exactly (State.IsOpen most depth) (fun _ h => h) .never

theorem keeping_recovers (most depth : Nat) : (keeping most depth).Recovers :=
  Simulation.exactly_recovers (fun _ _ h => h) False.elim

/-- A run that goes together with another keeps the levels. -/
theorem keeps_of_holds {p : Parser α} {q : Parser β} {V : α → β → Prop}
    (h : (keeping most depth).holds V p q) : p.Keeps (State.IsOpen most depth) := by
  intro s hs
  have hends := h s s ⟨rfl, hs⟩
  generalize p.run s = r, q.run s = r' at hends ⊢
  rcases hends with htogether | hparted
  · cases htogether with
    | ok _ ht => exact ht.2
    | error _ ht => exact ht.2
  · exact hparted.elim

theorem keeping_nest {p : Parser α} {q : Parser β} {V : α → β → Prop} (hlt : depth < most)
    (h : (keeping most (depth + 1)).holds V p q) :
    (keeping most depth).holds V (nest p) (nest q) := by
  intro s s' hs
  obtain ⟨rfl, hdepth, hdeepest⟩ := hs
  have hopened : s.opened.IsOpen most (depth + 1) :=
    ⟨congrArg (· + 1) hdepth, Nat.max_le.2 ⟨hdeepest, hdepth ▸ hlt⟩⟩
  have hclosed : ∀ t : State, t.IsOpen most (depth + 1) → t.closed.IsOpen most depth :=
    fun t ht => ⟨congrArg (· - 1) ht.1, ht.2⟩
  have hends := h s.opened s.opened ⟨rfl, hopened⟩
  simp only [nest]
  generalize p.run s.opened = r, q.run s.opened = r' at hends ⊢
  rcases hends with htogether | hparted
  · cases htogether with
    | ok hv ht => exact .inl (.ok hv ⟨congrArg State.closed ht.1, hclosed _ ht.2⟩)
    | error hd ht => exact .inl (.error hd ⟨congrArg State.closed ht.1, hclosed _ ht.2⟩)
  · exact hparted.elim

/-- With `depth` levels open and `n` left, no more than `depth + n` are ever open. -/
theorem level_keeping (limit n depth : Nat) (h : depth + n ≤ most) :
    (keeping most depth).Levels (level limit n) (level limit n) := by
  induction n generalizing depth with
  | zero =>
    exact ⟨fun _ => Simulation.failHere_holds _ .tooDeep, Simulation.failHere_holds _ .tooDeep⟩
  | succ n ih =>
    have hi := ih (depth + 1) (by omega)
    have hlt : depth < most := by omega
    constructor
    · intro bound
      exact keeping_nest hlt (Simulation.expression_holds _ hi bound)
    · exact keeping_nest hlt ((keeping_recovers ..).block_holds hi (Simulation.expect_holds _ _))

/-! ### Constructs that are given what stands on their left -/

section
variable {inner : Level} (hi : (keeping most depth).Levels inner inner)
include hi

theorem binary_keeps (left : Expr) (power : Power) :
    (binary inner left power).Keeps (State.IsOpen most depth) := by
  have hright := keeps_of_holds (hi.expr power)
  exact keeps_bind (fun _ hs => hs) fun _ => keeps_bind hright fun _ _ hs => hs

theorem assignment_keeps (left : Expr) :
    (assignment inner left).Keeps (State.IsOpen most depth) := by
  have hvalue := keeps_of_holds (hi.expr .lowest)
  unfold assignment
  split
  · exact keeps_bind (fun _ hs => hs) fun _ => keeps_bind hvalue fun _ _ hs => hs
  · exact fun _ hs => hs

theorem call_keeps (callee : Expr) : (call inner callee).Keeps (State.IsOpen most depth) := by
  have harguments := keeps_of_holds ((keeping most depth).untilParen_holds (hi.expr .lowest))
  exact keeps_bind (fun _ hs => hs) fun _ => keeps_bind harguments fun _ _ hs => hs

end

/-! ### Operations -/

/-- A construct is asked for, and not a single step. -/
def Operation.isConstruct : Operation → Bool
  | program | statement | binding | returning | expressionStatement | block | expr _ => true
  | literal | unary | group | conditional | function => true
  | binary .. | assignment _ | call _ => true
  | _ => false

theorem keeps_doing {inv : State → Prop} {p : Parser α} (h : p.Keeps inv) :
    (Operation.doing p).Keeps inv := keeps_bind h fun _ _ hs => hs

/-- A construct that keeps the levels when its parts do keeps those that are open. -/
theorem perform_making {p : Level → Parser α} {s : State}
    (hp : ∀ inner : Level, (keeping (max s.deepest maxNesting) s.depth).Levels inner inner →
      (p inner).Keeps (State.IsOpen (max s.deepest maxNesting) s.depth))
    (hs : s.depth ≤ maxNesting) :
    ((Operation.making p).run s).state.IsOpen (max s.deepest maxNesting) s.depth := by
  have hle : s.depth + (maxNesting - s.depth) ≤ max s.deepest maxNesting := by omega
  have hkeeps := keeps_doing (hp _ (level_keeping maxNesting _ s.depth hle))
  exact hkeeps s ⟨rfl, Nat.le_max_left ..⟩

/-- Whatever construct is asked for, and whether it is found or fails: as many levels are open after
it as before, never were more of them open than the limit allows, and what was reported before is
still reported, in front of what has come to it. -/
theorem construct_restores (op : Operation) (hop : op.isConstruct) (s : State)
    (hs : s.depth ≤ maxNesting) :
    (op.perform s).depth = s.depth ∧ (op.perform s).deepest ≤ max s.deepest maxNesting ∧
      s.reported.toList <+: (op.perform s).reported.toList := by
  have hopen : (op.perform s).IsOpen (max s.deepest maxNesting) s.depth := by
    let m := keeping (max s.deepest maxNesting) s.depth
    have hm : m.Recovers := keeping_recovers ..
    cases op with
    | program => exact perform_making (fun _ hi => keeps_of_holds (hm.program_holds hi)) hs
    | statement => exact perform_making (fun _ hi => keeps_of_holds (m.statement_holds hi)) hs
    | binding => exact perform_making (fun _ hi => keeps_of_holds (m.binding_holds hi)) hs
    | returning => exact perform_making (fun _ hi => keeps_of_holds (m.returning_holds hi)) hs
    | expressionStatement =>
      exact perform_making (fun _ hi => keeps_of_holds (m.expressionStatement_holds hi)) hs
    | block => exact perform_making (fun _ hi => keeps_of_holds hi.block) hs
    | expr bound => exact perform_making (fun _ hi => keeps_of_holds (hi.expr bound)) hs
    | literal =>
      have hkeeps := keeps_doing (keeps_of_holds (m.literal_holds m.advance_holds))
      exact hkeeps s ⟨rfl, Nat.le_max_left ..⟩
    | unary =>
      exact perform_making (fun _ hi => keeps_of_holds (m.unary_holds hi m.advance_holds)) hs
    | group =>
      exact perform_making (fun _ hi => keeps_of_holds (m.group_holds hi m.advance_holds)) hs
    | conditional =>
      exact perform_making (fun _ hi => keeps_of_holds (m.conditional_holds hi m.advance_holds)) hs
    | function =>
      exact perform_making (fun _ hi => keeps_of_holds (m.function_holds hi m.advance_holds)) hs
    | binary left power => exact perform_making (fun _ hi => binary_keeps hi left power) hs
    | assignment left => exact perform_making (fun _ hi => assignment_keeps hi left) hs
    | call callee => exact perform_making (fun _ hi => call_keeps hi callee) hs
    | _ => cases hop
  exact ⟨hopen.1, hopen.2, op.parser.reported s⟩

/-- A body that is never closed, in the last level that may be opened: every mistake in it is
reported behind the one that was there, and the level is closed all the same. -/
theorem unclosed_body_restores :
    let s : State := { State.ofSource ⟨"shell", "\x7b let = 1; if (a) \x7b @ ) "⟩ with
      depth := 255, deepest := 255, reported := #[⟨.illegalCharacter "@", ⟨0, "shell"⟩⟩] }
    s.depth ≤ maxNesting ∧ Operation.block.Fails s ∧
      (Operation.block.perform s).depth = 255 ∧ (Operation.block.perform s).deepest ≤ 256 ∧
      s.reported.toList <+: (Operation.block.perform s).reported.toList ∧
      (Operation.block.perform s).reported.size = 3 := by
  intro s
  have h := construct_restores .block (by decide) s (by decide)
  have hfails : Operation.block.Fails s := by
    have hno : (Operation.block.parser.run s).error?.isSome = true := by decide +kernel
    intro t ht
    rw [ht] at hno
    cases hno
  exact ⟨by decide, hfails, h.1, h.2.1, h.2.2, by decide +kernel⟩

end LetLang.Parser
