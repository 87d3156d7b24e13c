import LetLang.Proofs.Placement
import LetLang.Proofs.Walk.Constructs

/-! Tokens that end with a semicolon, in front of more tokens.

A construct looks no further than the current token, so what comes after the last
one makes a difference only where all tokens are consumed. If the tokens close
their braces, no statement consumes the semicolon at their end except to finish
with it, and no recovery goes past it. So a program is parsed up to there as if
nothing followed (`program_front`). After a mistake in the last statement, a
closing brace that follows is passed too. -/
namespace LetLang

/-- Its last statement ends there. -/
def Program.EndsAt (p : Program) (place : Position) : Prop :=
  (p.statements.getLast?.map fun x => x.span.stop) = some place

instance (p : Program) (place : Position) : Decidable (p.EndsAt place) :=
  inferInstanceAs (Decidable (_ = _))

namespace Parser
open Token (Kind Ordered)

variable {α β : Type} {inner : Level} {s t u : State}

/-! ### Where a statement stops -/

/-- Whatever it finds, `Q` holds of it and of where it ends. -/
def Yields (p : Parser α) (Q : α → State → Prop) : Prop := ∀ s a t, p.run s = .ok a t → Q a t

theorem yields_pure {a : α} {Q : α → State → Prop} (h : ∀ s, Q a s) :
    (pure a : Parser α).Yields Q := by
  intro s b t hr
  cases hr
  exact h s

theorem yields_bind {p : Parser α} {f : α → Parser β} {P : α → Prop} {Q : β → State → Prop}
    (hp : p.Yields fun a _ => P a) (hf : ∀ a, P a → (f a).Yields Q) : (p >>= f).Yields Q := by
  intro s b u hr
  rw [run_bind] at hr
  cases ha : p.run s with
  | ok a t =>
    rw [ha] at hr
    exact hf a (hp s a t ha) t b u hr
  | error d t =>
    rw [ha] at hr
    cases hr

theorem yields_after (p : Parser α) {f : α → Parser β} {Q : β → State → Prop}
    (hf : ∀ a, (f a).Yields Q) : (p >>= f).Yields Q :=
  yields_bind (P := fun _ => True) (fun _ _ _ _ => trivial) fun a _ => hf a

/-- Its span ends where the last token that was consumed does. -/
def StopsHere (x : Stmt) (s : State) : Prop := x.span.stop = s.lastEnd

theorem terminated_stops {p : Parser (Position → Stmt)}
    (hp : p.Yields fun make _ => ∀ stop, (make stop).span.stop = stop) :
    (terminated p).Yields StopsHere := by
  refine yields_bind hp fun make hmake => yields_after _ fun _ => ?_
  intro s x t hr
  cases hr
  exact hmake s.lastEnd

theorem block_stops : (block inner).Yields fun b s => b.span.stop = s.lastEnd := by
  refine yields_after _ fun x => yields_after _ fun body => yields_after _ fun _ => ?_
  intro s b t hr
  cases hr
  rfl

theorem level_block_stops (limit n : Nat) :
    (level limit n).block.Yields fun b s => b.span.stop = s.lastEnd := by
  intro s b t hr
  cases n with
  | zero => cases hr
  | succ n =>
    simp only [level, nest] at hr
    cases hb : (block (level limit n)).run s.opened with
    | ok c u =>
      rw [hb] at hr
      obtain ⟨rfl, rfl⟩ := Result.ok.inj hr
      show c.span.stop = u.lastEnd
      exact block_stops s.opened c u hb
    | error d u =>
      rw [hb] at hr
      cases hr

theorem statement_stops (limit n : Nat) : (statement (level limit n)).Yields StopsHere := by
  refine yields_after _ fun x => ?_
  unfold statementFrom
  split
  · refine terminated_stops (yields_after _ fun _ => yields_after _ fun _ => yields_after _ fun _ => ?_)
    exact yields_after _ fun _ => yields_pure fun _ _ => rfl
  · refine terminated_stops (yields_after _ fun _ => ?_)
    exact yields_after _ fun _ => yields_pure fun _ _ => rfl
  · intro s x t hr
    rw [blockStatement, run_bind] at hr
    cases hb : (level limit n).block.run s with
    | ok b u =>
      rw [hb] at hr
      cases hr
      exact level_block_stops limit n s b _ hb
    | error d u =>
      rw [hb] at hr
      cases hr
  · refine terminated_stops (yields_after _ fun _ => ?_)
    exact yields_after _ fun _ => yields_pure fun _ _ => rfl

/-! ### Tokens with an end of their own -/

/-- The tokens ahead come after what was consumed. -/
def State.Placed (s : State) : Prop := Ordered s.lastEnd.offset s.finish s.ahead

theorem placed_ofTokens {place : Nat} {finish : Position} {ts : List Token}
    (h : Ordered place finish ts) : (State.ofTokens ts finish).Placed := by
  cases ts with
  | nil => exact Nat.le_refl _
  | cons t ts => exact ⟨Nat.le_refl _, h.2⟩

theorem State.Steps.placed (h : State.Steps s t) (hs : s.Placed) : t.Placed := by
  induction h with
  | refl => exact hs
  | @advance t h ih =>
    rw [State.Placed] at ih ⊢
    cases ht : t.ahead with
    | nil =>
      simp [State.advance, State.current, ht, State.endToken, Token.endOfInput, Token.stop, Ordered]
    | cons x xs =>
      rw [ht] at ih
      simpa [State.advance, State.current, ht] using ih.2.2
  | report _ _ ih => exact ih
  | opened _ ih => exact ih
  | closed _ ih => exact ih

/-- The tokens ahead close all their braces and end with a semicolon. -/
structure SelfContained (semicolon : Token) (s : State) : Prop where
  placed : s.Placed
  kind : semicolon.kind = .semicolon
  last : ∃ ts, s.ahead = ts ++ [semicolon]
  closed : unclosed 0 s.ahead = 0

namespace SelfContained
variable {semicolon : Token} (h : SelfContained semicolon s)
include h

theorem ahead_ne_nil : s.ahead ≠ [] := by
  obtain ⟨ts, hts⟩ := h.last
  simp [hts]

/-- So they are as long as any of them is left. -/
theorem of_steps (hst : State.Steps s t) (ht : t.ahead ≠ []) : SelfContained semicolon t := by
  refine ⟨hst.placed h.placed, h.kind, ?_, unclosed_suffix hst.ahead h.closed⟩
  obtain ⟨ts, hts⟩ := h.last
  obtain ⟨us, hus⟩ := hst.ahead
  obtain ⟨vs, x, hx⟩ := (List.eq_nil_or_concat t.ahead).resolve_left ht
  rw [hx, hts, List.concat_eq_append, ← List.append_assoc] at hus
  obtain ⟨-, hlast⟩ := List.append_inj' hus rfl
  cases hlast
  exact ⟨vs, by rw [hx, List.concat_eq_append]⟩

/-- Nothing that was consumed reaches the end of the semicolon before it was consumed itself. -/
theorem lastEnd_lt : s.lastEnd.offset < semicolon.stop.offset := by
  obtain ⟨ts, hts⟩ := h.last
  have hplaced := h.placed
  rw [State.Placed, hts] at hplaced
  obtain ⟨-, hle, hlt, -⟩ := hplaced.split
  omega

/-- The last of the tokens can only be passed by what passes a semicolon. -/
theorem past {kind : Kind} (hnil : (s.past kind).ahead = []) :
    kind = .semicolon ∧ (s.past kind).lastEnd = semicolon.stop := by
  obtain ⟨ts, hts⟩ := h.last
  rw [State.past] at hnil ⊢
  split at hnil
  · rename_i hk
    obtain rfl : ts = [] := by
      cases ts with
      | nil => rfl
      | cons t ts => simp [hts] at hnil
    have hcurrent : s.current = semicolon := by simp [State.current, hts]
    rw [if_pos hk, ← hk, hcurrent]
    exact ⟨h.kind, congrArg Token.stop hcurrent⟩
  · exact absurd hnil h.ahead_ne_nil

theorem sorted : s.Sorted := h.placed.sorted

/-- Only what may pass a semicolon outside all braces comes to the end. -/
theorem walk_ahead_ne_nil (hw : Walk false s t) : t.ahead ≠ [] := by
  intro hnil
  obtain ⟨us, k, hus, hd, -⟩ := hw.eats
  obtain ⟨ts, hts⟩ := h.last
  rw [hnil, List.append_nil] at hus
  have hk := unclosed_of_depth? hd
  rw [← hus, h.closed] at hk
  rw [← hus, hts, depth?_append, ← hk] at hd
  cases hj : depth? false 0 ts with
  | none => simp [hj] at hd
  | some j =>
    rw [hj, Option.bind_some] at hd
    cases j with
    | zero => simp [depth?_semicolon h.kind] at hd
    | succ j => simp [depth?_inside, h.kind] at hd

theorem moves_ahead_ne_nil {Q : α → State → Prop} {r : Result α} (hr : Moves (Walk false) s Q r) :
    r.state.ahead ≠ [] := by
  cases r with
  | ok a t => exact h.walk_ahead_ne_nil hr.1
  | error d t => exact h.walk_ahead_ne_nil (t := t.report d) hr

end SelfContained

/-! ### In front of more tokens -/

/-- Where parsing goes on in front of more tokens, after a statement or after a mistake. -/
def resumed (failed : Bool) (more : List Token) (finish : Position) (t : State) : State :=
  if failed then (t.extend more finish).past .closeCurly else t.extend more finish

namespace SelfContained

section
variable {semicolon : Token} (h : SelfContained semicolon s) (more : List Token) (finish : Position)
include h

theorem synchronized_front :
    (s.extend more finish).synchronized = s.synchronized.extend more finish := by
  obtain ⟨ts, hts⟩ := h.last
  have hclosed := h.closed
  have hle := boundary_le 0 s.ahead
  rw [hts] at hclosed
  have hboundary : boundary 0 (s.ahead ++ more) = boundary 0 s.ahead := by
    rw [hts, List.append_assoc]
    exact boundary_closed h.kind hclosed
  show (s.extend more finish).advanceBy (boundary 0 (s.ahead ++ more)) = _
  rw [hboundary, State.advanceBy_extend hle]
  rfl

/-- Recovery comes to the same place, apart from a brace that follows the last of the tokens. -/
theorem resumeOutside_front :
    ∃ t, resumeOutside.run s = .ok () t ∧
      resumeOutside.run (s.extend more finish) = .ok () (resumed t.ahead.isEmpty more finish t) := by
  have hsync := h.synchronized_front more finish
  have hsteps : State.Steps s s.synchronized := (State.Steps.refl s).advanceBy _
  refine ⟨_, run_resumeOutside s, ?_⟩
  rw [run_resumeOutside, hsync]
  by_cases hs : s.synchronized.ahead = []
  · have hpast : s.synchronized.past .closeCurly = s.synchronized := by
      simp [State.past, State.current, hs, State.endToken, Token.endOfInput]
    rw [hpast]
    simp [resumed, hs]
  · have hne : (s.synchronized.past .closeCurly).ahead ≠ [] := by
      -- the last token is a semicolon, so it is not the brace that was passed
      intro hnil
      have hkind := ((h.of_steps hsteps hs).past hnil).1
      cases hkind
    rw [State.past_extend hs]
    simp [resumed, hne]

/-- A statement runs as if nothing followed. It leaves tokens ahead, unless it found something that
ends with the last of them. -/
theorem statement_front (hi : inner.Walks) :
    (statement inner).run (s.extend more finish) = ((statement inner).run s).extend more finish ∧
      (((statement inner).run s).state.ahead = [] →
        ∃ x t, (statement inner).run s = .ok x t ∧ t.lastEnd = semicolon.stop) := by
  have hunseen := (statement inner).unseen s more finish
  rcases statement_cases hi h.sorted with hstrict | ⟨p, hp, hstrict⟩
  · have hne := h.moves_ahead_ne_nil hstrict
    exact ⟨hunseen hne, fun hnil => absurd hnil hne⟩
  · have hne := h.moves_ahead_ne_nil hstrict
    have hpunseen := p.unseen s more finish hne
    have hsteps := p.steps s
    have hcurrent := State.current_extend h.ahead_ne_nil more finish
    rw [run_statement, run_statement, hcurrent, hp] at hunseen ⊢
    cases hr : p.run s with
    | error d t =>
      have hrun : (terminated p).run s = .error d t := by rw [run_terminated, hr]
      rw [hrun] at hunseen ⊢
      rw [hr] at hne
      exact ⟨hunseen hne, fun hnil => absurd hnil hne⟩
    | ok make t =>
      rw [hr] at hne hpunseen hsteps
      have hne : t.ahead ≠ [] := hne
      have ht := h.of_steps hsteps hne
      have hpast := State.past_extend hne .semicolon more finish
      rw [run_terminated, run_terminated, hr, hpunseen]
      refine ⟨?_, fun hnil => ⟨_, _, rfl, (ht.past hnil).2⟩⟩
      simp only [Result.extend, hpast]
      rfl

theorem recovering_front (limit n : Nat) :
    ∃ x t, (recovering (statement (level limit n)) resumeOutside).run s = .ok x t ∧
      (∀ y, x = some y → y.span.stop = t.lastEnd ∧ (t.ahead = [] → t.lastEnd = semicolon.stop)) ∧
      (recovering (statement (level limit n)) resumeOutside).run (s.extend more finish) =
        .ok x (resumed (x.isNone && t.ahead.isEmpty) more finish t) := by
  obtain ⟨hfront, hend⟩ := h.statement_front more finish (level_walks limit n)
  have hsteps := (statement (level limit n)).steps s
  rw [run_recovering, run_recovering, hfront]
  cases hr : (statement (level limit n)).run s with
  | ok y t =>
    rw [hr] at hend
    refine ⟨some y, t, rfl, ?_, by simp [resumed, Result.extend]⟩
    intro z hz
    obtain rfl := Option.some.inj hz
    refine ⟨statement_stops limit n s y t hr, fun hnil => ?_⟩
    obtain ⟨_, _, hok, hstop⟩ := hend hnil
    cases hok
    exact hstop
  | error d t =>
    rw [hr] at hend hsteps
    have hne : t.ahead ≠ [] := by
      intro hnil
      obtain ⟨_, _, hok, -⟩ := hend hnil
      cases hok
    have ht : SelfContained semicolon (t.report d) := h.of_steps (hsteps.report d) hne
    obtain ⟨u, hu, hu'⟩ := ht.resumeOutside_front more finish
    have hextend : (t.extend more finish).report d = (t.report d).extend more finish := rfl
    refine ⟨none, u, by simp [hu], by simp, ?_⟩
    simp only [Result.extend, hextend, hu', Option.isNone_none, Bool.true_and]

end

end SelfContained

/-! ### Programs -/

variable {semicolon : Token}

theorem run_program_nil (h : s.ahead = []) : (program inner).run s = .ok ⟨[]⟩ s := by
  rw [program, run_bind, run_many]
  simp [statementUnless, run_bind, h]

theorem run_program {x : Option Stmt} {p : Program} (h : s.ahead ≠ [])
    (hx : (recovering (statement inner) resumeOutside).run s = .ok x t)
    (hp : (program inner).run t = .ok p u) :
    (program inner).run s = .ok ⟨x.toList ++ p.statements⟩ u := by
  have hstep : (statementUnless inner Option.isNone resumeOutside).run s = .ok (some x) t := by
    simp [statementUnless, run_bind, h, hx]
  rw [program, run_bind] at hp ⊢
  rw [run_many, hstep]
  cases hf : (many (statementUnless inner Option.isNone resumeOutside)
      (statementUnless_advances inner resumeOutside_resumes)).run t with
  | error d v =>
    rw [hf] at hp
    cases hp
  | ok found v =>
    rw [hf] at hp
    cases hp
    cases x <;> simp [hf]

/-- A statement in front of others is not the last one, and alone it ends too early. -/
theorem endsAt_append {x : Option Stmt} {p : Program} {place : Position}
    (h : ∀ y, x = some y → y.span.stop.offset < place.offset) :
    (⟨x.toList ++ p.statements⟩ : Program).EndsAt place ↔ p.EndsAt place := by
  cases x with
  | none => rfl
  | some y =>
    have hy := h y rfl
    cases hp : p.statements with
    | nil =>
      simp only [Program.EndsAt, hp, Option.toList_some, List.append_nil, List.getLast?_singleton,
        Option.map_some, Option.some.injEq, List.getLast?_nil, Option.map_none, reduceCtorEq, iff_false]
      intro heq
      rw [heq] at hy
      omega
    | cons z zs => simp [Program.EndsAt, hp]

/-- A program is parsed up to its end as if nothing followed, and then what follows is parsed. -/
theorem program_front (limit n : Nat) {s : State} (h : SelfContained semicolon s) (more : List Token)
    (finish : Position) :
    ∃ p t, (program (level limit n)).run s = .ok p t ∧ t.ahead = [] ∧
      ∀ q u, (program (level limit n)).run
          (resumed (!decide (p.EndsAt semicolon.stop)) more finish t) = .ok q u →
        (program (level limit n)).run (s.extend more finish) = .ok ⟨p.statements ++ q.statements⟩ u := by
  obtain ⟨x, t, hx, hstops, hfront⟩ := h.recovering_front more finish limit n
  have hne := h.ahead_ne_nil
  have hne' : (s.extend more finish).ahead ≠ [] := by simp [State.extend, hne]
  by_cases ht : t.ahead = []
  · refine ⟨⟨x.toList ++ []⟩, t, run_program hne hx (run_program_nil ht), ht, fun q u hq => ?_⟩
    have hends : (!decide ((⟨x.toList ++ []⟩ : Program).EndsAt semicolon.stop)) =
        (x.isNone && t.ahead.isEmpty) := by
      cases x with
      | none => simp [Program.EndsAt, ht]
      | some y =>
        obtain ⟨hstop, hlast⟩ := hstops y rfl
        simp [Program.EndsAt, hstop, hlast ht]
    rw [hends] at hq
    rw [run_program hne' hfront hq, List.append_nil]
  · have hsteps := (recovering (statement (level limit n)) resumeOutside).steps s
    rw [hx] at hsteps
    have hcontained := h.of_steps hsteps ht
    obtain ⟨p, u, hp, hu, hrest⟩ := program_front limit n hcontained more finish
    refine ⟨⟨x.toList ++ p.statements⟩, u, run_program hne hx hp, hu, fun q v hq => ?_⟩
    have hends : (⟨x.toList ++ p.statements⟩ : Program).EndsAt semicolon.stop ↔
        p.EndsAt semicolon.stop :=
      endsAt_append fun y hy => (hstops y hy).1 ▸ hcontained.lastEnd_lt
    have hgoes : resumed (x.isNone && t.ahead.isEmpty) more finish t = t.extend more finish := by
      simp [resumed, ht]
    rw [hgoes] at hfront
    simp only [hends] at hq
    rw [run_program hne' hfront (hrest q v hq), List.append_assoc]
termination_by s.ahead.length
decreasing_by exact recovering_lt _ resumeOutside_resumes (by simpa using hne) hx

end Parser
end LetLang
