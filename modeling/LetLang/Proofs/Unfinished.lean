import LetLang.Proofs.Completion

/-! Unfinished programs can be finished.

In a list of statements, those before the mistake stand as they are, and the one with
the mistake is completed, or left out if nothing of it has been read. So a block can
be completed, with that every level (`strictLevel_completes`), and with that a program
(`program_completes`). -/
namespace LetLang.Parser
open Grammar
open Token (Kind)

variable {limit n : Nat} {inner : Level} {ends : Option Token → Bool} {e : Diagnostic}
  {s t u : State} {P Q : List Token → Prop}

/-! ### Lists of statements -/

theorem accepts_statementUpTo {found : Option Stmt} :
    (statementUpTo inner ends).Accepts s found t ↔
      (ends s.ahead.head? = true ∧ found = none ∧ t = s) ∨
        (ends s.ahead.head? = false ∧ ∃ x, (statement inner).Accepts s x t ∧ found = some x) := by
  simp only [statementUpTo, accepts_bind, accepts_next?, and_assoc, exists_and_left,
    exists_eq_left]
  cases hends : ends s.ahead.head? with
  | true => simp
  | false => simp [accepts_bind, and_comm, eq_comm]

theorem halts_statementUpTo : (statementUpTo inner ends).Halts s e u ↔
    ends s.ahead.head? = false ∧ (statement inner).Halts s e u := by
  simp only [statementUpTo, halts_bind, not_halts_next?, accepts_next?, false_or, and_assoc,
    exists_and_left, exists_eq_left]
  cases hends : ends s.ahead.head? with
  | true => simp
  | false => simp [halts_bind]

/-- A statement that does not go on into what follows it. -/
theorem derives_followed {x : Stmt} {xs : List Stmt} {bare : Bool} {ts us : List Token}
    (hx : Derives n (.statement x bare) ts) (hbare : bare = true → ¬ Continues t.current)
    (hxs : Derives n (.statements xs) us) (hcurrent : ∀ y ∈ us.head?, y = t.current) :
    Derives n (.statements (x :: xs)) (ts ++ us) :=
  .next hx (fun hb y hy => hcurrent y hy ▸ hbare hb) hxs

theorem Reads.head {ts : List Token} (h : Reads s ts t) : ∀ y ∈ ts.head?, y = s.current := by
  intro y hy
  obtain ⟨rest, rfl⟩ := List.head?_eq_some_iff.1 hy
  exact (State.current_of_ahead h.ahead).symm

theorem statementsUpTo_sound (hi : inner.Sound n) {xs : List Stmt}
    (h : (statementsUpTo inner ends).Accepts s xs t) :
    ∃ ts, Reads s ts t ∧ Derives n (.statements xs) ts := by
  induction xs generalizing s with
  | nil =>
    rcases accepts_many.1 h with ⟨h, -⟩ | ⟨_, _, _, -, -, heq⟩
    · rcases accepts_statementUpTo.1 h with ⟨-, -, rfl⟩ | ⟨-, x, -, hx⟩
      · exact ⟨[], .nil _, .done⟩
      · cases hx
    · cases heq
  | cons x xs ih =>
    rcases accepts_many.1 h with ⟨-, heq⟩ | ⟨_, v, _, hx, hxs, heq⟩
    · cases heq
    cases heq
    rcases accepts_statementUpTo.1 hx with ⟨-, hx, -⟩ | ⟨-, _, hx, heq⟩
    · cases hx
    cases heq
    obtain ⟨ts, bare, hts, hd, hbare⟩ := statement_sound hi hx
    obtain ⟨us, hus, hds⟩ := ih hxs
    exact ⟨ts ++ us, hts.trans hus, derives_followed hd hbare hds hus.head⟩

/-- What is interrupted at its first token need not be begun. -/
theorem Interrupted.unlessBegun (h : Interrupted e s u P) (none : Q [])
    (some : ∀ t ts, t = s.current → P (t :: ts) → Q (t :: ts)) : Interrupted e s u Q := by
  obtain ⟨hposition, hquotes, ts, kinds, hts, hkinds, hcs⟩ := h
  cases ts with
  | nil =>
    refine ⟨hposition, hquotes, [], [], hts, by simp, fun cs h => ?_⟩
    obtain rfl := List.map_eq_nil_iff.1 h
    exact none
  | cons t ts =>
    refine ⟨hposition, hquotes, t :: ts, kinds, hts, hkinds, fun cs h => ?_⟩
    exact some t _ (State.current_of_ahead hts).symm (hcs cs h)

theorem Level.Completes.statement_depth (hi : inner.Completes limit n) {x : Stmt}
    (h : (statement inner).Accepts s x t) : t.depth = s.depth := by
  obtain ⟨inner', hlevels⟩ := hi.stopping
  obtain ⟨_, -, -, hdepth⟩ := accepts_stopping (Simulation.statement_holds _ (hlevels _ _)) h
  exact hdepth

section
variable (hi : inner.Completes limit n) (he : Early limit e u) (hs : s.depth + n = limit)
include hi he hs

/-- The completed list begins where the one that was interrupted does. -/
theorem statementsUpTo_completes (h : (statementsUpTo inner ends).Halts s e u) :
    Interrupted e s u fun ts =>
      (∃ xs, Derives n (.statements xs) ts) ∧ ∀ y ∈ ts.head?, y = s.current := by
  induction hlength : s.ahead.length using Nat.strongRecOn generalizing s with
  | _ k ih =>
    rcases halts_many.1 h with h | ⟨x, t, hx, h⟩
    · obtain ⟨-, h⟩ := halts_statementUpTo.1 h
      refine (statement_completes hi he hs h).unlessBegun ⟨⟨[], .done⟩, by simp⟩ ?_
      rintro y ts hy ⟨x, bare, hd⟩
      refine ⟨⟨[x], ?_⟩, by simpa using hy⟩
      rw [← List.append_nil (y :: ts)]
      exact .next hd (by simp) .done
    · rcases accepts_statementUpTo.1 hx with ⟨-, hx, -⟩ | ⟨-, _, hx, heq⟩
      · cases hx
      cases heq
      obtain ⟨ts, bare, hts, hd, hbare⟩ := statement_sound hi.toSound hx
      have hlt := statement_consumes inner s x t hx.1
      have hrest := ih _ (hlength ▸ hlt) (hi.statement_depth hx ▸ hs) h rfl
      refine .after hts (hrest.mono ?_)
      rintro us ⟨⟨xs, hds⟩, hcurrent⟩
      refine ⟨⟨x :: xs, derives_followed hd hbare hds hcurrent⟩, fun y hy => ?_⟩
      cases ts with
      | nil =>
        rw [hts.ahead] at hlt
        exact absurd hlt (Nat.lt_irrefl _)
      | cons z ts => exact hts.head y hy

theorem strictBlock_completes (h : (strictBlock inner).Halts s e u) :
    Interrupted e s u fun ts => ∃ b, Derives (n + 1) (.block b) ts := by
  simp only [strictBlock, halts_bind, accepts_expect, not_halts_lastEnd, not_halts_pure, and_false,
    exists_false, or_false] at h
  rcases h with h | ⟨_, _, ⟨ho, rfl, rfl⟩, h⟩
  · exact interrupted_expect h [.openCurly, .closeCurly] (by decide) fun _ => derives_empty
  refine .after (Reads.current (by simp [ho])) ?_
  rcases h with h | ⟨xs, v, hxs, h⟩
  · refine (statementsUpTo_completes (s := s.advance) hi he hs h).closing [.closeCurly]
      (by decide) ?_
    rintro ts cs ⟨⟨xs, hds⟩, -⟩ hcs
    obtain ⟨c, rfl, hc⟩ := List.map_eq_singleton_iff.1 hcs
    exact ⟨_, .block ho hds hc⟩
  · obtain ⟨ts, hr, hds⟩ := statementsUpTo_sound hi.toSound hxs
    refine .after hr (interrupted_expect h [.closeCurly] (by decide) fun cs hcs => ?_)
    obtain ⟨c, rfl, hc⟩ := List.map_eq_singleton_iff.1 hcs
    exact ⟨_, .block ho hds hc⟩

end

/-! ### Levels -/

/-- What both parsers accept is sound for the one if it is for the other. -/
theorem strictLevel_sound (limit n : Nat) : (strictLevel limit n).Sound n := by
  constructor
  · intro bound s x t h
    obtain ⟨_, hx, hv, -⟩ := accepts_stopping ((strictLevel_stopping limit n _ _).expr bound) h
    obtain rfl := Likeness.eq_of_expr hv
    exact (level_sound limit n).expr hx
  · intro s b t h
    obtain ⟨_, hb, hv, -⟩ := accepts_stopping (strictLevel_stopping limit n _ _).block h
    obtain rfl := Likeness.eq_of_block hv
    exact (level_sound limit n).block hb

theorem Interrupted.opened (h : Interrupted e s.opened u P) : Interrupted e s u P :=
  ⟨h.position, h.quotes, h.completes⟩

/-- An oversized integer stands where there could be a name. -/
theorem guarded_completes (hi : inner.Completes limit n) {bound : Power} (he : Early limit e u)
    (hs : s.depth + n = limit) (h : (guarded (expression inner bound)).Halts s e u) :
    Interrupted e s u fun ts => ∃ x, Derives n (.above bound x) ts := by
  rcases halts_guarded.1 h with ⟨-, rfl, rfl⟩ | ⟨hlarge, h⟩
  · refine interrupted_here rfl rfl [.identifier] (by decide) fun cs hcs => ?_
    obtain ⟨x, rfl, hx⟩ := List.map_eq_singleton_iff.1 hcs
    exact derives_name hx bound
  · exact expression_completes hi he hs hlarge h

theorem strictLevel_completes (limit n : Nat) : (strictLevel limit n).Completes limit n := by
  induction n with
  | zero =>
    refine ⟨strictLevel_sound limit 0, ⟨_, strictLevel_stopping limit 0⟩, ?_, ?_⟩
    · intro bound s e u h he
      obtain ⟨rfl, -⟩ := halts_failHere.1 h
      cases he.misplaced
    · intro s e u h he
      obtain ⟨rfl, -⟩ := halts_failHere.1 h
      cases he.misplaced
  | succ n ih =>
    refine ⟨strictLevel_sound limit (n + 1), ⟨_, strictLevel_stopping limit (n + 1)⟩, ?_, ?_⟩
    · intro bound s e u h he hs
      have hopened : s.opened.depth + n = limit := by simp only [State.opened]; omega
      exact ⟨n, rfl, (guarded_completes ih he hopened (halts_openly.1 h)).opened⟩
    · intro s e u h he hs
      have hopened : s.opened.depth + n = limit := by simp only [State.opened]; omega
      exact (strictBlock_completes ih he hopened (halts_openly.1 h)).opened

/-! ### Programs -/

theorem program_completes (hs : s.depth = 0) (he : Early limit e u)
    (h : (strictProgram (strictLevel limit limit)).Halts s e u) :
    Interrupted e s u fun ts => ∃ xs, Derives limit (.statements xs) ts := by
  simp only [strictProgram, halts_bind, not_halts_pure, and_false, exists_false, or_false] at h
  have hlevels : s.depth + limit = limit := by omega
  exact (statementsUpTo_completes (strictLevel_completes limit limit) he hlevels h).mono
    fun _ h => h.1

end LetLang.Parser
