import LetLang.Proofs.Progress
import LetLang.Proofs.Simulation

/-! A block ends at its own brace.

How tokens are read does not depend on where they stand, so what is known of tokens in
source order (`blockBody_walks`) is so of all: the statements of a block leave no brace
open, and are read to a closing brace or to the end (`blockBody_closes`). Hence a block
is read to the brace that closes it, whatever is wrong with its body, and to the end if
there is none (`block_ends_at_brace`). -/
namespace LetLang

/-! ### Wherever tokens stand -/

/-- Tokens that say the same, wherever they stand. -/
def Likeness.anywhere : Likeness where
  token t t' := t.kind = t'.kind ∧ t.literal = t'.literal
  place _ _ := True

namespace Parser
open Token (Kind)

/-- Both runs have the same tokens ahead. -/
def Simulation.anywhere : Simulation where
  toLikeness := .anywhere
  toParting := .never
  states s s' := List.Forall₂ Likeness.anywhere.token s.ahead s'.ahead
  kind h := h.1
  fits h _ := by rw [Token.value, Token.value, h.2]
  start _ := trivial
  stop _ := trivial
  states_current := by
    intro s s' hs
    rw [State.current, State.current]
    generalize s.ahead = ts, s'.ahead = ts' at hs ⊢
    cases hs with
    | nil => exact ⟨rfl, rfl⟩
    | cons ht _ => exact ht
  states_lastEnd _ := trivial
  states_advance := by
    intro s s' hs
    rw [State.ahead_advance, State.ahead_advance]
    generalize s.ahead = ts, s'.ahead = ts' at hs ⊢
    cases hs with
    | nil => exact .nil
    | cons _ hts => exact hts

namespace Simulation

theorem anywhere_recovers : anywhere.Recovers where
  head? := by
    intro s s' (hs : List.Forall₂ _ s.ahead s'.ahead)
    generalize s.ahead = ts, s'.ahead = ts' at hs ⊢
    cases hs with
    | nil => exact .none
    | cons ht _ => exact .some ht
  report _ hs := hs
  synchronized := by
    intro s s' (hs : List.Forall₂ _ s.ahead s'.ahead)
    show List.Forall₂ _ s.synchronized.ahead s'.synchronized.ahead
    rw [State.ahead_synchronized, State.ahead_synchronized, anywhere.boundary_eq hs]
    exact List.forall₂_drop _ hs
  parted_recovering := False.elim

theorem anywhere_nests : anywhere.Nests where
  opened hs := hs
  closed hs := hs
  parted_nest := False.elim

end Simulation

/-- The tokens ahead, all of them moved to the end. -/
def State.gathered (s : State) : State :=
  { s with ahead := s.ahead.map fun t => { t with span := ⟨s.finish, s.finish⟩ } }

namespace State
variable (s : State)

theorem gathered_sorted : s.gathered.Sorted := by
  refine List.pairwise_of_forall_mem_list fun a ha b hb => Nat.le_of_eq ?_
  have hmem : ∀ n ∈ s.gathered.starts, n = s.finish.offset := by
    simp only [starts, gathered, List.map_map, List.mem_append, List.mem_map, List.mem_singleton]
    rintro n (⟨_, -, rfl⟩ | rfl)
    · rfl
    · rfl
  rw [hmem a ha, hmem b hb]

theorem states_gathered : Simulation.anywhere.states s s.gathered := by
  show List.Forall₂ _ s.ahead (s.ahead.map _)
  rw [List.forall₂_map_right_iff]
  exact List.forall₂_same.2 fun _ _ => ⟨rfl, rfl⟩

end State

/-! ### Braces -/

/-- Which braces are open depends on the kinds of the tokens. -/
theorem Simulation.depth?_eq (m : Simulation) {ts ts' : List Token}
    (h : List.Forall₂ m.token ts ts') (loose : Bool) (n : Nat) :
    depth? loose n ts = depth? loose n ts' := by
  induction h generalizing n with
  | nil => rfl
  | cons ht _ ih => simp only [depth?, m.kind ht, ih]

/-- The statements of a block leave no brace open, and are read to a closing brace or to the end. -/
theorem blockBody_closes (limit n : Nat) (s : State) :
    ∃ ss t ts k, (blockBody (level limit n)).run s = .ok ss t ∧ s.ahead = ts ++ t.ahead ∧
      depth? true 0 ts = some k ∧ (k = 0 ∨ t.ahead = []) ∧ blockEnds t.ahead.head? = true := by
  have hlevel := Simulation.anywhere_nests.level_holds Simulation.anywhere_recovers limit n
  have hsame := Simulation.anywhere_recovers.blockBody_holds hlevel s s.gathered s.states_gathered
  have hwalk := blockBody_walks (level_walks limit n) s.gathered_sorted
  have hforward := (blockBody (level limit n)).forward s
  obtain ⟨ss, t, ht⟩ := blockBody_succeeds (level limit n) s
  obtain ⟨ss', t', ht'⟩ := blockBody_succeeds (level limit n) s.gathered
  rw [ht, ht'] at hsame
  rw [ht'] at hwalk
  rw [ht] at hforward
  obtain ⟨ts, hts⟩ := hforward
  obtain ⟨⟨-, us, k, hus, hdepth, hk⟩, hend⟩ := hwalk
  obtain ⟨-, hstates⟩ | hfalse := hsame
  · have hstates : List.Forall₂ Simulation.anywhere.token t.ahead t'.ahead := hstates
    have hsplit : List.Forall₂ Simulation.anywhere.token (ts ++ t.ahead) (us ++ t'.ahead) :=
      hts ▸ hus ▸ s.states_gathered
    have hlength : ts.length = us.length := by
      have htotal := hsplit.length_eq
      rw [List.length_append, List.length_append, hstates.length_eq] at htotal
      omega
    have htaken := List.forall₂_take_append _ us t'.ahead hsplit
    rw [List.take_left' hlength] at htaken
    refine ⟨ss, t, ts, k, ht, hts.symm, ?_, ?_, ?_⟩
    · rw [Simulation.anywhere.depth?_eq htaken]
      exact hdepth
    · refine hk.imp_right fun hnil => ?_
      rw [hnil] at hstates
      exact List.forall₂_nil_right_iff.1 hstates
    · rw [Simulation.Recovers.blockEnds_eq (Simulation.anywhere_recovers.head? hstates)]
      exact hend
  · exact hfalse.elim

/-- The first token ahead is an opening brace, and `closing` closes it. -/
structure State.Encloses (s : State) (body : List Token) (closing : Token) (rest : List Token) :
    Prop where
  opens : s.current.kind = .openCurly
  ahead : s.advance.ahead = body ++ closing :: rest
  balanced : Balanced body
  closes : closing.kind = .closeCurly

namespace State.Encloses
variable {s : State} {body body' rest rest' : List Token} {closing closing' : Token}

theorem length_ahead (h : s.Encloses body closing rest) :
    s.ahead.length = body.length + 2 + rest.length := by
  have hpos := List.length_pos_iff.2 (State.ahead_ne_nil (s := s) (by simp [h.opens]))
  have hlength := congrArg List.length h.ahead
  rw [State.ahead_advance, List.length_tail, List.length_append, List.length_cons] at hlength
  omega

/-- A brace is closed by one token only. -/
theorem unique (h : s.Encloses body closing rest) (h' : s.Encloses body' closing' rest') :
    body = body' ∧ closing = closing' ∧ rest = rest' := by
  have heq := h.ahead.symm.trans h'.ahead
  have hend : blockEnds (closing' :: rest').head? = true := by simp [blockEnds, h'.closes]
  have hrest := body_of_balanced h.closes h.balanced heq h'.balanced (.inl rfl) hend
  obtain ⟨rfl, rfl⟩ := List.cons_eq_cons.1 hrest
  exact ⟨List.append_cancel_right heq, rfl, rfl⟩

end State.Encloses

/-- A block is read to the brace that closes it, or if there is none to the end. -/
theorem block_closes (limit n : Nat) {s : State} (ho : s.current.kind = .openCurly) :
    (∃ body closing rest ss t, s.Encloses body closing rest ∧ t.ahead = rest ∧
      (level limit (n + 1)).block.run s =
        .ok (.mk s.current ss ⟨s.current.start, closing.stop⟩) t) ∨
    (¬∃ body closing rest, s.Encloses body closing rest) ∧ ∃ t : State, t.ahead = [] ∧
      (level limit (n + 1)).block.run s =
        .error ⟨.unexpected .closeCurly .eof "", s.finish⟩ t := by
  obtain ⟨ss, t, ts, k, ht, hts, hdepth, hk, hend⟩ := blockBody_closes limit n s.opened.advance
  have hsteps := (blockBody (level limit n)).steps s.opened.advance
  have hblock := run_block (s := s.opened) ho ht
  rw [ht] at hsteps
  by_cases hc : t.current.kind = .closeCurly
  · rw [if_pos hc] at hblock
    obtain ⟨x, xs, hx⟩ := List.exists_cons_of_ne_nil (State.ahead_ne_nil (s := t) (by simp [hc]))
    have hcurrent : t.current = x := by rw [State.current, hx, List.headD_cons]
    have hbalanced : Balanced ts := by
      rw [Balanced, hdepth, hk.resolve_right (by simp [hx])]
    refine .inl ⟨ts, t.current, xs, ss, t.advance.closed, ⟨ho, ?_, hbalanced, hc⟩, ?_, ?_⟩
    · rw [hcurrent, ← hx]
      exact hts
    · rw [State.ahead_closed, State.ahead_advance, hx, List.tail_cons]
    · simp only [level, nest, hblock]
      rfl
  · rw [if_neg hc] at hblock
    have hnil := ahead_of_blockEnds hend hc
    refine .inr ⟨?_, t.closed, hnil, ?_⟩
    · rintro ⟨body, closing, rest, h⟩
      have hrest := body_of_balanced h.closes h.balanced (h.ahead.symm.trans hts) hdepth hk hend
      rw [hnil] at hrest
      cases hrest
    · have hfinish : t.finish = s.finish := hsteps.finish
      have hcurrent : t.current = .endOfInput s.finish := by
        rw [State.current, hnil, List.headD_nil, State.endToken, hfinish]
      rw [State.position, hcurrent] at hblock
      simp only [level, nest, hblock]
      rfl

/-- Whatever a careful run does not leave ahead was consumed, and nothing else. -/
theorem consumed_of_onward {α : Type} {s : State} {r : Result α} (h : Moves Onward s Anything r) :
    r.state.consumed + r.state.ahead.length = s.consumed + s.ahead.length := by
  have honward : ∀ {t : State}, Onward s t →
      t.consumed + t.ahead.length = s.consumed + s.ahead.length := by
    rintro t ⟨n, hn⟩
    rw [hn.consumed, hn.length_ahead, Nat.add_assoc]
  cases r with
  | ok a t => exact honward h.1
  | error d t => exact honward (t := t.report d) h

/-- A block whose opening brace is closed is read to just behind the closing one, whatever is wrong
in between. Every other block is read to the end, where its closing brace is missed. -/
theorem block_ends_at_brace (s : State) (ho : s.current.kind = .openCurly)
    (hd : s.depth < maxNesting) :
    (∀ body closing rest, s.Encloses body closing rest → ∃ ss t,
      (within maxNesting Level.block).run s =
        .ok (.mk s.current ss ⟨s.current.start, closing.stop⟩) t ∧
      t.ahead = rest ∧ t.consumed = s.consumed + (body.length + 2)) ∧
    ((¬∃ body closing rest, s.Encloses body closing rest) → ∃ t,
      (within maxNesting Level.block).run s =
        .error ⟨.unexpected .closeCurly .eof "", s.finish⟩ t ∧
      t.ahead = [] ∧ t.consumed = s.consumed + s.ahead.length) := by
  obtain ⟨n, hn⟩ : ∃ n, maxNesting - s.depth = n + 1 := ⟨maxNesting - s.depth - 1, by omega⟩
  have hlevel : (within maxNesting Level.block).run s =
      (level maxNesting (n + 1)).block.run s := hn ▸ rfl
  have hconsumed := consumed_of_onward ((level_careful maxNesting (n + 1)).block s s (.refl s))
  rw [hlevel]
  rcases block_closes maxNesting n ho with
    ⟨body, closing, rest, ss, t, h, hrest, hrun⟩ | ⟨hnone, t, hnil, hrun⟩
  · rw [hrun] at hconsumed ⊢
    refine ⟨fun body' closing' rest' h' => ?_, fun hnone => absurd ⟨body, closing, rest, h⟩ hnone⟩
    obtain ⟨rfl, rfl, rfl⟩ := h.unique h'
    refine ⟨ss, t, rfl, hrest, ?_⟩
    rw [Result.state, hrest, h.length_ahead] at hconsumed
    omega
  · rw [hrun] at hconsumed ⊢
    refine ⟨fun body closing rest h => absurd ⟨body, closing, rest, h⟩ hnone, fun _ => ?_⟩
    refine ⟨t, rfl, hnil, ?_⟩
    simpa [Result.state, hnil] using hconsumed

/-- In the last level that may be opened a body is read past all that is refused in it. -/
theorem refused_body_ends_at_brace :
    let s : State := { State.ofSource ⟨"shell", "\x7b let = 1; if (a) \x7b @ ) \x7d else \x7b \x7d \x7d b"⟩ with
      depth := 255 }
    ∃ ss t, (within maxNesting Level.block).run s =
        .ok (.mk s.current ss ⟨⟨0, "shell"⟩, ⟨36, "shell"⟩⟩) t ∧
      t.ahead.map Token.literal = ["b"] ∧ t.consumed = 17 := by
  intro s
  have henclosed : s.Encloses (s.advance.ahead.take 15) ⟨.closeCurly, "\x7d",
      ⟨⟨35, "shell"⟩, ⟨36, "shell"⟩⟩⟩ (s.advance.ahead.drop 16) := by
    constructor <;> decide +kernel
  obtain ⟨ss, t, hrun, hrest, hconsumed⟩ :=
    (block_ends_at_brace s henclosed.opens (by decide)).1 _ _ _ henclosed
  have hstart : s.current.start = ⟨0, "shell"⟩ := by decide +kernel
  refine ⟨ss, t, hstart ▸ hrun, ?_, ?_⟩
  · rw [hrest]
    decide +kernel
  · rw [hconsumed]
    decide +kernel

end Parser
end LetLang
