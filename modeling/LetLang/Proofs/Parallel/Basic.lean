import LetLang.Proofs.Redraw
import LetLang.Proofs.Walk.Constructs

/-! Two runs side by side.

A `Matching` says how the tokens of one run go with the tokens of another: each
token with one of the same kind and text in another place, except that a block
may go with an empty one. The two runs then stay together (`Aligned`, and once a
token was consumed `Related`), and come to the same result drawn in another place
(`Agree`): the same trees, except in the blocks that are empty on one side, and
the same diagnostics, except for those that are hidden, as those about such a
block's body are. -/
namespace LetLang.Parser
open Token (Kind)

structure Matching where
  redraw : Redraw
  /-- No diagnostic about such a place is looked at. -/
  hides : Position → Bool
  /-- Where the first run's tokens end. -/
  finish : Position
  /-- What the first run has reported before it comes to these tokens. -/
  earlier : List Diagnostic
  /-- And what the second run has. -/
  earlier' : List Diagnostic
  streams : List Token → List Token → Prop
  empties_open : ∀ {x}, redraw.empties x = true → x.kind = .openCurly
  hides_finish : hides finish = false
  nil : ∀ {us}, streams [] us → us = []
  cons : ∀ {x ts us}, streams (x :: ts) us → redraw.empties x = false →
    hides x.start = false ∧ ∃ vs, us = redraw.token x :: vs ∧ streams ts vs
  emptied : ∀ {x ts us}, streams (x :: ts) us → redraw.empties x = true →
    hides x.start = false ∧ ∃ body closing rest vs,
      ts = body ++ closing :: rest ∧ Balanced body ∧ closing.kind = .closeCurly ∧
      us = redraw.token x :: redraw.token closing :: vs ∧ streams rest vs ∧
      ∀ y ∈ (body ++ [closing]).head?, ∀ p : Position,
        y.start.offset ≤ p.offset → p.offset ≤ closing.start.offset → hides p = true

namespace Matching
variable (m : Matching)

/-- The diagnostics that are looked at, where they are in the second run. -/
def diagnostics (ds : List Diagnostic) : List Diagnostic :=
  (ds.filter fun d => !m.hides d.position).map m.redraw.diagnostic

/-- Both runs stand at the same place. -/
structure Aligned (s t : State) : Prop where
  sorted : s.Sorted
  ahead : m.streams s.ahead t.ahead
  finish : s.finish = m.finish
  finish' : t.finish = m.redraw.move m.finish
  reported : ∃ ds, s.reported.toList = m.earlier ++ ds ∧
    t.reported.toList = m.earlier' ++ m.diagnostics ds

/-- Besides, both have consumed the same token last. -/
structure Related (s t : State) : Prop extends Aligned m s t where
  lastEnd : t.lastEnd = m.redraw.move s.lastEnd

variable {m} {s t : State}

theorem Aligned.current (h : m.Aligned s t) :
    t.current = m.redraw.token s.current ∧ m.hides s.current.start = false := by
  have hstreams := h.ahead
  cases hs : s.ahead with
  | nil =>
    rw [hs] at hstreams
    have ht := m.nil hstreams
    have hsc : s.current = .endOfInput m.finish := by
      simp [State.current, hs, State.endToken, h.finish]
    have htc : t.current = .endOfInput (m.redraw.move m.finish) := by
      simp [State.current, ht, State.endToken, h.finish']
    rw [hsc, htc]
    exact ⟨rfl, m.hides_finish⟩
  | cons x ts =>
    rw [hs] at hstreams
    have hsc : s.current = x := by simp [State.current, hs]
    rw [hsc]
    by_cases he : m.redraw.empties x = true
    · obtain ⟨hvisible, body, closing, rest, vs, -, -, -, hus, -⟩ := m.emptied hstreams he
      exact ⟨by simp [State.current, hus], hvisible⟩
    · obtain ⟨hvisible, vs, hus, -⟩ := m.cons hstreams (by simpa using he)
      exact ⟨by simp [State.current, hus], hvisible⟩

theorem Aligned.kind (h : m.Aligned s t) : t.current.kind = s.current.kind := by
  rw [h.current.1]
  rfl

theorem Aligned.head? (h : m.Aligned s t) : t.ahead.head? = s.ahead.head?.map m.redraw.token := by
  have hstreams := h.ahead
  cases hs : s.ahead with
  | nil =>
    rw [hs] at hstreams
    rw [m.nil hstreams]
    rfl
  | cons x ts =>
    rw [hs] at hstreams
    by_cases he : m.redraw.empties x = true
    · obtain ⟨-, body, closing, rest, vs, -, -, -, hus, -⟩ := m.emptied hstreams he
      rw [hus]
      rfl
    · obtain ⟨-, vs, hus, -⟩ := m.cons hstreams (by simpa using he)
      rw [hus]
      rfl

/-- Both runs consume a token, unless a block is emptied there. -/
theorem Aligned.advance (h : m.Aligned s t) (he : m.redraw.empties s.current = false) :
    m.Related s.advance t.advance := by
  have hstreams := h.ahead
  have hcurrent := h.current.1
  have hlast : t.current.stop = m.redraw.move s.current.stop := by
    rw [hcurrent]
    rfl
  refine ⟨⟨h.sorted.advance.1, ?_, h.finish, h.finish', h.reported⟩, hlast⟩
  cases hs : s.ahead with
  | nil =>
    rw [hs] at hstreams
    have ht := m.nil hstreams
    simp only [State.ahead_advance, hs, ht, List.tail_nil]
    rwa [ht] at hstreams
  | cons x ts =>
    rw [hs] at hstreams
    obtain ⟨-, vs, hus, hrest⟩ := m.cons hstreams (by simpa [State.current, hs] using he)
    simpa [hs, hus] using hrest

theorem not_empties {x : Token} (h : x.kind ≠ .openCurly) : m.redraw.empties x = false := by
  cases he : m.redraw.empties x with
  | false => rfl
  | true => exact absurd (m.empties_open he) h

theorem Aligned.report {d : Diagnostic} (h : m.Aligned s t) (hd : m.hides d.position = false) :
    m.Aligned (s.report d) (t.report (m.redraw.diagnostic d)) := by
  obtain ⟨ds, hs, ht⟩ := h.reported
  refine ⟨h.sorted, h.ahead, h.finish, h.finish', ds ++ [d], ?_, ?_⟩
  · simp [State.report, hs]
  · simp [State.report, ht, diagnostics, hd]

theorem Aligned.opened (h : m.Aligned s t) : m.Aligned s.opened t.opened :=
  ⟨h.sorted, h.ahead, h.finish, h.finish', h.reported⟩

theorem Aligned.closed (h : m.Aligned s t) : m.Aligned s.closed t.closed :=
  ⟨h.sorted, h.ahead, h.finish, h.finish', h.reported⟩

theorem Related.closed (h : m.Related s t) : m.Related s.closed t.closed :=
  ⟨h.toAligned.closed, h.lastEnd⟩

/-! ### Recovery -/

/-- The search for a boundary goes on or stops by the kind of the token. -/
theorem boundary_cons (n : Nat) (kind : Kind) :
    (∃ k ≤ 1, ∀ x ts, Token.kind x = kind → boundary n (x :: ts) = k) ∨
      ∃ k, ∀ x ts, Token.kind x = kind → boundary n (x :: ts) = boundary k ts + 1 := by
  cases n with
  | zero =>
    by_cases hs : kind = .semicolon
    · exact .inl ⟨1, Nat.le_refl _, fun x ts hx => by simp [boundary, hx, hs]⟩
    · by_cases hc : kind = .closeCurly
      · exact .inl ⟨0, Nat.zero_le _, fun x ts hx => by simp [boundary, hx, hc]⟩
      · by_cases ho : kind = .openCurly
        · exact .inr ⟨1, fun x ts hx => by simp [boundary, hx, ho]⟩
        · refine .inr ⟨0, fun x ts hx => ?_⟩
          subst hx
          rw [boundary]
          split <;> first | contradiction | rfl
  | succ n =>
    by_cases hc : kind = .closeCurly
    · exact .inr ⟨n, fun x ts hx => by simp [boundary, hx, hc]⟩
    · by_cases ho : kind = .openCurly
      · exact .inr ⟨n + 2, fun x ts hx => by simp [boundary, hx, ho]⟩
      · refine .inr ⟨n + 1, fun x ts hx => ?_⟩
        subst hx
        rw [boundary]
        split <;> first | contradiction | rfl

theorem advanceBy_add (s : State) (j k : Nat) :
    s.advanceBy (j + k) = (s.advanceBy j).advanceBy k := by
  induction j generalizing s with
  | zero => rw [Nat.zero_add, State.advanceBy]
  | succ j ih => rw [Nat.add_right_comm, State.advanceBy, ih, State.advanceBy]

theorem sorted_advanceBy (h : s.Sorted) (n : Nat) : (s.advanceBy n).Sorted :=
  ((Orderly.refl h).advanceBy n).sorted

theorem finish_advanceBy (s : State) (n : Nat) :
    (s.advanceBy n).finish = s.finish ∧ (s.advanceBy n).reported = s.reported := by
  induction n generalizing s with
  | zero => exact ⟨rfl, rfl⟩
  | succ n ih => exact ih s.advance

/-- Past a block that is emptied, body and all. -/
theorem Aligned.past (h : m.Aligned s t) {x closing : Token} {body rest vs : List Token}
    (hs : s.ahead = x :: (body ++ closing :: rest))
    (ht : t.ahead = m.redraw.token x :: m.redraw.token closing :: vs)
    (hrest : m.streams rest vs) :
    m.Aligned (s.advanceBy (body.length + 2)) (t.advanceBy 2) := by
  have hsf := finish_advanceBy s (body.length + 2)
  have htf := finish_advanceBy t 2
  refine ⟨sorted_advanceBy h.sorted _, ?_, hsf.1.trans h.finish, htf.1.trans h.finish',
    by rw [hsf.2, htf.2]; exact h.reported⟩
  have hdrop : (x :: (body ++ closing :: rest)).drop (body.length + 2) = rest := by
    simp [List.drop_append]
  rw [State.ahead_advanceBy, State.ahead_advanceBy, hs, ht, hdrop]
  exact hrest

theorem boundary_open (n : Nat) {x : Token} (hx : x.kind = .openCurly) (ts : List Token) :
    boundary n (x :: ts) = boundary (n + 1) ts + 1 := by
  cases n <;> simp [boundary, hx]

/-- Both runs come to the same boundary. -/
theorem Aligned.boundary {s t : State} (h : m.Aligned s t) (n : Nat) :
    m.Aligned (s.advanceBy (boundary n s.ahead)) (t.advanceBy (boundary n t.ahead)) := by
  have hstreams := h.ahead
  cases hs : s.ahead with
  | nil =>
    rw [hs] at hstreams
    rw [m.nil hstreams, Parser.boundary.eq_1]
    exact h
  | cons x ts =>
    rw [hs] at hstreams
    by_cases he : m.redraw.empties x = true
    · obtain ⟨-, body, closing, rest, vs, rfl, hb, hc, hus, hrest, -⟩ := m.emptied hstreams he
      have hx := m.empties_open he
      have hpast := h.past hs hus hrest
      have hsa : (s.advanceBy (body.length + 2)).ahead = rest := by
        simp [State.ahead_advanceBy, hs, List.drop_append]
      have hta : (t.advanceBy 2).ahead = vs := by simp [State.ahead_advanceBy, hus]
      have hsb : Parser.boundary n (x :: (body ++ closing :: rest)) =
          body.length + 2 + Parser.boundary n rest := by
        have hm : Parser.boundary (0 + n + 1) (body ++ closing :: rest) = _ := boundary_matched hc hb
        rw [Nat.zero_add] at hm
        rw [boundary_open n hx, hm]
        omega
      have htb : Parser.boundary n t.ahead = 2 + Parser.boundary n vs := by
        rw [hus, boundary_open n (by rwa [Redraw.kind_token]), Parser.boundary.eq_def]
        simp only [Redraw.kind_token, hc]
        omega
      have ih := Aligned.boundary hpast n
      rw [hsa, hta, ← advanceBy_add, ← advanceBy_add] at ih
      rw [hsb, htb]
      exact ih
    · have he : m.redraw.empties x = false := by simpa using he
      obtain ⟨-, vs, hus, hrest⟩ := m.cons hstreams he
      have hcurrent : s.current = x := by simp [State.current, hs]
      have hnext := h.advance (hcurrent ▸ he)
      rcases boundary_cons n x.kind with ⟨k, hk, hb⟩ | ⟨k, hb⟩
      · rw [hus, hb x ts rfl, hb (m.redraw.token x) vs rfl]
        have : k = 0 ∨ k = 1 := by omega
        rcases this with rfl | rfl
        · exact h
        · exact hnext.toAligned
      · have ih := Aligned.boundary hnext.toAligned k
        rw [State.ahead_advance, State.ahead_advance, hs, hus] at ih
        rw [hus, hb x ts rfl, hb (m.redraw.token x) vs rfl]
        exact ih
termination_by s.ahead.length
decreasing_by
  all_goals
    simp only [State.ahead_advanceBy, State.ahead_advance, hs, List.length_drop, List.length_tail,
      List.length_cons]
    omega

/-! ### Results -/

variable {α β : Type} {R R' : State → State → Prop} {V : α → α → Prop} {W : β → β → Prop}

/-- Both runs found something, and what they found goes together; or both made the same mistake, at
a place that is looked at. In the first case `R` holds of where they stand. -/
def Agree (m : Matching) (R : State → State → Prop) (V : α → α → Prop) : Result α → Result α → Prop
  | .ok a s, .ok b t => V a b ∧ R s t
  | .error d s, .error e t =>
    m.hides d.position = false ∧ e = m.redraw.diagnostic d ∧ m.Aligned s t
  | _, _ => False

/-- Two runs that agree are of the same kind. -/
theorem Agree.cases {r r' : Result α} (h : m.Agree R V r r') :
    (∃ a b s t, r = .ok a s ∧ r' = .ok b t ∧ V a b ∧ R s t) ∨
      ∃ d s t, r = .error d s ∧ r' = .error (m.redraw.diagnostic d) t ∧
        m.hides d.position = false ∧ m.Aligned s t := by
  cases r with
  | ok a s =>
    cases r' with
    | ok b t => exact .inl ⟨a, b, s, t, rfl, rfl, h⟩
    | error e t => exact h.elim
  | error d s =>
    cases r' with
    | ok b t => exact h.elim
    | error e t =>
      obtain ⟨hd, rfl, haligned⟩ := h
      exact .inr ⟨d, s, t, rfl, rfl, hd, haligned⟩

theorem Agree.mono {V' : α → α → Prop} {r r' : Result α} (h : m.Agree R V r r')
    (hR : ∀ s t, R s t → R' s t) (hV : ∀ a b, V a b → V' a b) : m.Agree R' V' r r' := by
  rcases h.cases with ⟨a, b, s, t, rfl, rfl, hv, hr⟩ | ⟨d, s, t, rfl, rfl, hd, haligned⟩
  · exact ⟨hV a b hv, hR s t hr⟩
  · exact ⟨hd, rfl, haligned⟩

theorem agree_bind {p q : Parser α} {f g : α → Parser β} (h : m.Agree R V (p.run s) (q.run t))
    (hf : ∀ a b s t, V a b → R s t → m.Agree R' W ((f a).run s) ((g b).run t)) :
    m.Agree R' W ((p >>= f).run s) ((q >>= g).run t) := by
  rw [run_bind, run_bind]
  rcases h.cases with ⟨a, b, s', t', hp, hq, hv, hr⟩ | ⟨d, s', t', hp, hq, hd, haligned⟩
  · rw [hp, hq]
    exact hf a b s' t' hv hr
  · rw [hp, hq]
    exact ⟨hd, rfl, haligned⟩

theorem agree_pure {a b : α} (hv : V a b) (h : R s t) :
    m.Agree R V ((pure a : Parser α).run s) ((pure b : Parser α).run t) := ⟨hv, h⟩

/-- The value of the second run is that of the first, drawn again. -/
def Drawn (f : α → α) (a b : α) : Prop := b = f a

/-- Besides, it begins at a place that is looked at. -/
def DrawnToken (m : Matching) (x y : Token) : Prop :=
  y = m.redraw.token x ∧ m.hides x.start = false

theorem agree_failHere {problem : Problem} (h : m.Aligned s t) :
    m.Agree R V ((failHere problem : Parser α).run s) ((failHere problem : Parser α).run t) := by
  obtain ⟨hcurrent, hvisible⟩ := h.current
  refine ⟨hvisible, ?_, h⟩
  simp only [hcurrent]
  rfl

theorem agree_advance (h : m.Aligned s t) (he : s.current.kind ≠ .openCurly) :
    m.Agree m.Related m.DrawnToken (advance.run s) (advance.run t) :=
  ⟨h.current, h.advance (not_empties he)⟩

theorem agree_lastEnd (h : m.Related s t) :
    m.Agree m.Related (Drawn m.redraw.move) (lastEnd.run s) (lastEnd.run t) := ⟨h.lastEnd, h⟩

theorem agree_expect {kind : Kind} (h : m.Aligned s t)
    (he : s.current.kind = kind → m.redraw.empties s.current = false) :
    m.Agree m.Related (fun x y => m.DrawnToken x y ∧ m.redraw.empties x = false)
      ((expect kind).run s) ((expect kind).run t) := by
  obtain ⟨hcurrent, hvisible⟩ := h.current
  rw [run_expect, run_expect, h.kind]
  by_cases hk : s.current.kind = kind
  · rw [if_pos hk, if_pos hk]
    exact ⟨⟨⟨hcurrent, hvisible⟩, he hk⟩, h.advance (he hk)⟩
  · rw [if_neg hk, if_neg hk]
    refine ⟨hvisible, ?_, h⟩
    simp only [State.position, hcurrent]
    rfl

theorem agree_expect_plain {kind : Kind} (h : m.Aligned s t) (hk : kind ≠ .openCurly) :
    m.Agree m.Related m.DrawnToken ((expect kind).run s) ((expect kind).run t) :=
  (agree_expect h fun hs => not_empties (hs ▸ hk)).mono (fun _ _ h => h) fun _ _ hv => hv.1

/-- If there is nothing to skip, the runs stand as they did. -/
theorem agree_skip {kind : Kind} (h : m.Aligned s t) (hR : R s t)
    (hadvance : m.Related s.advance t.advance → R s.advance t.advance) (hk : kind ≠ .openCurly) :
    m.Agree R Eq ((skip kind).run s) ((skip kind).run t) := by
  rw [run_skip, run_skip, h.kind]
  by_cases hs : s.current.kind = kind
  · rw [if_pos hs, if_pos hs]
    exact ⟨rfl, hadvance (h.advance (not_empties (hs ▸ hk)))⟩
  · rw [if_neg hs, if_neg hs]
    exact ⟨rfl, hR⟩

theorem Related.agree_skip {kind : Kind} (h : m.Related s t) (hk : kind ≠ .openCurly) :
    m.Agree m.Related Eq ((skip kind).run s) ((skip kind).run t) :=
  Matching.agree_skip h.toAligned h (fun h => h) hk

/-! ### Loops, recovery and nesting -/

theorem agree_many {p : Parser (Option α)} {hp : p.Advances} {f : α → α} {s t : State}
    (step : ∀ s t, R s t → m.Agree R (Drawn (Option.map f)) (p.run s) (p.run t)) (h : R s t) :
    m.Agree R (Drawn (List.map f)) ((many p hp).run s) ((many p hp).run t) := by
  rw [many_eq, run_bind, run_bind]
  rcases (step s t h).cases with ⟨found, _, s', t', hs, ht, rfl, hR⟩ | ⟨d, s', t', hs, ht, hd⟩
  · rw [hs, ht]
    cases found with
    | none => exact ⟨rfl, hR⟩
    | some a =>
      refine agree_bind (agree_many step hR) fun as bs s t has hR => ?_
      rw [Drawn] at has
      exact agree_pure (by rw [has]; rfl) hR
  · rw [hs, ht]
    exact ⟨hd.1, rfl, hd.2⟩
termination_by s.ahead.length
decreasing_by exact hp s a s' hs

theorem agree_iterate {f : α → Parser (Option α)} {hf : ∀ a, (f a).Advances} {a b : α} {s t : State}
    (step : ∀ a b s t, V a b → R s t → m.Agree R (Option.Rel V) ((f a).run s) ((f b).run t))
    (hv : V a b) (h : R s t) :
    m.Agree R V ((iterate f hf a).run s) ((iterate f hf b).run t) := by
  rw [iterate_eq, iterate_eq, run_bind, run_bind]
  rcases (step a b s t hv h).cases with ⟨found, found', s', t', hs, ht, hfound, hR⟩ |
    ⟨d, s', t', hs, ht, hd⟩
  · rw [hs, ht]
    cases hfound with
    | none => exact ⟨hv, hR⟩
    | some hv' => exact agree_iterate step hv' hR
  · rw [hs, ht]
    exact ⟨hd.1, rfl, hd.2⟩
termination_by s.ahead.length
decreasing_by exact hf a s _ s' hs

theorem agree_recovering {p : Parser α} {resume : Parser Unit} {f : α → α}
    (h : m.Agree m.Aligned (Drawn f) (p.run s) (p.run t))
    (hr : ∀ s t, m.Aligned s t → m.Agree m.Aligned Eq (resume.run s) (resume.run t)) :
    m.Agree m.Aligned (Drawn (Option.map f)) ((recovering p resume).run s)
      ((recovering p resume).run t) := by
  rw [run_recovering, run_recovering]
  rcases h.cases with ⟨a, _, s', t', hs, ht, rfl, haligned⟩ | ⟨d, s', t', hs, ht, hd, haligned⟩
  · rw [hs, ht]
    exact ⟨rfl, haligned⟩
  · rw [hs, ht]
    have hresume := hr _ _ (haligned.report hd)
    rcases hresume.cases with ⟨_, _, u, v, hu, hv, -, haligned'⟩ | ⟨e, u, v, hu, hv, he, haligned'⟩
    · simp only [hu, hv]
      exact ⟨rfl, haligned'⟩
    · simp only [hu, hv]
      exact ⟨he, rfl, haligned'⟩

theorem agree_nest {p : Parser α} (h : m.Agree m.Related V (p.run s.opened) (p.run t.opened)) :
    m.Agree m.Related V ((nest p).run s) ((nest p).run t) := by
  simp only [nest]
  rcases h.cases with ⟨a, b, s', t', hs, ht, hv, hrelated⟩ | ⟨d, s', t', hs, ht, hd, haligned⟩
  · rw [hs, ht]
    exact ⟨hv, hrelated.closed⟩
  · rw [hs, ht]
    exact ⟨hd, rfl, haligned.closed⟩

end Matching
end LetLang.Parser
