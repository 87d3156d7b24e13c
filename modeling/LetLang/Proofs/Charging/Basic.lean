import Mathlib.Data.List.Perm.Subperm
import LetLang.Parser.Traced
import LetLang.Tree.Statements

/-! Every mistake and every statement is paid for with a token of its own.

The calls for a statement that a run makes start at different tokens, which the run
consumes before it ends (`Apart`). Only they report anything, each failed call one
mistake, and what the run consumes is enough for its mistakes and for the statements
of what it found (`Charged`). Where a call fails its tree is lost, but the calls made
on the way, and the call itself, stand at so many tokens (`Apart.length_le`). -/
namespace LetLang.Parser
open Token (Kind)

/-! ### Calls -/

/-- The calls start at different tokens, each at least `first` tokens behind the one that `s`
stands at and before the index `stop`. -/
structure Apart (s : State) (first stop : Nat) (l : List Call) : Prop where
  reach : ∀ c ∈ l, s.Steps c.start ∧ c.start.ahead ≠ []
  behind : ∀ c ∈ l, s.consumed + first ≤ c.index
  before : ∀ c ∈ l, c.index < stop
  nodup : (l.map Call.index).Nodup

namespace Apart
variable {s t : State} {first first' stop stop' : Nat} {l l' : List Call}

theorem nil (s : State) (first stop : Nat) : Apart s first stop [] :=
  ⟨by simp, by simp, by simp, List.nodup_nil⟩

theorem mono (h : Apart s first stop l) (hf : first' ≤ first) (hs : stop ≤ stop') :
    Apart s first' stop' l where
  reach := h.reach
  behind c hc := Nat.le_trans (Nat.add_le_add_left hf _) (h.behind c hc)
  before c hc := Nat.lt_of_lt_of_le (h.before c hc) hs
  nodup := h.nodup

/-- The calls of a run and of one that goes on where it ends. -/
theorem append (h : Apart s first t.consumed l) (h' : Apart t first' stop l') (hst : s.Steps t)
    (hf : s.consumed + first ≤ t.consumed + first') (hs : t.consumed ≤ stop) :
    Apart s first stop (l ++ l') where
  reach := by
    refine List.forall_mem_append.2 ⟨h.reach, fun c hc => ?_⟩
    exact ⟨hst.trans (h'.reach c hc).1, (h'.reach c hc).2⟩
  behind := List.forall_mem_append.2 ⟨h.behind, fun c hc => Nat.le_trans hf (h'.behind c hc)⟩
  before := List.forall_mem_append.2 ⟨fun c hc => Nat.lt_of_lt_of_le (h.before c hc) hs, h'.before⟩
  nodup := by
    rw [List.map_append, List.nodup_append]
    refine ⟨h.nodup, h'.nodup, fun i hi j hj => ?_⟩
    obtain ⟨c, hc, rfl⟩ := List.mem_map.1 hi
    obtain ⟨d, hd, rfl⟩ := List.mem_map.1 hj
    have hlt := h.before c hc
    have hle := h'.behind d hd
    omega

/-- A call stands before all that are made on its way. -/
theorem concat (h : Apart s 1 stop l) {c : Call} (hc : c.start = s) (hs : s.ahead ≠ [])
    (hstop : s.consumed < stop) : Apart s 0 stop (l ++ [c]) := by
  have hindex : c.index = s.consumed := congrArg State.consumed hc
  refine ⟨?_, ?_, ?_, ?_⟩
  · refine List.forall_mem_append.2 ⟨h.reach, List.forall_mem_singleton.2 ?_⟩
    rw [hc]
    exact ⟨.refl s, hs⟩
  · refine List.forall_mem_append.2 ⟨fun d hd => ?_, List.forall_mem_singleton.2 ?_⟩
    · exact Nat.le_of_succ_le (h.behind d hd)
    · exact Nat.le_of_eq hindex.symm
  · refine List.forall_mem_append.2 ⟨h.before, List.forall_mem_singleton.2 ?_⟩
    exact hindex ▸ hstop
  · rw [List.map_append, List.nodup_append]
    refine ⟨h.nodup, List.pairwise_singleton .., fun i hi j hj => ?_⟩
    obtain ⟨d, hd, rfl⟩ := List.mem_map.1 hi
    have hle := h.behind d hd
    rw [List.mem_singleton.1 hj, hindex]
    omega

/-- There are no more calls than tokens that they may start at. -/
theorem length_le (h : Apart s first stop l) : l.length ≤ stop - (s.consumed + first) := by
  have hsub : l.map Call.index ⊆
      List.range' (s.consumed + first) (stop - (s.consumed + first)) := by
    intro i hi
    obtain ⟨c, hc, rfl⟩ := List.mem_map.1 hi
    have hle := h.behind c hc
    have hlt := h.before c hc
    rw [List.mem_range'_1]
    omega
  simpa using (List.subperm_of_subset h.nodup hsub).length_le

end Apart

/-! ### Runs -/

/-- The mistakes of the calls that fail. -/
def mistakes (l : List Call) : List Diagnostic := l.filterMap Call.mistake

theorem mistakes_append (l l' : List Call) : mistakes (l ++ l') = mistakes l ++ mistakes l' :=
  List.filterMap_append

/-- A run from `s` that makes the calls `l`: it reports their mistakes and nothing else, and with
`paid` statements paid for already the tokens that it consumes pay for its mistakes and for what it
finds, which costs `cost`. -/
structure Charged {α : Type} (first paid : Nat) (cost : α → Nat) (s : State) (l : List Call)
    (r : Result α) : Prop where
  apart : Apart s first r.state.consumed l
  reports : r.state.reported.toList = s.reported.toList ++ mistakes l
  pays : ∀ a t, r = .ok a t → s.consumed + cost a + (mistakes l).length ≤ t.consumed + paid

variable {α β : Type} {first first' paid : Nat} {cost : α → Nat} {cost' : β → Nat}

namespace Charged
variable {s t : State} {l l' : List Call}

/-- A run that makes no calls. -/
theorem quiet {r : Result α} (hr : r.state.reported = s.reported)
    (hp : ∀ a t, r = .ok a t → s.consumed + cost a ≤ t.consumed + paid) :
    Charged first paid cost s [] r where
  apart := .nil ..
  reports := by rw [hr]; exact (List.append_nil _).symm
  pays := hp

/-- What was paid for at the start is paid for where the run ends. -/
theorem frame {r : Result α} (h : Charged first 0 cost s l r) (n : Nat) :
    Charged first n (fun a => n + cost a) s l r where
  apart := h.apart
  reports := h.reports
  pays a t hr := by
    have hp := h.pays a t hr
    omega

theorem error {d : Diagnostic} (h : Charged first paid cost s l (.error d t)) :
    Charged first paid cost' s l (.error d t) where
  apart := h.apart
  reports := h.reports
  pays _ _ hr := by cases hr

/-- A run goes on with what another one found and paid for. -/
theorem trans {a : α} {r : Result β} (h : Charged first paid cost s l (.ok a t))
    (h' : Charged first' (cost a) cost' t l' r) (hst : s.Steps t) (hr : t.Steps r.state)
    (hf : s.consumed + first ≤ t.consumed + first') : Charged first paid cost' s (l ++ l') r where
  apart := h.apart.append h'.apart hst hf hr.consumed_le
  reports := by
    have hl : t.reported.toList = s.reported.toList ++ mistakes l := h.reports
    rw [h'.reports, hl, mistakes_append, List.append_assoc]
  pays b u hu := by
    have hp := h.pays a t rfl
    have hp' := h'.pays b u hu
    rw [mistakes_append, List.length_append]
    omega

variable {c : Call}

/-- A call that comes back with what it was made for. -/
theorem call {a : α} (h : Charged 1 0 cost s l (.ok a t)) (hc : c.start = s) (hs : s.ahead ≠ [])
    (hlt : s.consumed < t.consumed) (hm : c.mistake = none) :
    Charged 0 0 (fun x => x.elim 0 cost) s (l ++ [c]) (.ok (some a) t) := by
  have hown : mistakes (l ++ [c]) = mistakes l := by simp [mistakes, hm]
  refine ⟨h.apart.concat hc hs hlt, ?_, ?_⟩
  · rw [hown]
    exact h.reports
  · intro x u hu
    cases hu
    rw [hown]
    exact h.pays a t rfl

/-- A call that failed: nothing was found, and every mistake has a call and so a token. -/
theorem failedCall {d : Diagnostic} {u : State} (h : Charged 1 0 cost s l (.error d t))
    (hc : c.start = s) (hs : s.ahead ≠ []) (hlt : s.consumed < u.consumed)
    (hm : c.mistake = some d) (htu : (t.report d).Steps u)
    (hr : u.reported = (t.report d).reported) :
    Charged 0 0 (fun x => x.elim 0 cost) s (l ++ [c]) (.ok none u) := by
  have hapart : Apart s 0 u.consumed (l ++ [c]) :=
    (h.apart.mono (Nat.le_refl 1) htu.consumed_le).concat hc hs hlt
  refine ⟨hapart, ?_, ?_⟩
  · have hl : t.reported.toList = s.reported.toList ++ mistakes l := h.reports
    show u.reported.toList = _
    rw [hr, State.report, Array.toList_push, hl, List.append_assoc]
    simp [mistakes, hm]
  · intro x v hv
    cases hv
    have hcalls := hapart.length_le
    have hmistakes : (mistakes (l ++ [c])).length ≤ (l ++ [c]).length :=
      List.length_filterMap_le ..
    show s.consumed + 0 + _ ≤ u.consumed + 0
    omega

end Charged

/-! ### Traced parsers -/

namespace Traced

def ChargesAt (first paid : Nat) (cost : α → Nat) (x : Traced α) (s : State) : Prop :=
  Charged first paid cost s (x.calls s) (x.parser.run s)

def Charges (first paid : Nat) (cost : α → Nat) (x : Traced α) : Prop :=
  ∀ s, x.ChargesAt first paid cost s

variable {x : Traced α} {f : α → Traced β} {s : State}

/-- The second parser may start its calls elsewhere than the first one, but no earlier. -/
theorem chargesAt_andThen (hx : x.ChargesAt first paid cost s)
    (hfirst : ∀ a t, x.parser.run s = .ok a t → s.consumed + first ≤ t.consumed + first')
    (hf : ∀ a t, x.parser.run s = .ok a t → (f a).ChargesAt first' (cost a) cost' t) :
    (x >>= f).ChargesAt first paid cost' s := by
  have hsteps := x.parser.steps s
  rw [ChargesAt] at hx ⊢
  rw [calls_bind, parser_bind, run_bind]
  cases hr : x.parser.run s with
  | ok a t =>
    rw [hr] at hx hsteps
    exact hx.trans (hf a t hr) hsteps ((f a).parser.steps t) (hfirst a t hr)
  | error d t =>
    rw [hr] at hx
    simpa using hx.error

theorem chargesAt_bind (hx : x.ChargesAt first paid cost s)
    (hf : ∀ a t, x.parser.run s = .ok a t → (f a).ChargesAt first (cost a) cost' t) :
    (x >>= f).ChargesAt first paid cost' s := by
  apply chargesAt_andThen hx _ hf
  intro a t hr
  have hsteps := x.parser.steps s
  rw [hr] at hsteps
  exact Nat.add_le_add_right hsteps.consumed_le _

theorem charges_bind (hx : x.Charges first paid cost)
    (hf : ∀ a, (f a).Charges first (cost a) cost') : (x >>= f).Charges first paid cost' :=
  fun s => chargesAt_bind (hx s) fun a t _ => hf a t

theorem charges_frame (hx : x.Charges first 0 cost) (n : Nat) :
    x.Charges first n fun a => n + cost a := fun s => (hx s).frame n

/-- What was found may be taken for less than it costs. -/
theorem charges_mono {cost' : α → Nat} (hx : x.Charges first paid cost)
    (hle : ∀ a, cost' a ≤ cost a) : x.Charges first paid cost' := by
  intro s
  refine ⟨(hx s).apart, (hx s).reports, fun a t hr => ?_⟩
  have hp := (hx s).pays a t hr
  have hle := hle a
  omega

theorem charges_quiet {p : Parser α} (hr : ∀ s, (p.run s).state.reported = s.reported)
    (hp : ∀ s a t, p.run s = .ok a t → s.consumed + cost a ≤ t.consumed + paid) :
    (quiet p).Charges first paid cost := fun s => .quiet (hr s) (hp s)

theorem charges_pure {a : α} (h : cost a ≤ paid) : (pure a : Traced α).Charges first paid cost := by
  refine charges_quiet (fun _ => rfl) fun s b t hr => ?_
  cases hr
  exact Nat.add_le_add_left h _

theorem charges_fail (d : Diagnostic) : (quiet (fail d)).Charges first paid cost :=
  charges_quiet (fun _ => rfl) fun _ _ _ hr => by cases hr

theorem charges_failHere (problem : Problem) :
    (quiet (failHere problem)).Charges first paid cost :=
  charges_quiet (fun _ => rfl) fun _ _ _ hr => by cases hr

/-- What reports nothing costs nothing, if what it finds does not. -/
theorem charges_free {p : Parser α} (hr : ∀ s, (p.run s).state.reported = s.reported) :
    (quiet p).Charges first paid fun _ => paid := by
  apply charges_quiet hr
  intro s a t hrun
  have hsteps := p.steps s
  rw [hrun] at hsteps
  exact Nat.add_le_add_right hsteps.consumed_le _

theorem charges_current : (quiet current).Charges first paid fun _ => paid :=
  charges_free fun _ => rfl

theorem charges_lastEnd : (quiet lastEnd).Charges first paid fun _ => paid :=
  charges_free fun _ => rfl

theorem charges_skip (kind : Kind) : (quiet (skip kind)).Charges first paid fun _ => paid := by
  apply charges_free
  intro s
  rw [run_skip]
  split <;> rfl

theorem charges_parameter : (quiet parameter).Charges first paid fun _ => paid := by
  apply charges_free
  intro s
  simp only [parameter, run_bind, run_expect]
  by_cases hk : s.current.kind = .identifier
  · rw [if_pos hk]
    rfl
  · rw [if_neg hk]
    rfl

/-- A token that is consumed pays for one thing more. -/
theorem charges_advance : (quiet advance).Charges first paid fun _ => paid + 1 := by
  refine charges_quiet (fun _ => rfl) fun s b t hr => ?_
  cases hr
  show s.consumed + (paid + 1) ≤ s.consumed + 1 + paid
  omega

theorem charges_expect (kind : Kind) :
    (quiet (expect kind)).Charges first paid fun _ => paid + 1 := by
  refine charges_quiet (fun s => ?_) fun s b t hr => ?_
  · rw [run_expect]
    split <;> rfl
  · rw [run_expect] at hr
    split at hr
    · cases hr
      show s.consumed + (paid + 1) ≤ s.consumed + 1 + paid
      omega
    · cases hr

/-- Behind a token that is consumed a call may start anywhere. -/
theorem charges_expect_bind {kind : Kind} {f : Token → Traced β}
    (hf : ∀ t, (f t).Charges 0 (paid + 1) cost') :
    (quiet (expect kind) >>= f).Charges 1 paid cost' := by
  intro s
  apply chargesAt_andThen (charges_expect kind s) _ fun a t _ => hf a t
  intro a t hr
  have hexpect : (quiet (expect kind)).Charges 0 0 fun _ => 1 := charges_expect kind
  exact (hexpect s).pays a t hr

/-! ### Loops and levels -/

/-- All findings together cost what each of them does. -/
theorem charges_many {x : Traced (Option α)} {hx : x.parser.Advances} (total : List α → Nat)
    (hnil : total [] = 0) (hcons : ∀ a as, total (a :: as) = cost a + total as)
    (h : x.Charges first 0 fun found => found.elim 0 cost) (s : State) :
    (many x hx).ChargesAt first 0 total s := by
  rw [many_eq]
  apply chargesAt_bind (h s)
  intro found t hr
  cases found with
  | none => exact charges_pure (Nat.le_of_eq hnil) t
  | some a =>
    apply chargesAt_bind ((charges_many total hnil hcons h t).frame (cost a))
    intro as u _
    exact charges_pure (Nat.le_of_eq (hcons a as)) u
termination_by s.ahead.length
decreasing_by exact hx s a t hr

/-- What a loop has found so far is paid for before each of its turns. -/
theorem charges_iterate {f : α → Traced (Option α)} {hf : ∀ a, (f a).parser.Advances}
    (h : ∀ a, (f a).Charges first (cost a) fun found => cost (found.getD a)) (a : α) (s : State) :
    (iterate f hf a).ChargesAt first (cost a) cost s := by
  rw [iterate_eq]
  apply chargesAt_bind (h a s)
  intro found t hr
  cases found with
  | none => exact charges_pure (Nat.le_refl _) t
  | some b => exact charges_iterate h b t
termination_by s.ahead.length
decreasing_by exact hf a s b t hr

theorem charges_nest (hx : x.Charges first paid cost) : (nest x).Charges first paid cost := by
  intro s
  have h := hx s.opened
  have hreach : ∀ c ∈ x.calls s.opened, s.Steps c.start ∧ c.start.ahead ≠ [] := by
    intro c hc
    exact ⟨(State.Steps.refl s).opened.trans (h.apart.reach c hc).1, (h.apart.reach c hc).2⟩
  show Charged first paid cost s (x.calls s.opened) ((Parser.nest x.parser).run s)
  simp only [Parser.nest]
  rw [ChargesAt] at h
  cases hr : x.parser.run s.opened with
  | ok a t =>
    rw [hr] at h
    refine ⟨⟨hreach, h.apart.behind, h.apart.before, h.apart.nodup⟩, h.reports, ?_⟩
    intro b u hu
    cases hu
    exact h.pays a t rfl
  | error d t =>
    rw [hr] at h
    exact ⟨⟨hreach, h.apart.behind, h.apart.before, h.apart.nodup⟩, h.reports, fun b u hu => by cases hu⟩

end Traced
end LetLang.Parser
