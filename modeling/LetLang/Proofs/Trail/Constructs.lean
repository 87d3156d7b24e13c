import LetLang.Proofs.Grammar.Sound
import LetLang.Proofs.Trail.Basic

/-! Every construct leaves a trail.

Whatever a construct reports is true of a token that it has come to, and what it
finds is laid out over the tokens that it consumed (`level_trails`). A statement
that fails costs the tokens up to where its list goes on, and they are charged to
the diagnostic it fails with (`recovering_trail`), so a list of statements is laid
out with its mistakes in place (`statements_trail`). -/
namespace LetLang.Parser
open Token (Kind)
open Grammar (Ending Tier signs)

variable {limit : Nat} {inner : Level} {s t u : State}

/-- What the parsers of a level leave behind. -/
structure Level.Trails (limit : Nat) (inner : Level) : Prop where
  expr : ∀ bound {s}, s.Sorted → Leaves limit s .expression ((inner.expr bound).run s)
  block : ∀ {s}, s.Sorted → Leaves limit s .block (inner.block.run s)

/-! ### Operands -/

theorem literal_trail (hk : s.current.kind ∈ ([.integer, .identifier, .kwTrue, .kwFalse] : List Kind)) :
    Leaves limit s .expression (literal.run s) := by
  have hpass := Passes.current (ne_of_mem_of_not_mem hk (by decide))
  simp only [literal, run_bind, run_advance]
  split
  · rename_i hk
    split
    · rename_i hv
      exact ⟨(Trail.refl s).advance, _, hpass, .integer hk hv⟩
    · rename_i hv
      have htrue : (Problem.integerTooLarge s.current.literal).IsTrueOf limit s.current
          s.stream.tail := ⟨hk, rfl, Nat.lt_of_not_le hv⟩
      exact (Trail.refl s).advance.report (.current htrue s.stream_advance)
  · rename_i hk
    exact ⟨(Trail.refl s).advance, _, hpass, .name hk⟩
  · rename_i hk
    exact ⟨(Trail.refl s).advance, _, hpass, .true hk⟩
  · rename_i hk
    exact ⟨(Trail.refl s).advance, _, hpass, .false hk⟩
  · simp_all

theorem unary_trail (hi : inner.Trails limit) (hs : s.Sorted) (hk : s.current.kind ∈ signs) :
    Leaves limit s .expression ((unary inner).run s) := by
  apply moves_bind (trail_advance (.refl s) (ne_of_mem_of_not_mem hk (by decide)))
  rintro _ t ht ⟨rfl, hx⟩
  apply moves_bind ((hi.expr _ (ht.sorted hs)).along ht)
  rintro e u hu ⟨ts, hts, hlaid⟩
  exact moves_pure hu ⟨_, hx.trans hts, .unary hk hlaid⟩

theorem group_trail (hi : inner.Trails limit) (hs : s.Sorted) (hk : s.current.kind = .openParen) :
    Leaves limit s .expression ((group inner).run s) := by
  apply moves_bind (trail_advance (.refl s) (by simp [hk]))
  rintro _ t ht ⟨rfl, hx⟩
  apply moves_bind ((hi.expr _ (ht.sorted hs)).along ht)
  rintro e u hu ⟨ts, hts, hlaid⟩
  apply moves_bind (trail_expect (by simp) hu)
  rintro closing v hv ⟨hc, hclosing⟩
  exact moves_pure hv
    ⟨_, hx.trans (hts.trans hclosing), .group hk (hlaid.mono hclosing.subset) hc⟩

/-- A block stops where its span does. -/
theorem Laid.block_stop {ds : List Diagnostic} {b : Block} {ts : List Token}
    (h : Laid ds (.block b) ts) : ts.getLast?.map Token.stop = some b.span.stop := by
  cases h with
  | block => rw [← List.cons_append, List.getLast?_concat]; rfl

theorem Passes.block_stop {b : Block} {ts : List Token} (h : Passes s ts t)
    (hb : Laid t.reported.toList (.block b) ts) : t.lastEnd = b.span.stop := by
  rw [h.lastEnd, Laid.block_stop hb]
  rfl

/-- Without an `else` nothing is consumed. -/
theorem alternative_trail (hi : inner.Trails limit) (hs : s.Sorted) :
    Moves (Trail limit) s
      (fun a t =>
        (a = none ∧ Passes s [] t) ∨
        ∃ b otherwise u ts, a = some b ∧ otherwise.kind = .kwElse ∧ Passes s [otherwise] u ∧
          Passes u ts t ∧ Laid t.reported.toList (.block b) ts)
      ((alternative inner).run s) := by
  simp only [alternative, run_bind, run_skip]
  by_cases hk : s.current.kind = .kwElse
  · have ht : Trail limit s s.advance := (Trail.refl s).advance
    simp only [hk, if_true]
    apply moves_bind ((hi.block (ht.sorted hs)).along ht)
    rintro b u hu ⟨ts, hts, hlaid⟩
    exact moves_pure hu
      (.inr ⟨b, s.current, s.advance, ts, rfl, hk, .current (by simp [hk]), hts, hlaid⟩)
  · simp only [hk, if_false]
    exact ⟨.refl s, .inl ⟨rfl, .nil s⟩⟩

theorem conditional_trail (hi : inner.Trails limit) (hs : s.Sorted) (hk : s.current.kind = .kwIf) :
    Leaves limit s .expression ((conditional inner).run s) := by
  apply moves_bind (trail_advance (.refl s) (by simp [hk]))
  rintro _ t ht ⟨rfl, hx⟩
  apply moves_bind (trail_expect (by simp) ht)
  rintro opening u hu ⟨ho, hopening⟩
  apply moves_bind ((hi.expr _ (hu.sorted hs)).along hu)
  rintro c v hv ⟨ts, hts, hcondition⟩
  apply moves_bind (trail_expect (by simp) hv)
  rintro closing w hw ⟨hc, hclosing⟩
  apply moves_bind ((hi.block (hw.sorted hs)).along hw)
  rintro b x hx' ⟨us, hus, hblock⟩
  have hhead := hx.trans (hopening.trans (hts.trans (hclosing.trans hus)))
  have hcondition' := hcondition.mono (hclosing.trans hus).subset
  apply moves_bind ((alternative_trail hi (hx'.sorted hs)).along hx')
  rintro a y hy (⟨rfl, hnone⟩ | ⟨b', otherwise, z, vs, rfl, helse, hotherwise, hvs, hblock'⟩)
  · refine ⟨hy, _, hhead.trans hnone, ?_⟩
    rw [hnone.lastEnd, hus.block_stop hblock]
    simpa using (Laid.conditional hk ho hcondition' hc hblock).mono hnone.subset
  · have hafter := hotherwise.trans hvs
    have hsub := hafter.subset
    refine ⟨hy, _, hhead.trans hafter, ?_⟩
    rw [hvs.block_stop hblock']
    simpa using Laid.conditionalElse hk ho (hcondition'.mono hsub) hc (hblock.mono hsub) helse hblock'

/-! ### Lists in parentheses -/

section Lists
variable {α : Type} (item : List Diagnostic → α → List Token → Prop)
  (more all : List Diagnostic → List α → List Token → Prop)

/-- How lists with commas are made of their items. -/
structure Separated : Prop where
  mono : ∀ {ds es a ts}, ds ⊆ es → item ds a ts → item es a ts
  mono' : ∀ {ds es as ts}, ds ⊆ es → all ds as ts → all es as ts
  ends : ∀ {ds}, more ds [] []
  goesOn : ∀ {ds comma a ts as us}, comma.kind = .comma → item ds a ts → more ds as us →
    more ds (a :: as) (comma :: (ts ++ us))
  empty : ∀ {ds}, all ds [] []
  starts : ∀ {ds a ts as us}, item ds a ts → more ds as us → all ds (a :: as) (ts ++ us)

variable {item more all} {p : Parser α} (hsep : Separated item more all)
  (hp : ∀ {s}, s.Sorted → Moves (Trail limit) s
    (fun a t => ∃ ts, Passes s ts t ∧ item t.reported.toList a ts) (p.run s))
include hsep hp

theorem afterCommas_trail (hs : s.Sorted) :
    Moves (Trail limit) s (fun as t => ∃ ts, Passes s ts t ∧ more t.reported.toList as ts)
      ((many (afterComma p) (afterComma_advances p)).run s) := by
  refine moves_collect (Q := fun s as t => ∃ ts, Passes s ts t ∧ more t.reported.toList as ts)
    (fun t ht => ?_) (.refl s)
  simp only [afterComma, run_bind, run_skip]
  by_cases hk : t.current.kind = .comma
  · simp only [hk, if_true]
    apply moves_bind ((hp (ht.advance.sorted hs)).along ht.advance)
    rintro a u hu ⟨ts, hts, hitem⟩
    refine moves_pure hu ?_
    rintro as v ⟨us, hus, hmore⟩
    exact ⟨t.current :: (ts ++ us), (Passes.current (by simp [hk])).trans (hts.trans hus),
      hsep.goesOn hk (hsep.mono hus.subset hitem) hmore⟩
  · simp only [hk, if_false]
    exact ⟨ht, [], .nil t, hsep.ends⟩

theorem commaSeparated_trail (hs : s.Sorted) :
    Moves (Trail limit) s (fun as t => ∃ ts, Passes s ts t ∧ all t.reported.toList as ts)
      ((commaSeparated p).run s) := by
  apply moves_bind (hp hs)
  rintro a t ht ⟨ts, hts, hitem⟩
  apply moves_bind ((afterCommas_trail hsep hp (ht.sorted hs)).along ht)
  rintro as u hu ⟨us, hus, hmore⟩
  exact moves_pure hu ⟨_, hts.trans hus, hsep.starts (hsep.mono hus.subset hitem) hmore⟩

theorem untilParen_trail (hs : s.Sorted) :
    Moves (Trail limit) s
      (fun as t => ∃ ts closing, Passes s (ts ++ [closing]) t ∧ all t.reported.toList as ts ∧
        closing.kind = .closeParen)
      ((untilParen p).run s) := by
  have hbefore : Moves (Trail limit) s
      (fun as t => ∃ ts, Passes s ts t ∧ all t.reported.toList as ts) ((beforeParen p).run s) := by
    simp only [beforeParen, run_bind, run_current]
    split
    · exact moves_pure (.refl s) ⟨[], .nil s, hsep.empty⟩
    · exact commaSeparated_trail hsep hp hs
  apply moves_bind hbefore
  rintro as t ht ⟨ts, hts, hall⟩
  apply moves_bind (trail_expect (by simp) ht)
  rintro closing u hu ⟨hc, hclosing⟩
  exact moves_pure hu ⟨ts, closing, hts.trans hclosing, hsep.mono' hclosing.subset hall, hc⟩

end Lists

theorem parameters_trail (hs : s.Sorted) :
    Moves (Trail limit) s
      (fun xs t => ∃ ts closing, Passes s (ts ++ [closing]) t ∧
        Laid t.reported.toList (.parameters xs) ts ∧ closing.kind = .closeParen)
      ((untilParen parameter).run s) := by
  have hsep : Separated (fun _ x ts => ∃ t, x = ⟨t⟩ ∧ ts = [t] ∧ t.kind = .identifier)
      (fun ds xs => Laid ds (.moreParameters xs)) (fun ds xs => Laid ds (.parameters xs)) := by
    refine ⟨fun _ h => h, Laid.mono, .noMoreParameters, ?_, .noParameters, ?_⟩
    · rintro ds comma x ts xs us hc ⟨t, rfl, rfl, hk⟩ hxs
      exact .moreParameters hc hk hxs
    · rintro ds x ts xs us ⟨t, rfl, rfl, hk⟩ hxs
      exact .parameters hk hxs
  refine untilParen_trail hsep (fun {s} _ => ?_) hs
  apply moves_bind (trail_expect (by simp) (.refl s))
  rintro t u hu ⟨hk, ht⟩
  exact moves_pure hu ⟨_, ht, t, rfl, rfl, hk⟩

theorem arguments_trail (hi : inner.Trails limit) (hs : s.Sorted) :
    Moves (Trail limit) s
      (fun es t => ∃ ts closing, Passes s (ts ++ [closing]) t ∧
        Laid t.reported.toList (.arguments es) ts ∧ closing.kind = .closeParen)
      ((untilParen (inner.expr .lowest)).run s) := by
  have hsep : Separated (fun ds e => Laid ds (.expression e))
      (fun ds es => Laid ds (.moreArguments es)) (fun ds es => Laid ds (.arguments es)) :=
    ⟨Laid.mono, Laid.mono, .noMoreArguments, .moreArguments, .noArguments, .arguments⟩
  exact untilParen_trail hsep (hi.expr .lowest) hs

theorem function_trail (hi : inner.Trails limit) (hs : s.Sorted) (hk : s.current.kind = .kwFn) :
    Leaves limit s .expression ((function inner).run s) := by
  apply moves_bind (trail_advance (.refl s) (by simp [hk]))
  rintro _ t ht ⟨rfl, hx⟩
  apply moves_bind (trail_expect (by simp) ht)
  rintro opening u hu ⟨ho, hopening⟩
  apply moves_bind ((parameters_trail (hu.sorted hs)).along hu)
  rintro xs v hv ⟨ts, closing, hts, hparameters, hc⟩
  apply moves_bind ((hi.block (hv.sorted hs)).along hv)
  rintro b w hw ⟨us, hus, hblock⟩
  refine ⟨hw, _, hx.trans (hopening.trans (hts.trans hus)), ?_⟩
  rw [hus.block_stop hblock]
  simpa using Laid.function hk ho (hparameters.mono hus.subset) hc hblock

/-- What is wrong with a token that no operand starts with is true of it. -/
theorem noOperand_isTrue {t : Token} (after : List Token)
    (h : ∀ inner, operand? inner t.kind = none) : (noOperand t).IsTrueOf limit t after := by
  unfold noOperand
  split
  · rename_i hk
    exact ⟨hk, rfl⟩
  · rename_i hk
    exact ⟨rfl, rfl, hk, h⟩

theorem operand_trail (hi : inner.Trails limit) (hs : s.Sorted) :
    Leaves limit s .expression ((operand inner).run s) := by
  simp only [operand, run_bind, run_current]
  cases hk : s.current.kind with
  | integer | identifier | kwTrue | kwFalse => exact literal_trail (by simp [hk])
  | not | dash => exact unary_trail hi hs (by simp [hk, signs])
  | openParen => exact group_trail hi hs hk
  | kwIf => exact conditional_trail hi hs hk
  | kwFn => exact function_trail hi hs hk
  | _ => exact (Trail.refl s).reportHere (noOperand_isTrue _ fun inner => by rw [hk]; rfl)

/-! ### Operators -/

section Operators
variable {left : Expr} (ht : Trail limit s t) (hleft : Lies s (.expression left) t)
  (hi : inner.Trails limit) (hs : s.Sorted)
include ht hleft hi hs

theorem binary_trail {τ : Tier} (hk : t.current.kind ∈ τ.operators) (power : Power) :
    Leaves limit s .expression ((binary inner left power).run t) := by
  have hne : t.current.kind ≠ .eof := ne_of_mem_of_not_mem hk (by cases τ <;> decide)
  obtain ⟨ts, hts, hlaid⟩ := hleft
  apply moves_bind (trail_advance ht hne)
  rintro _ u hu ⟨rfl, hoperator⟩
  apply moves_bind ((hi.expr _ (hu.sorted hs)).along hu)
  rintro right v hv ⟨us, hus, hright⟩
  have hafter := hoperator.trans hus
  exact moves_pure hv ⟨_, hts.trans hafter, .binary (hlaid.mono hafter.subset) hk hright⟩

theorem call_trail (hk : t.current.kind = .openParen) :
    Leaves limit s .expression ((call inner left).run t) := by
  obtain ⟨ts, hts, hlaid⟩ := hleft
  apply moves_bind (trail_advance ht (by simp [hk]))
  rintro _ u hu ⟨rfl, hopening⟩
  apply moves_bind ((arguments_trail hi (hu.sorted hs)).along hu)
  rintro es v hv ⟨us, closing, hus, harguments, hc⟩
  have hafter := hopening.trans hus
  refine ⟨hv, _, hts.trans hafter, ?_⟩
  rw [hus.lastEnd, List.getLast?_concat]
  exact .call (hlaid.mono hafter.subset) hk harguments hc

/-- The target of an assignment is only known to be one when the operator comes, and it is reported
where it starts. -/
theorem assignment_trail (hk : t.current.kind.isCompound) :
    Leaves limit s .expression ((assignment inner left).run t) := by
  obtain ⟨ts, hts, hlaid⟩ := hleft
  unfold assignment
  split
  · rename_i x
    have hne : t.current.kind ≠ .eof := by
      intro he
      simp [he, Kind.isCompound] at hk
    apply moves_bind (trail_advance ht hne)
    rintro _ u hu ⟨rfl, hoperator⟩
    apply moves_bind ((hi.expr _ (hu.sorted hs)).along hu)
    rintro value v hv ⟨us, hus, hvalue⟩
    have hafter := hoperator.trans hus
    exact moves_pure hv ⟨_, hts.trans hafter, .assign (hlaid.mono hafter.subset) hk hvalue⟩
  · obtain ⟨before, x, after, rfl, hstart, htoken⟩ := hlaid.root
    refine ht.report ⟨x, after ++ t.stream, ⟨before, by simp [hts.stream]⟩, ⟨x :: after, rfl⟩, hstart,
      left.token, t.current, ?_, rfl, hk⟩
    have hoperator : [t.current].Sublist t.stream := by
      rw [List.singleton_sublist, t.stream_eq]
      exact List.mem_cons_self
    exact (List.singleton_sublist.2 htoken).append hoperator

end Operators

theorem operatorAbove_trail (hi : inner.Trails limit) (hs : s.Sorted) (bound : Power) {left : Expr}
    (ht : Trail limit s t) (hleft : Lies s (.expression left) t) :
    Moves (Trail limit) s (fun found u => Lies s (.expression (found.getD left)) u)
      ((operatorAbove inner bound left).run t) := by
  simp only [operatorAbove, run_bind, run_current]
  split
  · split
    · rename_i p hop
      have hfound : Leaves limit s .expression ((p left t.current.kind.power).run t) := by
        rcases operator?_tier hop with ⟨hk, -, rfl⟩ | ⟨τ, hk, -, rfl⟩ | ⟨hk, rfl⟩
        · exact assignment_trail ht hleft hi hs hk
        · exact binary_trail ht hleft hi hs hk _
        · exact call_trail ht hleft hi hs hk
      exact moves_bind hfound fun e u hu he => moves_pure hu he
    · exact moves_pure ht hleft
  · exact moves_pure ht hleft

theorem expression_trail (hi : inner.Trails limit) (bound : Power) (hs : s.Sorted) :
    Leaves limit s .expression ((expression inner bound).run s) :=
  moves_bind (operand_trail hi hs) fun _ _ ht hleft =>
    moves_iterate (fun _ _ hu he => operatorAbove_trail hi hs bound hu he) ht hleft

/-! ### Statements -/

/-- A statement lies over the tokens that were consumed, of which there are some. -/
def LiesStatement (s : State) (x : Stmt) (t : State) : Prop :=
  ∃ first ts, Passes s (first :: ts) t ∧ Laid t.reported.toList (.statement x) (first :: ts)

/-- What will be a statement, wherever it ends. -/
def MakesStatement (s : State) (make : Position → Stmt) (t : State) : Prop :=
  ∃ first ts, Passes s (first :: ts) t ∧
    ∀ {ds ending bare}, t.reported.toList ⊆ ds → Ending ending bare →
      Laid ds (.statement (make (Span.covering first (ts ++ ending)).stop)) (first :: (ts ++ ending))

/-- The semicolon that ends a statement is a token of the statement. -/
theorem terminated_trail {p : Parser (Position → Stmt)}
    (h : Moves (Trail limit) s (MakesStatement s) (p.run s)) :
    Moves (Trail limit) s (LiesStatement s) ((terminated p).run s) := by
  rw [run_terminated]
  cases hp : p.run s with
  | error d t =>
    rw [hp] at h
    exact h
  | ok make t =>
    rw [hp] at h
    obtain ⟨ht, first, ts, hts, hmake⟩ := h
    obtain ⟨ending, bare, hending, hpast⟩ : ∃ ending bare, Ending ending bare ∧
        Passes t ending (t.past .semicolon) := by
      rw [State.past]
      split
      · rename_i hk
        exact ⟨[t.current], false, .semicolon hk, .current (by simp [hk])⟩
      · exact ⟨[], true, .bare, .nil t⟩
    have hall : Passes s (first :: (ts ++ ending)) (t.past .semicolon) := hts.trans hpast
    have hlast := congrArg Span.stop hall.covering
    have hreported : (t.past .semicolon).reported = t.reported := by
      rw [State.past]
      split <;> rfl
    refine ⟨ht.trans (.later (t.stream_past _) hreported), first, ts ++ ending, hall, ?_⟩
    rw [show (t.past .semicolon).lastEnd = _ from hlast]
    exact hmake hpast.subset hending

theorem binding_trail (hi : inner.Trails limit) (hs : s.Sorted) (hk : s.current.kind = .kwLet) :
    Moves (Trail limit) s (LiesStatement s) ((binding inner).run s) := by
  apply terminated_trail
  apply moves_bind (trail_advance (.refl s) (by simp [hk]))
  rintro _ t ht ⟨rfl, hx⟩
  apply moves_bind (trail_expect (by simp) ht)
  rintro name u hu ⟨hn, hname⟩
  apply moves_bind (trail_expect (by simp) hu)
  rintro sign v hv ⟨hk', hsign⟩
  apply moves_bind ((hi.expr .lowest (hv.sorted hs)).along hv)
  rintro e w hw ⟨ts, hts, hlaid⟩
  refine moves_pure hw ⟨s.current, _, hx.trans (hname.trans (hsign.trans hts)), ?_⟩
  intro ds ending bare hsub hending
  exact .binding hk hn hk' (hlaid.mono hsub) hending

theorem returning_trail (hi : inner.Trails limit) (hs : s.Sorted)
    (hk : s.current.kind = .kwReturn) :
    Moves (Trail limit) s (LiesStatement s) ((returning inner).run s) := by
  apply terminated_trail
  apply moves_bind (trail_advance (.refl s) (by simp [hk]))
  rintro _ t ht ⟨rfl, hx⟩
  apply moves_bind ((hi.expr .lowest (ht.sorted hs)).along ht)
  rintro e u hu ⟨ts, hts, hlaid⟩
  refine moves_pure hu ⟨s.current, _, hx.trans hts, ?_⟩
  intro ds ending bare hsub hending
  exact .returning hk (hlaid.mono hsub) hending

theorem expressionStatement_trail (hi : inner.Trails limit) (hs : s.Sorted) :
    Moves (Trail limit) s (LiesStatement s) ((expressionStatement inner).run s) := by
  apply terminated_trail
  simp only [run_bind, run_current]
  apply moves_bind (hi.expr .lowest hs)
  rintro e u hu ⟨ts, hts, hlaid⟩
  obtain ⟨first, rest, rfl⟩ : ∃ first rest, ts = first :: rest := by
    obtain ⟨before, x, after, rfl, -⟩ := hlaid.root
    exact List.exists_cons_of_ne_nil (by simp)
  rw [hts.current_eq]
  refine moves_pure hu ⟨first, rest, hts, ?_⟩
  intro ds ending bare hsub hending
  exact .expressionStatement (hlaid.mono hsub) hending

theorem statement_trail (hi : inner.Trails limit) (hs : s.Sorted) :
    Moves (Trail limit) s (LiesStatement s) ((statement inner).run s) := by
  rw [run_statement]
  unfold statementFrom
  split
  · rename_i hk
    exact binding_trail hi hs hk
  · rename_i hk
    exact returning_trail hi hs hk
  · apply moves_bind (hi.block hs)
    rintro b t ht ⟨ts, hts, hlaid⟩
    cases hlaid with
    | block ho hc hregion hss =>
      exact moves_pure ht ⟨_, _, hts, .blockStatement (.block ho hc hregion hss)⟩
  · exact expressionStatement_trail hi hs

/-! ### Lists of statements -/

/-- What is told between two states is about a token that was skipped, or about the one at which the
skipping stopped. -/
theorem Told.charged {d : Diagnostic} {ds : List Diagnostic} {v : State} {run : List Token}
    (h : Told limit t d u) (hv : v.stream <:+ u.stream) (hrun : t.stream = run ++ v.stream)
    (hd : d ∈ ds) : Charged ds run v.current := by
  obtain ⟨x, after, ⟨before, hx⟩, hu, hposition, -⟩ := h
  refine .inr ⟨d, hd, x, ?_, hposition⟩
  obtain ⟨skipped, hskipped⟩ := hv.trans hu
  rw [← hskipped, hrun, ← List.append_assoc] at hx
  have hrun := List.append_cancel_right hx
  subst hrun
  cases skipped with
  | nil =>
    rw [List.nil_append, v.stream_eq] at hskipped
    rw [(List.cons.inj hskipped).1]
    simp
  | cons y skipped =>
    rw [(List.cons.inj hskipped).1]
    simp

/-- A run of tokens that was skipped, for a reason that was reported. -/
def Skips (s t : State) : Prop :=
  ∃ run, s.stream = run ++ t.stream ∧ Charged t.reported.toList run t.current ∧
    s.reported.toList ⊆ t.reported.toList

/-- A statement that fails leaves the tokens up to where its list goes on. -/
theorem recovering_trail {p : Parser Stmt} {resume : Parser Unit}
    (h : Moves (Trail limit) s (LiesStatement s) (p.run s))
    (hresume : ∀ t, ∃ u, resume.run t = .ok () u ∧ u.stream <:+ t.stream ∧ u.reported = t.reported) :
    Moves (Trail limit) s
      (fun found u =>
        match found with
        | some x => LiesStatement s x u
        | none => Skips s u)
      ((recovering p resume).run s) := by
  rw [run_recovering]
  have hsteps := p.steps s
  cases hp : p.run s with
  | ok x t =>
    rw [hp] at h
    exact h
  | error d t =>
    rw [hp] at h hsteps
    obtain ⟨u, hu, hstream, hreported⟩ := hresume (t.report d)
    simp only [hu]
    have htrail : Trail limit s u := Trail.trans h (.later hstream hreported)
    refine ⟨htrail, ?_⟩
    -- the diagnostic that the statement fails with is the last one of the trail
    obtain ⟨ds, hds, htold⟩ := h.told
    obtain ⟨es, hes⟩ := hsteps.reported
    have hlast : (t.report d).reported.toList = t.reported.toList ++ [d] := by simp [State.report]
    have hd : d ∈ ds := by
      have hes' : s.reported.toList ++ es = t.reported.toList := hes
      rw [hlast, ← hes', List.append_assoc] at hds
      rw [← List.append_cancel_left hds]
      simp
    have hmem : d ∈ u.reported.toList := by
      rw [hreported, hlast]
      simp
    obtain ⟨run, hrun⟩ := htrail.stream
    refine ⟨run, hrun.symm, (htold d hd).charged hstream hrun.symm hmem, ?_⟩
    rw [hreported, hds]
    exact List.subset_append_left _ _

/-- Statements were found one after the other, up to where their list ends. -/
def LiesList (ends : Option Token → Bool) (s : State) (found : List (Option Stmt)) (t : State) :
    Prop :=
  ends t.ahead.head? ∧ s.reported.toList ⊆ t.reported.toList ∧
    ∃ ts, s.stream = ts ++ t.stream ∧
      Laid t.reported.toList (.statements (found.filterMap id) t.current) ts

section Statements
variable {ends : Option Token → Bool}

theorem LiesList.nil (h : ends t.ahead.head?) : LiesList ends t [] t :=
  ⟨h, fun _ hd => hd, [], rfl, .done (.inl rfl)⟩

theorem LiesStatement.cons {x : Stmt} {found : List (Option Stmt)} (h : LiesStatement s x t)
    (h' : LiesList ends t found u) : LiesList ends s (some x :: found) u := by
  obtain ⟨first, ts, hts, hx⟩ := h
  obtain ⟨hends, hsub, us, hus, hlaid⟩ := h'
  refine ⟨hends, List.Subset.trans hts.subset hsub, (first :: ts) ++ us, ?_, ?_⟩
  · rw [hts.stream, hus, List.append_assoc]
  · exact .next (.inl rfl) (hx.mono hsub) hlaid

theorem Skips.cons {found : List (Option Stmt)} (h : Skips s t) (h' : LiesList ends t found u) :
    LiesList ends s (none :: found) u := by
  obtain ⟨run, hrun, hcharged, hsub⟩ := h
  obtain ⟨hends, hsub', us, hus, hlaid⟩ := h'
  refine ⟨hends, List.Subset.trans hsub hsub', run ++ us, ?_, ?_⟩
  · rw [hrun, hus, List.append_assoc]
  · refine hlaid.skip (hcharged.mono hsub') ?_
    rw [t.stream_eq, u.stream_eq] at hus
    cases us with
    | nil => rw [(List.cons.inj hus).1]; rfl
    | cons y us => rw [(List.cons.inj hus).1]; rfl

theorem statements_trail (hi : inner.Trails limit) (hs : s.Sorted) {resume : Parser Unit}
    {ha : (statementUnless inner ends resume).Advances}
    (hresume : ∀ t, ∃ u, resume.run t = .ok () u ∧ u.stream <:+ t.stream ∧ u.reported = t.reported) :
    Moves (Trail limit) s (LiesList ends s)
      ((many (statementUnless inner ends resume) ha).run s) := by
  refine moves_collect (fun t ht => ?_) (.refl s)
  simp only [statementUnless, run_bind, run_next?]
  split
  · rename_i hend
    exact ⟨ht, .nil hend⟩
  · have hstatement := recovering_trail (statement_trail hi (ht.sorted hs)) hresume
    apply moves_bind (hstatement.along ht)
    rintro (_ | x) u hu hfound
    · exact moves_pure hu fun found v h => hfound.cons h
    · exact moves_pure hu fun found v h => hfound.cons h

end Statements

/-! ### Blocks and programs -/

theorem block_trail (hi : inner.Trails limit) (hw : inner.Walks) (hs : s.Sorted) :
    Leaves limit s .block ((block inner).run s) := by
  apply moves_bind (trail_expect (by simp) (.refl s))
  rintro opening t ht ⟨ho, hopening⟩
  have hbody : Moves (Trail limit) t
      (fun ss u => ∃ found, ss = found.filterMap id ∧ LiesList blockEnds t found u)
      ((blockBody inner).run t) := by
    apply moves_bind (statements_trail hi (ht.sorted hs) fun u =>
      ⟨_, rfl, u.stream_advanceBy _, u.reported_advanceBy _⟩)
    exact fun found u hu h => moves_pure hu ⟨found, rfl, h⟩
  apply moves_bind ((hbody.and (blockBody_walks hw (ht.sorted hs))).along ht)
  rintro _ u hu ⟨⟨found, rfl, -, hsub, region, hregion, hlaid⟩, hwalk, -⟩
  apply moves_bind (trail_expect (by simp) hu)
  rintro closing v hv ⟨hc, hclosing⟩
  obtain rfl := hclosing.current_eq
  -- a closing brace is ahead, so the walk through the body has closed every brace it opened
  have hbalanced : Balanced region := by
    obtain ⟨ts, k, hts, hdepth, hk⟩ := hwalk.eats
    rw [ahead_of_stream hregion] at hts
    obtain rfl := List.append_cancel_right hts
    rcases hk with rfl | hnil
    · exact hdepth
    · exact absurd hnil (State.ahead_ne_nil (by simp [hc]))
  have hblock := Laid.block ho hc hbalanced (hlaid.mono hclosing.subset)
  refine ⟨hv, _, hopening.trans (hclosing.after hregion hsub), ?_⟩
  rw [hclosing.lastEnd]
  exact hblock

theorem level_trails (limit n : Nat) : (level limit n).Trails limit := by
  induction n with
  | zero =>
    exact ⟨fun _ s _ => (Trail.refl s).reportHere rfl, fun {s} _ => (Trail.refl s).reportHere rfl⟩
  | succ n ih =>
    constructor
    · intro bound s hs
      exact leaves_nest (expression_trail ih bound hs)
    · intro s hs
      exact leaves_nest (block_trail ih (level_walks limit n) hs)

/-- A program lies over all the tokens that were ahead. -/
theorem program_trail (limit n : Nat) (hs : s.Sorted) :
    Moves (Trail limit) s
      (fun p t => Laid t.reported.toList (.statements p.statements s.endToken) s.ahead)
      ((program (level limit n)).run s) := by
  have hresume : ∀ t, ∃ u, resumeOutside.run t = .ok () u ∧ u.stream <:+ t.stream ∧
      u.reported = t.reported := by
    intro t
    have hsync : t.synchronized.stream <:+ t.stream := t.stream_advanceBy _
    refine ⟨_, run_resumeOutside t, (State.stream_past _ _).trans hsync, ?_⟩
    exact (State.reported_past _ _).trans (t.reported_advanceBy _)
  apply moves_bind (statements_trail (level_trails limit n) hs hresume)
  rintro found t ht ⟨hend, -, ts, hts, hlaid⟩
  refine moves_pure ht ?_
  have hnil : t.ahead = [] := by simpa using hend
  have hahead := ahead_of_stream hts
  rw [hnil, List.append_nil] at hahead
  subst hahead
  have hfinish : t.current = s.endToken := by
    have hstream := List.append_cancel_left hts
    rw [t.stream_eq] at hstream
    exact (List.cons.inj hstream).1.symm
  rwa [hfinish] at hlaid

end LetLang.Parser
