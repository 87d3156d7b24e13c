import LetLang.Proofs.Truth

/-! What is said where the input ends.

Whatever a construct looks for besides an operand, it says at the end of the input that
the input ended. Only where an operand is due the end is refused like any other token
that starts none, and a tip about its empty text is all there is
(`parse_says_what_ended`). A parser asks for an operand only after a token that awaits one,
and otherwise looks first whether anything is ahead (`level_owes`), so such a tip needs
a source whose last token awaits an operand. -/
namespace LetLang
open Token (Kind)

/-- After a token of this kind an operand is due, unless it is in a list of parameters. -/
def Token.Kind.awaitsOperand : Kind → Bool
  | .assignment | .comma | .not | .kwReturn => true
  | kind => Power.lowest < kind.power

theorem awaitsOperand_of_lt {kind : Kind} {bound : Power} (h : bound < kind.power) :
    kind.awaitsOperand := by
  have hlowest : Power.lowest < kind.power := Nat.lt_of_le_of_lt (Nat.zero_le bound.rank) h
  unfold Kind.awaitsOperand
  split
  · rfl
  · rfl
  · rfl
  · rfl
  · exact decide_eq_true hlowest

/-- The last of the tokens awaits an operand. -/
def AwaitsOperand (ts : List Token) : Prop := ∃ t ∈ ts.getLast?, t.kind.awaitsOperand

namespace Parser

variable {α β : Type} {all : List Token} {s t : State} {inner : Level}

/-- On the way through the tokens, an operand was missed at the end only if the last one awaits it. -/
structure Owed (all : List Token) (t : State) : Prop where
  ahead : t.ahead <:+ all
  reported : ∀ d ∈ t.reported.toList, d.problem = .noOperand .eof "" → AwaitsOperand all

/-- At the end an operand may be missed. -/
def Due (all : List Token) (t : State) : Prop := t.ahead = [] → AwaitsOperand all

theorem due_of_ne_nil (h : t.ahead ≠ []) : Due all t := fun hnil => absurd hnil h

namespace Owed

theorem advance (h : Owed all t) : Owed all t.advance :=
  ⟨(List.tail_suffix _).trans h.ahead, h.reported⟩

theorem advanceBy (h : Owed all t) (n : Nat) : Owed all (t.advanceBy n) := by
  induction n generalizing t with
  | zero => exact h
  | succ n ih => exact ih h.advance

theorem past (h : Owed all t) (kind : Kind) : Owed all (t.past kind) := by
  rw [State.past]
  split
  · exact h.advance
  · exact h

theorem report (h : Owed all t) {d : Diagnostic}
    (hd : d.problem = .noOperand .eof "" → AwaitsOperand all) : Owed all (t.report d) := by
  refine ⟨h.ahead, fun e he => ?_⟩
  rw [State.report, Array.toList_push, List.mem_append, List.mem_singleton] at he
  rcases he with he | rfl
  · exact h.reported e he
  · exact hd

/-- Behind a token that awaits an operand it is due. -/
theorem due (h : Owed all t) (hk : t.current.kind.awaitsOperand) : Due all t.advance := by
  intro hnil
  have hne : t.ahead ≠ [] := by
    apply State.ahead_ne_nil
    intro he
    rw [he] at hk
    cases hk
  obtain ⟨x, xs, hx⟩ := List.exists_cons_of_ne_nil hne
  obtain rfl : xs = [] := by simpa [hx] using hnil
  obtain ⟨before, rfl⟩ := h.ahead
  rw [State.current, hx, List.headD_cons] at hk
  exact ⟨x, by simp [hx], hk⟩

end Owed

/-! ### Single steps -/

theorem owed_after {f : Token → Parser β} {Q : β → State → Prop} (ht : Owed all t)
    (hf : ∀ x u, Owed all u → (t.current.kind.awaitsOperand → Due all u) →
      Moves (fun _ => Owed all) s Q ((f x).run u)) :
    Moves (fun _ => Owed all) s Q ((advance >>= f).run t) :=
  hf t.current t.advance ht.advance ht.due

theorem owed_expect {kind : Kind} (ht : Owed all t) :
    Moves (fun _ => Owed all) s (fun _ u => kind.awaitsOperand → Due all u)
      ((expect kind).run t) := by
  rw [run_expect]
  split
  · rename_i hk
    exact ⟨ht.advance, hk ▸ ht.due⟩
  · exact ht.report fun h => by cases h

theorem owed_skip {kind : Kind} (ht : Owed all t) :
    Moves (fun _ => Owed all) s (fun found u => found = true → kind.awaitsOperand → Due all u)
      ((skip kind).run t) := by
  rw [run_skip]
  split
  · rename_i hk
    exact ⟨ht.advance, fun _ => hk ▸ ht.due⟩
  · exact ⟨ht, fun h => by cases h⟩

/-! ### Constructs -/

/-- The parsers of a level keep to what is owed; an expression is asked for where an operand is due. -/
structure Level.Owes (all : List Token) (inner : Level) : Prop where
  expr : ∀ bound {s t}, Owed all t → Due all t →
    Moves (fun _ => Owed all) s Anything ((inner.expr bound).run t)
  block : ∀ {s t}, Owed all t → Moves (fun _ => Owed all) s Anything (inner.block.run t)

theorem literal_owes (ht : Owed all t) (hk : t.current.kind ≠ .eof) :
    Moves (fun _ => Owed all) s Anything (literal.run t) := by
  simp only [literal, run_bind, run_advance]
  split
  · split
    · exact moves_pure ht.advance trivial
    · exact ht.advance.report fun h => by cases h
  · exact moves_pure ht.advance trivial
  · exact moves_pure ht.advance trivial
  · exact moves_pure ht.advance trivial
  · exact ht.advance.report fun h => absurd (Problem.noOperand.inj h).1 hk

/-- The first item of a list comes right after the parenthesis, each other one after a comma. -/
theorem untilParen_owes {p : Parser α}
    (hp : ∀ {t}, Owed all t → Due all t → Moves (fun _ => Owed all) s Anything (p.run t))
    (ht : Owed all t) (hdue : Due all t) :
    Moves (fun _ => Owed all) s Anything ((untilParen p).run t) := by
  have hafter : ∀ u, Owed all u →
      Moves (fun _ => Owed all) s Anything ((afterComma p).run u) := by
    intro u hu
    apply moves_bind (owed_skip hu)
    intro found v hv hdue
    cases found with
    | false => exact moves_pure hv trivial
    | true => exact moves_bind (hp hv (hdue rfl rfl)) fun _ _ hw _ => moves_pure hw trivial
  have hbefore : Moves (fun _ => Owed all) s Anything ((beforeParen p).run t) := by
    simp only [beforeParen, run_bind, run_current]
    split
    · exact moves_pure ht trivial
    · refine moves_bind (hp ht hdue) fun _ u hu _ => ?_
      exact moves_bind (moves_many_anything hafter hu) fun _ _ hv _ => moves_pure hv trivial
  apply moves_bind hbefore
  intro found u hu _
  exact moves_bind (owed_expect hu) fun _ _ hv _ => moves_pure hv trivial

theorem parameter_owes (ht : Owed all t) :
    Moves (fun _ => Owed all) s Anything (parameter.run t) :=
  moves_bind (owed_expect ht) fun _ _ hu _ => moves_pure hu trivial

section Constructs
variable (hi : inner.Owes all) (ht : Owed all t)
include hi ht

theorem unary_owes (hk : t.current.kind = .not ∨ t.current.kind = .dash) :
    Moves (fun _ => Owed all) s Anything ((unary inner).run t) := by
  refine owed_after ht fun _ u hu hdue => ?_
  have hawaits : t.current.kind.awaitsOperand := by rcases hk with hk | hk <;> rw [hk] <;> decide
  exact moves_bind (hi.expr _ hu (hdue hawaits)) fun _ _ hv _ => moves_pure hv trivial

theorem group_owes (hk : t.current.kind = .openParen) :
    Moves (fun _ => Owed all) s Anything ((group inner).run t) := by
  refine owed_after ht fun _ u hu hdue => ?_
  refine moves_bind (hi.expr _ hu (hdue (by rw [hk]; decide))) fun _ v hv _ => ?_
  exact moves_bind (owed_expect hv) fun _ _ hw _ => moves_pure hw trivial

theorem alternative_owes : Moves (fun _ => Owed all) s Anything ((alternative inner).run t) := by
  apply moves_bind (owed_skip ht)
  intro found u hu _
  cases found with
  | false => exact moves_pure hu trivial
  | true => exact moves_bind (hi.block hu) fun _ _ hv _ => moves_pure hv trivial

theorem conditional_owes : Moves (fun _ => Owed all) s Anything ((conditional inner).run t) := by
  refine owed_after ht fun _ u hu _ => ?_
  refine moves_bind (owed_expect hu) fun _ v hv hdue => ?_
  refine moves_bind (hi.expr _ hv (hdue (by decide))) fun _ w hw _ => ?_
  refine moves_bind (owed_expect hw) fun _ x hx _ => ?_
  refine moves_bind (hi.block hx) fun _ y hy _ => ?_
  exact moves_bind (alternative_owes hi hy) fun _ _ hz _ => ⟨hz, trivial⟩

theorem function_owes : Moves (fun _ => Owed all) s Anything ((function inner).run t) := by
  refine owed_after ht fun _ u hu _ => ?_
  refine moves_bind (owed_expect hu) fun _ v hv hdue => ?_
  refine moves_bind (untilParen_owes (fun h _ => parameter_owes h) hv (hdue (by decide)))
    fun _ w hw _ => ?_
  exact moves_bind (hi.block hw) fun _ _ hx _ => ⟨hx, trivial⟩

theorem operand_owes (hall : ∀ x ∈ all, x.kind ≠ .eof) (hdue : Due all t) :
    Moves (fun _ => Owed all) s Anything ((operand inner).run t) := by
  simp only [operand, run_bind, run_current]
  split
  · rename_i p hp
    have hk : t.current.kind ≠ .eof := by
      intro he
      rw [he] at hp
      cases hp
    rcases operand?_cases inner hp with rfl | ⟨hk, rfl⟩ | ⟨hk, rfl⟩ | ⟨-, rfl⟩ | ⟨-, rfl⟩
    · exact literal_owes ht hk
    · exact unary_owes hi ht hk
    · exact group_owes hi ht hk
    · exact conditional_owes hi ht
    · exact function_owes hi ht
  · refine ht.report fun h => hdue ?_
    by_contra hne
    obtain ⟨x, xs, hx⟩ := List.exists_cons_of_ne_nil hne
    have hcurrent : t.current = x := by rw [State.current, hx, List.headD_cons]
    have hmem : x ∈ all := ht.ahead.subset (by simp [hx])
    rw [hcurrent, noOperand] at h
    split at h
    · cases h
    · exact hall x hmem (Problem.noOperand.inj h).1

section Operators
variable (hawaits : t.current.kind.awaitsOperand) (left : Expr)
include hawaits

theorem binary_owes (power : Power) :
    Moves (fun _ => Owed all) s Anything ((binary inner left power).run t) := by
  refine owed_after ht fun _ u hu hdue => ?_
  exact moves_bind (hi.expr _ hu (hdue hawaits)) fun _ _ hv _ => moves_pure hv trivial

theorem assignment_owes :
    Moves (fun _ => Owed all) s Anything ((assignment inner left).run t) := by
  unfold assignment
  split
  · refine owed_after ht fun _ u hu hdue => ?_
    exact moves_bind (hi.expr _ hu (hdue hawaits)) fun _ _ hv _ => moves_pure hv trivial
  · exact ht.report fun h => by cases h

theorem call_owes : Moves (fun _ => Owed all) s Anything ((call inner left).run t) := by
  refine owed_after ht fun _ u hu hdue => ?_
  refine moves_bind (untilParen_owes (hi.expr _) hu (hdue hawaits)) fun _ _ hv _ => ?_
  exact ⟨hv, trivial⟩

end Operators

theorem operatorAbove_owes (bound : Power) (left : Expr) :
    Moves (fun _ => Owed all) s Anything ((operatorAbove inner bound left).run t) := by
  simp only [operatorAbove, run_bind, run_current]
  split
  · rename_i hpower
    split
    · rename_i p hp
      have hawaits : t.current.kind.awaitsOperand := awaitsOperand_of_lt hpower
      have hfound : Moves (fun _ => Owed all) s Anything
          ((p left t.current.kind.power).run t) := by
        rcases operator?_cases inner hp with rfl | rfl | rfl
        · exact assignment_owes hi ht hawaits left
        · exact binary_owes hi ht hawaits left _
        · exact call_owes hi ht hawaits left
      exact moves_bind hfound fun _ _ hu _ => moves_pure hu trivial
    · exact moves_pure ht trivial
  · exact moves_pure ht trivial

theorem expression_owes (hall : ∀ x ∈ all, x.kind ≠ .eof) (hdue : Due all t) (bound : Power) :
    Moves (fun _ => Owed all) s Anything ((expression inner bound).run t) := by
  refine moves_bind (operand_owes hi ht hall hdue) fun left _ hu _ => ?_
  exact moves_iterate_anything (fun left _ hv => operatorAbove_owes hi hv bound left) left hu

omit hi ht in
theorem terminated_owes {p : Parser (Position → Stmt)}
    (h : Moves (fun _ => Owed all) s Anything (p.run t)) :
    Moves (fun _ => Owed all) s Anything ((terminated p).run t) := by
  apply moves_bind h
  intro make u hu _
  exact moves_bind (owed_skip hu) fun _ _ hv _ => ⟨hv, trivial⟩

/-- Where a statement begins, something is ahead. -/
theorem statement_owes (hne : t.ahead ≠ []) :
    Moves (fun _ => Owed all) s Anything ((statement inner).run t) := by
  rw [run_statement]
  unfold statementFrom
  split
  · refine terminated_owes (owed_after ht fun _ u hu _ => ?_)
    refine moves_bind (owed_expect hu) fun _ v hv _ => ?_
    refine moves_bind (owed_expect hv) fun _ w hw hdue => ?_
    exact moves_bind (hi.expr _ hw (hdue rfl)) fun _ _ hx _ => moves_pure hx trivial
  · rename_i hk
    refine terminated_owes (owed_after ht fun _ u hu hdue => ?_)
    have hawaits : t.current.kind.awaitsOperand := by rw [hk]; rfl
    exact moves_bind (hi.expr _ hu (hdue hawaits)) fun _ _ hv _ => moves_pure hv trivial
  · exact moves_bind (hi.block ht) fun _ _ hu _ => moves_pure hu trivial
  · refine terminated_owes ?_
    simp only [run_bind, run_current]
    exact moves_bind (hi.expr _ ht (due_of_ne_nil hne)) fun _ _ hu _ => moves_pure hu trivial

/-- The list ends where nothing is ahead, so a statement begins before a token. -/
theorem statements_owes {ends : Option Token → Bool} {resume : Parser Unit}
    {ha : (statementUnless inner ends resume).Advances} (hnone : ends none = true)
    (hres : ∀ u, Owed all u → Moves (fun _ => Owed all) s Anything (resume.run u)) :
    Moves (fun _ => Owed all) s Anything ((many (statementUnless inner ends resume) ha).run t) := by
  refine (statements_move (fun u hu hends => ?_) hres ht).forget
  refine statement_owes hi hu fun hnil => ?_
  rw [hnil, List.head?_nil, hnone] at hends
  cases hends

theorem block_owes : Moves (fun _ => Owed all) s Anything ((block inner).run t) := by
  refine moves_bind (owed_expect ht) fun _ u hu _ => ?_
  have hbody : Moves (fun _ => Owed all) s Anything ((blockBody inner).run u) :=
    moves_bind (statements_owes hi hu rfl fun _ hv => ⟨hv.advanceBy _, trivial⟩)
      fun _ _ hv _ => moves_pure hv trivial
  refine moves_bind hbody fun _ v hv _ => ?_
  exact moves_bind (owed_expect hv) fun _ _ hw _ => ⟨hw, trivial⟩

theorem program_owes : Moves (fun _ => Owed all) s Anything ((program inner).run t) := by
  refine moves_bind (statements_owes hi ht rfl fun u hu => ?_) fun _ _ hv _ => moves_pure hv trivial
  rw [run_resumeOutside]
  exact ⟨(hu.advanceBy _).past _, trivial⟩

end Constructs

/-- Expressions are asked for where something is ahead, or behind a token that awaits an operand. -/
theorem level_owes (hall : ∀ x ∈ all, x.kind ≠ .eof) (limit n : Nat) :
    (level limit n).Owes all := by
  have hclosed : ∀ u, Owed all u → Owed all u.closed := fun _ h => ⟨h.ahead, h.reported⟩
  induction n with
  | zero =>
    constructor
    · intro _ s t ht _
      exact ht.report fun h => by cases h
    · intro s t ht
      exact ht.report fun h => by cases h
  | succ n ih =>
    constructor
    · intro bound s t ht hdue
      have hopened : Owed all t.opened := ⟨ht.ahead, ht.reported⟩
      exact moves_nest (expression_owes ih hopened hall hdue bound) hclosed fun _ _ h => h
    · intro s t ht
      have hopened : Owed all t.opened := ⟨ht.ahead, ht.reported⟩
      exact moves_nest (block_owes ih hopened) hclosed fun _ _ h => h

/-- An expression asked for at the end is refused like one that starts with a stray token. -/
theorem expr_at_end (limit n : Nat) (bound : Power) (ht : t.ahead = []) :
    ((level limit (n + 1)).expr bound).run t =
      .error ⟨.noOperand .eof "", t.finish⟩ t.opened.closed := by
  have hcurrent : t.opened.current = .endOfInput t.finish := by
    rw [State.current, State.ahead_opened, ht]
    rfl
  have hoperand : (operand (level limit n)).run t.opened =
      .error ⟨.noOperand .eof "", t.finish⟩ t.opened := by
    simp only [operand, run_bind, run_current, hcurrent]
    show (failHere (noOperand (.endOfInput t.finish)) : Parser Expr).run t.opened = _
    rw [run_failHere, State.position, hcurrent]
    rfl
  simp only [level, nest, expression, run_bind, hoperand]

end Parser

open LetLang.Parser

/-! ### Whole sources -/

/-- Only behind a token that awaits an operand is one missed at the end. -/
theorem awaitsOperand_of_noOperand {limit : Nat} {source : Source} {d : Diagnostic}
    (hd : d ∈ (parseWithin limit source).diagnostics) (hproblem : d.problem = .noOperand .eof "") :
    AwaitsOperand (Token.scan source.name 0 source.text.toList) := by
  obtain ⟨program, u, hrun, hparse⟩ := parseWithin_eq limit source
  have hstart : Owed (Token.scan source.name 0 source.text.toList) (.ofSource source) :=
    ⟨List.suffix_refl _, by simp [State.ofSource, State.ofTokens]⟩
  have howes := program_owes (s := .ofSource source)
    (level_owes (fun _ => Token.kind_of_mem_scan) limit limit) hstart
  rw [hrun] at howes
  rw [hparse] at hd
  exact howes.1.reported d hd hproblem

namespace Diagnostic

/-- It stands where the token for the end does. -/
def IsAtEnd (d : Diagnostic) (source : Source) : Prop :=
  ∃ t ∈ tokenize source, t.kind = .eof ∧ d.position = t.start

/-- It says that the input ended, and what was expected instead. -/
def SaysEnded (d : Diagnostic) : Prop :=
  ∃ expected, d.problem = .unexpected expected .eof "" ∧
    d.tip = some s!"Input ended while expecting {expected}, is something left unclosed?"

end Diagnostic

/-- There is one token for the end, and it says nothing. -/
theorem tokenize_eof {source : Source} {before after : List Token} {t : Token}
    (h : tokenize source = before ++ t :: after) (hk : t.kind = .eof) :
    before = Token.scan source.name 0 source.text.toList ∧ after = [] ∧ t.literal = "" := by
  rw [tokenize] at h
  rcases List.append_eq_append_iff.1 h with ⟨us, hus, hend⟩ | ⟨us, hus, hend⟩
  · cases us with
    | nil =>
      obtain ⟨rfl, rfl⟩ := List.cons_eq_cons.1 hend
      exact ⟨by rw [hus, List.append_nil], rfl, rfl⟩
    | cons u us => simp at hend
  · cases us with
    | nil =>
      obtain ⟨rfl, rfl⟩ := List.cons_eq_cons.1 hend
      exact ⟨by rw [hus, List.append_nil], rfl, rfl⟩
    | cons u us =>
      obtain ⟨rfl, -⟩ := List.cons_eq_cons.1 hend
      have hmem : t ∈ Token.scan source.name 0 source.text.toList := by simp [hus]
      exact absurd hk (Token.kind_of_mem_scan hmem)

/-- What a problem can be that is true of the token for the end. -/
theorem Problem.IsTrueOf.at_end {limit : Nat} {t : Token} {problem : Problem}
    (h : problem.IsTrueOf limit t []) (hk : t.kind = .eof) (hl : t.literal = "") :
    (∃ expected, problem = .unexpected expected .eof "") ∨ problem = .tooDeep limit ∨
      problem = .noOperand .eof "" := by
  cases problem with
  | unexpected expected found literal =>
    obtain ⟨rfl, rfl, -⟩ := h
    exact .inl ⟨expected, by rw [hk, hl]⟩
  | noOperand kind literal =>
    obtain ⟨rfl, rfl, -⟩ := h
    exact .inr (.inr (by rw [hk, hl]))
  | illegalCharacter literal =>
    rw [h.1] at hk
    cases hk
  | integerTooLarge literal =>
    rw [h.1] at hk
    cases hk
  | notAssignable literal =>
    obtain ⟨u, operator, hsub, -⟩ := h
    have hlength := hsub.length_le
    simp at hlength
  | tooDeep n => exact .inr (.inl (congrArg Problem.tooDeep h))

/-- What can be said at the end. -/
theorem at_end_cases {source : Source} (h : source.text.utf8ByteSize ≤ Position.maxOffset)
    {d : Diagnostic} (hd : d ∈ (parse source).diagnostics) (hend : d.IsAtEnd source) :
    d.SaysEnded ∨ d.problem = .tooDeep maxNesting ∨ d.problem = .noOperand .eof "" := by
  obtain ⟨u, hu, hk, hposition⟩ := hend
  obtain ⟨before, t, after, htokens, hstart, htrue⟩ := parseWithin_told maxNesting source hd
  obtain rfl : u = t := by
    have hothers := start_ne_of_mem (htokens ▸ tokenize_starts h)
    rw [htokens, List.mem_append, List.mem_cons] at hu
    by_contra hne
    refine hothers u ?_ (hposition.symm.trans hstart)
    rw [List.mem_append]
    exact hu.imp_right fun hu => hu.resolve_left hne
  obtain ⟨-, rfl, hl⟩ := tokenize_eof htokens hk
  rcases htrue.at_end hk hl with ⟨expected, hproblem⟩ | hproblem
  · refine .inl ⟨expected, hproblem, ?_⟩
    rw [Diagnostic.tip, hproblem]
    rfl
  · exact .inr hproblem

/-- A diagnostic at the end says that the input ended, or that the limit was reached there, or else
that an operand is missing behind a token that awaits one. -/
theorem parse_says_what_ended (source : Source)
    (h : source.text.utf8ByteSize ≤ Position.maxOffset) :
    (∀ d ∈ (parse source).diagnostics, d.IsAtEnd source →
      d.SaysEnded ∨ d.problem = .tooDeep maxNesting ∨
        d.problem = .noOperand .eof "" ∧ AwaitsOperand (tokenize source).dropLast) ∧
    ((∀ d ∈ (parse source).diagnostics, d.IsAtEnd source →
      d.SaysEnded ∨ d.problem = .tooDeep maxNesting) ↔
        ∀ d ∈ (parse source).diagnostics, d.problem ≠ .noOperand .eof "") := by
  refine ⟨fun d hd hend => ?_, fun hall d hd hproblem => ?_, fun hnone d hd hend => ?_⟩
  · have hscan : (tokenize source).dropLast = Token.scan source.name 0 source.text.toList := by
      simp [tokenize]
    rw [hscan]
    refine (at_end_cases h hd hend).imp_right fun hor => hor.imp_right fun hproblem => ?_
    exact ⟨hproblem, awaitsOperand_of_noOperand hd hproblem⟩
  · obtain ⟨before, t, after, htokens, hstart, htrue⟩ := parseWithin_told maxNesting source hd
    rw [hproblem] at htrue
    have hend : d.IsAtEnd source := ⟨t, by simp [htokens], htrue.1.symm, hstart⟩
    rcases hall d hd hend with ⟨expected, hexpected, -⟩ | hdeep
    · rw [hproblem] at hexpected
      cases hexpected
    · rw [hproblem] at hdeep
      cases hdeep
  · exact (at_end_cases h hd hend).imp_right fun hor => hor.resolve_right (hnone d hd)

/-- Three constructs that are cut off behind a token that awaits nothing. -/
theorem unclosed_says_what_ended :
    let source : Source := ⟨"shell", "add(fn(a) \x7b if (a"⟩
    ∀ d ∈ (parse source).diagnostics, d.IsAtEnd source →
      d.SaysEnded ∨ d.problem = .tooDeep maxNesting :=
  (parse_says_what_ended ⟨"shell", "add(fn(a) \x7b if (a"⟩ (by decide)).2.2 (by decide +kernel)

/-- A binding that is cut off before its value has a tip about an expression that starts with
nothing. -/
theorem cut_binding_says_nothing :
    ¬ ∀ d ∈ (parse ⟨"shell", "let x ="⟩).diagnostics, d.IsAtEnd ⟨"shell", "let x ="⟩ →
      d.SaysEnded ∨ d.problem = .tooDeep maxNesting := by
  have hparse : (parse ⟨"shell", "let x ="⟩).diagnostics = [⟨.noOperand .eof "", ⟨7, "shell"⟩⟩] := by
    decide +kernel
  intro hall
  rw [hparse] at hall
  have hend : Diagnostic.IsAtEnd ⟨.noOperand .eof "", ⟨7, "shell"⟩⟩ ⟨"shell", "let x ="⟩ :=
    ⟨.endOfInput ⟨7, "shell"⟩, by decide +kernel, rfl, rfl⟩
  rcases hall _ List.mem_cons_self hend with ⟨expected, hproblem, -⟩ | hproblem
  · cases hproblem
  · cases hproblem

end LetLang
