import LetLang.Proofs.Acceptance
import LetLang.Proofs.Continuation
import LetLang.Proofs.Decided
import LetLang.Proofs.Trail.Basic
import LetLang.Proofs.Unfinished

/-! The first mistake is found at the earliest token.

Where the first diagnostic is about a token that should not be there, and the limit on
nesting has not been reached, the text before that token is the beginning of a program
without a mistake, and with the token, whatever comes after it, it is not
(`first_mistake_is_earliest`). A text whose first mistake is at its end is an unfinished
program. -/
namespace LetLang
open Grammar

/-- The diagnostic is about `t`, and no token before it is to blame: what stands before `t` may be the
beginning of a program without a mistake. Nor is one after it: unless `t` is the end, whatever comes
after it, the diagnostic comes first. -/
structure Diagnostic.EarliestAt (limit : Nat) (source : Source) (before : List Token) (t : Token)
    (after : List Token) (e : Diagnostic) : Prop where
  tokens : tokenize source = before ++ t :: after
  position : e.position = t.start
  quotes : e.problem.Quotes t
  completes : ∃ front rest c, source.text = front ++ (t.literal ++ rest) ∧
    t.start = .ofOffset source.name front.utf8ByteSize ∧ (t.kind = .eof → front = source.text) ∧
    (parseWithin limit ⟨source.name, front ++ " " ++ c⟩).diagnostics = []
  decides : t.kind ≠ .eof → ∀ more finish,
    (parseTokens limit (before ++ t :: more) finish).diagnostics.head? = some e

/-- How many levels are open where the first mistake is made. -/
def openAtMistake (source : Source) : Nat :=
  (Parser.untilMistake maxNesting (.ofSource source)).state.depth

namespace Parser

variable {limit : Nat} {source : Source} {e : Diagnostic} {u : State} {ts : List Token}

theorem untilMistake_of_head? {tokens : List Token} {finish : Position}
    (h : (parseTokens limit tokens finish).diagnostics.head? = some e) :
    ∃ u, untilMistake limit (.ofTokens tokens finish) = .error e u ∧ u.reported = #[] ∧
      u.depth ≤ (parseTokens limit tokens finish).deepest := by
  have hreports := untilMistake_reports limit tokens finish
  cases hr : untilMistake limit (.ofTokens tokens finish) with
  | ok p t =>
    rw [hr] at hreports
    rw [hreports.1] at h
    cases h
  | error d u =>
    rw [hr] at hreports
    obtain ⟨hhead, hu⟩ := hreports
    rw [h] at hhead
    cases hhead
    exact ⟨u, rfl, hu⟩

theorem untilMistake_of_source (h : (parseWithin limit source).diagnostics.head? = some e) :
    ∃ u, untilMistake limit (.ofSource source) = .error e u ∧ u.reported = #[] ∧
      u.depth ≤ (parseWithin limit source).deepest := untilMistake_of_head? h

/-- Where a run over a source stands among its tokens. Only at their end is nothing left behind. -/
theorem tokenize_of_steps (hsteps : State.Steps (.ofSource source) u)
    (hts : (State.ofSource source).ahead = ts ++ u.ahead) :
    tokenize source = ts ++ u.current :: u.stream.tail ∧
      (u.current.kind = .eof ↔ u.stream.tail = []) := by
  constructor
  · have hstream : tokenize source = (State.ofSource source).stream := rfl
    rw [hstream, ← u.stream_eq, State.stream, State.stream, hts, List.append_assoc,
      State.endToken, State.endToken, hsteps.finish]
  · cases hahead : u.ahead with
    | nil => simp [State.current, State.stream, hahead, State.endToken, Token.endOfInput]
    | cons t us =>
      have hmem : t ∈ (State.ofSource source).ahead := by simp [hts, hahead]
      simpa [State.current, State.stream, hahead] using Token.kind_of_mem_scan hmem

end Parser
open LetLang.Parser

theorem parseWithin_earliest (limit : Nat) (source : Source) {e : Diagnostic} {u : State}
    (hrun : untilMistake limit (.ofSource source) = .error e u) (hu : u.reported = #[])
    (he : Early limit e u) : ∃ before t after, e.EarliestAt limit source before t after := by
  have hhalts : (strictProgram (strictLevel limit limit)).Halts (.ofSource source) e u :=
    ⟨hrun, hu⟩
  obtain ⟨hposition, hquotes, before, kinds, hbefore, hkinds, hcompletes⟩ :=
    program_completes rfl he hhalts
  have hsteps := (strictProgram (strictLevel limit limit)).steps (.ofSource source)
  rw [hhalts.1] at hsteps
  obtain ⟨htokens, heof⟩ := tokenize_of_steps hsteps hbefore
  obtain ⟨front, rest, htext, hstart, hlast, hcontinuation⟩ := exists_continuation htokens
  obtain ⟨c, cs, hcs, hcontinued⟩ := hcontinuation kinds hkinds
  obtain ⟨xs, hd⟩ := hcompletes cs hcs
  have hcompletes : (parseWithin limit ⟨source.name, front ++ " " ++ c⟩).diagnostics = [] :=
    ((parseWithin_iff_derives limit _ xs).2 (hcontinued ▸ hd)).1
  refine ⟨before, u.current, u.stream.tail, htokens, hposition, hquotes,
    ⟨front, rest, c, htext, hstart, fun hk => hlast (heof.1 hk), hcompletes⟩, ?_⟩
  intro hk more finish
  obtain ⟨t, after, hahead⟩ := List.exists_cons_of_ne_nil (State.ahead_ne_nil hk)
  rw [State.current_of_ahead hahead]
  have hrun : untilMistake limit (.ofTokens (before ++ t :: after) (State.ofSource source).finish) =
      .error e u := by
    rw [← hahead, ← hbefore]
    exact hrun
  exact parseTokens_behind hrun hahead more finish

/-- The levels that are open at a mistake are among those that were open at once. -/
theorem openAtMistake_le_deepest {source : Source} {e : Diagnostic}
    (h : (parse source).diagnostics.head? = some e) :
    openAtMistake source ≤ (parse source).deepest := by
  obtain ⟨u, hrun, -, hdepth⟩ := untilMistake_of_source h
  rw [openAtMistake, hrun]
  exact hdepth

/-- The first diagnostic, if it is about a token that should not be there and the limit on nesting is
not reached, is found at the earliest token that can be to blame. -/
theorem first_mistake_is_earliest (source : Source) {e : Diagnostic}
    (hfirst : (parse source).diagnostics.head? = some e) (hproblem : e.problem.isMisplaced)
    (hdepth : openAtMistake source < maxNesting) :
    ∃ before t after, e.EarliestAt maxNesting source before t after := by
  obtain ⟨u, hrun, hu, -⟩ := untilMistake_of_source hfirst
  rw [openAtMistake, hrun] at hdepth
  exact parseWithin_earliest maxNesting source hrun hu ⟨hproblem, hdepth⟩

/-- The second argument of the call in the block is missing. -/
theorem missing_argument_is_earliest :
    let source : Source := ⟨"shell", "if (a) \x7b f(1, ) \x7d else \x7b"⟩
    let e : Diagnostic := ⟨.noOperand .closeParen ")", ⟨14, "shell"⟩⟩
    (parse source).diagnostics.head? = some e ∧ e.problem.isMisplaced ∧
      openAtMistake source < maxNesting ∧
      ∃ before t after, e.EarliestAt maxNesting source before t after := by
  intro source e
  have hfirst : (parse source).diagnostics.head? = some e := by decide +kernel
  have hdepth : openAtMistake source < maxNesting := by decide +kernel
  exact ⟨hfirst, rfl, hdepth, first_mistake_is_earliest source hfirst rfl hdepth⟩

end LetLang
