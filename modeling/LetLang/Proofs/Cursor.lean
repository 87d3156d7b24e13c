import LetLang.Parser.Operation
import LetLang.Parser.Window
import LetLang.Proofs.Reading

/-! A parser is a cursor over the tokens of a lexer.

Whatever is asked of a parser, and whether it succeeds or fails, the parser stands at
an index of the tokens that the lexer had to yield: the token there is the current
one, the token after it is the next, and the last end is that of the token before.
The index is the number of tokens consumed. It never decreases, a step past a token
makes it one more, and a check that fails leaves it alone. A window over the lexer
that has consumed as many tokens shows the same (`parser_is_cursor`). -/
namespace LetLang
open LetLang.Parser
open Text (byteSize)

/-- The token at an index; behind the last one, which is the end, comes the end again. -/
def tokenAt (tokens : List Token) (i : Nat) : Option Token := tokens[min i (tokens.length - 1)]?

theorem tokenAt_append (ts : List Token) (finish : Token) (i : Nat) :
    tokenAt (ts ++ [finish]) i = some ((ts.drop i).headD finish) := by
  rw [tokenAt, List.length_append, List.length_singleton, Nat.add_sub_cancel]
  by_cases hi : i < ts.length
  · rw [Nat.min_eq_left (Nat.le_of_lt hi), List.getElem?_append_left hi, List.drop_eq_getElem_cons hi,
      List.headD_cons, List.getElem?_eq_getElem hi]
  · have hle : ts.length ≤ i := Nat.le_of_not_lt hi
    rw [Nat.min_eq_right hle, List.drop_eq_nil_of_le hle, List.headD_nil]
    simp

namespace Parser

/-- The parser stands at the index that is the number of tokens consumed, and a window that has
consumed as many shows what it sees. -/
structure State.StandsAmong (tokens : List Token) (window : Window) (s : State) : Prop where
  current : tokenAt tokens s.consumed = some s.current
  peek : tokenAt tokens (s.consumed + 1) = some s.peek
  lastEnd : some s.lastEnd =
    if s.consumed = 0 then (tokenAt tokens 0).map Token.start
    else (tokenAt tokens (s.consumed - 1)).map Token.stop
  window : ∃ w, window.advanceBy? s.consumed = some w ∧
    w.current = s.current ∧ w.peek = s.peek ∧ w.lastEnd = s.lastEnd

/-- How an operation moves the index: never back, one on for a single step, and not at all for a check
that fails, which changes nothing else either. -/
structure Operation.MovesIndex (op : Operation) (s : State) : Prop where
  onward : s.consumed ≤ (op.perform s).consumed
  advance : op = .advance → (op.perform s).consumed = s.consumed + 1
  check : op.isCheck → op.Fails s → op.perform s = s

/-! ### The window -/

/-- The window shows what the state sees, and its lexer reads on two tokens ahead. -/
structure Window.Shows (w : Window) (s : State) : Prop where
  current : w.current = s.current
  peek : w.peek = s.peek
  lastEnd : w.lastEnd = s.lastEnd
  reads : w.lexer.Reads (s.ahead.drop 2) s.finish

variable {w : Window} {s t : State} {l : Lexer} {ts : List Token} {finish : Position}

/-- Before anything is consumed. -/
theorem Window.shows_ofTokens (h : l.Reads ts finish) :
    ∃ w, Window.ofLexer? l = some w ∧ w.Shows (.ofTokens ts finish) := by
  obtain ⟨l', hcurrent, hrest⟩ := h.next
  obtain ⟨l'', hpeek, hreads⟩ := hrest.next
  refine ⟨⟨l'', ts.headD (.endOfInput finish), ts.tail.headD (.endOfInput finish),
    (ts.headD (.endOfInput finish)).start⟩, ?_, ⟨rfl, rfl, rfl, ?_⟩⟩
  · rw [Window.ofLexer?, hcurrent]
    simp only [Option.bind_eq_bind, Option.bind_some, hpeek]
    rfl
  · rwa [← List.drop_one, List.drop_tail] at hreads

/-- What becomes the next token is read from the lexer, and it is the one the state comes to. -/
theorem Window.Shows.advance (h : w.Shows s) :
    ∃ w', w.advance? = some w' ∧ w'.Shows s.advance := by
  obtain ⟨l', hnext, hreads⟩ := h.reads.next
  refine ⟨⟨l', w.peek, (s.ahead.drop 2).headD s.endToken, w.current.stop⟩, ?_, ⟨h.peek, ?_, ?_, ?_⟩⟩
  · rw [Window.advance?, hnext]
    rfl
  · rw [State.peek, State.ahead_advance, ← List.drop_one, List.drop_tail]
    rfl
  · exact congrArg Token.stop h.current
  · rw [State.ahead_advance, List.drop_tail]
    rwa [List.tail_drop] at hreads

/-! ### The state -/

/-- What is left of the tokens after the index, and where the token before it ended. -/
structure State.Along (ts : List Token) (finish : Position) (window : Window) (s : State) :
    Prop where
  ahead : s.ahead = ts.drop s.consumed
  ending : s.finish = finish
  lastEnd : some s.lastEnd =
    if s.consumed = 0 then (tokenAt (ts ++ [.endOfInput finish]) 0).map Token.start
    else (tokenAt (ts ++ [.endOfInput finish]) (s.consumed - 1)).map Token.stop
  window : ∃ w, window.advanceBy? s.consumed = some w ∧ w.Shows s

variable {window : Window}

theorem State.Along.current (h : s.Along ts finish window) :
    tokenAt (ts ++ [.endOfInput finish]) s.consumed = some s.current := by
  rw [tokenAt_append, ← h.ahead, ← h.ending]
  rfl

theorem State.Along.advance (h : s.Along ts finish window) : s.advance.Along ts finish window where
  ahead := by
    rw [State.ahead_advance, h.ahead, List.tail_drop]
    rfl
  ending := h.ending
  lastEnd := by
    show some s.current.stop = (tokenAt (ts ++ [.endOfInput finish]) s.consumed).map Token.stop
    rw [h.current]
    rfl
  window := by
    obtain ⟨w, hw, hshows⟩ := h.window
    obtain ⟨w', hw', hshows'⟩ := hshows.advance
    refine ⟨w', ?_, hshows'⟩
    show (window.advanceBy? s.consumed).bind Window.advance? = some w'
    rw [hw, Option.bind_some, hw']

/-- Neither what was reported nor how many levels are open makes a difference. -/
theorem State.Along.congr (h : s.Along ts finish window) (hahead : t.ahead = s.ahead)
    (hfinish : t.finish = s.finish) (hlast : t.lastEnd = s.lastEnd)
    (hconsumed : t.consumed = s.consumed) : t.Along ts finish window where
  ahead := by rw [hahead, hconsumed, h.ahead]
  ending := by rw [hfinish, h.ending]
  lastEnd := by rw [hlast, hconsumed, h.lastEnd]
  window := by
    obtain ⟨w, hw, hshows⟩ := h.window
    refine ⟨w, hconsumed ▸ hw, ⟨?_, ?_, ?_, ?_⟩⟩
    · rw [hshows.current, State.current, State.current, State.endToken, State.endToken, hahead, hfinish]
    · rw [hshows.peek, State.peek, State.peek, State.endToken, State.endToken, hahead, hfinish]
    · rw [hshows.lastEnd, hlast]
    · rw [hahead, hfinish]
      exact hshows.reads

/-- No step leaves the tokens, since the only one that moves consumes the token at the index. -/
theorem State.Steps.along (h : State.Steps s t) (hs : s.Along ts finish window) :
    t.Along ts finish window := by
  induction h with
  | refl => exact hs
  | advance _ ih => exact ih.advance
  | report _ _ ih => exact ih.congr rfl rfl rfl rfl
  | opened _ ih => exact ih.congr rfl rfl rfl rfl
  | closed _ ih => exact ih.congr rfl rfl rfl rfl

theorem State.Along.standsAmong (h : s.Along ts finish window) :
    s.StandsAmong (ts ++ [.endOfInput finish]) window where
  current := h.current
  peek := by
    rw [tokenAt_append, ← List.tail_drop, ← h.ahead, ← h.ending]
    rfl
  lastEnd := h.lastEnd
  window := by
    obtain ⟨w, hw, hshows⟩ := h.window
    exact ⟨w, hw, hshows.current, hshows.peek, hshows.lastEnd⟩

/-! ### Operations -/

theorem State.steps_performAll (s : State) (ops : List Operation) : s.Steps (s.performAll ops) := by
  induction ops generalizing s with
  | nil => exact .refl s
  | cons op ops ih => exact (op.parser.steps s).trans (ih (op.perform s))

namespace Operation

/-- What a parser that is run for its effect leaves behind if it does not succeed. -/
theorem perform_doing {α : Type} {p : Parser α} {t : State}
    (hfail : ∀ t, (doing p).run s ≠ .ok true t) (hp : ∀ d u, p.run s = .error d u → u = t) :
    ((doing p).run s).state = t := by
  simp only [doing, run_bind] at hfail ⊢
  cases hr : p.run s with
  | ok a u =>
    rw [hr] at hfail
    exact absurd rfl (hfail u)
  | error d u => exact hp d u hr

theorem expectOr_error {kind : Token.Kind} {d e : Diagnostic} {u : State}
    (h : (Parser.expectOr kind d).run s = .error e u) : u = s := by
  rw [run_expectOr] at h
  split at h
  · cases h
  · injection h with _ hu
    exact hu.symm

/-- A check that fails has done nothing. -/
theorem perform_check (op : Operation) (hop : op.isCheck) (hfail : op.Fails s) : op.perform s = s := by
  cases op with
  | expect kind => exact perform_doing hfail fun d u h => expectOr_error h
  | expectOr kind d => exact perform_doing hfail fun d u h => expectOr_error h
  | enter =>
    refine perform_doing hfail fun d u h => ?_
    simp only [Parser.enter] at h
    split at h
    · cases h
    · injection h with _ hu
      exact hu.symm
  | skip kind =>
    have hrun := run_skip kind s
    by_cases hk : s.current.kind = kind
    · rw [if_pos hk] at hrun
      exact absurd hrun (hfail s.advance)
    · rw [if_neg hk] at hrun
      exact congrArg Result.state hrun
  | _ => cases hop

theorem movesIndex (op : Operation) (s : State) : op.MovesIndex s where
  onward := (op.parser.steps s).consumed_le
  advance h := by
    rw [h]
    rfl
  check := op.perform_check

end Operation

/-- From any offset between two characters, and through any sequence of operations, a parser that took
over from a lexer stands among the tokens that the lexer yields up to the end. -/
theorem parser_is_cursor (source : Source) (front back : List Char)
    (h : source.text.toList = front ++ back) :
    ∃ tokens start window,
      ((Lexer.ofSource source).advance (byteSize front)).Yields tokens ∧
      State.ofLexer? ((Lexer.ofSource source).advance (byteSize front)) = some start ∧
      Window.ofLexer? ((Lexer.ofSource source).advance (byteSize front)) = some window ∧
      start.consumed = 0 ∧
      ∀ ops, (start.performAll ops).StandsAmong tokens window ∧
        ∀ op : Operation, op.MovesIndex (start.performAll ops) := by
  have hremainder : ((Lexer.ofSource source).advance (byteSize front)).remainder? = some back := by
    show (Text.splitAtByte? (0 + byteSize front) source.text.toList).map Prod.snd = some back
    rw [h, Nat.zero_add, Text.splitAtByte?_byteSize_append]
    rfl
  have hreads := Lexer.reads_of_remainder? hremainder
  generalize (Lexer.ofSource source).advance (byteSize front) = l at hremainder hreads ⊢
  generalize Token.scan l.source.name l.offset back = ts at hreads
  generalize (Token.scanEnd l.source.name l.offset back).start = finish at hreads
  obtain ⟨window, hwindow, hshows⟩ := Window.shows_ofTokens hreads
  have hstart : State.ofLexer? l = some (.ofTokens ts finish) := by
    rw [State.ofLexer?, hreads.1, hreads.2]
    rfl
  have hfirst : (State.ofTokens ts finish).Along ts finish window :=
    { ahead := rfl
      ending := rfl
      lastEnd := by
        rw [tokenAt_append]
        rfl
      window := ⟨window, rfl, hshows⟩ }
  refine ⟨_, _, window, hreads.yields, hstart, hwindow, rfl, fun ops => ⟨?_, fun op => op.movesIndex _⟩⟩
  exact ((State.steps_performAll _ ops).along hfirst).standsAmong

/-- Behind two dashes a binding is asked for, and two steps that go past the end. -/
theorem binding_behind_dashes :
    "-- let x = 1".toList = "-- ".toList ++ "let x = 1".toList ∧
      ∃ tokens start window,
        ((Lexer.ofSource ⟨"main", "-- let x = 1"⟩).advance (byteSize "-- ".toList)).Yields tokens ∧
        Window.ofLexer? ((Lexer.ofSource ⟨"main", "-- let x = 1"⟩).advance (byteSize "-- ".toList)) =
          some window ∧
        State.ofLexer? ((Lexer.ofSource ⟨"main", "-- let x = 1"⟩).advance (byteSize "-- ".toList)) =
          some start ∧
        (start.performAll [.binding, .advance, .advance]).StandsAmong tokens window := by
  have h : "-- let x = 1".toList = "-- ".toList ++ "let x = 1".toList := by decide
  obtain ⟨tokens, start, window, hyields, hstart, hwindow, -, hops⟩ :=
    parser_is_cursor ⟨"main", "-- let x = 1"⟩ "-- ".toList "let x = 1".toList h
  exact ⟨h, tokens, start, window, hyields, hwindow, hstart, (hops _).1⟩

end Parser
end LetLang
