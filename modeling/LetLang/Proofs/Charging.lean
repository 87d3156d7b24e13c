import LetLang.Proofs.Charging.Constructs
import LetLang.Proofs.Progress

/-! A mistake does not set off others.

The calls for a statement that parsing a source makes start at different tokens, and
each diagnostic is the mistake of one call that failed. So the diagnostics and the
statements of the program are together no more than the tokens of the source
(`mistakes_and_statements`). -/
namespace LetLang
open LetLang.Parser

/-- The tokens of a source without the one for its end. -/
def ownTokens (source : Source) : List Token := (tokenize source).filter fun t => t.kind ≠ .eof

theorem ownTokens_eq (source : Source) : ownTokens source = (State.ofSource source).ahead := by
  have hown : ∀ t ∈ (State.ofSource source).ahead, decide (t.kind ≠ .eof) = true := by
    intro t ht
    exact decide_eq_true (Token.kind_of_mem_scan ht)
  show ((State.ofSource source).ahead ++ [_]).filter _ = _
  rw [List.filter_append, List.filter_eq_self.2 hown]
  exact List.append_nil _

namespace Parser

/-- A program ends when every token was consumed, and none of them twice. -/
theorem consumed_program {limit n : Nat} {s t : State} {p : Program}
    (h : (program (level limit n)).run s = .ok p t) :
    t.consumed = s.consumed + s.ahead.length := by
  have hmoves : Moves Onward s (fun _ t => t.ahead.head?.isNone = true)
      ((program (level limit n)).run s) := by
    apply moves_bind (statements_onward (level_careful limit n) careful_resumeOutside (.refl s))
    exact fun _ _ hu hend => moves_pure hu hend
  rw [h] at hmoves
  obtain ⟨⟨m, hm⟩, hend⟩ := hmoves
  have hnil : t.ahead = [] := by simpa using hend
  have hlength := hm.length_ahead
  rw [hm.consumed, hlength, hnil, List.length_nil, Nat.add_zero]

/-- Where a state stands among the tokens that were ahead. -/
theorem State.Steps.current {s t : State} (h : s.Steps t) (hs : s.consumed = 0)
    (ht : t.ahead ≠ []) : s.ahead[t.consumed]? = some t.current := by
  obtain ⟨n, hn, hd⟩ := h.exists_drop
  obtain ⟨x, xs, hx⟩ := List.exists_cons_of_ne_nil ht
  rw [hn, hs, Nat.zero_add, State.current, hx, List.headD_cons, ← List.head?_drop, ← hd, hx]
  rfl

end Parser

/-- Every call for a statement starts at a token of its own, which is not the end; every diagnostic is
the mistake of one failed call, in the order in which the calls end; and there are at least as many
tokens as diagnostics and statements, blocks at any depth included. -/
theorem mistakes_and_statements (source : Source) :
    (∀ c ∈ calls source, (ownTokens source)[c.index]? = some c.start.current) ∧
    ((calls source).map Call.index).Nodup ∧
    (parse source).diagnostics = (calls source).filterMap Call.mistake ∧
    (parse source).diagnostics.length + (parse source).program.count ≤
      (ownTokens source).length := by
  obtain ⟨p, t, hrun, hparse⟩ := parseWithin_eq maxNesting source
  have hcharged := Traced.program_charges (Traced.level_charges maxNesting maxNesting)
    (.ofSource source)
  rw [Traced.ChargesAt, Traced.parser_program, Traced.parsers_level, hrun] at hcharged
  have hdiagnostics : (parse source).diagnostics = (calls source).filterMap Call.mistake := by
    rw [parse, hparse]
    exact hcharged.reports
  rw [ownTokens_eq]
  refine ⟨?_, hcharged.apart.nodup, hdiagnostics, ?_⟩
  · intro c hc
    obtain ⟨hsteps, hahead⟩ := hcharged.apart.reach c hc
    exact hsteps.current rfl hahead
  · have hpays : 0 + p.count + (mistakes (calls source)).length ≤ t.consumed :=
      hcharged.pays p t rfl
    have hconsumed : t.consumed = 0 + (State.ofSource source).ahead.length :=
      consumed_program hrun
    rw [hdiagnostics, parse, hparse]
    show (mistakes (calls source)).length + p.count ≤ _
    omega

-- two statements of a block fail, and neither the block nor what comes behind it does
example :
    (calls ⟨"shell", "\x7b let = 1; x ) 2 \x7d a"⟩).map (fun c => (c.index, c.mistake.isSome)) =
      [(1, true), (5, false), (6, true), (0, false), (9, false)] := by decide +kernel

end LetLang
