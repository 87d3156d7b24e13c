import LetLang.Parse
import LetLang.Proofs.Front
import LetLang.Proofs.Lexing
import LetLang.Proofs.Parallel.Constructs

/-! Parsing in two parts.

If the last token of a text is a semicolon and all its braces are closed, what is
wrong in it does not leak into a text behind it: the two are parsed as they are
on their own (`parse_append`), with one exception. Where the last statement of
the first text is a mistake and the second text begins with a closing brace,
recovery passes the brace, and the complaint about it is lost
(`brace_after_mistake_is_lost`). -/
namespace LetLang
open Text (byteSize)

namespace Parser
open Token (Kind)

variable {s t : State} (limit n : Nat)

theorem current_kind_iff {kind : Kind} (hk : kind ≠ .eof) :
    s.current.kind = kind ↔ s.ahead.head?.map Token.kind = some kind := by
  cases hs : s.ahead with
  | nil => simp [State.current, hs, State.endToken, Token.endOfInput, hk.symm]
  | cons x xs => simp [State.current, hs]

/-! ### A closing brace outside all blocks -/

theorem expr_at_brace (bound : Power) (h : s.current.kind = .closeCurly) :
    ∃ d t, ((level limit n).expr bound).run s = .error d t ∧ t.ahead = s.ahead ∧
      t.reported = s.reported ∧ t.finish = s.finish := by
  cases n with
  | zero => exact ⟨_, s, rfl, rfl, rfl, rfl⟩
  | succ n =>
    have hrun : (operand (level limit n)).run s.opened =
        .error ⟨noOperand s.current, s.position⟩ s.opened := by
      have hcurrent : s.opened.current = s.current := rfl
      simp only [operand, run_bind, run_current, hcurrent, h]
      rfl
    refine ⟨⟨noOperand s.current, s.position⟩, s.opened.closed, ?_, rfl, rfl, rfl⟩
    simp only [level, nest, expression, run_bind, hrun]

/-- The brace makes no statement. It is complained about and passed. -/
theorem recovering_at_brace (h : s.current.kind = .closeCurly) :
    ∃ d t, (recovering (statement (level limit n)) resumeOutside).run s = .ok none t ∧
      t.ahead = s.ahead.tail ∧ t.reported.toList = s.reported.toList ++ [d] ∧
      t.finish = s.finish := by
  obtain ⟨d, t, ht, hahead, hreported, hfinish⟩ := expr_at_brace limit n .lowest h
  obtain ⟨x, xs, hs⟩ := List.exists_cons_of_ne_nil (State.ahead_ne_nil (s := s) (by simp [h]))
  have hx : x.kind = .closeCurly := by simpa [State.current, hs] using h
  have hrun : (statement (level limit n)).run s = .error d t := by
    simp only [run_statement, h, statementFrom, expressionStatement, run_terminated, run_bind,
      run_current, ht]
  have hsync : (t.report d).synchronized = t.report d := by
    rw [State.synchronized, State.ahead_report, hahead, hs]
    simp [boundary, hx, State.advanceBy]
  have hcurrent : (t.report d).current = x := by simp [State.current, hahead, hs]
  refine ⟨d, (t.report d).advance, ?_, by simp [hahead],
    by simp [State.advance, State.report, hreported], hfinish⟩
  rw [run_recovering, hrun]
  simp only [run_resumeOutside, hsync, State.past, hcurrent, hx, if_true]

/-! ### The same tokens further on -/

/-- All tokens stand as many bytes further on in the second run. -/
def Matching.shifting (n : Nat) (finish : Position) (earlier earlier' : List Diagnostic) :
    Matching where
  redraw := .shift n
  hides _ := false
  finish
  earlier
  earlier'
  streams ts us := us = Token.shifted n ts
  empties_open h := by cases h
  hides_finish := rfl
  nil h := h
  cons h _ := ⟨rfl, _, h, rfl⟩
  emptied _ h := by cases h

theorem diagnostics_shifting {finish : Position} {earlier earlier' : List Diagnostic}
    (ds : List Diagnostic) : (Matching.shifting n finish earlier earlier').diagnostics ds =
      ds.map (Redraw.shift n).diagnostic := by
  have hall :
      ds.filter (fun d => !(Matching.shifting n finish earlier earlier').hides d.position) = ds :=
    List.filter_eq_self.2 fun _ _ => rfl
  rw [Matching.diagnostics, hall]
  rfl

/-- The rest of a program, once on its own and once behind what was parsed before. -/
theorem program_shifting {B T : State} {k : Nat} (hB : B.Sorted)
    (ahead : T.ahead = Token.shifted k B.ahead)
    (finish : T.finish = (Redraw.shift k).move B.finish) :
    ∃ p u v ds, (program (level limit n)).run B = .ok p u ∧
      (program (level limit n)).run T = .ok ((Redraw.shift k).program p) v ∧
      u.reported.toList = B.reported.toList ++ ds ∧
      v.reported.toList = T.reported.toList ++ ds.map (Redraw.shift k).diagnostic := by
  let m := Matching.shifting k B.finish B.reported.toList T.reported.toList
  have haligned : m.Aligned B T := by
    refine ⟨hB, ahead, rfl, finish, [], (List.append_nil _).symm, ?_⟩
    rw [diagnostics_shifting, List.map_nil, List.append_nil]
    rfl
  have hagree := Matching.program_agrees limit n haligned
  obtain ⟨p, u, hu⟩ := program_succeeds (level limit n) B
  obtain ⟨q, v, hv⟩ := program_succeeds (level limit n) T
  rw [hu, hv] at hagree
  obtain ⟨rfl, haligned'⟩ := hagree
  obtain ⟨ds, hds, hds'⟩ := haligned'.reported
  rw [diagnostics_shifting] at hds'
  exact ⟨p, u, v, ds, hu, hv, hds, hds'⟩

/-! ### One program behind another -/

/-- Recovery from a mistake in the last statement passes a closing brace that follows it. -/
def BraceIsLost (p : Program) (semicolon : Token) (following : List Token) : Prop :=
  ¬ p.EndsAt semicolon.stop ∧ following.head?.map Token.kind = some .closeCurly

instance (p : Program) (semicolon : Token) (following : List Token) :
    Decidable (BraceIsLost p semicolon following) := inferInstanceAs (Decidable (_ ∧ _))

/-- A program behind another is parsed as it is on its own, but for a brace that is lost. -/
theorem program_behind {s B : State} {semicolon : Token} (h : SelfContained semicolon s)
    (hB : B.Placed) (hreported : B.reported = #[]) (k : Nat) :
    ∃ p t q u r v lost kept, (program (level limit n)).run s = .ok p t ∧
      (program (level limit n)).run B = .ok q u ∧
      (program (level limit n)).run
        (s.extend (Token.shifted k B.ahead) ((Redraw.shift k).move B.finish)) = .ok r v ∧
      r.statements = p.statements ++ (Redraw.shift k).stmts q.statements ∧
      u.reported.toList = lost ++ kept ∧
      lost.length = (if BraceIsLost p semicolon B.ahead then 1 else 0) ∧
      v.reported.toList = t.reported.toList ++ kept.map (Redraw.shift k).diagnostic := by
  obtain ⟨p, t, hp, ht, hrest⟩ := program_front limit n h
    (Token.shifted k B.ahead) ((Redraw.shift k).move B.finish)
  let T := t.extend (Token.shifted k B.ahead) ((Redraw.shift k).move B.finish)
  have hT : T.ahead = Token.shifted k B.ahead := by simp [T, State.extend, ht]
  have hbrace : T.current.kind = .closeCurly ↔ B.ahead.head?.map Token.kind = some .closeCurly := by
    rw [current_kind_iff (by decide), hT, Token.shifted, List.head?_map, Option.map_map]
    rfl
  by_cases hlost : BraceIsLost p semicolon B.ahead
  · obtain ⟨hends, hcurrent⟩ := hlost
    have hresumed : resumed (!decide (p.EndsAt semicolon.stop)) (Token.shifted k B.ahead)
        ((Redraw.shift k).move B.finish) t = T.advance := by
      simp [resumed, hends, State.past, T, hbrace.2 hcurrent]
    obtain ⟨d, B', hB', hahead, hreported', hfinish⟩ := recovering_at_brace limit n
      ((current_kind_iff (by decide)).2 hcurrent)
    have hplaced : B'.Placed := by
      have hsteps := (recovering (statement (level limit n)) resumeOutside).steps B
      rw [hB'] at hsteps
      exact hsteps.placed hB
    have hT' : T.advance.ahead = Token.shifted k B'.ahead := by
      rw [State.ahead_advance, hT, hahead, Token.shifted, Token.shifted, List.map_tail]
    obtain ⟨q, u, v, ds, hq, hv, hds, hds'⟩ := program_shifting limit n
      hplaced.sorted hT' (by rw [hfinish]; rfl)
    have hne : B.ahead ≠ [] := by
      intro hnil
      simp [hnil] at hcurrent
    have hrun := run_program hne hB' hq
    rw [hresumed] at hrest
    refine ⟨p, t, _, u, _, v, [d], ds, hp, hrun, hrest _ v hv, rfl, ?_, ?_, hds'⟩
    · rw [hds, hreported', hreported]
      rfl
    · rw [if_pos ⟨hends, hcurrent⟩]
      rfl
  · have hresumed : resumed (!decide (p.EndsAt semicolon.stop)) (Token.shifted k B.ahead)
        ((Redraw.shift k).move B.finish) t = T := by
      by_cases hends : p.EndsAt semicolon.stop
      · simp [resumed, hends, T]
      · have hcurrent : T.current.kind ≠ .closeCurly := fun hk => hlost ⟨hends, hbrace.1 hk⟩
        simp [resumed, hends, State.past, T, hcurrent]
    obtain ⟨q, u, v, ds, hq, hv, hds, hds'⟩ := program_shifting limit n hB.sorted hT rfl
    rw [hresumed] at hrest
    refine ⟨p, t, q, u, _, v, [], ds, hp, hq, hrest _ v hv, rfl, ?_, ?_, hds'⟩
    · rw [hds, hreported]
    · rw [if_neg hlost]
      rfl

end Parser

open LetLang.Parser

/-! ### One text behind another -/

theorem ofSource_append {name a b : String} {semicolon : Token}
    (hlast : (Token.scan name 0 a.toList).getLast? = some semicolon)
    (hkind : semicolon.kind = .semicolon)
    (hsize : (a ++ b).utf8ByteSize ≤ Position.maxOffset) :
    State.ofSource ⟨name, a ++ b⟩ = (State.ofSource ⟨name, a⟩).extend
      (Token.shifted a.utf8ByteSize (Token.scan name 0 b.toList))
      ((Redraw.shift a.utf8ByteSize).move (Token.scanEnd name 0 b.toList).start) := by
  have hbytes := Text.byteSize_toList a
  have hmax : 0 + byteSize b.toList + a.utf8ByteSize ≤ Position.maxOffset := by
    rw [String.utf8ByteSize_append] at hsize
    rw [Text.byteSize_toList]
    omega
  have hends : ¬ Token.RunsOn (Token.scan name 0 a.toList) (Token.scanEnd name 0 a.toList).start
      b.toList := by
    rintro ⟨t, ht, -, c, -, hgoes⟩
    obtain rfl : semicolon = t := Option.some.inj (hlast.symm.trans ht)
    rw [hkind] at hgoes
    cases hgoes
  have htokens : Token.scan name 0 (a ++ b).toList = Token.scan name 0 a.toList ++
      Token.shifted a.utf8ByteSize (Token.scan name 0 b.toList) := by
    rw [String.toList_append, Token.scan_append hends, hbytes, Token.scan_shift hmax]
  have hend : (Token.scanEnd name 0 (a ++ b).toList).start =
      (Redraw.shift a.utf8ByteSize).move (Token.scanEnd name 0 b.toList).start := by
    rw [← Redraw.start_token, ← Token.scanEnd_shift hmax, Token.start_scanEnd, Token.start_scanEnd,
      String.toList_append, Text.byteSize_append, hbytes, Nat.add_assoc]
  obtain ⟨t, ts, hts⟩ : ∃ t ts, Token.scan name 0 a.toList = t :: ts := by
    cases hscan : Token.scan name 0 a.toList with
    | nil => simp [hscan] at hlast
    | cons t ts => exact ⟨t, ts, rfl⟩
  simp only [State.ofSource, State.ofTokens, State.extend, htokens, hend, hts]
  rfl

theorem placed_ofSource (name : String) {a : String} (hsize : a.utf8ByteSize ≤ Position.maxOffset) :
    (State.ofSource ⟨name, a⟩).Placed := by
  have hmax : 0 + byteSize a.toList ≤ Position.maxOffset := by
    rw [Text.byteSize_toList]
    omega
  exact placed_ofTokens (Token.scan_ordered hmax)

/-- What is parsed in two parts, and how many diagnostics are lost. -/
theorem parseWithin_append (limit : Nat) {name a b : String} {semicolon : Token}
    (hlast : (Token.scan name 0 a.toList).getLast? = some semicolon)
    (hkind : semicolon.kind = .semicolon) (hclosed : unclosed 0 (Token.scan name 0 a.toList) = 0)
    (hsize : (a ++ b).utf8ByteSize ≤ Position.maxOffset) :
    ∃ lost kept, (parseWithin limit ⟨name, b⟩).diagnostics = lost ++ kept ∧
      lost.length = (if BraceIsLost (parseWithin limit ⟨name, a⟩).program semicolon
        (Token.scan name 0 b.toList) then 1 else 0) ∧
      (parseWithin limit ⟨name, a ++ b⟩).program.statements =
        (parseWithin limit ⟨name, a⟩).program.statements ++
          (Redraw.shift a.utf8ByteSize).stmts (parseWithin limit ⟨name, b⟩).program.statements ∧
      (parseWithin limit ⟨name, a ++ b⟩).diagnostics =
        (parseWithin limit ⟨name, a⟩).diagnostics ++
          kept.map (Redraw.shift a.utf8ByteSize).diagnostic := by
  have hsizes := hsize
  rw [String.utf8ByteSize_append] at hsizes
  have hcontained : SelfContained semicolon (State.ofSource ⟨name, a⟩) :=
    ⟨placed_ofSource name (by omega), hkind, List.getLast?_eq_some_iff.1 hlast, hclosed⟩
  have hplaced : (State.ofSource ⟨name, b⟩).Placed := placed_ofSource name (by omega)
  obtain ⟨p, t, q, u, r, v, lost, kept, hp, hq, hr, hstatements, hlost, hlength, hkept⟩ :=
    program_behind limit limit hcontained hplaced rfl a.utf8ByteSize
  have hr : (program (level limit limit)).run (.ofSource ⟨name, a ++ b⟩) = .ok r v := by
    rw [ofSource_append hlast hkind hsize]
    exact hr
  obtain ⟨_, _, hp', hparse⟩ := parseWithin_eq limit ⟨name, a⟩
  obtain ⟨_, _, hq', hparse'⟩ := parseWithin_eq limit ⟨name, b⟩
  obtain ⟨_, _, hr', hparse''⟩ := parseWithin_eq limit ⟨name, a ++ b⟩
  rw [hp] at hp'
  rw [hq] at hq'
  rw [hr] at hr'
  cases hp'
  cases hq'
  cases hr'
  rw [hparse, hparse', hparse'']
  exact ⟨lost, kept, hlost, hlength, hstatements, hkept⟩

/-- Behind a text that ends with a semicolon and closes its braces, a text is parsed as it is on its
own. All that can be lost is the complaint about a closing brace at its start, and it is lost just
when the last statement before it is a mistake. -/
theorem parse_append {name a b : String} {semicolon : Token}
    (hlast : (Token.scan name 0 a.toList).getLast? = some semicolon)
    (hkind : semicolon.kind = .semicolon) (hclosed : unclosed 0 (Token.scan name 0 a.toList) = 0)
    (hsize : (a ++ b).utf8ByteSize ≤ Position.maxOffset) :
    (parse ⟨name, a ++ b⟩).program.statements = (parse ⟨name, a⟩).program.statements ++
      (Redraw.shift a.utf8ByteSize).stmts (parse ⟨name, b⟩).program.statements ∧
    ((parse ⟨name, a ++ b⟩).diagnostics = (parse ⟨name, a⟩).diagnostics ++
        (parse ⟨name, b⟩).diagnostics.map (Redraw.shift a.utf8ByteSize).diagnostic ↔
      ¬ BraceIsLost (parse ⟨name, a⟩).program semicolon (Token.scan name 0 b.toList)) ∧
    (BraceIsLost (parse ⟨name, a⟩).program semicolon (Token.scan name 0 b.toList) →
      (parse ⟨name, a ++ b⟩).diagnostics = (parse ⟨name, a⟩).diagnostics ++
        (parse ⟨name, b⟩).diagnostics.tail.map (Redraw.shift a.utf8ByteSize).diagnostic) := by
  obtain ⟨lost, kept, hlost, hlength, hstatements, hkept⟩ :=
    parseWithin_append maxNesting hlast hkind hclosed hsize
  simp only [parse]
  rw [hlost, hkept]
  by_cases hbrace : BraceIsLost (parseWithin maxNesting ⟨name, a⟩).program semicolon
      (Token.scan name 0 b.toList)
  · rw [if_pos hbrace] at hlength
    obtain ⟨d, rfl⟩ := List.length_eq_one_iff.1 hlength
    refine ⟨hstatements, ⟨fun heq => ?_, fun hnot => absurd hbrace hnot⟩, fun _ => rfl⟩
    have := congrArg List.length heq
    simp only [List.length_append, List.length_map, List.length_cons, List.length_nil] at this
    omega
  · rw [if_neg hbrace] at hlength
    obtain rfl := List.length_eq_zero_iff.1 hlength
    exact ⟨hstatements, ⟨fun _ => hbrace, fun _ => rfl⟩, fun h => absurd h hbrace⟩

/-- The mistake is not in the last statement, so the brace behind it is complained about. -/
theorem mistakes_before_brace_are_kept :
    (parse ⟨"shell", "@;x;" ++ "\x7dy"⟩).program.statements =
      (parse ⟨"shell", "@;x;"⟩).program.statements ++
        (Redraw.shift 4).stmts (parse ⟨"shell", "\x7dy"⟩).program.statements ∧
    (parse ⟨"shell", "@;x;" ++ "\x7dy"⟩).diagnostics = (parse ⟨"shell", "@;x;"⟩).diagnostics ++
      (parse ⟨"shell", "\x7dy"⟩).diagnostics.map (Redraw.shift 4).diagnostic := by
  have hlast : (Token.scan "shell" 0 "@;x;".toList).getLast? =
      some ⟨.semicolon, ";", .ofOffsets "shell" 3 4⟩ := by decide +kernel
  have hsize : ("@;x;" ++ "\x7dy").utf8ByteSize ≤ Position.maxOffset := by decide +kernel
  have h := parse_append hlast rfl (by decide +kernel) hsize
  exact ⟨h.1, h.2.1.2 (by decide +kernel)⟩

/-- On its own the brace is complained about, behind the mistake it is not. -/
theorem brace_after_mistake_is_lost :
    (Token.scan "shell" 0 "@;".toList).getLast?.map Token.kind = some .semicolon ∧
    unclosed 0 (Token.scan "shell" 0 "@;".toList) = 0 ∧
    (parse ⟨"shell", "@;" ++ "\x7d"⟩).diagnostics ≠ (parse ⟨"shell", "@;"⟩).diagnostics ++
      (parse ⟨"shell", "\x7d"⟩).diagnostics.map (Redraw.shift 2).diagnostic :=
  ⟨by decide +kernel, by decide +kernel, by decide +kernel⟩

end LetLang
