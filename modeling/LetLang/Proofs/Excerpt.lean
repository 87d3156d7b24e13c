import LetLang.Proofs.Concatenation
import LetLang.Proofs.Coverage
import LetLang.Proofs.Cut
import LetLang.Proofs.Occurrence
import LetLang.Proofs.Tiling
import LetLang.Proofs.Unlimited

/-! A statement on its own.

The text that the span of a statement covers has the tokens of the statement and no
others (`scan_excerpt`). The run that found the statement does not depend on what
comes after it, nor on where it stands, nor, if nothing was refused, on how many
levels were open. So the text is parsed to that statement alone, with what was found
wrong inside it (`statement_stands_alone`). -/
namespace LetLang
open Text (byteSize)

/-! ### A part of a text -/

namespace Token
open Lexeme (Longest)

variable {file : String} {offset : Nat} {cs : List Char} {ts us vs : List Token} {t : Token}

/-- The text from a token on. -/
theorem Tiles.behind (h : Tiles file offset cs (ts ++ t :: us)) :
    ∃ before rest, cs = before ++ rest ∧ t.start = .ofOffset file (offset + byteSize before) ∧
      Tiles file (offset + byteSize before) rest (t :: us) := by
  generalize hall : ts ++ t :: us = all at h
  induction h generalizing ts with
  | @done offset gap hgap =>
    obtain ⟨rfl, rfl, rfl⟩ : ts = [] ∧ t = _ ∧ us = [] := by
      cases ts with
      | nil => exact ⟨rfl, List.cons.inj hall⟩
      | cons y ys => simp at hall
    exact ⟨gap, [], by simp, rfl, .done (by simp)⟩
  | @next offset _ _ gap text rest kind _ hgap htext hstart hstop hrest ih =>
    subst hstart hstop
    cases ts with
    | nil =>
      obtain ⟨rfl, rfl⟩ := List.cons.inj hall
      have htiles : Tiles file (offset + byteSize gap) ([] ++ (text ++ rest)) _ :=
        .next (by simp) htext rfl rfl hrest
      exact ⟨gap, text ++ rest, rfl, rfl, htiles⟩
    | cons y ys =>
      obtain ⟨-, hall⟩ := List.cons.inj hall
      obtain ⟨before, rest, rfl, hstart, htiles⟩ := ih hall
      have hplace : offset + byteSize (gap ++ (text ++ before)) =
          offset + byteSize gap + byteSize text + byteSize before := by
        simp only [Text.byteSize_append, Nat.add_assoc]
      refine ⟨gap ++ (text ++ before), rest, by simp, ?_, ?_⟩
      · rw [hplace, hstart]
      · rwa [hplace]

/-- The text up to a token. -/
theorem Tiles.upTo (h : Tiles file offset cs (ts ++ t :: us)) (hus : us ≠ []) :
    ∃ front rest, cs = front ++ rest ∧ t.stop = .ofOffset file (offset + byteSize front) ∧
      Tiles file offset front
        (ts ++ [t, endOfInput (.ofOffset file (offset + byteSize front))]) := by
  generalize hall : ts ++ t :: us = all at h
  induction h generalizing ts with
  | @done offset gap hgap =>
    obtain ⟨-, -, rfl⟩ : ts = [] ∧ t = _ ∧ us = [] := by
      cases ts with
      | nil => exact ⟨rfl, List.cons.inj hall⟩
      | cons y ys => simp at hall
    exact absurd rfl hus
  | @next offset _ _ gap text rest kind _ hgap htext hstart hstop hrest ih =>
    subst hstart hstop
    cases ts with
    | nil =>
      obtain ⟨rfl, rfl⟩ := List.cons.inj hall
      have hplace : offset + byteSize (gap ++ (text ++ [])) =
          offset + byteSize gap + byteSize text := by
        simp only [Text.byteSize_append, Text.byteSize_nil, Nat.add_zero, Nat.add_assoc]
      have htext : Longest kind text [] :=
        (show Longest kind text ([] ++ rest) from htext).truncate
      have hend : Tiles file (offset + byteSize gap + byteSize text) []
          [endOfInput (.ofOffset file (offset + byteSize gap + byteSize text))] := .done (by simp)
      refine ⟨gap ++ (text ++ []), rest, by simp, ?_, ?_⟩
      · rw [hplace]
        rfl
      · rw [hplace]
        exact .next hgap htext rfl rfl hend
    | cons y ys =>
      obtain ⟨rfl, hys⟩ := List.cons.inj hall
      obtain ⟨front, rest, rfl, hstop, htiles⟩ := ih hys
      have hplace : offset + byteSize (gap ++ (text ++ front)) =
          offset + byteSize gap + byteSize text + byteSize front := by
        simp only [Text.byteSize_append, Nat.add_assoc]
      refine ⟨gap ++ (text ++ front), rest, by simp, by rw [hplace, hstop], ?_⟩
      rw [hplace]
      exact .next hgap htext.truncate rfl rfl htiles

/-- The text from the first of some tokens to the last has just these tokens. -/
theorem scan_excerpt {first : Token}
    (hmax : byteSize cs ≤ Position.maxOffset) (h : scan file 0 cs = ts ++ (first :: us) ++ vs) :
    ∃ before excerpt after, cs = before ++ (excerpt ++ after) ∧
      Span.covering first us =
        .ofOffsets file (byteSize before) (byteSize before + byteSize excerpt) ∧
      shifted (byteSize before) (scan file 0 excerpt) = first :: us ∧
      (Redraw.shift (byteSize before)).move (scanEnd file 0 excerpt).start =
        (Span.covering first us).stop := by
  have htiles := tiles_scan file 0 cs
  rw [h, List.append_assoc, List.append_assoc, List.cons_append] at htiles
  obtain ⟨before, rest, rfl, hstart, htiles⟩ := htiles.behind
  obtain ⟨init, last, hlast⟩ := (List.eq_nil_or_concat (first :: us)).resolve_left (by simp)
  rw [List.concat_eq_append] at hlast
  rw [← List.cons_append, hlast, List.append_assoc] at htiles
  obtain ⟨excerpt, after, rfl, hstop, htiles⟩ := htiles.upTo (by simp)
  rw [Nat.zero_add] at hstart hstop htiles
  have hcovering : Span.covering first us =
      .ofOffsets file (byteSize before) (byteSize before + byteSize excerpt) := by
    rw [Span.covering_eq hlast, hstart, hstop]
    rfl
  have hsize : 0 + byteSize excerpt + byteSize before ≤ Position.maxOffset := by
    simp only [Text.byteSize_append] at hmax
    omega
  have hscan := htiles.eq_scan
  have hend : (scanEnd file (0 + byteSize before) excerpt).start = _ :=
    congrArg start (scanEnd_shift hsize)
  rw [List.append_cons] at hscan
  obtain ⟨hscan, -⟩ := List.append_inj' hscan rfl
  rw [← hlast] at hscan
  refine ⟨before, excerpt, after, rfl, hcovering, ?_, ?_⟩
  · rw [← scan_shift hsize, Nat.zero_add, ← hscan]
  · rw [← Redraw.start_token, ← hend, Nat.zero_add, hcovering]
    rfl

/-- Tokens in order are in order up to the end of any of them. -/
theorem Ordered.upTo {place : Nat} {finish : Position}
    (h : Ordered place finish (ts ++ t :: us)) : Ordered place t.stop (ts ++ [t]) := by
  induction ts generalizing place with
  | nil =>
    obtain ⟨hle, hlt, -⟩ := h
    exact ⟨hle, hlt, Nat.le_refl _⟩
  | cons y ys ih =>
    obtain ⟨hle, hlt, hys⟩ := h
    exact ⟨hle, hlt, ih hys⟩

end Token

/-- The place is one of those from the start of the span up to its end. -/
def Span.holds (s : Span) (p : Position) : Bool :=
  decide (s.start.offset ≤ p.offset ∧ p.offset < s.stop.offset)

/-- All statements of the program, at any depth. -/
def Program.allStatements (p : Program) : List Stmt :=
  p.statements ++ p.blocks.flatMap Block.statements

/-! ### A run that can be anywhere -/

namespace Parser
open Token (Ordered)

variable {limit n : Nat} {u v : State} {x : Stmt}

/-- A statement spans the tokens that were consumed for it. -/
theorem span_of_run (hu : u.Placed) (hr : (statement (level limit n)).run u = .ok x v) :
    ∃ first ts, u.ahead = first :: ts ++ v.ahead ∧ x.span = .covering first ts := by
  have htrail := statement_trail (level_trails limit n) hu.sorted
  rw [hr] at htrail
  obtain ⟨-, first, ts, hpasses, hlaid⟩ := htrail
  exact ⟨first, ts, ahead_of_stream hpasses.stream, hlaid.span_statement⟩

/-- The same, in front of some tokens and nothing else. -/
def State.facing (ts : List Token) (finish : Position) (s : State) : State :=
  { s with ahead := ts, finish }

/-- What comes after a statement makes no difference to it. -/
theorem run_facing {ts : List Token} (hts : u.ahead = ts ++ v.ahead)
    (hr : (statement (level limit n)).run u = .ok x v) (finish : Position) :
    (statement (level limit n)).run (u.facing ts finish) = .ok x (v.facing [] finish) := by
  have hu : u = (u.facing ts finish).extend v.ahead u.finish := by
    simp only [State.facing, State.extend, ← hts]
  have hcuts := statement_cuts (level_cuts limit n) (u.facing ts finish) v.ahead u.finish
  rw [Cut, ← hu, hr] at hcuts
  have hrun := hcuts (.inr ⟨rfl, rfl⟩)
  cases hr' : (statement (level limit n)).run (u.facing ts finish) with
  | error d w =>
    rw [hr'] at hrun
    cases hrun
  | ok y w =>
    have hsteps := (statement (level limit n)).steps (u.facing ts finish)
    rw [hr'] at hrun hsteps
    have hfinish : w.finish = finish := State.Steps.finish hsteps
    obtain ⟨rfl, hv⟩ := Result.ok.inj hrun
    have hahead : v.ahead = w.ahead ++ v.ahead := congrArg State.ahead hv
    have hnil : w.ahead = [] := List.self_eq_append_left.1 hahead
    have hw : v.facing [] finish = w := by
      rw [hv]
      simp only [State.facing, State.extend, ← hnil, ← hfinish]
    rw [hw]

theorem placed_facing {ts : List Token} {first : Token} (hu : u.Placed)
    (hts : u.ahead = first :: ts ++ v.ahead) :
    (u.facing (first :: ts) (Span.covering first ts).stop).Placed := by
  obtain ⟨init, last, hlast⟩ := (List.eq_nil_or_concat (first :: ts)).resolve_left (by simp)
  rw [List.concat_eq_append] at hlast
  rw [State.Placed, hts, hlast, List.append_assoc] at hu
  have hplaced : Ordered u.lastEnd.offset last.stop (first :: ts) := hlast ▸ hu.upTo
  rw [Span.covering_eq hlast]
  exact hplaced

/-- What was consumed ends before the current token. -/
theorem State.Placed.lastEnd_le (h : u.Placed) : u.lastEnd.offset ≤ u.offset := by
  rw [State.Placed] at h
  cases hu : u.ahead with
  | nil =>
    rw [hu] at h
    simpa [State.offset, State.position, State.current, hu, State.endToken, Token.endOfInput,
      Token.start, Ordered] using h
  | cons t ts =>
    rw [hu] at h
    simpa [State.offset, State.position, State.current, hu] using h.1

/-- The same statement, as many bytes further on. -/
theorem run_shifted {B u v : State} {k : Nat} (hB : B.Sorted) (hreported : B.reported = #[])
    (ahead : u.ahead = Token.shifted k B.ahead) (finish : u.finish = (Redraw.shift k).move B.finish)
    (hr : (statement (level limit n)).run u = .ok x v) (hv : v.ahead = []) :
    ∃ y w, (statement (level limit n)).run B = .ok y w ∧ w.ahead = [] ∧
      (Redraw.shift k).stmt y = x ∧
      Reports u v (w.reported.toList.map (Redraw.shift k).diagnostic) := by
  let m := Matching.shifting k B.finish [] u.reported.toList
  have haligned : m.Aligned B u := by
    refine ⟨hB, ahead, rfl, finish, [], by rw [hreported]; rfl, ?_⟩
    rw [diagnostics_shifting, List.map_nil, List.append_nil]
    rfl
  have hagree := Matching.statement_agrees (Matching.level_agrees m limit n) haligned
  rw [hr] at hagree
  cases hB' : (statement (level limit n)).run B with
  | error d w =>
    rw [hB'] at hagree
    exact hagree.elim
  | ok y w =>
    rw [hB'] at hagree
    obtain ⟨hx, haligned'⟩ := hagree
    obtain ⟨ds, hds, hds'⟩ := haligned'.reported
    rw [diagnostics_shifting] at hds'
    have hahead : v.ahead = Token.shifted k w.ahead := haligned'.ahead
    rw [hv] at hahead
    have hnil : w.ahead = [] := List.map_eq_nil_iff.1 hahead.symm
    refine ⟨y, w, rfl, hnil, hx.symm, ?_⟩
    rw [hds]
    exact hds'

/-- If nothing was refused, it makes no difference how many levels might have been opened. -/
theorem run_level {s t : State} (hn : n ≤ limit) (hdepth : s.depth = 0) (hdeepest : s.deepest = 0)
    (hr : (statement (level limit n)).run s = .ok x t)
    (ht : ∀ d ∈ t.reported.toList, d.problem ≠ .tooDeep limit) :
    (statement (level limit limit)).run s = .ok x t := by
  have hstates : ∀ k, (limited limit (0 + k) 0).states s s := fun k => ⟨rfl, hdepth, by omega⟩
  have hends : ∀ k, (limited limit (0 + k) 0).Ends Likeness.exact.stmt
      ((statement (level limit k)).run s) ((statement unlimited).run s) := fun k =>
    Simulation.statement_holds _ (level_limited limit k 0) s s (hstates k)
  rcases hends n with htogether | ⟨⟨d, hd, hproblem⟩, -⟩
  · obtain ⟨heq, -, hle⟩ := Simulation.eq_of_together htogether fun _ _ => Likeness.eq_of_stmt
    rcases hends limit with htogether' | ⟨-, hdeep⟩
    · have heq' := Simulation.eq_of_together htogether' fun _ _ => Likeness.eq_of_stmt
      rw [heq'.1, ← heq, hr]
    · rw [← heq] at hdeep
      omega
  · rw [hr] at hd
    exact absurd hproblem (ht d hd)

/-- A text of which one statement takes all tokens is parsed to that statement. -/
theorem parseWithin_alone {source : Source} {w : State}
    (hr : (statement (level limit limit)).run (.ofSource source) = .ok x w) (hw : w.ahead = []) :
    (parseWithin limit source).program.statements = [x] ∧
      (parseWithin limit source).diagnostics = w.reported.toList := by
  have hne : (State.ofSource source).ahead ≠ [] :=
    List.length_pos_iff.1 (Nat.zero_lt_of_lt (statement_consumes _ _ _ _ hr))
  have hrecovering : (recovering (statement (level limit limit)) resumeOutside).run
      (.ofSource source) = .ok (some x) w := by rw [run_recovering, hr]
  have hprogram := run_program hne hrecovering (run_program_nil hw)
  obtain ⟨p, t, hp, hparse⟩ := parseWithin_eq limit source
  rw [hprogram] at hp
  cases hp
  rw [hparse]
  exact ⟨rfl, rfl⟩

/-- What is reported before a span, in it and after it. -/
theorem filter_reports {s u v t : State} {span : Span} {ds : List Diagnostic}
    (hs : s.reported = #[]) (hsu : Settles s u) (hu : u.offset = span.start.offset)
    (huv : Reports u v ds) (hds : ∀ d ∈ ds, span.holds d.position) (hvt : Later v t)
    (hv : span.stop.offset ≤ v.offset) :
    t.reported.toList.filter (fun d => span.holds d.position) = ds := by
  obtain ⟨-, es, hes, hbefore⟩ := hsu
  obtain ⟨-, fs, hfs, hafter⟩ := hvt
  have hall : t.reported.toList = es ++ ds ++ fs := by
    have h : Reports s t (es ++ ds ++ fs) := (hes.trans huv).trans hfs
    rw [Reports, hs] at h
    simpa using h
  have hbefore : es.filter (fun d => span.holds d.position) = [] := by
    refine List.filter_eq_nil_iff.2 fun d hd => ?_
    have hlt : d.position.offset < u.offset := (hbefore d hd).2
    simp only [Span.holds, decide_eq_true_eq]
    omega
  have hafter : fs.filter (fun d => span.holds d.position) = [] := by
    refine List.filter_eq_nil_iff.2 fun d hd => ?_
    have hle : v.offset ≤ d.position.offset := hafter d hd
    simp only [Span.holds, decide_eq_true_eq]
    omega
  rw [hall, List.filter_append, List.filter_append, hbefore, hafter, List.filter_eq_self.2 hds,
    List.nil_append, List.append_nil]

/-- A run that finds the statement in front of its own tokens and nothing else, and reports just
these diagnostics. -/
structure FoundAlone (limit : Nat) (x : Stmt) (first : Token) (ts : List Token)
    (ds : List Diagnostic) (n : Nat) (u v : State) : Prop where
  level : n ≤ limit
  run : (statement (Parser.level limit n)).run u = .ok x v
  ahead : u.ahead = first :: ts
  finish : u.finish = x.span.stop
  span : x.span = .covering first ts
  rest : v.ahead = []
  reports : Reports u v ds

theorem Occurs.alone {s t : State} (h : Occurs limit s x t) (hs : s.Placed)
    (hreported : s.reported = #[]) :
    ∃ before first ts after n u v, s.ahead = before ++ (first :: ts) ++ after ∧
      FoundAlone limit x first ts
        (t.reported.toList.filter fun d => x.span.holds d.position) n u v := by
  obtain ⟨n, u, v, hn, hsu, hr, hvt⟩ := h
  have hu : u.Placed := hsu.steps.placed hs
  have hv : v.Placed := by
    have hsteps := (statement (Parser.level limit n)).steps u
    rw [hr] at hsteps
    exact State.Steps.placed hsteps hu
  obtain ⟨first, ts, hts, hspan⟩ := span_of_run hu hr
  obtain ⟨before, hbefore⟩ := hsu.steps.ahead
  rw [hts, ← List.append_assoc] at hbefore
  have hplaced := placed_facing hu hts
  rw [← hspan] at hplaced
  have hfacing := run_facing hts hr x.span.stop
  obtain ⟨⟨-, ds, hds, hin⟩, -⟩ := statement_finds (level_finds hn) _ hplaced _ _ hfacing
  have hstart : u.offset = x.span.start.offset := by
    rw [hspan, State.offset, State.position, State.current, hts]
    rfl
  have hstop : x.span.stop.offset ≤ v.offset := by
    rw [show x.span.stop = v.lastEnd from statement_stops limit n u x v hr]
    exact hv.lastEnd_le
  have hinside : ∀ d ∈ ds, x.span.holds d.position := by
    intro d hd
    obtain ⟨hle, hlt⟩ := hin d hd
    have hle : x.span.start.offset ≤ d.position.offset := by
      rw [hspan]
      exact hle
    simp only [Span.holds, decide_eq_true_eq]
    exact ⟨hle, hlt⟩
  have huv : Reports u v ds := hds
  rw [filter_reports hreported hsu hstart huv hinside hvt hstop]
  exact ⟨before, first, ts, v.ahead, n, _, _, hbefore.symm,
    hn, hfacing, rfl, rfl, hspan, rfl, hds⟩

end Parser

open LetLang.Parser

/-! ### Excerpts -/

theorem parseWithin_excerpt (limit : Nat) (source : Source)
    (hsize : source.text.utf8ByteSize ≤ Position.maxOffset) {x : Stmt}
    (hx : x ∈ (parseWithin limit source).program.allStatements)
    (hdeep : ∀ d ∈ (parseWithin limit source).diagnostics, x.span.holds d.position →
      d.problem ≠ .tooDeep limit) :
    ∃ before excerpt after, source.text = before ++ excerpt ++ after ∧
      x.span = .ofOffsets source.name before.utf8ByteSize
        (before.utf8ByteSize + excerpt.utf8ByteSize) ∧
      (Redraw.shift before.utf8ByteSize).stmts
        (parseWithin limit ⟨source.name, excerpt⟩).program.statements = [x] ∧
      (parseWithin limit ⟨source.name, excerpt⟩).diagnostics.map
        (Redraw.shift before.utf8ByteSize).diagnostic =
        (parseWithin limit source).diagnostics.filter fun d => x.span.holds d.position := by
  obtain ⟨p, t, hrun, hparse⟩ := parseWithin_eq limit source
  rw [hparse] at hx hdeep ⊢
  have hs : (State.ofSource source).Placed := placed_ofSource source.name hsize
  have hoccurs : Occurs limit (State.ofSource source) x t :=
    program_finds hs hrun (by simpa [Program.allStatements] using hx)
  obtain ⟨_, first, ts, _, n, u, v, htokens, halone⟩ := hoccurs.alone hs rfl
  have hmax : byteSize source.text.toList ≤ Position.maxOffset := by rwa [Text.byteSize_toList]
  obtain ⟨before, excerpt, after, htext, hcovering, hscan, hend⟩ :=
    Token.scan_excerpt hmax htokens
  rw [← halone.span] at hcovering hend
  -- the run on the excerpt
  have hB : (State.ofSource ⟨source.name, String.ofList excerpt⟩).Placed := by
    refine placed_ofSource _ ?_
    rw [Text.byteSize_ofList]
    simp only [htext, Text.byteSize_append] at hmax
    omega
  have hahead : u.ahead = Token.shifted (byteSize before)
      (State.ofSource ⟨source.name, String.ofList excerpt⟩).ahead := by
    simpa [State.ofSource, State.ofTokens, halone.ahead] using hscan.symm
  have hfinish : u.finish = (Redraw.shift (byteSize before)).move
      (State.ofSource ⟨source.name, String.ofList excerpt⟩).finish := by
    simpa [State.ofSource, State.ofTokens, halone.finish] using hend.symm
  obtain ⟨y, w, hy, hw, hxy, hreports⟩ :=
    run_shifted hB.sorted rfl hahead hfinish halone.run halone.rest
  have hfilter := List.append_cancel_left (hreports.symm.trans halone.reports)
  have hshallow : ∀ d ∈ w.reported.toList, d.problem ≠ .tooDeep limit := by
    intro d hd
    have hmem := List.mem_map_of_mem (f := (Redraw.shift (byteSize before)).diagnostic) hd
    rw [hfilter] at hmem
    obtain ⟨hmem, hinside⟩ := List.mem_filter.1 hmem
    exact hdeep ((Redraw.shift (byteSize before)).diagnostic d) hmem hinside
  have hlevel := run_level halone.level rfl rfl hy hshallow
  obtain ⟨hstatements, hdiagnostics⟩ := parseWithin_alone hlevel hw
  refine ⟨String.ofList before, String.ofList excerpt, String.ofList after, ?_, ?_, ?_, ?_⟩
  · rw [← String.ofList_append, ← String.ofList_append, List.append_assoc, ← htext,
      String.ofList_toList]
  · rw [Text.byteSize_ofList, Text.byteSize_ofList, hcovering]
  · rw [Text.byteSize_ofList, hstatements, Redraw.stmts, hxy, Redraw.stmts]
  · rw [Text.byteSize_ofList, hdiagnostics, hfilter]

/-- The text that a statement spans, parsed on its own, is a program of this statement alone, with
the mistakes that were found inside it. -/
theorem statement_stands_alone (source : Source)
    (hsize : source.text.utf8ByteSize ≤ Position.maxOffset) {x : Stmt}
    (hx : x ∈ (parse source).program.allStatements)
    (hdeep : ∀ d ∈ (parse source).diagnostics, x.span.holds d.position →
      d.problem ≠ .tooDeep maxNesting) :
    ∃ before excerpt after, source.text = before ++ excerpt ++ after ∧
      x.span = .ofOffsets source.name before.utf8ByteSize
        (before.utf8ByteSize + excerpt.utf8ByteSize) ∧
      (Redraw.shift before.utf8ByteSize).stmts
        (parse ⟨source.name, excerpt⟩).program.statements = [x] ∧
      (parse ⟨source.name, excerpt⟩).diagnostics.map
        (Redraw.shift before.utf8ByteSize).diagnostic =
        (parse source).diagnostics.filter fun d => x.span.holds d.position :=
  parseWithin_excerpt maxNesting source hsize hx hdeep

/-- The statement in the body, of which the block on its right has a mistake in it. -/
theorem binding_stands_alone :
    let source : Source := ⟨"shell", "fn () \x7b let x = if (y) \x7b z ) 1 \x7d; 2 \x7d )"⟩
    ∃ x ∈ (parse source).program.allStatements, x.span = .ofOffsets "shell" 8 33 ∧
      ∃ before excerpt after, source.text = before ++ excerpt ++ after ∧
        x.span = .ofOffsets source.name before.utf8ByteSize
          (before.utf8ByteSize + excerpt.utf8ByteSize) ∧
        (Redraw.shift before.utf8ByteSize).stmts
          (parse ⟨source.name, excerpt⟩).program.statements = [x] ∧
        (parse ⟨source.name, excerpt⟩).diagnostics.map
          (Redraw.shift before.utf8ByteSize).diagnostic =
          (parse source).diagnostics.filter fun d => x.span.holds d.position := by
  intro source
  have hx : ((parse source).program.allStatements.map Stmt.span)[1]? =
      some (.ofOffsets "shell" 8 33) := by decide +kernel
  rw [List.getElem?_map] at hx
  obtain ⟨x, hx, hspan⟩ := Option.map_eq_some_iff.1 hx
  have hdeep : ∀ d ∈ (parse source).diagnostics, d.problem ≠ .tooDeep maxNesting := by
    decide +kernel
  have hmem := List.mem_of_getElem? hx
  exact ⟨x, hmem, hspan,
    statement_stands_alone source (by decide +kernel) hmem fun d hd _ => hdeep d hd⟩

end LetLang
