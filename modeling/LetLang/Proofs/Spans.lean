import LetLang.Proofs.Nodes

/-! Spans nest.

In a source short enough for its offsets every node of the tree lies within the text,
from the start of one token to the end of another. Its span holds the token it is
named for and the spans of all its pieces, and those come one after the other
(`spans_nest`). Groups leave no node and mistakes leave out statements, but neither
makes a difference: what a span covers is a run of tokens, and the pieces are spread
over that run. -/
namespace LetLang
open Token (Ordered)

/-- The other span is not empty and lies within this one. -/
def Span.Contains (s inner : Span) : Prop :=
  s.start.offset ≤ inner.start.offset ∧ inner.start.offset < inner.stop.offset ∧
    inner.stop.offset ≤ s.stop.offset

/-- This span ends before the other one begins. -/
def Span.Before (s s' : Span) : Prop := s.stop.offset ≤ s'.start.offset

/-- Where the span of a node stands in the source, and the spans of its token and pieces in it. -/
structure Node.WellNested (source : Source) (n : Node) : Prop where
  nonempty : n.span.start.offset < n.span.stop.offset
  inside : n.span.stop.offset ≤ source.text.utf8ByteSize
  starts : ∃ t ∈ tokenize source, t.kind ≠ .eof ∧ n.span.start = t.start
  stops : ∃ t ∈ tokenize source, t.kind ≠ .eof ∧ n.span.stop = t.stop
  token : n.span.Contains n.token.span
  pieces : ∀ p ∈ n.pieces, n.span.Contains p.span
  apart : (n.pieces.map Piece.span).Pairwise Span.Before

/-! ### Runs of tokens -/

/-- None of the tokens is empty, and each ends before those after it begin. -/
structure Token.Strict (ts : List Token) : Prop where
  nonempty : ∀ t ∈ ts, t.start.offset < t.stop.offset
  apart : ts.Pairwise fun t u => t.stop.offset ≤ u.start.offset

variable {ds : List Diagnostic} {n : Node} {p : Piece} {ps : List Piece} {t first first' : Token}
  {ts us us' : List Token}

theorem Token.Strict.sublist (h : Strict ts) (hsub : us.Sublist ts) : Strict us :=
  ⟨fun t ht => h.nonempty t (hsub.subset ht), h.apart.sublist hsub⟩

theorem Token.Ordered.strict {place : Nat} {finish : Position} (h : Ordered place finish ts) :
    Strict ts := by
  refine ⟨fun t ht => (h.of_mem ht).2.1, ?_⟩
  induction ts generalizing place with
  | nil => exact .nil
  | cons t ts ih =>
    obtain ⟨-, -, hts⟩ := h
    exact .cons (fun u hu => (hts.of_mem hu).1) (ih hts)

/-- A run covers each of its tokens. -/
theorem Token.Strict.covers (h : Strict (first :: us)) (ht : t ∈ first :: us) :
    (Span.covering first us).Contains t.span := by
  refine ⟨?_, h.nonempty t ht, ?_⟩
  · show first.start.offset ≤ t.start.offset
    rcases List.mem_cons.1 ht with rfl | hmem
    · exact Nat.le_refl _
    · have hfirst := h.nonempty first List.mem_cons_self
      have hapart := (List.pairwise_cons.1 h.apart).1 t hmem
      omega
  · obtain ⟨vs, last, hlast, hcovers⟩ := Span.covering_concat first us
    rw [hcovers]
    show t.stop.offset ≤ last.stop.offset
    rw [hlast] at h ht
    rcases List.mem_append.1 ht with hmem | hmem
    · have hnonempty := h.nonempty last (by simp)
      have hapart := (List.pairwise_append.1 h.apart).2.2 t hmem last List.mem_cons_self
      omega
    · exact Nat.le_of_eq (by rw [List.mem_singleton.1 hmem])

/-- A run covers what a run in it covers. -/
theorem Token.Strict.covers_run (h : Strict (first :: us)) (hrun : first' :: us' <:+: first :: us) :
    (Span.covering first us).Contains (.covering first' us') := by
  have hown := (h.sublist hrun.sublist).covers List.mem_cons_self
  have hfirst := h.covers (hrun.subset List.mem_cons_self)
  have hlast : us'.getLastD first' ∈ first :: us := hrun.subset List.getLastD_mem_cons
  exact ⟨hfirst.1, Nat.lt_of_lt_of_le hown.2.1 hown.2.2, (h.covers hlast).2.2⟩

/-! ### Pieces -/

/-- Every piece lies over a run of its own. -/
theorem Spread.run (h : Spread ds ps ts) (hp : p ∈ ps) :
    ∃ first us, first :: us <:+: ts ∧ p.span = .covering first us := by
  cases p with
  | token t =>
    obtain ⟨before, after, rfl⟩ := List.append_of_mem (h.mem_of_token hp)
    exact ⟨t, [], ⟨before, after, by simp⟩, rfl⟩
  | node n =>
    obtain ⟨first, us, hrun, hover⟩ := h.over hp
    exact ⟨first, us, hrun, hover.span⟩

/-- Every piece begins where one of the tokens does. -/
theorem Spread.start_mem (h : Spread ds ps ts) (hp : p ∈ ps) : ∃ t ∈ ts, p.span.start = t.start := by
  obtain ⟨first, us, hrun, hspan⟩ := h.run hp
  refine ⟨first, hrun.subset List.mem_cons_self, ?_⟩
  rw [hspan]
  rfl

/-- The pieces come one after the other, as their tokens do. -/
theorem Spread.apart (h : Spread ds ps ts) (hts : Token.Strict ts) :
    (ps.map Piece.span).Pairwise Span.Before := by
  induction h with
  | nil => exact .nil
  | skip _ _ ih => exact ih (hts.sublist (List.sublist_cons_self ..))
  | @token t ps ts h ih =>
    refine .cons (fun s hs => ?_) (ih (hts.sublist (List.sublist_cons_self ..)))
    obtain ⟨q, hq, rfl⟩ := List.mem_map.1 hs
    obtain ⟨u, hu, hstart⟩ := h.start_mem hq
    rw [Span.Before, hstart]
    exact (List.pairwise_cons.1 hts.apart).1 u hu
  | @node n ps first us ts _ _ hspan _ h _ ih =>
    refine .cons (fun s hs => ?_) (ih (hts.sublist (List.sublist_append_right ..)))
    obtain ⟨q, hq, rfl⟩ := List.mem_map.1 hs
    obtain ⟨u, hu, hstart⟩ := h.start_mem hq
    have hlast : us.getLastD first ∈ first :: us := List.getLastD_mem_cons
    show n.span.stop.offset ≤ q.span.start.offset
    rw [hspan, hstart]
    exact (List.pairwise_append.1 hts.apart).2.2 _ hlast u hu

/-- What lies over a run of the tokens of a source is well nested in it. -/
theorem Node.Over.wellNested {source : Source} {finish : Position} (h : n.Over ds first us)
    (hts : Ordered 0 finish ts) (hrun : first :: us <:+: ts)
    (htokens : ∀ t ∈ ts, t ∈ tokenize source ∧ t.kind ≠ .eof)
    (hfinish : finish.offset ≤ source.text.utf8ByteSize) : n.WellNested source := by
  have hstrict : Token.Strict (first :: us) := hts.strict.sublist hrun.sublist
  have hfirst : first ∈ ts := hrun.subset List.mem_cons_self
  have hlast : us.getLastD first ∈ ts := hrun.subset List.getLastD_mem_cons
  constructor
  · have hown := hstrict.covers_run (List.infix_refl _)
    rw [h.span]
    exact hown.2.1
  · have hstop : n.span.stop = (us.getLastD first).stop := by
      rw [h.span]
      rfl
    rw [hstop]
    exact Nat.le_trans (hts.of_mem hlast).2.2 hfinish
  · refine ⟨first, (htokens first hfirst).1, (htokens first hfirst).2, ?_⟩
    rw [h.span]
    rfl
  · refine ⟨us.getLastD first, (htokens _ hlast).1, (htokens _ hlast).2, ?_⟩
    rw [h.span]
    rfl
  · rw [h.span]
    exact hstrict.covers h.token
  · intro p hp
    obtain ⟨first', us', hrun', hspan⟩ := h.pieces.run hp
    rw [h.span, hspan]
    exact hstrict.covers_run hrun'
  · exact h.pieces.apart hstrict

/-! ### Sources -/

/-- In a source of less than 4 GiB every node of what is parsed is well nested, and its statements come
one after the other. -/
theorem spans_nest (source : Source) (h : source.text.utf8ByteSize < 0x100000000) :
    (∀ n, (parse source).program.Has n → n.WellNested source) ∧
      ((parse source).program.statements.map Stmt.span).Pairwise Span.Before := by
  have hlaid := parseWithin_laid maxNesting source
  have hsize := Text.byteSize_toList source.text
  have hordered : Ordered 0 (Token.scanEnd source.name 0 source.text.toList).start
      (Token.scan source.name 0 source.text.toList) := by
    apply Token.scan_ordered
    rw [Nat.zero_add, hsize]
    exact Nat.le_of_lt_succ h
  constructor
  · intro n hn
    obtain ⟨first, us, hrun, hover⟩ := hn.over hlaid
    refine hover.wellNested hordered hrun (fun t ht => ⟨?_, Token.kind_of_mem_scan ht⟩) ?_
    · exact List.mem_append_left _ ht
    · rw [Token.start_scanEnd, Nat.zero_add, hsize]
      exact Nat.min_le_left ..
  · have hapart := hlaid.spread.apart hordered.strict
    rwa [Part.pieces, List.map_map] at hapart

/-- A group, a stray brace, and a block with a mistake in it. -/
theorem group_nests :
    let source : Source := ⟨"main", "(a) + (f(b)); \x7d \x7b let 1; !c \x7d"⟩
    source.text.utf8ByteSize < 0x100000000 ∧ (parse source).program.statements.length = 2 ∧
      (parse source).diagnostics.length = 2 ∧
      (∀ n, (parse source).program.Has n → n.WellNested source) ∧
      ((parse source).program.statements.map Stmt.span).Pairwise Span.Before := by
  intro source
  have h : source.text.utf8ByteSize < 0x100000000 := by decide +kernel
  exact ⟨h, by decide +kernel, by decide +kernel, spans_nest source h⟩

end LetLang
