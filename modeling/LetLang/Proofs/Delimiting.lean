import LetLang.Proofs.Acceptance
import LetLang.Proofs.Excerpt
import LetLang.Proofs.Grammar.Subtree

/-! What the span of an expression delimits.

The text that an expression spans reads as the same expression, or it is not accepted at
all: parentheses around an operand are part of no node, so they can be cut off on one
side only, and then the text has a parenthesis without its counterpart. Otherwise
nothing is missing, and the text has one statement, which is that expression
(`expression_delimited`). A product of which the left factor is a sum in parentheses is
one that its span does not delimit (`product_not_delimited`). -/
namespace LetLang
open Grammar LetLang.Parser
open Text (byteSize)
open Token (Matched)

variable {limit k : Nat} {e : Expr} {x : Stmt} {core : List Token} {file excerpt : String}

theorem Token.parens_shifted (k : Nat) (ts : List Token) : parens (shifted k ts) = parens ts := by
  rw [parens, shifted, List.filterMap_map]
  rfl

theorem Token.matched_shifted {ts : List Token} : Matched (shifted k ts) ↔ Matched ts := by
  rw [Matched, Matched, parens_shifted]

theorem scan_ofSource (source : Source) :
    (State.ofSource source).ahead = Token.scan source.name 0 source.text.toList := rfl

/-- A statement that is an expression is drawn from one only. -/
theorem Redraw.stmt_eq_expression {v : Redraw} {t : Token} {s : Span}
    (h : v.stmt x = .expression t e s) :
    ∃ t' e' s', x = .expression t' e' s' ∧ v.expr e' = e := by
  cases x with
  | expression t' e' s' =>
    rw [stmt] at h
    injection h with _ he
    exact ⟨t', e', s', rfl, he⟩
  | binding | returning | block =>
    rw [stmt] at h
    cases h

/-- What is accepted has only parentheses that match. -/
theorem balanced_of_accepted {source : Source} (h : (parseWithin limit source).diagnostics = []) :
    Text.Balanced source.text.toList := by
  have hderives := (parseWithin_iff_derives limit source _).1 ⟨h, rfl⟩
  rw [dropLast_tokenize, scan_ofSource] at hderives
  exact (Token.matched_scan ..).1 hderives.matched

/-- An expression spans its core. -/
theorem Grammar.IsCore.covering {n : Nat} (h : IsCore n e core) :
    ∃ first us, core = first :: us ∧ e.span = .covering first us := by
  obtain ⟨⟨first, hfirst, hstart⟩, ⟨last, hlast, hstop⟩, -⟩ := h
  obtain ⟨us, rfl⟩ := List.head?_eq_some_iff.1 hfirst
  obtain ⟨vs, hvs⟩ := List.getLast?_eq_some_iff.1 hlast
  refine ⟨first, us, rfl, ?_⟩
  rw [Span.covering_eq hvs, hstart, hstop]
  rfl

/-- A text of which the tokens are a statement, as many bytes further on, is parsed to that
statement. -/
theorem parseWithin_of_derives (hsize : excerpt.utf8ByteSize ≤ Position.maxOffset)
    (hscan : Token.shifted k (Token.scan file 0 excerpt.toList) = core)
    (h : Derives limit (.statement x true) core) :
    ∃ y, (parseWithin limit ⟨file, excerpt⟩).program.statements = [y] ∧
      (parseWithin limit ⟨file, excerpt⟩).diagnostics = [] ∧ (Redraw.shift k).stmt y = x := by
  have hB : (State.ofSource ⟨file, excerpt⟩).Placed := placed_ofSource file hsize
  let finish := (Redraw.shift k).move (State.ofSource ⟨file, excerpt⟩).finish
  have hnil : Ended true [] := ⟨by decide, by simp⟩
  have htakes : (statement (level limit limit)).Takes x core [] := complete h [] hnil
  obtain ⟨v, ⟨hrun, hreported⟩, -, hv⟩ :=
    htakes (.ofTokens core finish) (List.append_nil core).symm
  obtain ⟨y, w, hy, hw, hxy, hreports⟩ := run_shifted hB.sorted rfl hscan.symm rfl hrun hv
  have hnone : w.reported.toList = [] := by
    rw [Reports, hreported] at hreports
    simpa using hreports
  obtain ⟨hstatements, hdiagnostics⟩ := parseWithin_alone hy hw
  exact ⟨y, hstatements, hdiagnostics.trans hnone, hxy⟩

theorem parseWithin_expression (limit : Nat) (source : Source)
    (hsize : source.text.utf8ByteSize ≤ Position.maxOffset)
    (haccepted : (parseWithin limit source).diagnostics = [])
    (he : (parseWithin limit source).program.Has (.expr e)) :
    ∃ before excerpt after, source.text = before ++ excerpt ++ after ∧
      e.span = .ofOffsets source.name before.utf8ByteSize
        (before.utf8ByteSize + excerpt.utf8ByteSize) ∧
      ((parseWithin limit ⟨source.name, excerpt⟩).diagnostics = [] ↔
        Text.Balanced excerpt.toList) ∧
      (Text.Balanced excerpt.toList → ∃ first e' span,
        (parseWithin limit ⟨source.name, excerpt⟩).program.statements =
          [.expression first e' span] ∧
        (Redraw.shift before.utf8ByteSize).expr e' = e) := by
  have hderives := (parseWithin_iff_derives limit source _).1 ⟨haccepted, rfl⟩
  rw [dropLast_tokenize, scan_ofSource] at hderives
  obtain ⟨n, us, hn, ⟨front, back, htokens⟩, hus⟩ := hderives.has_derived he
  obtain ⟨opens, core, closes, rfl, -, -, hcore⟩ := hus.hasCore rfl
  obtain ⟨first, rest, rfl, hspan⟩ := hcore.covering
  have hmax : byteSize source.text.toList ≤ Position.maxOffset := by rwa [Text.byteSize_toList]
  have hinside : Token.scan source.name 0 source.text.toList =
      (front ++ opens) ++ (first :: rest) ++ (closes ++ back) := by
    rw [← htokens]
    simp
  obtain ⟨before, excerpt, after, htext, hcovering, hscan, -⟩ := Token.scan_excerpt hmax hinside
  have hmatched : Text.Balanced excerpt ↔ Matched (first :: rest) := by
    rw [← Token.matched_scan source.name 0, ← hscan, Token.matched_shifted]
  have halone : Text.Balanced excerpt → ∃ y,
      (parseWithin limit ⟨source.name, String.ofList excerpt⟩).program.statements = [y] ∧
      (parseWithin limit ⟨source.name, String.ofList excerpt⟩).diagnostics = [] ∧
      (Redraw.shift (byteSize before)).stmt y = .expression first e (.covering first rest) := by
    intro hbalanced
    have hwhole := hcore.alone (hmatched.1 hbalanced)
    have hstatement := (Derives.expression hwhole .bare).mono hn
    rw [List.append_nil] at hstatement
    refine parseWithin_of_derives ?_ (by rw [String.toList_ofList]; exact hscan) hstatement
    rw [Text.byteSize_ofList]
    simp only [htext, Text.byteSize_append] at hmax
    omega
  refine ⟨String.ofList before, String.ofList excerpt, String.ofList after, ?_, ?_, ⟨?_, ?_⟩, ?_⟩
  · rw [← String.ofList_append, ← String.ofList_append, List.append_assoc, ← htext,
      String.ofList_toList]
  · rw [Text.byteSize_ofList, Text.byteSize_ofList, hspan, hcovering]
  · exact balanced_of_accepted
  · rw [String.toList_ofList]
    intro hbalanced
    obtain ⟨y, -, hnone, -⟩ := halone hbalanced
    exact hnone
  · rw [String.toList_ofList, Text.byteSize_ofList]
    intro hbalanced
    obtain ⟨y, hstatements, -, hy⟩ := halone hbalanced
    obtain ⟨first', e', span, rfl, he'⟩ := Redraw.stmt_eq_expression hy
    exact ⟨first', e', span, hstatements, he'⟩

/-- In a source that is accepted, the text that an expression spans is accepted just when its
parentheses match, and then it has one statement, which is the same expression. -/
theorem expression_delimited (source : Source)
    (hsize : source.text.utf8ByteSize ≤ Position.maxOffset)
    (haccepted : (parse source).diagnostics = []) {e : Expr}
    (he : (parse source).program.Has (.expr e)) :
    ∃ before excerpt after, source.text = before ++ excerpt ++ after ∧
      e.span = .ofOffsets source.name before.utf8ByteSize
        (before.utf8ByteSize + excerpt.utf8ByteSize) ∧
      ((parse ⟨source.name, excerpt⟩).diagnostics = [] ↔ Text.Balanced excerpt.toList) ∧
      (Text.Balanced excerpt.toList → ∃ first e' span,
        (parse ⟨source.name, excerpt⟩).program.statements = [.expression first e' span] ∧
        (Redraw.shift before.utf8ByteSize).expr e' = e) :=
  parseWithin_expression maxNesting source hsize haccepted he

/-! ### A product -/

/-- The expression that a statement is made with. -/
def Stmt.value? : Stmt → Option Expr
  | binding _ _ e _ | returning _ e _ | expression _ e _ => some e
  | block _ => none

theorem Program.has_value {p : Program} (hx : x ∈ p.statements) (he : x.value? = some e) :
    p.Has (.expr e) := by
  refine .inside (.statement hx) ?_
  cases x <;> cases he <;> simp [Node.pieces]

/-- The product starts behind the parenthesis that opens its left factor. -/
theorem product_has : ∃ e, (parse ⟨"shell", "(a + b) * c"⟩).program.Has (.expr e) ∧
    e.span = .ofOffsets "shell" 1 11 := by
  have hspans : ((parse ⟨"shell", "(a + b) * c"⟩).program.statements.filterMap Stmt.value?).map
      Expr.span = [.ofOffsets "shell" 1 11] := by decide +kernel
  obtain ⟨e, hvalues, hspan⟩ := List.map_eq_singleton_iff.1 hspans
  have he : e ∈ (parse ⟨"shell", "(a + b) * c"⟩).program.statements.filterMap Stmt.value? := by
    rw [hvalues]
    exact List.mem_singleton_self e
  obtain ⟨x, hx, hvalue⟩ := List.mem_filterMap.1 he
  exact ⟨e, Program.has_value hx hvalue, hspan⟩

theorem product_delimited :
    let source : Source := ⟨"shell", "(a + b) * c"⟩
    source.text.utf8ByteSize ≤ Position.maxOffset ∧ (parse source).diagnostics = [] ∧
      ∃ e, (parse source).program.Has (.expr e) ∧ e.span = .ofOffsets "shell" 1 11 ∧
      ∃ before excerpt after, source.text = before ++ excerpt ++ after ∧
        e.span = .ofOffsets source.name before.utf8ByteSize
          (before.utf8ByteSize + excerpt.utf8ByteSize) ∧
        ((parse ⟨source.name, excerpt⟩).diagnostics = [] ↔ Text.Balanced excerpt.toList) ∧
        (Text.Balanced excerpt.toList → ∃ first e' span,
          (parse ⟨source.name, excerpt⟩).program.statements = [.expression first e' span] ∧
          (Redraw.shift before.utf8ByteSize).expr e' = e) := by
  intro source
  have hsize : source.text.utf8ByteSize ≤ Position.maxOffset := by decide +kernel
  have haccepted : (parse source).diagnostics = [] := by decide +kernel
  obtain ⟨e, he, hspan⟩ := product_has
  exact ⟨hsize, haccepted, e, he, hspan, expression_delimited source hsize haccepted he⟩

/-- The source is accepted, but what the product in it spans is not: the parenthesis that closes its
left factor has lost its counterpart. -/
theorem product_not_delimited :
    (parse ⟨"shell", "(a + b) * c"⟩).diagnostics = [] ∧
      (∃ e, (parse ⟨"shell", "(a + b) * c"⟩).program.Has (.expr e) ∧
        e.span = .ofOffsets "shell" "(".utf8ByteSize
          ("(".utf8ByteSize + "a + b) * c".utf8ByteSize)) ∧
      "(a + b) * c" = "(" ++ "a + b) * c" ∧
      (parse ⟨"shell", "a + b) * c"⟩).diagnostics ≠ [] ∧ ¬ Text.Balanced "a + b) * c".toList := by
  obtain ⟨e, he, hspan⟩ := product_has
  exact ⟨by decide +kernel, ⟨e, he, hspan⟩, by decide +kernel, by decide +kernel, by decide +kernel⟩

end LetLang
