import LetLang.Diagnostic.Report
import LetLang.Proofs.Lines

/-! What a report points at.

A report draws its three rows by character while a position counts bytes. The rows
are as wide on the left as the number of the line is, the indentation is left out,
and characters of any width may stand before the one that is meant. `Drawing` says
what all this has to come to: the bars stand below each other, and the caret
stands below the character that begins at the position.

`render_points`: every report is the heading and, unless the position is past the end
of the source, such a drawing. -/
namespace LetLang
open Text (byteSize isBlank trimEnd FallsOn splitAtByte?)

/-! ### Texts in bytes and in characters -/

namespace Text

theorem length_le_byteSize (cs : List Char) : cs.length ≤ byteSize cs := by
  induction cs with
  | nil => exact Nat.le_refl 0
  | cons c cs ih =>
    have hc := c.utf8Size_pos
    rw [List.length_cons, byteSize_cons]
    omega

/-- Of two beginnings of a text the one with fewer bytes is the beginning of the other. -/
theorem exists_append_of_byteSize_le {a b c d : List Char} (h : a ++ b = c ++ d)
    (hle : byteSize a ≤ byteSize c) : ∃ e, c = a ++ e ∧ b = e ++ d := by
  rcases List.append_eq_append_iff.1 h with ⟨e, hc, hb⟩ | ⟨e, rfl, rfl⟩
  · exact ⟨e, hc, hb⟩
  · rw [byteSize_append] at hle
    have hlength := length_le_byteSize e
    have he : e = [] := List.eq_nil_of_length_eq_zero (by omega)
    subst he
    exact ⟨[], by simp, by simp⟩

/-- A character that is not blank is not trimmed, nor is what stands before it. -/
theorem prefix_trimEnd {c : Char} (hc : isBlank c = false) (before after : List Char) :
    before ++ [c] <+: trimEnd (before ++ c :: after) := by
  have hsuffix : (before ++ [c]).reverse <:+
      (after.reverse ++ (before ++ [c]).reverse).dropWhile isBlank := by
    rw [List.dropWhile_append]
    split
    · simp [hc]
    · exact List.suffix_append ..
  have hreverse : (before ++ c :: after).reverse = after.reverse ++ (before ++ [c]).reverse := by
    simp
  rw [trimEnd, hreverse, ← List.reverse_suffix, List.reverse_reverse]
  exact hsuffix

theorem newline_notMem_trimEnd {cs : List Char} (h : '\n' ∉ cs.dropLast) : '\n' ∉ trimEnd cs := by
  rcases List.eq_nil_or_concat cs with rfl | ⟨front, c, rfl⟩
  · exact h
  · rw [List.concat_eq_append] at h ⊢
    rw [List.dropLast_concat] at h
    by_cases hc : c = '\n'
    · rw [trimEnd_append_of_blank front (by simp [hc]; decide)]
      have hfront := trimEnd_prefix front
      exact fun hmem => h (hfront.subset hmem)
    · intro hmem
      have hwhole := trimEnd_prefix (front ++ [c])
      rcases List.mem_append.1 (hwhole.subset hmem) with hfront | hlast
      · exact h hfront
      · exact hc (List.mem_singleton.1 hlast).symm

end Text

namespace Line

theorem byteSize_indent {cs : List Char} (h : ∀ c ∈ cs, isIndent c) : byteSize cs = cs.length := by
  induction cs with
  | nil => rfl
  | cons c cs ih =>
    have hc : c = ' ' ∨ c = '\t' := by simpa [isIndent] using h c List.mem_cons_self
    have hsize : c.utf8Size = 1 := by rcases hc with rfl | rfl <;> decide
    rw [Text.byteSize_cons, ih fun d hd => h d (List.mem_cons_of_mem c hd), hsize, List.length_cons,
      Nat.add_comm]

theorem isIndent_of_mem_indent {line : Line} : ∀ c ∈ line.indent, isIndent c :=
  List.all_eq_true.1 (List.all_takeWhile ..)

/-! ### The column of the caret -/

theorem charColumn_le (line : Line) : line.charColumn ≤ line.column := by
  unfold charColumn
  split
  · rename_i before _ hsplit
    obtain ⟨-, hsize⟩ := Text.eq_append_of_splitAtByte? hsplit
    exact hsize ▸ Text.length_le_byteSize before
  · exact Nat.le_refl _

theorem dashes_eq_zero {line : Line} (h : line.column < byteSize line.indent) :
    line.dashes = 0 := by
  have hle := line.charColumn_le
  rw [dashes]
  omega

/-- Behind the indentation the caret moves by characters. -/
theorem dashes_eq_length {line : Line} {text after : List Char}
    (htext : line.text = line.indent ++ text ++ after)
    (hcolumn : line.column = byteSize (line.indent ++ text)) : line.dashes = text.length := by
  have hchars : line.charColumn = (line.indent ++ text).length := by
    rw [charColumn, hcolumn, htext, Text.splitAtByte?_byteSize_append]
  rw [dashes, hchars, byteSize_indent isIndent_of_mem_indent, List.length_append,
    Nat.add_sub_cancel_left]

end Line

/-! ### The drawing -/

/-- The number of the line that follows, in digits. -/
def numeral (before : List Char) : List Char := (toString (1 + before.count '\n')).toList

/-- The rows under the heading for byte `p` of a text, which falls on `line` behind `before`: the
gutter, what is shown of the line, and what stands in front of the caret. -/
structure Drawing (cs : List Char) (p : Nat) (before line gutter shown arrow : List Char) :
    Prop where
  single : ∀ row ∈ [gutter, shown, arrow ++ ['^']], '\n' ∉ row
  /-- The first bars stand in one column, behind the number of the line. -/
  bars : ∀ row ∈ [gutter, shown, arrow ++ ['^']],
    '|' ∈ row ∧ row.idxOf '|' = (numeral before).length + 1
  blank : gutter = List.replicate ((numeral before).length + 1) ' ' ++ ['|']
  text : shown = numeral before ++ " | ".toList ++ trimEnd (line.dropWhile Line.isIndent)
  dashed : ∃ dashes, arrow = gutter ++ [' '] ++ List.replicate dashes '-'
  /-- In front of the caret are as many characters as in front of what begins at byte `p`, and it
  stands above the caret unless it may have been trimmed. -/
  points : ∀ front back, cs = front ++ back → byteSize front = p →
    byteSize (before ++ line.takeWhile Line.isIndent) ≤ p →
    ∃ text rest, front = before ++ line.takeWhile Line.isIndent ++ text ∧
      line.dropWhile Line.isIndent = text ++ rest ∧
      arrow.length = (numeral before ++ " | ".toList ++ text).length ∧
      ∀ c ∈ back.head?, isBlank c = false → shown[arrow.length]? = some c
  indented : p < byteSize (before ++ line.takeWhile Line.isIndent) →
    arrow.length = (numeral before ++ " | ".toList).length

namespace Text.FallsOn
variable {cs before line after : List Char} {p : Nat}

/-- The line goes on with what begins at byte `p`, unless the text ends there. -/
theorem eq_nil_of_le (h : FallsOn cs p before line after) (hle : byteSize (before ++ line) ≤ p) :
    after = [] := by
  rcases h.last with hlt | ⟨-, hline⟩
  · omega
  · exact h.after_eq_nil hline

/-- A place behind the indentation has a text between the indentation and itself. -/
theorem exists_text (h : FallsOn cs p before line after) {front back : List Char}
    (hcs : cs = front ++ back) (hp : byteSize front = p)
    (hindent : byteSize (before ++ line.takeWhile Line.isIndent) ≤ p) :
    ∃ text rest, front = before ++ line.takeWhile Line.isIndent ++ text ∧
      line.dropWhile Line.isIndent = text ++ rest ∧ back.head? = rest.head? := by
  have hline : before ++ line.takeWhile Line.isIndent ++ line.dropWhile Line.isIndent =
      before ++ line := by
    rw [List.append_assoc, List.takeWhile_append_dropWhile]
  have htext : front ++ back = before ++ line ++ after := by
    rw [← hcs, h.text, List.append_assoc]
  obtain ⟨rest, hrest, hback⟩ := exists_append_of_byteSize_le htext (hp ▸ h.le_byteSize)
  obtain ⟨text, hfront, hdrop⟩ :=
    exists_append_of_byteSize_le (hline.trans hrest) (hp ▸ hindent)
  have hhead : back.head? = rest.head? := by
    cases rest with
    | cons c rest => rw [hback]; rfl
    | nil =>
      have hend : byteSize (before ++ line) = p := by rw [hrest, List.append_nil, hp]
      rw [hback, h.eq_nil_of_le (Nat.le_of_eq hend), List.append_nil]
  exact ⟨text, rest, hfront, hdrop, hhead⟩

end Text.FallsOn

namespace Line

/-- What stands in front of the caret. -/
def arrow (line : Line) : List Char := line.gutter ++ [' '] ++ List.replicate line.dashes '-'

def digits (line : Line) : List Char := (toString line.number).toList

theorem gutter_eq (line : Line) :
    line.gutter = List.replicate (line.digits.length + 1) ' ' ++ ['|'] := by
  rw [gutter, digits, String.length_toList]

theorem rows_eq (line : Line) : line.rows =
    [line.gutter, line.digits ++ " | ".toList ++ line.shown, line.arrow ++ ['^']] := rfl

theorem length_arrow (line : Line) :
    line.arrow.length = (line.digits ++ " | ".toList).length + line.dashes := by
  simp [arrow, gutter_eq]
  omega

theorem digits_avoid (line : Line) {c : Char} (hc : c.isDigit = false) : c ∉ line.digits := by
  intro hmem
  rw [digits, Nat.toString_eq_repr, Nat.toList_repr] at hmem
  cases hc.symm.trans (Nat.isDigit_of_mem_toDigits (by decide) (by decide) hmem)

/-- Trimming takes the newline away that the line ends with. -/
theorem newline_notMem_shown {line : Line} (h : '\n' ∉ line.text.dropLast) : '\n' ∉ line.shown := by
  apply Text.newline_notMem_trimEnd
  obtain ⟨blanks, hblanks⟩ := List.dropWhile_suffix (l := line.text) isIndent
  cases hrest : line.text.dropWhile isIndent with
  | nil => exact List.not_mem_nil
  | cons c rest =>
    rw [← hblanks, hrest, List.dropLast_append_of_ne_nil (List.cons_ne_nil c rest)] at h
    exact fun hmem => h (List.mem_append_right blanks hmem)

theorem newline_notMem_rows {line : Line} (h : '\n' ∉ line.text.dropLast) :
    ∀ row ∈ line.rows, '\n' ∉ row := by
  have hdigits := line.digits_avoid (c := '\n') (by decide)
  have hshown := newline_notMem_shown h
  simp [rows_eq, arrow, gutter_eq, hdigits, hshown]

theorem idxOf_bar {left : List Char} (h : '|' ∉ left) (right : List Char) :
    '|' ∈ left ++ '|' :: right ∧ (left ++ '|' :: right).idxOf '|' = left.length := by
  constructor
  · simp
  · rw [List.idxOf_append, if_neg h, List.idxOf_cons_self, Nat.zero_add]

theorem idxOf_bar_rows (line : Line) :
    ∀ row ∈ line.rows, '|' ∈ row ∧ row.idxOf '|' = line.digits.length + 1 := by
  have hdigits := line.digits_avoid (c := '|') (by decide)
  have hblank : '|' ∉ List.replicate (line.digits.length + 1) ' ' := by simp
  have hnumber : '|' ∉ line.digits ++ [' '] := by simp [hdigits]
  have hgutter := idxOf_bar hblank []
  have htext := idxOf_bar hnumber (' ' :: line.shown)
  have harrow := idxOf_bar hblank (' ' :: (List.replicate line.dashes '-' ++ ['^']))
  rw [List.length_replicate] at hgutter harrow
  rw [List.length_append, List.append_assoc] at htext
  have hrow : line.arrow ++ ['^'] = List.replicate (line.digits.length + 1) ' ' ++
      '|' :: (' ' :: (List.replicate line.dashes '-' ++ ['^'])) := by
    simp [arrow, gutter_eq]
  intro row hmem
  rw [rows_eq, gutter_eq, hrow, List.append_assoc line.digits] at hmem
  simp only [List.mem_cons, List.not_mem_nil, or_false] at hmem
  rcases hmem with rfl | rfl | rfl
  · exact hgutter
  · exact htext
  · exact harrow

end Line

section
variable {cs before line after : List Char} {p : Nat} {l : Line}

/-- The rows of the line that a byte falls on are a drawing for it. -/
theorem Text.FallsOn.drawing (h : FallsOn cs p before line after)
    (hl : l = ⟨1 + before.count '\n', line, p - byteSize before⟩) :
    Drawing cs p before line l.gutter (numeral before ++ " | ".toList ++ l.shown) l.arrow := by
  have htext : l.text = line := by rw [hl]
  have hcolumn : l.column = p - byteSize before := by rw [hl]
  have hdigits : l.digits = numeral before := by
    rw [hl]
    rfl
  have hrows := l.rows_eq
  have hbars := l.idxOf_bar_rows
  have hblank := l.gutter_eq
  have hlength := l.length_arrow
  rw [hdigits] at hrows hbars hblank hlength
  constructor
  case single => exact hrows ▸ Line.newline_notMem_rows (htext ▸ h.single)
  case bars => exact hrows ▸ hbars
  case blank => exact hblank
  case text => rw [Line.shown, htext]
  case dashed => exact ⟨l.dashes, rfl⟩
  case points =>
    intro front back hcs hp hindent
    obtain ⟨text, rest, hfront, hdrop, hhead⟩ := h.exists_text hcs hp hindent
    have hline : l.text = l.indent ++ text ++ rest := by
      rw [Line.indent, htext, List.append_assoc, ← hdrop, List.takeWhile_append_dropWhile]
    have hdashes : l.dashes = text.length := by
      apply Line.dashes_eq_length hline
      rw [hcolumn, ← hp, hfront, Line.indent, htext]
      simp
    refine ⟨text, rest, hfront, hdrop, ?_, ?_⟩
    · rw [hlength, hdashes, ← List.length_append]
    · intro c hc hblank
      obtain ⟨rest, rfl⟩ := List.head?_eq_some_iff.1 (hhead.symm.trans hc)
      obtain ⟨trimmed, htrimmed⟩ := Text.prefix_trimEnd hblank text rest
      have hshown : l.shown = text ++ c :: trimmed := by
        rw [Line.shown, htext, hdrop, ← htrimmed, List.append_assoc, List.singleton_append]
      rw [hshown, ← List.append_assoc, hlength, hdashes, ← List.length_append]
      simp
  case indented =>
    intro hlt
    rw [hlength, Line.dashes_eq_zero, Nat.add_zero]
    rw [hcolumn, Line.indent, htext]
    have hfirst := h.first
    rw [Text.byteSize_append] at hlt
    omega

end

theorem Diagnostic.render_eq (d : Diagnostic) (text : String) :
    d.render text = "Error: " ++ d.name ++ " (" ++ d.tip.getD d.message ++ ")\n-> " ++
      d.position.file ++ "\n" ++ String.ofList
        ((((lineAt? text d.position.offset).map Line.rows).getD []).flatMap (· ++ ['\n'])) := by
  apply String.toList_injective
  simp [render, rows, summary, toString]

/-- A report is its heading, followed by a drawing for the position unless the source ends before
it. -/
theorem render_points (d : Diagnostic) (text : String) :
    ∃ rows, d.render text = "Error: " ++ d.name ++ " (" ++ d.tip.getD d.message ++ ")\n-> " ++
        d.position.file ++ "\n" ++ String.ofList rows ∧
      ((text.utf8ByteSize < d.position.offset ∧ rows = []) ∨
        ∃ before line after gutter shown arrow,
          FallsOn text.toList d.position.offset before line after ∧
          Drawing text.toList d.position.offset before line gutter shown arrow ∧
          rows = gutter ++ '\n' :: (shown ++ '\n' :: (arrow ++ ['^', '\n']))) := by
  refine ⟨_, d.render_eq text, ?_⟩
  rcases Nat.lt_or_ge text.utf8ByteSize d.position.offset with hlt | hle
  · exact .inl ⟨hlt, by rw [lineAt?_eq_none hlt]; rfl⟩
  · obtain ⟨before, line, after, h, hfound⟩ := lineAt?_fallsOn hle
    refine .inr ⟨before, line, after, _, _, _, h, h.drawing rfl, ?_⟩
    rw [hfound]
    simp [Line.rows, Line.arrow, numeral]

/-- Neither a line ending of two characters nor a character of two bytes moves the caret. -/
example : Diagnostic.render ⟨.illegalCharacter "@", ⟨14, "shell"⟩⟩ "é\r\n\tlet π = @ \r\n" =
    "Error: IllegalCharacter (illegal character \"@\")\n-> shell\n" ++
      "  |\n2 | let π = @\n  | --------^\n" := by
  decide +kernel

end LetLang
