import LetLang.Source.Line

/-! The line of a text in which something stands.

A stretch of a text without a newline lies within one line, and looking for the
offset where it begins finds that line (`lineAt?_append`).

A byte falls on the line that `Text.FallsOn` describes by what stands around it; it
is the line found for that byte, numbered by the newlines before it, and past the end of
the text no line is found (`lineAt?_fallsOn`, `lineAt?_eq_none`). -/
namespace LetLang
open Text (byteSize)
namespace Line

theorem split_append {text post line : List Char} {lines : List (List Char)} (h : '\n' ∉ text)
    (hpost : split post = line :: lines) : split (text ++ post) = (text ++ line) :: lines := by
  induction text with
  | nil => exact hpost
  | cons c text ih =>
    have hc : c ≠ '\n' := fun hc => h (by simp [hc])
    rw [List.cons_append, split_cons, ih fun hmem => h (List.mem_cons_of_mem c hmem), splitStep,
      if_neg hc]
    rfl

/-- Only the last line may be empty. -/
theorem ne_nil_of_split {cs line next : List Char} {lines : List (List Char)}
    (h : split cs = line :: next :: lines) : line ≠ [] := by
  cases cs with
  | nil => cases h
  | cons c cs =>
    obtain ⟨first, rest, hsplit⟩ := List.exists_cons_of_ne_nil (split_ne_nil cs)
    rw [split_cons, hsplit, splitStep] at h
    split at h <;> cases h <;> simp

theorem find?_last (number offset : Nat) (line : List Char) :
    find? number offset [line] =
      if offset ≤ byteSize line then some ⟨number, line, offset⟩ else none := rfl

theorem find?_cons (number offset : Nat) (line next : List Char) (lines : List (List Char)) :
    find? number offset (line :: next :: lines) =
      if offset < byteSize line then some ⟨number, line, offset⟩
      else find? (number + 1) (offset - byteSize line) (next :: lines) := by
  rw [find?]
  simp

theorem find?_zero {cs line : List Char} {lines : List (List Char)} (h : split cs = line :: lines)
    (number : Nat) : find? number 0 (line :: lines) = some ⟨number, line, 0⟩ := by
  cases lines with
  | nil => rw [find?_last, if_pos (Nat.zero_le _)]
  | cons next lines =>
    have hpos : 0 < byteSize line := by
      obtain ⟨c, cs, rfl⟩ := List.exists_cons_of_ne_nil (ne_nil_of_split h)
      have := c.utf8Size_pos
      rw [Text.byteSize_cons]
      omega
    rw [find?_cons, if_pos hpos]

/-- The text begins in the column of the line, and ends in the line. -/
def Holds (line : Line) (text : List Char) : Prop :=
  ∃ before after, line.text = before ++ (text ++ after) ∧ byteSize before = line.column

theorem Holds.cons {number column : Nat} {line text : List Char}
    (h : Holds ⟨number, line, column⟩ text) (c : Char) :
    Holds ⟨number, c :: line, c.utf8Size + column⟩ text := by
  obtain ⟨before, after, htext, hcolumn⟩ := h
  exact ⟨c :: before, after, congrArg (c :: ·) htext, congrArg (c.utf8Size + ·) hcolumn⟩

theorem find?_holds {text : List Char} (h : '\n' ∉ text) (pre post : List Char) (number : Nat) :
    ∃ line, find? number (byteSize pre) (split (pre ++ (text ++ post))) = some line ∧
      line.Holds text := by
  induction pre generalizing number with
  | nil =>
    obtain ⟨line, lines, hpost⟩ := List.exists_cons_of_ne_nil (split_ne_nil post)
    have hsplit := split_append h hpost
    refine ⟨⟨number, text ++ line, 0⟩, ?_, [], line, rfl, rfl⟩
    rw [List.nil_append, hsplit]
    exact find?_zero hsplit number
  | cons c pre ih =>
    obtain ⟨first, lines, hsplit⟩ := List.exists_cons_of_ne_nil (split_ne_nil (pre ++ (text ++ post)))
    rw [List.cons_append, split_cons, hsplit, splitStep, Text.byteSize_cons]
    rw [hsplit] at ih
    by_cases hc : c = '\n'
    · obtain ⟨line, hline, hholds⟩ := ih (number + 1)
      refine ⟨line, ?_, hholds⟩
      have hsize : byteSize [c] = c.utf8Size := by simp
      rw [if_pos hc, find?_cons, hsize, if_neg (by omega), Nat.add_sub_cancel_left]
      exact hline
    · obtain ⟨line, hline, hholds⟩ := ih number
      rw [if_neg hc]
      cases lines with
      | nil =>
        rw [find?_last] at hline ⊢
        split at hline
        · rename_i hle
          cases hline
          rw [Text.byteSize_cons, if_pos (Nat.add_le_add_left hle _)]
          exact ⟨_, rfl, hholds.cons c⟩
        · cases hline
      | cons next lines =>
        rw [find?_cons] at hline ⊢
        simp only [Text.byteSize_cons, Nat.add_lt_add_iff_left, Nat.add_sub_add_left]
        split at hline
        · rename_i hlt
          cases hline
          rw [if_pos hlt]
          exact ⟨_, rfl, hholds.cons c⟩
        · rename_i hlt
          rw [if_neg hlt]
          exact ⟨line, hline, hholds⟩

end Line

/-- The line found for the place where a text without a newline begins holds that text. -/
theorem lineAt?_append {source : String} {pre text post : List Char}
    (hsource : source.toList = pre ++ (text ++ post)) (h : '\n' ∉ text) :
    ∃ line, lineAt? source (byteSize pre) = some line ∧ line.Holds text := by
  rw [lineAt?, hsource]
  exact Line.find?_holds h pre post 1

/-! ### The line that a byte falls on -/

/-- Byte `p` of a text falls on `line`, which stands between `before` and `after`. The line starts
behind a newline or where the text does, and it holds no newline but the one at its end, which only
the last line can do without; the end of the text falls on that one. -/
structure Text.FallsOn (cs : List Char) (p : Nat) (before line after : List Char) : Prop where
  text : cs = before ++ (line ++ after)
  starts : ∀ c ∈ before.getLast?, c = '\n'
  single : '\n' ∉ line.dropLast
  ends : after ≠ [] → line.getLast? = some '\n'
  first : byteSize before ≤ p
  last : p < byteSize (before ++ line) ∨ p = byteSize cs ∧ '\n' ∉ line

namespace Text.FallsOn
variable {cs before line after : List Char} {p : Nat}

theorem after_eq_nil (h : FallsOn cs p before line after) (hline : '\n' ∉ line) : after = [] := by
  cases after with
  | nil => rfl
  | cons c after => exact absurd (List.mem_of_getLast? (h.ends (by simp))) hline

theorem le_byteSize (h : FallsOn cs p before line after) : p ≤ byteSize (before ++ line) := by
  rcases h.last with hlt | ⟨hend, hline⟩
  · exact Nat.le_of_lt hlt
  · have hwhole : cs = before ++ line := by rw [h.text, h.after_eq_nil hline, List.append_nil]
    rw [← hwhole]
    exact Nat.le_of_eq hend

end Text.FallsOn

namespace Line

/-- The first line ends with the first newline. -/
theorem split_cases (cs : List Char) : ('\n' ∉ cs ∧ split cs = [cs]) ∨
    ∃ text rest, '\n' ∉ text ∧ cs = text ++ '\n' :: rest ∧
      split cs = (text ++ ['\n']) :: split rest := by
  induction cs with
  | nil => exact .inl ⟨List.not_mem_nil, rfl⟩
  | cons c cs ih =>
    rw [split_cons]
    by_cases hc : c = '\n'
    · right
      refine ⟨[], cs, List.not_mem_nil, congrArg (· :: cs) hc, ?_⟩
      obtain ⟨line, lines, hsplit⟩ := List.exists_cons_of_ne_nil (split_ne_nil cs)
      rw [hsplit, splitStep, if_pos hc, hc]
      rfl
    · have hnot : ∀ {text : List Char}, '\n' ∉ text → '\n' ∉ c :: text := by
        intro text htext hmem
        cases List.mem_cons.1 hmem with
        | inl h => exact hc h.symm
        | inr h => exact htext h
      rcases ih with ⟨hcs, hsplit⟩ | ⟨text, rest, htext, rfl, hsplit⟩
      · exact .inl ⟨hnot hcs, by rw [hsplit, splitStep, if_neg hc]⟩
      · exact .inr ⟨c :: text, rest, hnot htext, rfl, by rw [hsplit, splitStep, if_neg hc]; rfl⟩

theorem find?_split_fallsOn (cs : List Char) {p : Nat} (hp : p ≤ byteSize cs) (number : Nat) :
    ∃ before line after, Text.FallsOn cs p before line after ∧
      find? number p (split cs) =
        some ⟨number + before.count '\n', line, p - byteSize before⟩ := by
  rcases split_cases cs with ⟨hcs, hsplit⟩ | ⟨text, rest, htext, rfl, hsplit⟩
  · have hlast : p < byteSize ([] ++ cs) ∨ p = byteSize cs ∧ '\n' ∉ cs := by
      rcases Nat.lt_or_eq_of_le hp with hlt | heq
      · exact .inl hlt
      · exact .inr ⟨heq, hcs⟩
    refine ⟨[], cs, [], ⟨by simp, by simp, ?_, by simp, Nat.zero_le _, hlast⟩, ?_⟩
    · exact fun hmem => hcs (List.dropLast_subset _ hmem)
    · rw [hsplit, find?_last, if_pos hp]
      rfl
  · obtain ⟨next, lines, hrest⟩ := List.exists_cons_of_ne_nil (split_ne_nil rest)
    rw [hsplit, hrest, find?_cons]
    by_cases hlt : p < byteSize (text ++ ['\n'])
    · refine ⟨[], text ++ ['\n'], rest, ⟨by simp, by simp, ?_, by simp, Nat.zero_le _, .inl hlt⟩, ?_⟩
      · rwa [List.dropLast_concat]
      · rw [if_pos hlt]
        rfl
    · -- The rest of the text is numbered from the next line on, and its bytes from its start on.
      have hsize : byteSize (text ++ '\n' :: rest) = byteSize (text ++ ['\n']) + byteSize rest := by
        simp [Nat.add_assoc]
      obtain ⟨before, line, after, h, hfind⟩ :=
        find?_split_fallsOn rest (p := p - byteSize (text ++ ['\n'])) (by omega) (number + 1)
      have hbefore : byteSize (text ++ '\n' :: before) =
          byteSize (text ++ ['\n']) + byteSize before := by
        simp [Nat.add_assoc]
      have hfirst := h.first
      refine ⟨text ++ '\n' :: before, line, after, ⟨?_, ?_, h.single, h.ends, by omega, ?_⟩, ?_⟩
      · rw [h.text]
        simp
      · cases before with
        | nil => simp
        | cons c before => simpa using h.starts
      · have hline : byteSize (text ++ '\n' :: before ++ line) =
            byteSize (text ++ ['\n']) + byteSize (before ++ line) := by
          rw [Text.byteSize_append, hbefore, Text.byteSize_append before, Nat.add_assoc]
        rcases h.last with hlast | ⟨hlast, hnone⟩
        · exact .inl (by omega)
        · exact .inr ⟨by omega, hnone⟩
      · have hcount : (text ++ '\n' :: before).count '\n' = before.count '\n' + 1 := by
          rw [List.count_append, List.count_eq_zero.2 htext, List.count_cons_self, Nat.zero_add]
        rw [hrest] at hfind
        rw [if_neg hlt, hfind, hcount, hbefore]
        simp only [Option.some.injEq, mk.injEq, true_and]
        omega
termination_by cs.length
decreasing_by grind

theorem find?_eq_none {number p : Nat} {lines : List (List Char)}
    (h : byteSize lines.flatten < p) : find? number p lines = none := by
  fun_induction find? number p lines with
  | case1 => rfl
  | case2 number p line hle => simp at h; omega
  | case3 => rfl
  | case4 number p line lines _ size hlt => simp at h; omega
  | case5 number p line lines _ size hle ih => exact ih (by simp at h; omega)

end Line

/-- The line found for a byte is the one it falls on. -/
theorem lineAt?_fallsOn {source : String} {p : Nat} (hp : p ≤ source.utf8ByteSize) :
    ∃ before line after, Text.FallsOn source.toList p before line after ∧
      lineAt? source p = some ⟨1 + before.count '\n', line, p - byteSize before⟩ :=
  Line.find?_split_fallsOn _ (Text.byteSize_toList source ▸ hp) 1

theorem lineAt?_eq_none {source : String} {p : Nat} (hp : source.utf8ByteSize < p) :
    lineAt? source p = none := by
  apply Line.find?_eq_none
  rwa [Line.flatten_split, Text.byteSize_toList]

end LetLang
