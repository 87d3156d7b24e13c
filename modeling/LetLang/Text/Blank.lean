/-! White space as Unicode defines it, and text without its trailing white space. -/
namespace LetLang.Text

/-- The characters with the property White_Space. -/
def isBlank (c : Char) : Bool :=
  ('\t' ≤ c && c ≤ '\r') || c == ' ' || c == '\u0085' || c == '\u00a0' || c == '\u1680' ||
  ('\u2000' ≤ c && c ≤ '\u200a') || c == '\u2028' || c == '\u2029' || c == '\u202f' ||
  c == '\u205f' || c == '\u3000'

/-- The text up to its last character that is not white space. -/
def trimEnd (cs : List Char) : List Char :=
  (cs.reverse.dropWhile isBlank).reverse

theorem dropWhile_append_of_forall {p : Char → Bool} {a : List Char} (h : ∀ c ∈ a, p c)
    (b : List Char) : (a ++ b).dropWhile p = b.dropWhile p := by
  induction a with
  | nil => rfl
  | cons c a ih =>
    have hc : p c = true := h c (by simp)
    simpa [List.dropWhile_cons, hc] using ih fun d hd => h d (by simp [hd])

theorem trimEnd_append_of_blank (cs : List Char) {tail : List Char} (h : ∀ c ∈ tail, isBlank c) :
    trimEnd (cs ++ tail) = trimEnd cs := by
  rw [trimEnd, List.reverse_append, dropWhile_append_of_forall (by simpa using h)]
  rfl

theorem trimEnd_prefix (cs : List Char) : trimEnd cs <+: cs := by
  have h := List.dropWhile_suffix (l := cs.reverse) isBlank
  simpa [trimEnd] using List.reverse_prefix.2 h

end LetLang.Text
