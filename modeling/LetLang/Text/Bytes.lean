/-! Characters measured in UTF-8 bytes.

Source offsets count bytes, while lexing walks over characters. `byteSize` is
the length of a list of characters in bytes; `splitAtByte?` cuts a list at a
byte offset and fails exactly where no character begins or ends. -/
namespace LetLang.Text

def byteSize : List Char → Nat
  | [] => 0
  | c :: cs => c.utf8Size + byteSize cs

/-- The characters within the first `n` bytes and those after them; `none` if `n` lies inside a
character or past the end. -/
def splitAtByte? : Nat → List Char → Option (List Char × List Char)
  | 0, cs => some ([], cs)
  | _ + 1, [] => none
  | n + 1, c :: cs =>
    if c.utf8Size ≤ n + 1 then
      (splitAtByte? (n + 1 - c.utf8Size) cs).map fun (before, after) => (c :: before, after)
    else none

/-! ### Laws -/

@[simp] theorem byteSize_nil : byteSize [] = 0 := rfl

@[simp] theorem byteSize_cons (c : Char) (cs : List Char) :
    byteSize (c :: cs) = c.utf8Size + byteSize cs := rfl

@[simp] theorem byteSize_append (a b : List Char) :
    byteSize (a ++ b) = byteSize a + byteSize b := by
  induction a with
  | nil => simp
  | cons c a ih => simp [ih, Nat.add_assoc]

theorem byteSize_ofList (cs : List Char) : (String.ofList cs).utf8ByteSize = byteSize cs := by
  induction cs with
  | nil => rfl
  | cons c cs ih =>
    have hc : String.ofList (c :: cs) = String.singleton c ++ String.ofList cs := by
      rw [String.singleton_eq_ofList, ← String.ofList_append]
      rfl
    rw [hc, String.utf8ByteSize_append, String.utf8ByteSize_singleton, ih, byteSize_cons]

/-- A string is as long as its characters are. -/
theorem byteSize_toList (s : String) : byteSize s.toList = s.utf8ByteSize := by
  rw [← byteSize_ofList, String.ofList_toList]

theorem splitAtByte?_byteSize_append (a b : List Char) :
    splitAtByte? (byteSize a) (a ++ b) = some (a, b) := by
  induction a with
  | nil => simp [splitAtByte?]
  | cons c a ih =>
    have hc := c.utf8Size_pos
    obtain ⟨k, hk⟩ : ∃ k, c.utf8Size + byteSize a = k + 1 := ⟨c.utf8Size + byteSize a - 1, by omega⟩
    have hle : c.utf8Size ≤ k + 1 := by omega
    have hsub : k + 1 - c.utf8Size = byteSize a := by omega
    simp [hk, splitAtByte?, hle, hsub, ih]

theorem eq_append_of_splitAtByte? {n : Nat} {cs a b : List Char}
    (h : splitAtByte? n cs = some (a, b)) : cs = a ++ b ∧ byteSize a = n := by
  fun_induction splitAtByte? n cs generalizing a b with
  | case1 cs => simp_all
  | case2 => simp at h
  | case3 n c cs hc ih =>
    obtain ⟨⟨before, after⟩, hs, heq⟩ := Option.map_eq_some_iff.1 h
    obtain ⟨rfl, rfl⟩ := Prod.mk.inj heq
    obtain ⟨rfl, hn⟩ := ih hs
    exact ⟨rfl, by simp [hn]; omega⟩
  | case4 => simp at h

end LetLang.Text
