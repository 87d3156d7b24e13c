import LetLang.Proofs.Lines
import LetLang.Source.Search
import Mathlib.Data.List.TakeWhile

/-! Lines and columns as addresses of bytes.

The number of a line counts the newlines before a byte, and the column counts the
bytes behind the last of them. Said of the bytes of a text this needs no lines, and
it is one formula: for the first line and the last one, for the end of the text with
or without a newline before it, and inside a character (`lineAt?_addresses`). So the
address of a byte grows with its offset (`address_lt_iff`), and a search through the
pieces of a text, which treats its end apart, comes to the same lines
(`search?_eq`). -/
namespace LetLang
open Text (byteSize FallsOn)

/-! ### The bytes of a text -/

namespace Text

/-- In UTF-8. -/
def encode (cs : List Char) : List UInt8 := cs.flatMap String.utf8EncodeChar

def newline : UInt8 := 10

/-- Where the last line starts: behind the last newline, or at the start of the bytes. -/
def lineStart (bytes : List UInt8) : Nat := (bytes.reverse.dropWhile (· ≠ newline)).length

/-- The bytes up to the first newline, which is one of them, or to the end. -/
def firstLine (bytes : List UInt8) : List UInt8 :=
  bytes.takeWhile (· ≠ newline) ++ (bytes.dropWhile (· ≠ newline)).take 1

theorem data_toUTF8 (s : String) : s.toUTF8.data.toList = encode s.toList := by
  rw [← String.ofList_toList (s := s), String.toUTF8_eq_toByteArray, String.toByteArray_ofList,
    List.utf8Encode, List.toList_data_toByteArray, String.ofList_toList]
  rfl

theorem encode_append (a b : List Char) : encode (a ++ b) = encode a ++ encode b :=
  List.flatMap_append

theorem length_encode (cs : List Char) : (encode cs).length = byteSize cs := by
  induction cs with
  | nil => rfl
  | cons c cs ih =>
    rw [encode, List.flatMap_cons, List.length_append, String.length_utf8EncodeChar, ← encode, ih,
      byteSize_cons]

/-- Only the newline has a byte that is one. -/
theorem newline_mem_utf8EncodeChar {c : Char} : newline ∈ String.utf8EncodeChar c ↔ c = '\n' := by
  constructor
  · intro h
    have hbyte : ∀ {n : Nat}, newline = UInt8.ofNat n → n % 256 = 10 := by
      intro n hn
      have hval := congrArg UInt8.toNat hn
      rw [UInt8.toNat_ofNat'] at hval
      exact hval.symm
    have hval : c.val.toNat = 10 := by
      simp only [String.utf8EncodeChar] at h
      split at h
      · have := hbyte (List.mem_singleton.1 h)
        omega
      · exfalso
        split at h
        · simp only [List.mem_cons, List.not_mem_nil, or_false] at h
          rcases h with h | h <;> have := hbyte h <;> omega
        · split at h
          · simp only [List.mem_cons, List.not_mem_nil, or_false] at h
            rcases h with h | h | h <;> have := hbyte h <;> omega
          · simp only [List.mem_cons, List.not_mem_nil, or_false] at h
            rcases h with h | h | h | h <;> have := hbyte h <;> omega
    exact Char.ext (UInt32.toNat_inj.1 hval)
  · rintro rfl
    decide

theorem newline_mem_encode {cs : List Char} : newline ∈ encode cs ↔ '\n' ∈ cs := by
  simp [encode, List.mem_flatMap, newline_mem_utf8EncodeChar]

theorem encode_newline : encode ['\n'] = [newline] := by decide

theorem count_newline_encode (cs : List Char) : (encode cs).count newline = cs.count '\n' := by
  induction cs with
  | nil => rfl
  | cons c cs ih =>
    rw [encode, List.flatMap_cons, List.count_append, ← encode, ih]
    by_cases hc : c = '\n'
    · rw [hc, List.count_cons_self, show String.utf8EncodeChar '\n' = [newline] by decide,
        List.count_singleton_self, Nat.add_comm]
    · rw [List.count_cons_of_ne hc,
        List.count_eq_zero.2 fun h => hc (newline_mem_utf8EncodeChar.1 h), Nat.zero_add]

/-- What stands behind the last newline does not move it. -/
theorem lineStart_append {a b : List UInt8} (h : newline ∉ b) :
    lineStart (a ++ b) = lineStart a := by
  rw [lineStart, List.reverse_append, List.dropWhile_append_of_pos]
  · rfl
  · intro byte hbyte
    exact decide_eq_true fun heq => h (heq ▸ List.mem_reverse.1 hbyte)

theorem lineStart_le (bytes : List UInt8) : lineStart bytes ≤ bytes.length := by
  have hle := (List.dropWhile_sublist (fun byte => decide (byte ≠ newline))
    (l := bytes.reverse)).length_le
  rwa [List.length_reverse] at hle

theorem lineStart_concat (a : List UInt8) :
    lineStart (a ++ [newline]) = (a ++ [newline]).length := by
  rw [lineStart, List.reverse_append, List.reverse_singleton, List.singleton_append,
    List.dropWhile_cons_of_neg (by simp), List.length_cons, List.length_reverse, List.length_append]
  rfl

/-- A line starts where the text before it ends. -/
theorem lineStart_encode {cs : List Char} (h : ∀ c ∈ cs.getLast?, c = '\n') :
    lineStart (encode cs) = byteSize cs := by
  rw [← length_encode]
  rcases List.eq_nil_or_concat cs with rfl | ⟨before, c, rfl⟩
  · rfl
  · obtain rfl : c = '\n' := h c (by simp)
    rw [List.concat_eq_append, encode_append, encode_newline, lineStart_concat]

/-- If a newline stands nowhere but at the end of a line, it ends the line or there is none. -/
theorem newline_cases {line : List Char} (h : '\n' ∉ line.dropLast) :
    '\n' ∉ line ∨ ∃ text, '\n' ∉ text ∧ line = text ++ ['\n'] := by
  rcases List.eq_nil_or_concat line with rfl | ⟨text, c, rfl⟩
  · exact .inl h
  · rw [List.concat_eq_append] at h ⊢
    rw [List.dropLast_concat] at h
    by_cases hc : c = '\n'
    · exact .inr ⟨text, h, by rw [hc]⟩
    · refine .inl fun hmem => ?_
      cases List.mem_append.1 hmem with
      | inl hmem => exact h hmem
      | inr hmem => exact hc (List.mem_singleton.1 hmem).symm

theorem forall_ne_newline {cs : List Char} (h : '\n' ∉ cs) :
    ∀ byte ∈ encode cs, decide (byte ≠ newline) = true := by
  intro byte hbyte
  exact decide_eq_true fun heq => h (newline_mem_encode.1 (heq ▸ hbyte))

namespace FallsOn

variable {cs before line after : List Char} {p : Nat}

/-- The first line behind what stands before a line is that line. -/
theorem firstLine (h : FallsOn cs p before line after) :
    firstLine ((encode cs).drop (byteSize before)) = encode line := by
  rw [h.text, encode_append, encode_append, ← length_encode, List.drop_left]
  rcases newline_cases h.single with hline | ⟨text, htext, rfl⟩
  · rw [h.after_eq_nil hline, show encode [] = [] from rfl, List.append_nil, Text.firstLine,
      List.takeWhile_eq_self_iff.2 (forall_ne_newline hline),
      List.dropWhile_eq_nil_iff.2 (forall_ne_newline hline)]
    exact List.append_nil _
  · rw [encode_append, encode_newline, List.append_assoc, Text.firstLine,
      List.takeWhile_append_of_pos (forall_ne_newline htext),
      List.dropWhile_append_of_pos (forall_ne_newline htext), List.singleton_append,
      List.takeWhile_cons_of_neg (by simp), List.dropWhile_cons_of_neg (by simp), List.append_nil]
    rfl

/-- No newline stands between the start of a line and a byte that falls on it. -/
theorem take (h : FallsOn cs p before line after) :
    ∃ bytes, (encode cs).take p = encode before ++ bytes ∧ newline ∉ bytes := by
  refine ⟨(encode line).take (p - byteSize before), ?_, ?_⟩
  · have hle : p - byteSize before ≤ (encode line).length := by
      have hline := h.le_byteSize
      rw [byteSize_append] at hline
      rw [length_encode]
      omega
    rw [h.text, encode_append, encode_append, List.take_append, length_encode,
      List.take_of_length_le (length_encode before ▸ h.first), List.take_append_of_le_length hle]
  · rcases newline_cases h.single with hline | ⟨text, htext, rfl⟩
    · exact fun hmem => hline (newline_mem_encode.1 (List.mem_of_mem_take hmem))
    · rw [encode_append, List.take_append_of_le_length]
      · exact fun hmem => htext (newline_mem_encode.1 (List.mem_of_mem_take hmem))
      · have hfirst := h.first
        rw [length_encode]
        rcases h.last with hlt | ⟨-, hnone⟩
        · have : byteSize ['\n'] = 1 := rfl
          rw [byteSize_append, byteSize_append] at hlt
          omega
        · simp at hnone

theorem lineStart (h : FallsOn cs p before line after) :
    lineStart ((encode cs).take p) = byteSize before := by
  obtain ⟨bytes, htake, hbytes⟩ := h.take
  rw [htake, lineStart_append hbytes, lineStart_encode h.starts]

theorem count_newline (h : FallsOn cs p before line after) :
    ((encode cs).take p).count newline = before.count '\n' := by
  obtain ⟨bytes, htake, hbytes⟩ := h.take
  rw [htake, List.count_append, List.count_eq_zero.2 hbytes, count_newline_encode, Nat.add_zero]

end FallsOn

/-- A later byte falls on a later line, or behind the earlier one on the same line. -/
theorem lines_grow {bytes : List UInt8} {p q : Nat} (hq : q ≤ bytes.length) (hlt : p < q) :
    (bytes.take p).count newline < (bytes.take q).count newline ∨
      (bytes.take p).count newline = (bytes.take q).count newline ∧
        p - lineStart (bytes.take p) < q - lineStart (bytes.take q) := by
  have hsplit : bytes.take q = bytes.take p ++ (bytes.drop p).take (q - p) := by
    rw [← List.take_add, Nat.add_sub_cancel' hlt.le]
  by_cases hmem : newline ∈ (bytes.drop p).take (q - p)
  · left
    have hpos := List.count_pos_iff.2 hmem
    rw [hsplit, List.count_append]
    omega
  · right
    have hle := lineStart_le (bytes.take p)
    rw [List.length_take] at hle
    rw [hsplit, List.count_append, List.count_eq_zero.2 hmem, lineStart_append hmem]
    omega

end Text

namespace Line

/-! ### A search through pieces -/

theorem pieces_of_notMem {cs : List Char} (h : '\n' ∉ cs) (hne : cs ≠ []) : pieces cs = [cs] := by
  induction cs with
  | nil => exact absurd rfl hne
  | cons c cs ih =>
    have hc : c ≠ '\n' := fun hc => h (by simp [hc])
    cases cs with
    | nil => rfl
    | cons d cs =>
      rw [show pieces (c :: d :: cs) = splitStep c (pieces (d :: cs)) from rfl,
        ih (fun hmem => h (List.mem_cons_of_mem c hmem)) (List.cons_ne_nil d cs), splitStep,
        if_neg hc]

theorem pieces_append {text : List Char} (h : '\n' ∉ text) (rest : List Char) :
    pieces (text ++ '\n' :: rest) = (text ++ ['\n']) :: pieces rest := by
  induction text with
  | nil =>
    rw [List.nil_append, show pieces ('\n' :: rest) = splitStep '\n' (pieces rest) from rfl]
    cases pieces rest <;> rfl
  | cons c text ih =>
    have hc : c ≠ '\n' := fun hc => h (by simp [hc])
    rw [show pieces (c :: text ++ '\n' :: rest) = splitStep c (pieces (text ++ '\n' :: rest))
        from rfl,
      ih fun hmem => h (List.mem_cons_of_mem c hmem), splitStep, if_neg hc]
    rfl

/-- A newline at the end of the first piece leaves the last line to the pieces behind it. -/
theorem atEnd_cons (text : List Char) (rest : List (List Char)) :
    atEnd ((text ++ ['\n']) :: rest).getLast? = atEnd rest.getLast? := by
  funext number
  cases rest with
  | nil => simp [atEnd]
  | cons piece rest => rw [List.getLast?_cons_cons]

/-- Behind `start`, the search through the pieces of what is left finds the line it is to find. -/
theorem searchFrom_pieces (cs : List Char) {p start : Nat} (number : Nat) (hstart : start ≤ p)
    (hp : p ≤ start + byteSize cs) :
    find? number (p - start) (split cs) =
      some (searchFrom p (atEnd (pieces cs).getLast?) number start (pieces cs)) := by
  rcases split_cases cs with ⟨hcs, hsplit⟩ | ⟨text, rest, htext, rfl, hsplit⟩
  · rw [hsplit, find?_last, if_pos (by omega)]
    by_cases hne : cs = []
    · subst hne
      rw [Text.byteSize_nil] at hp
      rw [Nat.sub_eq_zero_of_le (show p ≤ start from hp)]
      rfl
    · rw [pieces_of_notMem hcs hne, searchFrom]
      by_cases hlt : p < start + byteSize cs
      · rw [if_pos ⟨hstart, hlt⟩]
      · have hlast : cs.getLast? ≠ some '\n' := fun h => hcs (List.mem_of_getLast? h)
        rw [if_neg fun h => hlt h.2, searchFrom, List.getLast?_singleton, atEnd, if_neg hlast,
          Nat.add_sub_cancel]
        simp only [Option.some.injEq, mk.injEq, true_and]
        omega
  · obtain ⟨next, lines, hrest⟩ := List.exists_cons_of_ne_nil (split_ne_nil rest)
    have hsize : byteSize (text ++ '\n' :: rest) = byteSize (text ++ ['\n']) + byteSize rest := by
      simp [Nat.add_assoc]
    rw [hsplit, hrest, find?_cons, pieces_append htext, atEnd_cons, searchFrom]
    by_cases hlt : p < start + byteSize (text ++ ['\n'])
    · rw [if_pos (by omega), if_pos ⟨hstart, hlt⟩]
    · rw [if_neg (by omega), if_neg fun h => hlt h.2, ← hrest, Nat.sub_sub]
      exact searchFrom_pieces rest (number + 1) (by omega) (by omega)
termination_by cs.length
decreasing_by grind

end Line

theorem search?_eq (text : String) (p : Nat) : Line.search? text.toList p = lineAt? text p := by
  rw [Line.search?]
  split
  · exact (lineAt?_eq_none (Text.byteSize_toList text ▸ ‹_›)).symm
  · exact (Line.searchFrom_pieces text.toList 1 (Nat.zero_le p) (by omega)).symm

/-! ### Addresses -/

/-- The lines before the one found, and the column in it, are what precedes the offset. -/
theorem Line.find?_getElem? {number p : Nat} {lines : List (List Char)} {line : Line}
    (h : find? number p lines = some line) :
    ∃ k, line.number = number + k ∧ lines[k]? = some line.text ∧
      byteSize (lines.take k).flatten + line.column = p := by
  fun_induction find? number p lines with
  | case1 => cases h
  | case2 number p text hle => cases h; exact ⟨0, rfl, rfl, Nat.zero_add _⟩
  | case3 => cases h
  | case4 number p text rest _ size hlt => cases h; exact ⟨0, rfl, rfl, Nat.zero_add _⟩
  | case5 number p text rest _ size hle ih =>
    obtain ⟨k, hnumber, htext, hcolumn⟩ := ih h
    refine ⟨k + 1, by omega, htext, ?_⟩
    rw [List.take_succ_cons, List.flatten_cons, Text.byteSize_append]
    omega

theorem lineAt?_le {text : String} {p : Nat} {line : Line} (h : lineAt? text p = some line) :
    p ≤ text.utf8ByteSize := by
  by_contra hlt
  rw [lineAt?_eq_none (Nat.lt_of_not_le hlt)] at h
  cases h

/-- What the bytes of a text say of the line found for one of them. -/
theorem lineAt?_bytes {text : String} {p : Nat} {line : Line} (h : lineAt? text p = some line) :
    let bytes := text.toUTF8.data.toList
    let start := Text.lineStart (bytes.take p)
    line.number = 1 + (bytes.take p).count Text.newline ∧
      line.column = p - start ∧
      Text.encode line.text = Text.firstLine (bytes.drop start) := by
  obtain ⟨before, found, after, hfalls, hfind⟩ := lineAt?_fallsOn (lineAt?_le h)
  obtain rfl := Option.some.inj (h.symm.trans hfind)
  simp only [Text.data_toUTF8, hfalls.lineStart, hfalls.count_newline, hfalls.firstLine, and_self]

/-- The address of a byte grows with its offset. -/
theorem address_lt {text : String} {p q : Nat} {l m : Line} (hl : lineAt? text p = some l)
    (hm : lineAt? text q = some m) (hlt : p < q) :
    l.number < m.number ∨ l.number = m.number ∧ l.column < m.column := by
  obtain ⟨hlnumber, hlcolumn, -⟩ := lineAt?_bytes hl
  obtain ⟨hmnumber, hmcolumn, -⟩ := lineAt?_bytes hm
  have hq := lineAt?_le hm
  rw [← Text.byteSize_toList, ← Text.length_encode, ← Text.data_toUTF8] at hq
  have hgrow := Text.lines_grow hq hlt
  omega

/-- Of two bytes the later one has the greater address, and so they do not share one. -/
theorem address_lt_iff {text : String} {p q : Nat} {l m : Line} (hl : lineAt? text p = some l)
    (hm : lineAt? text q = some m) :
    p < q ↔ l.number < m.number ∨ l.number = m.number ∧ l.column < m.column := by
  refine ⟨address_lt hl hm, fun h => ?_⟩
  rcases Nat.lt_trichotomy p q with hlt | rfl | hlt
  · exact hlt
  · obtain rfl := Option.some.inj (hl.symm.trans hm)
    omega
  · have := address_lt hm hl hlt
    omega

/-- A byte has a line unless the text ends before it. The number of the line counts the newlines in
front of the byte, the column counts the bytes behind the last of them, and the line goes from there
through the next newline or to the end. So the lines before it and the column add up to the offset,
no other byte has that number and that column, and of two bytes the later one has the greater
address. Looking for the line piece by piece, with the end of the text apart, finds the same
line. -/
theorem lineAt?_addresses (text : String) (p : Nat) :
    let bytes := text.toUTF8.data.toList
    let start := Text.lineStart (bytes.take p)
    let lines := Line.split text.toList
    Line.search? text.toList p = lineAt? text p ∧
    (lineAt? text p = none ↔ bytes.length < p) ∧
    ∀ line, lineAt? text p = some line →
      (line.number = 1 + (bytes.take p).count Text.newline ∧
        line.column = p - start ∧
        Text.encode line.text = Text.firstLine (bytes.drop start)) ∧
      (lines[line.number - 1]? = some line.text ∧
        byteSize (lines.take (line.number - 1)).flatten + line.column = p) ∧
      ∀ q other, lineAt? text q = some other →
        (p ≠ q → (line.number, line.column) ≠ (other.number, other.column)) ∧
        (p < q ↔ line.number < other.number ∨
          line.number = other.number ∧ line.column < other.column) := by
  intro bytes start lines
  have hlength : bytes.length = text.utf8ByteSize := by
    rw [← Text.byteSize_toList, ← Text.length_encode, ← Text.data_toUTF8]
  refine ⟨search?_eq text p, ⟨?_, ?_⟩, fun line h => ⟨lineAt?_bytes h, ?_, ?_⟩⟩
  · intro hnone
    by_contra hle
    obtain ⟨before, found, after, -, hfind⟩ := lineAt?_fallsOn (hlength ▸ Nat.le_of_not_lt hle)
    cases hnone.symm.trans hfind
  · exact fun hlt => lineAt?_eq_none (hlength ▸ hlt)
  · obtain ⟨k, hnumber, htext, hoffset⟩ := Line.find?_getElem? h
    obtain rfl : k = line.number - 1 := by omega
    exact ⟨htext, hoffset⟩
  · intro q other hother
    have hbefore := address_lt_iff h hother
    have hafter := address_lt_iff hother h
    refine ⟨fun hne heq => ?_, hbefore⟩
    obtain ⟨hnumber, hcolumn⟩ := Prod.mk.inj heq
    omega

/-- A byte inside a character has an address, and the end of a text that ends with a newline is on
an empty line of its own. -/
example : lineAt? "é\n" 1 = some ⟨1, ['é', '\n'], 1⟩ ∧ lineAt? "é\n" 3 = some ⟨2, [], 0⟩ := by
  decide

end LetLang
