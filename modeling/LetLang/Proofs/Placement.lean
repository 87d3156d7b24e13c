import LetLang.Token.Scan

/-! Where the tokens of a text stand.

A token begins at or after the place where reading goes on, and ends after it
begins (`next?_place`). So the starts of the tokens never decrease, wherever
offsets are recorded as the largest one (`scan_sorted`), each token ends before the
next one as far as the record goes (`scan_precedes`), and in a text short enough for
its offsets the tokens stand one after the other (`scan_ordered`). -/
namespace LetLang
open Text (byteSize)
namespace Token

/-- One after the other, from a place on and up to the end, and none of them empty. -/
def Ordered (place : Nat) (finish : Position) : List Token → Prop
  | [] => place ≤ finish.offset
  | t :: ts =>
    place ≤ t.start.offset ∧ t.start.offset < t.stop.offset ∧ Ordered t.stop.offset finish ts

instance decidableOrdered (place : Nat) (finish : Position) :
    (ts : List Token) → Decidable (Ordered place finish ts)
  | [] => inferInstanceAs (Decidable (place ≤ finish.offset))
  | t :: ts =>
    have := decidableOrdered t.stop.offset finish ts
    inferInstanceAs (Decidable (_ ∧ _ ∧ _))

namespace Ordered
variable {place : Nat} {finish : Position} {x : Token} {ts us : List Token}

theorem le_finish (h : Ordered place finish ts) : place ≤ finish.offset := by
  induction ts generalizing place with
  | nil => exact h
  | cons t ts ih =>
    obtain ⟨hle, hlt, hts⟩ := h
    exact Nat.le_trans hle (Nat.le_trans (Nat.le_of_lt hlt) (ih hts))

theorem of_mem (h : Ordered place finish ts) (hx : x ∈ ts) :
    place ≤ x.start.offset ∧ x.start.offset < x.stop.offset ∧ x.stop.offset ≤ finish.offset := by
  induction ts generalizing place with
  | nil => cases hx
  | cons t ts ih =>
    obtain ⟨hle, hlt, hts⟩ := h
    rcases List.mem_cons.1 hx with rfl | hx
    · exact ⟨hle, hlt, hts.le_finish⟩
    · obtain ⟨hx, hx', hx''⟩ := ih hts hx
      exact ⟨by omega, hx', hx''⟩

/-- Everything in front of a token ends before it begins, and the rest comes after it. -/
theorem split (h : Ordered place finish (ts ++ x :: us)) :
    (∀ y ∈ ts, place ≤ y.start.offset ∧ y.start.offset < y.stop.offset ∧
      y.stop.offset ≤ x.start.offset) ∧
      place ≤ x.start.offset ∧ x.start.offset < x.stop.offset ∧ Ordered x.stop.offset finish us := by
  induction ts generalizing place with
  | nil => exact ⟨by simp, h⟩
  | cons t ts ih =>
    obtain ⟨hle, hlt, hts⟩ := h
    obtain ⟨hbefore, hx, hx', hus⟩ := ih hts
    refine ⟨fun y hy => ?_, by omega, hx', hus⟩
    rcases List.mem_cons.1 hy with rfl | hy
    · exact ⟨hle, hlt, hx⟩
    · obtain ⟨hy, hy', hy''⟩ := hbefore y hy
      exact ⟨by omega, hy', hy''⟩

theorem sorted (h : Ordered place finish ts) :
    (ts.map (fun t => t.start.offset) ++ [finish.offset]).Pairwise (· ≤ ·) := by
  induction ts generalizing place with
  | nil => simp
  | cons t ts ih =>
    obtain ⟨-, hlt, hts⟩ := h
    rw [List.map_cons, List.cons_append, List.pairwise_cons]
    refine ⟨fun place hplace => ?_, ih hts⟩
    rcases List.mem_append.1 hplace with hplace | hplace
    · obtain ⟨y, hy, rfl⟩ := List.mem_map.1 hplace
      have := (hts.of_mem hy).1
      omega
    · rw [List.mem_singleton.1 hplace]
      have := hts.le_finish
      omega

end Ordered

theorem byteSize_pos {cs : List Char} (h : cs ≠ []) : 0 < byteSize cs := by
  cases cs with
  | nil => contradiction
  | cons c cs =>
    have := c.utf8Size_pos
    rw [Text.byteSize_cons]
    omega

variable {file : String} {offset : Nat} {cs : List Char}

theorem next?_place {n : Next} (h : next? file offset cs = some n) :
    n.offset + byteSize n.rest = offset + byteSize cs ∧
      ∃ start, offset ≤ start ∧ start < n.offset ∧ n.token.span = .ofOffsets file start n.offset := by
  unfold next? at h
  split at h
  · cases h
  · rename_i c rest hdrop
    cases h
    have hgap := congrArg byteSize (List.takeWhile_append_dropWhile (p := isGap) (l := cs))
    have hread := congrArg byteSize (Lexeme.text_append_rest c rest)
    have hpos := byteSize_pos (Lexeme.text_ne_nil c rest)
    rw [Text.byteSize_append, hdrop] at hgap
    rw [Text.byteSize_append] at hread
    refine ⟨?_, _, Nat.le_add_right _ _, Nat.lt_add_of_pos_right hpos, rfl⟩
    simp only
    omega

theorem scanEnd_next? {n : Next} (h : next? file offset cs = some n) :
    scanEnd file n.offset n.rest = scanEnd file offset cs := by
  rw [scanEnd, scanEnd, (next?_place h).1]

theorem start_scanEnd : (scanEnd file offset cs).start = .ofOffset file (offset + byteSize cs) := rfl

/-- The starts of all tokens, and the end, in the order in which they come. -/
theorem scan_sorted (file : String) (offset : Nat) (cs : List Char) :
    ((scan file offset cs).map (fun t => t.start.offset) ++
      [(scanEnd file offset cs).start.offset]).Pairwise (· ≤ ·) ∧
    ∀ t ∈ scan file offset cs, min offset Position.maxOffset ≤ t.start.offset ∧
      t.start.offset ≤ (scanEnd file offset cs).start.offset := by
  fun_induction scan file offset cs with
  | case1 => simp
  | case2 offset cs n hn ih =>
    obtain ⟨hsize, start, hle, hlt, hspan⟩ := next?_place hn
    have hstart : n.token.start.offset = min start Position.maxOffset := by
      rw [Token.start, hspan]
      rfl
    have hend : (scanEnd file offset cs).start.offset =
        min (offset + byteSize cs) Position.maxOffset := rfl
    rw [scanEnd_next? hn] at ih
    obtain ⟨hsorted, hbounds⟩ := ih
    have hlast : n.token.start.offset ≤ (scanEnd file offset cs).start.offset := by
      rw [hstart, hend]
      omega
    constructor
    · rw [List.map_cons, List.cons_append, List.pairwise_cons]
      refine ⟨fun place hplace => ?_, hsorted⟩
      rcases List.mem_append.1 hplace with hplace | hplace
      · obtain ⟨t, ht, rfl⟩ := List.mem_map.1 hplace
        have := (hbounds t ht).1
        omega
      · rw [List.mem_singleton.1 hplace]
        exact hlast
    · intro t ht
      rcases List.mem_cons.1 ht with rfl | ht
      · exact ⟨by omega, hlast⟩
      · have := hbounds t ht
        exact ⟨by omega, this.2⟩

/-- The first token ends before the second begins, as far as offsets are recorded: past the largest
one, all that is left of a token is that offset. -/
structure Precedes (t u : Token) : Prop where
  apart : t.stop.offset ≤ u.start.offset
  nonempty : t.start.offset < t.stop.offset ∨
    (t.start.offset = Position.maxOffset ∧ t.stop.offset = Position.maxOffset)
  bounded : u.start.offset ≤ Position.maxOffset
  file : t.start.file = u.start.file

theorem scan_precedes (file : String) (offset : Nat) (cs : List Char) :
    (scan file offset cs ++ [scanEnd file offset cs]).Pairwise Precedes ∧
    ∀ t ∈ scan file offset cs ++ [scanEnd file offset cs],
      min offset Position.maxOffset ≤ t.start.offset ∧ t.start.offset ≤ Position.maxOffset ∧
        t.start.file = file := by
  fun_induction scan file offset cs with
  | case1 offset cs hn =>
    have hend : (scanEnd file offset cs).start = .ofOffset file (offset + byteSize cs) := rfl
    simp only [List.nil_append, List.pairwise_singleton, List.mem_singleton, forall_eq, hend,
      Position.ofOffset, true_and, and_true]
    omega
  | case2 offset cs n hn ih =>
    obtain ⟨hsize, start, hle, hlt, hspan⟩ := next?_place hn
    have hstart : n.token.start = .ofOffset file start := congrArg Span.start hspan
    have hstop : n.token.stop = .ofOffset file n.offset := congrArg Span.stop hspan
    rw [scanEnd_next? hn] at ih
    obtain ⟨hpairs, hall⟩ := ih
    rw [List.cons_append]
    constructor
    · rw [List.pairwise_cons]
      refine ⟨fun u hu => ?_, hpairs⟩
      obtain ⟨hlo, hhi, hfile⟩ := hall u hu
      refine ⟨?_, ?_, hhi, ?_⟩
      · rw [hstop]
        exact hlo
      · simp only [hstart, hstop, Position.ofOffset]
        omega
      · rw [hstart, hfile]
        rfl
    · intro t ht
      rcases List.mem_cons.1 ht with rfl | ht
      · simp only [hstart, Position.ofOffset, and_true]
        omega
      · obtain ⟨hlo, hhi, hfile⟩ := hall t ht
        exact ⟨by omega, hhi, hfile⟩

theorem scan_ordered {file : String} {offset : Nat} {cs : List Char}
    (h : offset + byteSize cs ≤ Position.maxOffset) :
    Ordered offset (scanEnd file offset cs).start (scan file offset cs) := by
  fun_induction scan file offset cs with
  | case1 offset cs hn =>
    show offset ≤ min (offset + byteSize cs) Position.maxOffset
    omega
  | case2 offset cs n hn ih =>
    obtain ⟨hsize, start, hle, hlt, hspan⟩ := next?_place hn
    have hstart : n.token.start.offset = start := by
      rw [Token.start, hspan]
      exact Position.offset_ofOffset (by omega)
    have hstop : n.token.stop.offset = n.offset := by
      rw [Token.stop, hspan]
      exact Position.offset_ofOffset (by omega)
    rw [Ordered, hstart, hstop, ← scanEnd_next? hn]
    exact ⟨hle, hlt, ih (by omega)⟩

end Token
end LetLang
