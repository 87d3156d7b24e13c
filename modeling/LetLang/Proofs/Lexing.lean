import LetLang.Proofs.Placement
import Mathlib.Data.List.TakeWhile
import LetLang.Proofs.Redraw

/-! Lexing in two parts.

Whether a lexeme goes on is decided by its kind and the character that comes next
(`Kind.goesOn`). So in front of another text a text has the same tokens, unless its
last token stands at its end and goes on (`RunsOn`). Then that token is longer
(`scan_append_ne`); otherwise the tokens of the text behind come after those in front
(`scan_append`), as they are on their own but for the place (`scan_shift`). So it is
known which texts can be lexed in two parts (`tokenize_append_iff`). -/
namespace LetLang
open Text (byteSize)
namespace Token

/-- A lexeme of the kind goes on with the character, if it comes next. -/
def Kind.goesOn (kind : Kind) (c : Char) : Bool :=
  match kind with
  | identifier | kwFn | kwLet | kwTrue | kwFalse | kwIf | kwElse | kwReturn => isWordPart c
  | integer => isDigit c
  | assignment | not | less | greater | plus | dash | star | slash => c == '='
  | _ => false

/-! ### A text in front of another -/

namespace Lexeme

theorem goesOn_ofWord (word : String) (c : Char) : (Kind.ofWord word).goesOn c = isWordPart c := by
  unfold Kind.ofWord
  split <;> rfl

/-- Only a sign that stands alone goes on, and only with `=`. -/
theorem goesOn_of_sign? {c : Char} {alone followed : Kind} (h : sign? c = some (alone, followed))
    (d : Char) : alone.goesOn d = (d == '=') ∧ followed.goesOn d = false := by
  unfold sign? at h
  split at h <;> cases h <;> exact ⟨rfl, rfl⟩

theorem goesOn_mark (c d : Char) : (mark c).goesOn d = false := by
  unfold mark
  split <;> rfl

/-- A run of characters that has ended, or is ended by what comes next. -/
theorem while_append {p : Char → Bool} {cs ds : List Char}
    (h : cs.dropWhile p ≠ [] ∨ ∀ d ∈ ds.head?, p d = false) :
    (cs ++ ds).takeWhile p = cs.takeWhile p ∧ (cs ++ ds).dropWhile p = cs.dropWhile p ++ ds := by
  induction cs with
  | nil =>
    cases ds with
    | nil => simp
    | cons d ds =>
      have hd : p d = false := by simpa using h
      simp [hd]
  | cons c cs ih =>
    by_cases hc : p c = true
    · rw [List.dropWhile_cons_of_pos hc] at h
      simp [hc, ih h]
    · simp [hc]

/-- A run of characters that is not ended by what comes next. -/
theorem takeWhile_append_of_nil {p : Char → Bool} {cs ds : List Char} {d : Char}
    (h : cs.dropWhile p = []) (hd : p d) :
    (cs ++ d :: ds).takeWhile p = cs.takeWhile p ++ d :: ds.takeWhile p := by
  have hcs := List.dropWhile_eq_nil_iff.1 h
  rw [List.takeWhile_append_of_pos hcs, List.takeWhile_cons_of_pos hd,
    List.takeWhile_eq_self_iff.2 hcs]

theorem readSign_append {c : Char} {alone followed : Kind} {cs ds : List Char}
    (h : cs ≠ [] ∨ ∀ d ∈ ds.head?, d ≠ '=') :
    readSign c alone followed (cs ++ ds) =
      { readSign c alone followed cs with rest := (readSign c alone followed cs).rest ++ ds } := by
  cases cs with
  | nil =>
    cases ds with
    | nil => rfl
    | cons d ds =>
      have hd : d ≠ '=' := by simpa using h
      simp [readSign, hd]
  | cons d cs =>
    by_cases hd : d = '='
    · subst hd
      rfl
    · simp [readSign, hd]

/-- A lexeme that has ended, or does not go on, is the same in front of another text. -/
theorem read_append {c : Char} {cs ds : List Char}
    (h : (read c cs).rest ≠ [] ∨ ∀ d ∈ ds.head?, (read c cs).kind.goesOn d = false) :
    read c (cs ++ ds) = { read c cs with rest := (read c cs).rest ++ ds } := by
  unfold read at h ⊢
  split
  · rename_i hc
    simp only [if_pos hc, goesOn_ofWord] at h
    obtain ⟨htake, hdrop⟩ := while_append h
    simp only [htake, hdrop]
  · rename_i hc
    rw [if_neg hc] at h
    split
    · rename_i hd
      rw [if_pos hd] at h
      obtain ⟨htake, hdrop⟩ := while_append h
      simp only [htake, hdrop]
    · rename_i hd
      rw [if_neg hd] at h
      split
      · rename_i alone followed hs
        simp only [hs] at h
        refine readSign_append (or_iff_not_imp_left.2 fun hcs d hd heq => ?_)
        obtain rfl := not_not.1 hcs
        have hends : alone.goesOn d = false := h.resolve_left (not_not.2 rfl) d hd
        rw [(goesOn_of_sign? hs d).1, heq] at hends
        cases hends
      · rfl

/-- A lexeme that goes on is longer in front of another text. -/
theorem length_text_lt {c d : Char} {cs : List Char} (h : (read c cs).rest = [])
    (hd : (read c cs).kind.goesOn d) (ds : List Char) :
    (read c cs).text.length < (read c (cs ++ d :: ds)).text.length := by
  unfold read at h hd ⊢
  split
  · rename_i hc
    simp only [if_pos hc, goesOn_ofWord] at h hd
    simp only [takeWhile_append_of_nil h hd, List.length_cons, List.length_append]
    omega
  · rename_i hc
    rw [if_neg hc] at h hd
    split
    · rename_i hn
      rw [if_pos hn] at h hd
      simp only [takeWhile_append_of_nil h hd, List.length_cons, List.length_append]
      omega
    · rename_i hn
      rw [if_neg hn] at h hd
      split
      · rename_i alone followed hs
        simp only [hs] at h hd
        obtain ⟨halone, hfollowed⟩ := goesOn_of_sign? hs d
        -- a sign with `=` does not go on, and one alone has nothing behind it
        by_cases hcs : cs = []
        · subst hcs
          obtain rfl : d = '=' := by simpa [readSign, halone] using hd
          simp [readSign]
        · cases cs with
          | nil => exact absurd rfl hcs
          | cons e cs =>
            by_cases he : e = '='
            · subst he
              rw [readSign, hfollowed] at hd
              cases hd
            · simp [readSign, he] at h
      · rename_i hs
        simp only [hs, goesOn_mark] at hd
        cases hd

end Lexeme

variable {file : String} {offset : Nat} {as bs : List Char}

/-- So is a token. -/
theorem next?_append {m : Next} (hm : next? file offset as = some m)
    (h : m.rest ≠ [] ∨ ∀ d ∈ bs.head?, m.token.kind.goesOn d = false) :
    next? file offset (as ++ bs) = some { m with rest := m.rest ++ bs } := by
  unfold next? at hm
  split at hm
  · cases hm
  · rename_i c cs hcs
    cases hm
    have hne : as.dropWhile isGap ≠ [] := by simp [hcs]
    obtain ⟨htake, hdrop⟩ := Lexeme.while_append (.inl hne)
    rw [next?, htake, hdrop, hcs]
    simp only [List.cons_append, Lexeme.read_append h]

/-- A token that goes on has another text. -/
theorem next?_append_ne {m : Next} (hm : next? file offset as = some m) (hrest : m.rest = [])
    {d : Char} (hd : m.token.kind.goesOn d) (ds : List Char) :
    ∃ n, next? file offset (as ++ d :: ds) = some n ∧ n.token ≠ m.token := by
  unfold next? at hm
  split at hm
  · cases hm
  · rename_i c cs hcs
    cases hm
    have hne : as.dropWhile isGap ≠ [] := by simp [hcs]
    obtain ⟨htake, hdrop⟩ : (as ++ d :: ds).takeWhile isGap = as.takeWhile isGap ∧
        (as ++ d :: ds).dropWhile isGap = as.dropWhile isGap ++ d :: ds :=
      Lexeme.while_append (.inl hne)
    rw [next?, htake, hdrop, hcs]
    refine ⟨_, rfl, fun heq => ?_⟩
    have hlt := Lexeme.length_text_lt hrest hd ds
    have htext := congrArg String.toList (congrArg literal heq)
    simp only [String.toList_ofList] at htext
    exact absurd hlt (htext ▸ Nat.lt_irrefl _)

theorem next?_gaps (h : next? file offset as = none) (bs : List Char) :
    next? file offset (as ++ bs) = next? file (offset + byteSize as) bs := by
  have hgap : ∀ c ∈ as, isGap c = true := by
    unfold next? at h
    split at h
    · rename_i hnil
      exact List.dropWhile_eq_nil_iff.1 hnil
    · cases h
  rw [next?, next?, List.takeWhile_append_of_pos hgap, List.dropWhile_append_of_pos hgap,
    Text.byteSize_append, Nat.add_assoc]

theorem scan_congr {i j : Nat} (h : next? file i as = next? file j bs) :
    scan file i as = scan file j bs := by
  rw [scan, scan]
  split <;> split <;> simp_all

/-- The last of the tokens stops where they all end, and goes on into the text behind. -/
def RunsOn (ts : List Token) (finish : Position) (behind : List Char) : Prop :=
  ∃ t ∈ ts.getLast?, t.stop = finish ∧ ∃ c ∈ behind.head?, t.kind.goesOn c

instance (ts : List Token) (finish : Position) (behind : List Char) :
    Decidable (RunsOn ts finish behind) :=
  -- there is one character to look at, so not all of them are to be tried
  letI (t : Token) : Decidable (∃ c ∈ behind.head?, t.kind.goesOn c) :=
    Option.decidableExistsMem behind.head?
  inferInstanceAs (Decidable (∃ t ∈ _, _ ∧ ∃ c ∈ _, _))

/-- Where no token runs on, the tokens in front are followed by those of the text behind. -/
theorem scan_append (h : ¬ RunsOn (scan file offset as) (scanEnd file offset as).start bs) :
    scan file offset (as ++ bs) = scan file offset as ++ scan file (offset + byteSize as) bs := by
  fun_induction scan file offset as with
  | case1 offset as hn => rw [List.nil_append, scan_congr (next?_gaps hn bs)]
  | case2 offset as m hm ih =>
    obtain ⟨hsize, _, -, -, hspan⟩ := next?_place hm
    have hends : m.rest ≠ [] ∨ ∀ d ∈ bs.head?, m.token.kind.goesOn d = false := by
      refine or_iff_not_imp_left.2 fun hrest d hd => Bool.eq_false_iff.2 fun hgoes => h ?_
      have hlast : scan file m.offset m.rest = [] := by
        rw [not_not.1 hrest, scan]
        rfl
      have hstop : m.token.stop = (scanEnd file offset as).start := by
        rw [stop, hspan, start_scanEnd, ← hsize, not_not.1 hrest]
        rfl
      exact ⟨m.token, by simp [hlast], hstop, d, hd, hgoes⟩
    rw [scan, next?_append hm hends]
    simp only [List.cons_append, List.cons.injEq, true_and]
    rw [ih fun hruns => h ?_, hsize]
    obtain ⟨t, ht, hstop, hgoes⟩ := hruns
    rw [scanEnd_next? hm] at hstop
    exact ⟨t, by simp [List.getLast?_cons, Option.mem_def.1 ht], hstop, hgoes⟩

/-- A token that runs on is not found in front of the text behind. -/
theorem scan_append_ne (hmax : offset + byteSize as ≤ Position.maxOffset)
    (h : RunsOn (scan file offset as) (scanEnd file offset as).start bs) (ts : List Token) :
    scan file offset (as ++ bs) ≠ scan file offset as ++ ts := by
  obtain ⟨t, ht, hstop, d, hd, hgoes⟩ := h
  obtain ⟨ds, rfl⟩ := List.head?_eq_some_iff.1 hd
  fun_induction scan file offset as with
  | case1 => cases ht
  | case2 offset as m hm ih =>
    obtain ⟨hsize, _, -, -, hspan⟩ := next?_place hm
    by_cases hlast : scan file m.offset m.rest = []
    · obtain rfl : m.token = t := by simpa [hlast] using ht
      have hrest : m.rest = [] := by
        by_contra hne
        have hpos := byteSize_pos hne
        have hoffset := congrArg Position.offset hstop
        simp only [stop, hspan, start_scanEnd, Span.ofOffsets, Position.ofOffset] at hoffset
        omega
      obtain ⟨n, hn, hne⟩ := next?_append_ne hm hrest hgoes ds
      rw [scan, hn]
      exact fun heq => hne (List.cons.inj heq).1
    · obtain ⟨u, us, hus⟩ := List.exists_cons_of_ne_nil hlast
      have hrest : m.rest ≠ [] := by
        intro hnil
        exact hlast (by rw [hnil, scan]; rfl)
      have ht' : t ∈ (scan file m.offset m.rest).getLast? := by
        rw [hus] at ht ⊢
        simpa using ht
      rw [← scanEnd_next? hm] at hstop
      rw [scan, next?_append hm (.inl hrest)]
      exact fun heq => ih (by omega) ht' hstop (List.cons.inj heq).2

/-! ### A text further on -/

theorem ofOffsets_shift (file : String) {start stop n : Nat} (h : start ≤ stop)
    (hmax : stop + n ≤ Position.maxOffset) :
    Span.ofOffsets file (start + n) (stop + n) =
      (Redraw.shift n).span (.ofOffsets file start stop) := by
  simp only [Span.ofOffsets, Position.ofOffset, Redraw.span, Redraw.shift, Span.mk.injEq,
    Position.mk.injEq, and_true]
  omega

theorem next?_shift {m : Next} {n : Nat} (hm : next? file offset as = some m)
    (hmax : offset + byteSize as + n ≤ Position.maxOffset) :
    next? file (offset + n) as = some ⟨(Redraw.shift n).token m.token, m.offset + n, m.rest⟩ := by
  obtain ⟨hsize, -⟩ := next?_place hm
  unfold next? at hm ⊢
  split at hm
  · cases hm
  · rename_i c cs hcs
    cases hm
    simp only at hsize ⊢
    have hplace : offset + n + byteSize (as.takeWhile isGap) =
        offset + byteSize (as.takeWhile isGap) + n := by omega
    have hspan := ofOffsets_shift (n := n) file
      (Nat.le_add_right (offset + byteSize (as.takeWhile isGap)) (byteSize (Lexeme.read c cs).text))
      (by omega)
    rw [hplace, Nat.add_right_comm _ n, hspan]
    rfl

theorem scan_shift {n : Nat} (hmax : offset + byteSize as + n ≤ Position.maxOffset) :
    scan file (offset + n) as = shifted n (scan file offset as) := by
  fun_induction scan file offset as with
  | case1 offset as hn =>
    have hn' : next? file (offset + n) as = none := by
      unfold next? at hn ⊢
      split at hn
      · rfl
      · cases hn
    rw [scan, hn']
    rfl
  | case2 offset as m hm ih =>
    obtain ⟨hsize, -⟩ := next?_place hm
    rw [scan, next?_shift hm hmax]
    simp only [ih (by omega)]
    rfl

theorem scanEnd_shift {n : Nat} (hmax : offset + byteSize as + n ≤ Position.maxOffset) :
    scanEnd file (offset + n) as = (Redraw.shift n).token (scanEnd file offset as) := by
  have hplace : Position.ofOffset file (offset + n + byteSize as) =
      (Redraw.shift n).move (.ofOffset file (offset + byteSize as)) := by
    simp only [Position.ofOffset, Redraw.shift, Position.mk.injEq, and_true]
    omega
  rw [scanEnd, hplace]
  rfl

end Token

/-- One text behind another has the tokens that both have on their own, unless a token of the first
runs on into it. -/
theorem tokenize_append_iff {name a b : String}
    (hsize : (a ++ b).utf8ByteSize ≤ Position.maxOffset) :
    tokenize ⟨name, a ++ b⟩ = (tokenize ⟨name, a⟩).dropLast ++
        Token.shifted a.utf8ByteSize (tokenize ⟨name, b⟩) ↔
      ¬ Token.RunsOn (tokenize ⟨name, a⟩).dropLast ⟨a.utf8ByteSize, name⟩ b.toList := by
  have hbytes := Text.byteSize_toList a
  have hsizes := hsize
  rw [String.utf8ByteSize_append] at hsizes
  have hmax : 0 + byteSize b.toList + a.utf8ByteSize ≤ Position.maxOffset := by
    rw [Text.byteSize_toList]
    omega
  have hfront : (tokenize ⟨name, a⟩).dropLast = Token.scan name 0 a.toList := List.dropLast_concat
  have hend : (Token.scanEnd name 0 a.toList).start = ⟨a.utf8ByteSize, name⟩ := by
    simp only [Token.start_scanEnd, Position.ofOffset, hbytes, Position.mk.injEq, and_true]
    omega
  have hboth : tokenize ⟨name, a ++ b⟩ = Token.scan name 0 (a.toList ++ b.toList) ++
      [Token.scanEnd name a.utf8ByteSize b.toList] := by
    simp only [tokenize, Token.scanEnd, String.toList_append, Text.byteSize_append, hbytes,
      Nat.zero_add]
  have hbehind : Token.shifted a.utf8ByteSize (tokenize ⟨name, b⟩) =
      Token.scan name (0 + byteSize a.toList) b.toList ++
        [Token.scanEnd name a.utf8ByteSize b.toList] := by
    rw [tokenize, Token.shifted, List.map_append, ← Token.shifted, ← Token.scan_shift hmax, hbytes,
      List.map_singleton, ← Token.scanEnd_shift hmax, Nat.zero_add]
  rw [hfront, hboth, hbehind, ← List.append_assoc, List.append_cancel_right_eq, ← hend]
  constructor
  · intro heq hruns
    exact Token.scan_append_ne (by rw [hbytes]; omega) hruns _ heq
  · exact Token.scan_append

/-- A sign runs on into `=`, but not if it has one already. -/
theorem equals_sign_runs_on :
    tokenize ⟨"shell", "x ==" ++ "=2"⟩ = (tokenize ⟨"shell", "x =="⟩).dropLast ++
      Token.shifted 4 (tokenize ⟨"shell", "=2"⟩) ∧
    tokenize ⟨"shell", "x =" ++ "=2"⟩ ≠ (tokenize ⟨"shell", "x ="⟩).dropLast ++
      Token.shifted 3 (tokenize ⟨"shell", "=2"⟩) :=
  ⟨(tokenize_append_iff (by decide)).2 (by decide +kernel),
    fun h => (tokenize_append_iff (by decide)).1 h (by decide +kernel)⟩

end LetLang
