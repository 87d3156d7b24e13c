import LetLang.Proofs.Reading
import LetLang.Token.Slicing

/-! A lexer never slices out of place.

A lexer is in place if its offset is where a character begins or where the text ends.
Reading in small steps then slices nowhere else and finds what `next?` finds
(`nextSlicing?_eq`), so it leaves the lexer in place, further on unless it found the end
(`InPlace.next`). Whatever is asked of a lexer in place and of its clones, and in
whatever order, succeeds, and from each of them reading comes to an end within as many
tokens as there are characters left, and one for the end (`calls_in_place`). -/
namespace LetLang
open Text (byteSize splitAtByte?)

namespace Lexer
open Token (Kind Lexeme isGap isDigit isWordStart isWordPart)

/-- The lexer stands between two parts of its text. -/
structure Between (l : Lexer) (front back : List Char) : Prop where
  text : l.source.text.toList = front ++ back
  offset : l.offset = byteSize front

/-- The lexer stands where a character begins, or where the text ends. -/
def InPlace (l : Lexer) : Prop := ∃ front back, l.Between front back

variable {l : Lexer} {front back text cs : List Char} {c : Char}

namespace Between

theorem remainder? (h : l.Between front back) : l.remainder? = some back := by
  rw [Lexer.remainder?, h.text, h.offset, Text.splitAtByte?_byteSize_append]
  rfl

theorem advance (h : l.Between front (text ++ back)) :
    (l.advance (byteSize text)).Between (front ++ text) back := by
  refine ⟨?_, ?_⟩
  · rw [List.append_assoc]
    exact h.text
  · rw [Text.byteSize_append, ← h.offset]
    rfl

theorem slice? (h : l.Between front (text ++ back)) :
    l.slice? l.offset (l.offset + byteSize text) = some text := by
  have hbefore : splitAtByte? (byteSize front + byteSize text) (front ++ (text ++ back)) =
      some (front ++ text, back) := by
    rw [← Text.byteSize_append, ← List.append_assoc, Text.splitAtByte?_byteSize_append]
  simp only [Lexer.slice?, h.text, h.offset, hbefore, Text.splitAtByte?_byteSize_append,
    Option.bind_eq_bind, Option.bind_some]
  rfl

theorem offset_le (h : l.Between front back) : l.offset ≤ l.source.text.utf8ByteSize := by
  rw [← Text.byteSize_toList, h.text, h.offset, Text.byteSize_append]
  omega

end Between

/-- The lexer is in place exactly where it can look at what is left. -/
theorem inPlace_iff : l.InPlace ↔ ∃ back, l.remainder? = some back := by
  constructor
  · rintro ⟨front, back, h⟩
    exact ⟨back, h.remainder?⟩
  · rintro ⟨back, h⟩
    obtain ⟨⟨front, back⟩, hsplit, rfl⟩ := Option.map_eq_some_iff.1 h
    obtain ⟨htext, hsize⟩ := Text.eq_append_of_splitAtByte? hsplit
    exact ⟨front, back, htext, hsize.symm⟩

/-! ### The readers -/

/-- The lexer has read a lexeme. -/
def reading (l : Lexer) (lexeme : Lexeme) : Token × Lexer :=
  let l' := l.advance (byteSize lexeme.text)
  (l'.tokenFrom l.offset lexeme.kind lexeme.text, l')

/-- A sign takes one byte, and so one or two bytes are one or two characters. -/
theorem utf8Size_sign {alone followed : Kind} (h : Lexeme.sign? c = some (alone, followed)) :
    c.utf8Size = 1 := by
  unfold Lexeme.sign? at h
  split at h <;> first | rfl | cases h

theorem oneOrTwo?_eq (h : l.Between front (c :: cs)) {alone followed : Kind}
    (hc : Lexeme.sign? c = some (alone, followed)) :
    l.oneOrTwo? alone followed = some (l.reading (Lexeme.readSign c alone followed cs)) := by
  have hsize := utf8Size_sign hc
  have hpeek : l.peek? = some cs.head? := by
    rw [peek?, h.remainder?]
    cases cs <;> rfl
  by_cases hfollowed : cs.head? = some '='
  · obtain ⟨rest, rfl⟩ := List.head?_eq_some_iff.1 hfollowed
    have hslice : l.slice? l.offset (l.offset + byteSize [c, '=']) = some [c, '='] :=
      Between.slice? h
    have htwo : byteSize [c, '='] = 2 := by
      rw [Text.byteSize_cons, hsize]
      rfl
    rw [htwo] at hslice
    simp only [oneOrTwo?, hpeek, Option.bind_eq_bind, Option.bind_some, if_pos hfollowed]
    rw [show (l.advance 2).slice? l.offset (l.advance 2).offset = some [c, '='] from hslice,
      reading, Lexeme.readSign, htwo]
    rfl
  · have hslice : l.slice? l.offset (l.offset + byteSize [c]) = some [c] := Between.slice? h
    have hone : byteSize [c] = 1 := hsize
    have halone : Lexeme.readSign c alone followed cs = ⟨alone, [c], cs⟩ := by
      cases cs with
      | nil => rfl
      | cons d cs =>
        rw [Lexeme.readSign]
        rintro rest heq
        exact hfollowed (by rw [heq]; rfl)
    rw [hone] at hslice
    simp only [oneOrTwo?, hpeek, Option.bind_eq_bind, Option.bind_some, if_neg hfollowed]
    rw [show (l.advance 1).slice? l.offset (l.advance 1).offset = some [c] from hslice,
      reading, halone, hone]
    rfl

theorem matching?_eq (h : l.Between front (c :: cs)) {first part : Char → Bool} (hc : first c)
    (kind : List Char → Kind) (rest : List Char) :
    l.matching? first part kind =
      some (l.reading ⟨kind (c :: cs.takeWhile part), c :: cs.takeWhile part, rest⟩) := by
  rw [matching?, h.remainder?]
  simp [match?, hc]
  rfl

/-- Behind the gaps. -/
theorem skipGaps?_eq (h : l.Between front back) :
    l.skipGaps? = some (l.advance (byteSize (back.takeWhile isGap))) := by
  rw [skipGaps?, h.remainder?]
  cases back with
  | nil => rfl
  | cons c cs =>
    by_cases hc : isGap c
    · simp [match?, hc]
    · simp [match?, hc, advance]

/-- What is read at a character is the longest lexeme there. -/
theorem nextSlicing?_cons (h : l.Between front back) (hback : back.dropWhile isGap = c :: cs) :
    l.nextSlicing? =
      some ((l.advance (byteSize (back.takeWhile isGap))).reading (Lexeme.read c cs)) := by
  have hbetween : (l.advance (byteSize (back.takeWhile isGap))).Between
      (front ++ back.takeWhile isGap) (c :: cs) := by
    apply Between.advance
    rwa [← hback, List.takeWhile_append_dropWhile]
  simp only [nextSlicing?, skipGaps?_eq h, at?, hbetween.remainder?, Option.map_some,
    List.head?_cons, Option.bind_eq_bind, Option.bind_some]
  unfold Lexeme.read
  by_cases hword : isWordStart c
  · simp only [if_pos hword]
    exact matching?_eq hbetween hword _ _
  · simp only [if_neg hword]
    by_cases hdigit : isDigit c
    · simp only [if_pos hdigit]
      exact matching?_eq hbetween hdigit _ _
    · simp only [if_neg hdigit]
      cases hsign : Lexeme.sign? c with
      | some kinds => exact oneOrTwo?_eq hbetween hsign
      | none => rfl

/-- Where only gaps are left, the end is read. -/
theorem nextSlicing?_nil (h : l.Between front back) (hback : back.dropWhile isGap = []) :
    l.nextSlicing? =
      some (Token.scanEnd l.source.name l.offset back, l.advance (byteSize back)) := by
  have hgaps : back.takeWhile isGap = back := by
    have := List.takeWhile_append_dropWhile (p := isGap) (l := back)
    rwa [hback, List.append_nil] at this
  have hbetween : (l.advance (byteSize back)).Between (front ++ back) [] :=
    Between.advance (by rwa [List.append_nil])
  simp only [nextSlicing?, skipGaps?_eq h, hgaps, at?, hbetween.remainder?, Option.map_some,
    List.head?_nil, Option.bind_eq_bind, Option.bind_some]
  rfl

/-- Reading in small steps finds the same. -/
theorem nextSlicing?_eq (l : Lexer) : l.nextSlicing? = l.next? := by
  cases hcs : l.remainder? with
  | none =>
    rw [nextSlicing?, skipGaps?, next?, hcs]
    rfl
  | some back =>
    obtain ⟨front, back', h⟩ := inPlace_iff.2 ⟨back, hcs⟩
    obtain rfl := Option.some.inj (hcs.symm.trans h.remainder?)
    rw [next?_eq hcs, Token.next?]
    cases hback : back.dropWhile isGap with
    | nil => exact nextSlicing?_nil h hback
    | cons c cs =>
      rw [nextSlicing?_cons h hback]
      rfl

/-! ### Calls -/

/-- What is to be relied on where a lexer is: it is in place, the next token can be read, which
leaves it in place and takes it on, to the end of the text if there is no other token, and reading
comes to an end. -/
structure ReadsOn (l : Lexer) : Prop where
  inPlace : l.InPlace
  within : l.offset ≤ l.source.text.utf8ByteSize
  next : ∃ t l', l.nextSlicing? = some (t, l') ∧ l'.source = l.source ∧ l'.InPlace ∧
    l'.offset ≤ l.source.text.utf8ByteSize ∧ (t.kind ≠ .eof → l.offset < l'.offset) ∧
    (t.kind = .eof → l'.offset = l.source.text.utf8ByteSize)
  ends : ∃ rest tokens, l.remainder? = some rest ∧ l.Yields tokens ∧ tokens.length ≤ rest.length + 1

theorem Between.next (h : l.Between front back) :
    ∃ t l', l.nextSlicing? = some (t, l') ∧ l'.source = l.source ∧ l'.InPlace ∧
      (t.kind ≠ .eof → l.offset < l'.offset) ∧
      (t.kind = .eof → l'.offset = l.source.text.utf8ByteSize) := by
  cases hback : back.dropWhile isGap with
  | nil =>
    refine ⟨_, _, nextSlicing?_nil h hback, rfl, ⟨front ++ back, [], ?_⟩,
      fun hk => absurd rfl hk, ?_⟩
    · exact Between.advance (by rwa [List.append_nil])
    · intro _
      rw [← Text.byteSize_toList, h.text, Text.byteSize_append, ← h.offset]
      rfl
  | cons c cs =>
    have hlexeme : back =
        back.takeWhile isGap ++ ((Lexeme.read c cs).text ++ (Lexeme.read c cs).rest) := by
      rw [Lexeme.text_append_rest, ← hback, List.takeWhile_append_dropWhile]
    refine ⟨_, _, nextSlicing?_cons h hback, rfl,
      ⟨front ++ back.takeWhile isGap ++ (Lexeme.read c cs).text, (Lexeme.read c cs).rest, ?_⟩, ?_,
      fun hk => absurd hk (Lexeme.kind_ne_eof c cs)⟩
    · exact Between.advance (Between.advance (by rwa [← hlexeme]))
    · intro _
      obtain ⟨d, ds, htext⟩ := List.exists_cons_of_ne_nil (Lexeme.text_ne_nil c cs)
      have hd := d.utf8Size_pos
      show l.offset < l.offset + byteSize _ + byteSize (Lexeme.read c cs).text
      rw [htext, Text.byteSize_cons]
      omega

theorem length_scan_le (file : String) (offset : Nat) (cs : List Char) :
    (Token.scan file offset cs).length ≤ cs.length := by
  fun_induction Token.scan file offset cs with
  | case1 => exact Nat.zero_le _
  | case2 offset cs n hn ih =>
    have := Token.next?_length hn
    rw [List.length_cons]
    omega

theorem InPlace.readsOn (h : l.InPlace) : l.ReadsOn := by
  obtain ⟨front, back, h⟩ := h
  obtain ⟨t, l', hnext, hsource, ⟨front', back', h'⟩, hon, hend⟩ := h.next
  refine ⟨⟨front, back, h⟩, h.offset_le,
    ⟨t, l', hnext, hsource, ⟨front', back', h'⟩, hsource ▸ h'.offset_le, hon, hend⟩,
    ⟨back, _, h.remainder?, (reads_of_remainder? h.remainder?).yields, ?_⟩⟩
  rw [List.length_append, List.length_singleton]
  exact Nat.succ_le_succ (length_scan_le ..)

/-- A call keeps all lexers in place, in the same source. -/
theorem Call.perform?_eq {source : Source} {pool : List Lexer}
    (h : ∀ l ∈ pool, l.source = source ∧ l.InPlace) (i : Nat) (call : Call) :
    ∃ pool', call.perform? pool i = some pool' ∧ ∀ l ∈ pool', l.source = source ∧ l.InPlace := by
  cases hl : pool[i]? with
  | none => exact ⟨pool, by rw [perform?, hl], h⟩
  | some l =>
    obtain ⟨hsource, hplace⟩ := h l (List.mem_of_getElem? hl)
    obtain ⟨rest, hrest⟩ := inPlace_iff.1 hplace
    simp only [perform?, hl]
    cases call with
    | next =>
      obtain ⟨t, l', hnext, hsource', hplace', -⟩ := hplace.readsOn.next
      refine ⟨pool.set i l', by rw [hnext]; rfl, fun m hm => ?_⟩
      rcases List.mem_or_eq_of_mem_set hm with hm | rfl
      · exact h m hm
      · exact ⟨hsource'.trans hsource, hplace'⟩
    | head => exact ⟨pool, by rw [at?, hrest]; rfl, h⟩
    | peek => exact ⟨pool, by rw [peek?, hrest]; rfl, h⟩
    | remainder => exact ⟨pool, by rw [hrest]; rfl, h⟩
    | clone =>
      refine ⟨pool ++ [l], rfl, fun m hm => ?_⟩
      rcases List.mem_append.1 hm with hm | hm
      · exact h m hm
      · exact List.mem_singleton.1 hm ▸ ⟨hsource, hplace⟩

theorem performAll?_eq {source : Source} {pool : List Lexer}
    (h : ∀ l ∈ pool, l.source = source ∧ l.InPlace) (calls : List (Nat × Call)) :
    ∃ pool', performAll? pool calls = some pool' ∧ ∀ l ∈ pool', l.source = source ∧ l.InPlace := by
  induction calls generalizing pool with
  | nil => exact ⟨pool, rfl, h⟩
  | cons call calls ih =>
    obtain ⟨i, call⟩ := call
    obtain ⟨pool', hcall, h'⟩ := Call.perform?_eq h i call
    obtain ⟨pool'', hcalls, h''⟩ := ih h'
    refine ⟨pool'', ?_, h''⟩
    rw [performAll?, List.foldlM_cons]
    simp only [hcall]
    exact hcalls

/-- From a lexer in place, any calls to it and to its clones succeed, in any order. They keep the
lexers in place, and from each of them the next token can be read and reading comes to an end. It
makes no difference that tokens are read slice by slice. -/
theorem calls_in_place (l : Lexer) (h : l.InPlace) (calls : List (Nat × Call)) :
    ∃ pool, performAll? [l] calls = some pool ∧
      ∀ m ∈ pool, m.source = l.source ∧ m.ReadsOn ∧ m.nextSlicing? = m.next? := by
  have hl : ∀ m ∈ [l], m.source = l.source ∧ m.InPlace := by
    intro m hm
    rw [List.mem_singleton.1 hm]
    exact ⟨rfl, h⟩
  obtain ⟨pool, hcalls, hpool⟩ := performAll?_eq hl calls
  exact ⟨pool, hcalls, fun m hm =>
    ⟨(hpool m hm).1, (hpool m hm).2.readsOn, nextSlicing?_eq m⟩⟩

/-- After the first character of a text, which takes two bytes. -/
theorem calls_in_place_after_multibyte :
    let l := (ofSource ⟨"shell", "é==1"⟩).advance 2
    l.InPlace ∧ ∃ pool,
      performAll? [l] [(0, .next), (0, .clone), (1, .peek), (1, .next)] = some pool ∧
      ∀ m ∈ pool, m.source = l.source ∧ m.ReadsOn ∧ m.nextSlicing? = m.next? := by
  have h : ((ofSource ⟨"shell", "é==1"⟩).advance 2).InPlace := ⟨['é'], ['=', '=', '1'], rfl, rfl⟩
  exact ⟨h, calls_in_place _ h _⟩

end Lexer
end LetLang
