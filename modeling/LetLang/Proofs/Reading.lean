import LetLang.Proofs.Placement
import LetLang.Token.Lexer

/-! Reading tokens from a lexer, one after the other.

A lexer that can read on at all can do so for ever: after each token it stands in
front of what was left, and at the end it gives the end again and again
(`Reads.next`). So the tokens up to the end are all there are to be read from it
(`Reads.yields`). -/
namespace LetLang

theorem Token.next?_suffix {file : String} {offset : Nat} {cs : List Char} {n : Token.Next}
    (h : Token.next? file offset cs = some n) : n.rest <:+ cs := by
  unfold Token.next? at h
  split at h
  · cases h
  · rename_i c rest hdrop
    cases h
    have hread : (Lexeme.read c rest).rest <:+ c :: rest :=
      ⟨_, Lexeme.text_append_rest c rest⟩
    exact hread.trans (hdrop ▸ List.dropWhile_suffix isGap)

/-- After a token the lexer stands in front of what was left. -/
theorem Lexer.remainder?_next {l : Lexer} {cs : List Char} {n : Token.Next}
    (h : l.remainder? = some cs) (hn : Token.next? l.source.name l.offset cs = some n) :
    (Lexer.mk l.source n.offset).remainder? = some n.rest := by
  obtain ⟨⟨before, cs⟩, hsplit, rfl⟩ := Option.map_eq_some_iff.1 h
  obtain ⟨htext, hsize⟩ := Text.eq_append_of_splitAtByte? hsplit
  obtain ⟨consumed, hconsumed⟩ := Token.next?_suffix hn
  have hplace := (Token.next?_place hn).1
  simp only at hn hplace hconsumed
  rw [← hconsumed, Text.byteSize_append] at hplace
  have hoffset : n.offset = Text.byteSize (before ++ consumed) := by
    rw [Text.byteSize_append]
    omega
  have hwhole : l.source.text.toList = (before ++ consumed) ++ n.rest := by
    rw [htext, ← hconsumed, List.append_assoc]
  rw [Lexer.remainder?, hwhole, hoffset, Text.splitAtByte?_byteSize_append]
  rfl

theorem Lexer.next?_eq {l : Lexer} {cs : List Char} (h : l.remainder? = some cs) :
    l.next? = match Token.next? l.source.name l.offset cs with
      | some n => some (n.token, ⟨l.source, n.offset⟩)
      | none => some (Token.scanEnd l.source.name l.offset cs, l.advance (Text.byteSize cs)) := by
  rw [Lexer.next?, h]
  rfl

/-- The end is read again and again. -/
theorem Lexer.remainder?_advance {l : Lexer} {cs : List Char} (h : l.remainder? = some cs) :
    (l.advance (Text.byteSize cs)).remainder? = some [] := by
  obtain ⟨⟨before, cs⟩, hsplit, rfl⟩ := Option.map_eq_some_iff.1 h
  obtain ⟨htext, hsize⟩ := Text.eq_append_of_splitAtByte? hsplit
  have hend := Text.splitAtByte?_byteSize_append (before ++ cs) []
  rw [List.append_nil, Text.byteSize_append, hsize] at hend
  rw [Lexer.remainder?, Lexer.advance, htext, hend]
  rfl

namespace Lexer
variable {l : Lexer} {ts : List Token} {finish : Position}

/-- These tokens are still to be read, and then the end at `finish`. -/
def Reads (l : Lexer) (ts : List Token) (finish : Position) : Prop :=
  l.tokens? = some ts ∧ l.end? = some (.endOfInput finish)

theorem reads_of_remainder? {cs : List Char} (h : l.remainder? = some cs) :
    l.Reads (Token.scan l.source.name l.offset cs)
      (Token.scanEnd l.source.name l.offset cs).start := by
  constructor
  · rw [tokens?, h]
    rfl
  · rw [end?, h]
    rfl

theorem Reads.remainder? (h : l.Reads ts finish) :
    ∃ cs, l.remainder? = some cs ∧ ts = Token.scan l.source.name l.offset cs ∧
      Token.endOfInput finish = Token.scanEnd l.source.name l.offset cs := by
  obtain ⟨htokens, hend⟩ := h
  obtain ⟨cs, hcs, rfl⟩ := Option.map_eq_some_iff.1 htokens
  rw [end?, hcs] at hend
  exact ⟨cs, hcs, rfl, (Option.some.inj hend).symm⟩

/-- What is read next is the first of the tokens, or the end where none is left. -/
theorem Reads.next (h : l.Reads ts finish) :
    ∃ l', l.next? = some (ts.headD (.endOfInput finish), l') ∧ l'.Reads ts.tail finish := by
  obtain ⟨cs, hcs, rfl, hfinish⟩ := h.remainder?
  cases hn : Token.next? l.source.name l.offset cs with
  | none =>
    have hscan : Token.scan l.source.name l.offset cs = [] := by rw [Token.scan, hn]
    have hnil : Token.scan l.source.name (l.offset + Text.byteSize cs) [] = [] := by
      rw [Token.scan]
      rfl
    have hsame : (Token.scanEnd l.source.name (l.offset + Text.byteSize cs) []).start = finish :=
      (congrArg Token.start hfinish).symm
    refine ⟨l.advance (Text.byteSize cs), ?_, ?_⟩
    · rw [Lexer.next?_eq hcs, hn, hscan, hfinish]
      rfl
    · rw [hscan, List.tail_nil, ← hnil, ← hsame]
      exact reads_of_remainder? (Lexer.remainder?_advance hcs)
  | some n =>
    have hrest := reads_of_remainder? (Lexer.remainder?_next hcs hn)
    refine ⟨⟨l.source, n.offset⟩, ?_, ?_⟩
    · rw [Lexer.next?_eq hcs, hn, Token.scan, hn]
      rfl
    · have hsame : (Token.scanEnd l.source.name n.offset n.rest).start = finish := by
        rw [Token.scanEnd_next? hn, ← hfinish]
        rfl
      rw [Token.scan, hn, ← hsame]
      exact hrest

/-- These are the tokens that the lexer yields, one call after the other, up to the end. -/
inductive Yields : Lexer → List Token → Prop where
  | last {l l' : Lexer} {t : Token} (h : l.next? = some (t, l')) (ht : t.kind = .eof) :
      Yields l [t]
  | next {l l' : Lexer} {t : Token} {ts : List Token} (h : l.next? = some (t, l'))
      (ht : t.kind ≠ .eof) (hts : Yields l' ts) : Yields l (t :: ts)

theorem Reads.yields (h : l.Reads ts finish) : l.Yields (ts ++ [.endOfInput finish]) := by
  have hkind : ∀ t ∈ ts, t.kind ≠ .eof := by
    obtain ⟨cs, -, rfl, -⟩ := h.remainder?
    exact fun t => Token.kind_of_mem_scan
  induction ts generalizing l with
  | nil =>
    obtain ⟨l', hnext, -⟩ := h.next
    exact .last hnext rfl
  | cons t ts ih =>
    obtain ⟨l', hnext, hrest⟩ := h.next
    exact .next hnext (hkind t (by simp)) (ih hrest fun u hu => hkind u (by simp [hu]))

end Lexer
end LetLang
