import LetLang.Proofs.Spelling
import LetLang.Proofs.Placement

/-! A text in tokens.

The tokens of a text tile it: between gaps of blanks stand the longest lexemes,
one token for each, and after the last gap comes the token for the end. There is
only one such list of tokens, and `tokenize` finds it (`tokenize_eq_iff_tiles`). -/
namespace LetLang
open Text (byteSize)
namespace Token
open Lexeme (Longest)

/-- The characters, of which the first stands at byte `offset`, are tiled by the tokens. -/
inductive Tiles (file : String) : Nat → List Char → List Token → Prop where
  | done {offset : Nat} {gap : List Char} (hgap : ∀ c ∈ gap, isGap c) :
      Tiles file offset gap [endOfInput (.ofOffset file (offset + byteSize gap))]
  | next {offset start stop : Nat} {gap text rest : List Char} {kind : Kind} {ts : List Token}
      (hgap : ∀ c ∈ gap, isGap c) (htext : Longest kind text rest)
      (hstart : start = offset + byteSize gap) (hstop : stop = start + byteSize text)
      (hrest : Tiles file stop rest ts) :
      Tiles file offset (gap ++ (text ++ rest))
        (⟨kind, String.ofList text, .ofOffsets file start stop⟩ :: ts)

variable {file : String} {offset : Nat} {cs : List Char} {ts : List Token}

theorem next?_eq_none (h : next? file offset cs = none) : ∀ c ∈ cs, isGap c := by
  unfold next? at h
  split at h
  · rename_i hnil
    exact List.dropWhile_eq_nil_iff.1 hnil
  · cases h

/-- What is scanned tiles the text. -/
theorem tiles_scan (file : String) (offset : Nat) (cs : List Char) :
    Tiles file offset cs (scan file offset cs ++ [scanEnd file offset cs]) := by
  fun_induction scan file offset cs with
  | case1 offset cs hn => exact .done (next?_eq_none hn)
  | case2 offset cs n hn ih =>
    rw [scanEnd_next? hn] at ih
    unfold next? at hn
    split at hn
    · cases hn
    · rename_i c rest hdrop
      cases hn
      have hgap : isGap c = false := by
        have hhead := List.head?_dropWhile_not isGap cs
        rwa [hdrop] at hhead
      have hcs : cs.takeWhile isGap ++
          ((Lexeme.read c rest).text ++ (Lexeme.read c rest).rest) = cs := by
        rw [Lexeme.text_append_rest, ← hdrop, List.takeWhile_append_dropWhile]
      have htiles : Tiles file offset _ _ :=
        .next (fun c => List.mem_takeWhile_imp) (Lexeme.longest_read hgap rest) rfl rfl ih
      rwa [hcs] at htiles

/-- In front of a longest lexeme, after a gap, that lexeme is the next token. -/
theorem next?_longest (file : String) (offset : Nat) {gap text rest : List Char} {kind : Kind}
    (hgap : ∀ c ∈ gap, isGap c) (htext : Longest kind text rest) :
    next? file offset (gap ++ (text ++ rest)) =
      let start := offset + byteSize gap
      let stop := start + byteSize text
      some ⟨⟨kind, String.ofList text, .ofOffsets file start stop⟩, stop, rest⟩ := by
  obtain ⟨c, cs, rfl, hc, hread⟩ := htext.eq_read
  have htake : (gap ++ (c :: cs ++ rest)).takeWhile isGap = gap := by
    rw [List.takeWhile_append_of_pos hgap, List.cons_append, List.takeWhile_cons_of_neg (by simp [hc]),
      List.append_nil]
  have hdrop : (gap ++ (c :: cs ++ rest)).dropWhile isGap = c :: (cs ++ rest) := by
    rw [List.dropWhile_append_of_pos hgap, List.cons_append, List.dropWhile_cons_of_neg (by simp [hc])]
  rw [next?, htake, hdrop]
  simp only [hread]

/-- What tiles the text is what is scanned. -/
theorem Tiles.eq_scan (h : Tiles file offset cs ts) :
    ts = scan file offset cs ++ [scanEnd file offset cs] := by
  induction h with
  | @done offset gap hgap =>
    have hnil : gap.dropWhile isGap = [] := List.dropWhile_eq_nil_iff.2 hgap
    have hnext : next? file offset gap = none := by rw [next?, hnil]
    rw [scan, hnext]
    rfl
  | @next offset _ _ _ _ _ _ _ hgap htext hstart hstop _ ih =>
    subst hstart hstop
    have hnext := next?_longest file offset hgap htext
    rw [scan, hnext, List.cons_append, ← scanEnd_next? hnext, ← ih]

/-- Every token, the end included, stands where its text is found, and no blank is part of it. -/
theorem Tiles.place (h : Tiles file offset cs ts) {t : Token} (ht : t ∈ ts) :
    ∃ before after, cs = before ++ (t.literal.toList ++ after) ∧
      t.start = .ofOffset file (offset + byteSize before) ∧
      ∀ c ∈ t.literal.toList, isGap c = false := by
  induction h with
  | @done offset gap _ =>
    rw [List.mem_singleton.1 ht]
    exact ⟨gap, [], by simp [endOfInput], rfl, by simp [endOfInput]⟩
  | @next offset _ _ gap text rest _ _ _ htext hstart hstop _ ih =>
    subst hstart hstop
    rcases List.mem_cons.1 ht with rfl | ht
    · refine ⟨gap, rest, by rw [String.toList_ofList], rfl, ?_⟩
      rw [String.toList_ofList]
      exact htext.1.not_isGap
    · obtain ⟨before, after, rfl, hstart, hgap⟩ := ih ht
      refine ⟨gap ++ (text ++ before), after, by simp, ?_, hgap⟩
      rw [hstart, Text.byteSize_append, Text.byteSize_append]
      simp only [Nat.add_assoc]

end Token

/-- The tokens of a source are the only ones that tile it. Only the last of them is the end. -/
theorem tokenize_eq_iff_tiles (source : Source) :
    (∀ ts, Token.Tiles source.name 0 source.text.toList ts ↔ ts = tokenize source) ∧
    ∃ ts, tokenize source = ts ++ [Token.endOfInput (.ofOffset source.name source.text.utf8ByteSize)] ∧
      ∀ t ∈ ts, t.kind ≠ .eof := by
  constructor
  · intro ts
    constructor
    · exact Token.Tiles.eq_scan
    · rintro rfl
      exact Token.tiles_scan source.name 0 source.text.toList
  · refine ⟨Token.scan source.name 0 source.text.toList, ?_, fun _ => Token.kind_of_mem_scan⟩
    rw [tokenize, Token.scanEnd, Text.byteSize_toList, Nat.zero_add]

end LetLang
