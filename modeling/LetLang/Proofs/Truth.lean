import LetLang.Proofs.Lines
import LetLang.Proofs.Order
import LetLang.Proofs.Tiling
import LetLang.Proofs.Trail.Constructs

/-! Diagnostics tell the truth.

Every diagnostic stands where a token of the source starts, the end included; what
it says is so of that token, and the line that is shown for it is a line that the
token stands in (`parse_tells_truth`). -/
namespace LetLang
open LetLang.Parser
open Text (byteSize)

/-- The diagnostic is about the token, which stands between the others. -/
structure Diagnostic.About (d : Diagnostic) (source : Source) (before : List Token) (t : Token)
    (after : List Token) : Prop where
  tokens : tokenize source = before ++ t :: after
  position : d.position = t.start
  only : ∀ u ∈ before ++ after, u.start ≠ d.position
  file : d.position.file = source.name
  problem : d.problem.IsTrueOf maxNesting t after
  line : ∃ line, lineAt? source.text d.position.offset = some line ∧ line.Holds t.literal.toList

/-! ### Places -/

/-- In a text that is short enough no two tokens start at the same place. -/
theorem tokenize_starts {source : Source} (h : source.text.utf8ByteSize ≤ Position.maxOffset) :
    (tokenize source).Pairwise fun t u => t.start.offset < u.start.offset := by
  have hsize : 0 + byteSize source.text.toList ≤ Position.maxOffset := by
    rwa [Nat.zero_add, Text.byteSize_toList]
  have hordered : Token.Ordered 0 _ (Token.scan source.name 0 source.text.toList) :=
    Token.scan_ordered hsize
  obtain ⟨hscan, -, hend⟩ :=
    List.pairwise_append.1 (Token.scan_precedes source.name 0 source.text.toList).1
  have hlt : ∀ t ∈ Token.scan source.name 0 source.text.toList, ∀ u, Token.Precedes t u →
      t.start.offset < u.start.offset := by
    intro t ht u hu
    exact Nat.lt_of_lt_of_le (hordered.of_mem ht).2.1 hu.apart
  refine List.pairwise_append.2 ⟨?_, List.pairwise_singleton _ _, ?_⟩
  · exact hscan.imp_of_mem fun ht _ hu => hlt _ ht _ hu
  · exact fun t ht u hu => hlt t ht u (hend t ht u hu)

/-- In order of their offsets, tokens start at different places. -/
theorem start_ne_of_mem {before after : List Token} {t : Token}
    (h : (before ++ t :: after).Pairwise fun t u => t.start.offset < u.start.offset) :
    ∀ u ∈ before ++ after, u.start ≠ t.start := by
  rw [List.pairwise_append, List.pairwise_cons] at h
  obtain ⟨-, ⟨hafter, -⟩, hbefore⟩ := h
  intro u hu heq
  rcases List.mem_append.1 hu with hu | hu
  · have hlt := hbefore u hu t List.mem_cons_self
    rw [heq] at hlt
    exact Nat.lt_irrefl _ hlt
  · have hlt := hafter u hu
    rw [heq] at hlt
    exact Nat.lt_irrefl _ hlt

theorem tokenize_line {source : Source} (h : source.text.utf8ByteSize ≤ Position.maxOffset)
    {t : Token} (ht : t ∈ tokenize source) :
    t.start.file = source.name ∧
      ∃ line, lineAt? source.text t.start.offset = some line ∧ line.Holds t.literal.toList := by
  have htiles := Token.tiles_scan source.name 0 source.text.toList
  obtain ⟨before, after, htext, hstart, hgap⟩ := htiles.place ht
  have hsize : byteSize before ≤ Position.maxOffset := by
    have hall := congrArg byteSize htext
    rw [Text.byteSize_toList, Text.byteSize_append] at hall
    omega
  rw [Nat.zero_add] at hstart
  rw [hstart, Position.offset_ofOffset hsize]
  refine ⟨rfl, lineAt?_append htext fun hmem => ?_⟩
  have := hgap _ hmem
  cases this

/-! ### Diagnostics -/

/-- What a parser reports is true of a token of the source. -/
theorem parseWithin_told (limit : Nat) (source : Source) {d : Diagnostic}
    (hd : d ∈ (parseWithin limit source).diagnostics) :
    ∃ before t after, tokenize source = before ++ t :: after ∧ d.position = t.start ∧
      d.problem.IsTrueOf limit t after := by
  obtain ⟨program, u, hrun, hparse⟩ := parseWithin_eq limit source
  have hmoves := program_trail limit limit (sorted_ofSource source)
  rw [hrun] at hmoves
  obtain ⟨-, ds, hds, htold⟩ := hmoves.1
  have hmem : d ∈ ds := by
    rw [hparse] at hd
    have hds : u.reported.toList = [] ++ ds := hds
    rwa [hds] at hd
  obtain ⟨t, after, ⟨before, hbefore⟩, -, hposition, htrue⟩ := htold d hmem
  exact ⟨before, t, after, hbefore.symm, hposition, htrue⟩

/-- Each diagnostic is about the one token that starts where it stands. -/
theorem parse_tells_truth (source : Source)
    (h : source.text.utf8ByteSize ≤ Position.maxOffset) :
    ∀ d ∈ (parse source).diagnostics, ∃ before t after, d.About source before t after := by
  intro d hd
  obtain ⟨before, t, after, htokens, hposition, htrue⟩ := parseWithin_told maxNesting source hd
  obtain ⟨hfile, hline⟩ := tokenize_line h (t := t) (by simp [htokens])
  have hothers := start_ne_of_mem (htokens ▸ tokenize_starts h)
  exact ⟨before, t, after, htokens, hposition, hposition ▸ hothers, hposition ▸ hfile, htrue,
    hposition ▸ hline⟩

/-- In `let = 5` the `=` stands where a name was expected. -/
theorem missing_name_tells_truth :
    ∃ before t after, Diagnostic.About ⟨.unexpected .identifier .assignment "=", ⟨4, "shell"⟩⟩
      ⟨"shell", "let = 5"⟩ before t after :=
  parse_tells_truth ⟨"shell", "let = 5"⟩ (by decide) _ (by decide +kernel)

end LetLang
