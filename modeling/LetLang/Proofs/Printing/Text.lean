import LetLang.Proofs.Printing
import LetLang.Proofs.Tiling

/-! The text of a program in tokens.

Every token that is printed for a proper tree is a legal lexeme
(`Expr.plain_printed`). A legal lexeme ends where a blank comes after it, so the
text of a proper program is tiled by the tokens that were printed for it
(`tokenize_text`). -/
namespace LetLang
open Token (Kind)
open Text (byteSize)

namespace Token
open Lexeme (Legal Longest Spells)

/-- A legal lexeme ends where a blank comes after it. -/
theorem Lexeme.Legal.longest {kind : Kind} {text rest : List Char} (h : Legal kind text)
    (hrest : ∀ c ∈ rest.head?, isGap c) : Longest kind text rest := by
  have halone : Longest kind text [] := by
    refine ⟨.legal h, fun _ longer _ hprefix => ?_⟩
    rw [List.append_nil] at hprefix
    exact hprefix.length_le
  cases rest with
  | nil => exact halone
  | cons c rest => exact halone.blank (hrest c rfl) rest

/-- The token of a legal lexeme, in no place. -/
structure Plain (t : Token) : Prop where
  legal : Legal t.kind t.literal.toList
  span : t.span = .nowhere

theorem plain_fixed {kind : Kind} (h : kind.spelling?.isSome) : (fixed kind).Plain := by
  obtain ⟨text, htext⟩ := Option.isSome_iff_exists.1 h
  refine ⟨?_, rfl⟩
  simpa [fixed, unplaced, htext] using Legal.fixed htext

theorem isDigit_eq (c : Char) : isDigit c = c.isDigit := by
  simp [isDigit, Char.isDigit, Char.le_def]

theorem plain_number (n : Nat) : (number n).Plain := by
  refine ⟨?_, rfl⟩
  have hdigits : ∀ c ∈ Nat.toDigits 10 n, isDigit c := by
    intro c hc
    rw [isDigit_eq]
    exact Nat.isDigit_of_mem_toDigits (by decide) (by decide) hc
  show Legal .integer (toString n).toList
  rw [Nat.toString_eq_repr, Nat.toList_repr]
  cases hcs : Nat.toDigits 10 n with
  | nil => exact absurd hcs Nat.toDigits_ne_nil
  | cons c cs =>
    rw [hcs] at hdigits
    exact .integer (hdigits c (by simp)) fun d hd => hdigits d (by simp [hd])

theorem value_number (n : Nat) : (number n).value = n := by
  show Nat.ofDigitChars 10 (toString n).toList 0 = n
  rw [Nat.toString_eq_repr, Nat.toList_repr, Nat.ofDigitChars_ten_toDigits]

theorem plain_truth (b : Bool) : (truth b).Plain := by
  cases b <;> exact plain_fixed rfl

/-- A word that is spelled like a kind of token is read as that kind. -/
theorem Kind.ofWord_of_spelling? {kind : Kind} {c : Char} {cs : List Char}
    (h : kind.spelling? = some (String.ofList (c :: cs))) (hc : isWordStart c) :
    Kind.ofWord (String.ofList (c :: cs)) = kind := by
  obtain ⟨d, ds, hd, -, hread⟩ := (Lexeme.Legal.fixed h).read
  rw [String.toList_ofList] at hd
  obtain ⟨rfl, rfl⟩ := List.cons.inj hd
  have hall := Lexeme.text_append_rest c cs
  simp only [hread] at hall
  simp only [Lexeme.read, hc, if_true, Lexeme.mk.injEq] at hread
  rw [← hread.1, hread.2.1]

theorem plain_name {x : Name} (h : x.isProper) : x.respelled.token.Plain := by
  refine ⟨?_, rfl⟩
  show Legal .identifier x.text.toList
  unfold Name.isProper at h
  split at h
  · cases h
  · rename_i c cs hcs
    simp only [Bool.and_eq_true, List.all_eq_true, beq_iff_eq] at h
    obtain ⟨⟨hc, hparts⟩, hword⟩ := h
    rw [hcs]
    refine .identifier hc hparts fun kind hkind => ?_
    have hread := Kind.ofWord_of_spelling? hkind hc
    rw [← hcs, String.ofList_toList, hword] at hread
    subst hread
    cases hkind

end Token

namespace Printed

@[simp] theorem tokens_empty : empty.tokens = [] := rfl

@[simp] theorem tokens_token (t : Token) : (token t).tokens = [t] := rfl

@[simp] theorem tokens_append (p q : Printed) : (p ++ q).tokens = p.tokens ++ q.tokens := rfl

@[simp] theorem tokens_deeper (p : Printed) : p.deeper.tokens = p.tokens := rfl

/-- Every token is one that would be read as it is printed. -/
def Plain (p : Printed) : Prop := ∀ t ∈ p.tokens, t.Plain

theorem plain_empty : empty.Plain := by simp [Plain]

theorem plain_token {t : Token} (h : t.Plain) : (token t).Plain := by simpa [Plain] using h

theorem plain_kind {k : Kind} (h : k.spelling?.isSome) : (kind k).Plain :=
  plain_token (Token.plain_fixed h)

theorem Plain.append {p q : Printed} (hp : p.Plain) (hq : q.Plain) : (p ++ q).Plain := by
  intro t ht
  rcases List.mem_append.1 ht with ht | ht
  · exact hp t ht
  · exact hq t ht

theorem Plain.deeper {p : Printed} (h : p.Plain) : p.deeper.Plain := h

theorem Plain.parenthesized {p : Printed} (h : p.Plain) : p.parenthesized.Plain :=
  ((plain_kind rfl).append h).append (plain_kind rfl)

theorem Plain.groupedIf {p : Printed} (h : p.Plain) (needed : Bool) : (p.groupedIf needed).Plain := by
  unfold Printed.groupedIf
  split
  · exact h.deeper.parenthesized
  · exact h

theorem plain_commaSeparated {ps : List Printed} (h : ∀ p ∈ ps, p.Plain) :
    (commaSeparated ps).Plain := by
  fun_induction commaSeparated ps with
  | case1 => exact plain_empty
  | case2 p => exact h p (by simp)
  | case3 p ps _ ih =>
    exact ((h p (by simp)).append (plain_kind rfl)).append (ih fun q hq => h q (by simp [hq]))

end Printed

open Printed (plain_token plain_kind plain_empty plain_commaSeparated)

theorem Name.plain_printed {x : Name} (h : x.isProper) : x.printed.Plain :=
  plain_token (Token.plain_name h)

theorem spelling?_of_signs {k : Kind} (h : k ∈ Grammar.signs) : k.spelling?.isSome := by
  revert h
  cases k <;> decide

theorem spelling?_of_isBinary {k : Kind} (h : k.isBinary) : k.spelling?.isSome := by
  revert h
  cases k <;> decide

theorem spelling?_of_isCompound {k : Kind} (h : k.isCompound) : k.spelling?.isSome := by
  revert h
  cases k <;> decide

mutual

theorem Expr.plain_printed : ∀ {e : Expr}, e.isProper → e.printed.Plain
  | .name _, h => Name.plain_printed h
  | .integer _ n, _ => plain_token (Token.plain_number n)
  | .boolean _ b, _ => plain_token (Token.plain_truth b)
  | .unary o e _, h => by
    simp only [Expr.isProper, Bool.and_eq_true, decide_eq_true_eq] at h
    exact (plain_kind (spelling?_of_signs h.1)).append ((Expr.plain_printed h.2).groupedIf _).deeper
  | .binary l o r _, h => by
    simp only [Expr.isProper, Bool.and_eq_true] at h
    exact (((Expr.plain_printed h.1.1).groupedIf _).append
      (plain_kind (spelling?_of_isBinary h.1.2))).append ((Expr.plain_printed h.2).groupedIf _).deeper
  | .assign x o e _, h => by
    simp only [Expr.isProper, Bool.and_eq_true] at h
    exact ((Name.plain_printed h.1.1).append (plain_kind (spelling?_of_isCompound h.1.2))).append
      (Expr.plain_printed h.2).deeper
  | .conditional _ c b a _, h => by
    simp only [Expr.isProper, Bool.and_eq_true] at h
    exact (((plain_kind rfl).append (Expr.plain_printed h.1.1).deeper.parenthesized).append
      (Block.plain_printed h.1.2)).append (Block.plain_printedElse h.2)
  | .function _ xs b _, h => by
    simp only [Expr.isProper, Bool.and_eq_true, List.all_eq_true] at h
    have hxs : ∀ p ∈ xs.map Name.printed, p.Plain := by
      simpa using fun x hx => Name.plain_printed (h.1 x hx)
    exact ((plain_kind rfl).append (plain_commaSeparated hxs).parenthesized).append
      (Block.plain_printed h.2)
  | .call f _ es _, h => by
    simp only [Expr.isProper, Bool.and_eq_true] at h
    exact ((Expr.plain_printed h.1).groupedIf _).append
      (plain_commaSeparated (Expr.plain_printedAll h.2)).parenthesized

theorem Expr.plain_printedAll : ∀ {es : List Expr}, Expr.areProper es →
    ∀ p ∈ Expr.printedAll es, p.Plain
  | [], _ => by simp [Expr.printedAll]
  | e :: es, h => by
    simp only [Expr.areProper, Bool.and_eq_true] at h
    intro p hp
    rcases List.mem_cons.1 hp with rfl | hp
    · exact (Expr.plain_printed h.1).deeper
    · exact Expr.plain_printedAll h.2 p hp

theorem Stmt.plain_printed : ∀ {s : Stmt}, s.isProper → s.printed.Plain
  | .binding _ x e _, h => by
    simp only [Stmt.isProper, Bool.and_eq_true] at h
    exact ((((plain_kind rfl).append (Name.plain_printed h.1)).append (plain_kind rfl)).append
      (Expr.plain_printed h.2).deeper).append (plain_kind rfl)
  | .returning _ e _, h =>
    ((plain_kind rfl).append (Expr.plain_printed (by simpa [Stmt.isProper] using h)).deeper).append
      (plain_kind rfl)
  | .expression _ e _, h =>
    (Expr.plain_printed (by simpa [Stmt.isProper] using h)).deeper.append (plain_kind rfl)
  | .block _, h => Block.plain_printed (by simpa [Stmt.isProper] using h)

theorem Stmt.plain_printedAll : ∀ {ss : List Stmt}, Stmt.areProper ss → (Stmt.printedAll ss).Plain
  | [], _ => plain_empty
  | s :: ss, h => by
    simp only [Stmt.areProper, Bool.and_eq_true] at h
    exact (Stmt.plain_printed h.1).append (Stmt.plain_printedAll h.2)

theorem Block.plain_printed : ∀ {b : Block}, b.isProper → b.printed.Plain
  | .mk _ _ _, h =>
    (((plain_kind rfl).append (Stmt.plain_printedAll h)).append (plain_kind rfl)).deeper

theorem Block.plain_printedElse : ∀ {a : Option Block}, Block.isProperOption a →
    (Block.printedElse a).Plain
  | none, _ => plain_empty
  | some _, h => (plain_kind rfl).append (Block.plain_printed h)

end

namespace Token

/-- After a text comes a blank or the end. -/
theorem intercalate_blank (text : List Char) (texts : List (List Char)) :
    ∃ blank, (∀ c ∈ blank, isGap c) ∧
      (∀ c ∈ (blank ++ [' '].intercalate texts).head?, isGap c) ∧
      [' '].intercalate (text :: texts) = text ++ (blank ++ [' '].intercalate texts) := by
  cases texts with
  | nil => exact ⟨[], by simp, by simp, by simp⟩
  | cons next texts => exact ⟨[' '], by simp [isGap], by simp [isGap], by simp⟩

/-- Plain tokens with a blank between them are read as they are. -/
theorem tiles_spaced (file : String) {ts : List Token} (hts : ∀ t ∈ ts, t.Plain) (offset : Nat)
    {gap : List Char} (hgap : ∀ c ∈ gap, isGap c) :
    ∃ us finish,
      Tiles file offset (gap ++ [' '].intercalate (ts.map (·.literal.toList))) (us ++ [finish]) ∧
      us.map Redraw.unplaced.token = ts := by
  induction ts generalizing offset gap with
  | nil => exact ⟨[], _, by simpa using .done hgap, rfl⟩
  | cons t ts ih =>
    obtain ⟨blank, hblank, hhead, heq⟩ :=
      intercalate_blank t.literal.toList (ts.map (·.literal.toList))
    have ht := hts t (by simp)
    obtain ⟨us, finish, htiles, hmap⟩ := ih (fun u hu => hts u (List.mem_cons_of_mem t hu))
      (offset + byteSize gap + byteSize t.literal.toList) hblank
    have hnext := Tiles.next hgap (ht.legal.longest hhead) rfl rfl htiles
    rw [← heq, String.ofList_toList] at hnext
    refine ⟨_ :: us, finish, hnext, ?_⟩
    obtain ⟨kind, literal, span⟩ := t
    obtain ⟨-, rfl⟩ := ht
    rw [List.map_cons, hmap]
    rfl

end Token

/-- The text of a proper program is read as the tokens that were printed for it. -/
theorem tokenize_text (name : String) {p : Program} (h : p.isProper) :
    (tokenize ⟨name, p.text⟩).dropLast.map Redraw.unplaced.token = p.printed.tokens := by
  have hplain : ∀ t ∈ p.printed.tokens, t.Plain := Stmt.plain_printedAll h
  obtain ⟨us, finish, htiles, hmap⟩ := Token.tiles_spaced name hplain 0 (List.forall_mem_nil _)
  have hscan := htiles.eq_scan
  have htext : p.text.toList = [' '].intercalate (p.printed.tokens.map (·.literal.toList)) := by
    rw [Program.text, String.toList_intercalate, List.map_map]
    rfl
  rw [List.nil_append, ← htext] at hscan
  rw [← hmap, tokenize, ← hscan, List.dropLast_concat]

end LetLang
