import LetLang.Proofs.Printing.Text

/-! A text that goes on differently.

What stands before a token keeps its tokens if a blank comes next, whatever comes after
the blank (`Tiles.continued`). If it is to go on with tokens of certain kinds, and it is
known how to write these, there is a text to go on with (`exists_continuation`). -/
namespace LetLang
open Text (byteSize)

namespace Token

variable {file : String} {offset : Nat} {cs : List Char} {ts us vs : List Token} {t : Token}

/-- A gap may be longer. -/
theorem Tiles.gap {gap : List Char} (hgap : ∀ c ∈ gap, isGap c)
    (h : Tiles file (offset + byteSize gap) cs ts) :
    Tiles file offset (gap ++ cs) ts := by
  generalize hplace : offset + byteSize gap = place at h
  have hall : ∀ {more : List Char}, (∀ c ∈ more, isGap c) → ∀ c ∈ gap ++ more, isGap c :=
    fun hmore c hc => (List.mem_append.1 hc).elim (hgap c) (hmore c)
  cases h with
  | @done _ more hmore =>
    rw [← hplace, Nat.add_assoc, ← Text.byteSize_append]
    exact .done (hall hmore)
  | @next _ start _ more _ _ _ _ hmore htext hstart hstop hrest =>
    rw [← List.append_assoc]
    refine .next (hall hmore) htext ?_ hstop hrest
    rw [hstart, ← hplace, Nat.add_assoc, ← Text.byteSize_append]

/-- What is before a token, and how it may go on. -/
theorem Tiles.continued (h : Tiles file offset cs (ts ++ t :: us)) :
    ∃ front rest, cs = front ++ (t.literal.toList ++ rest) ∧
      t.start = .ofOffset file (offset + byteSize front) ∧ (us = [] → front = cs) ∧
      ∀ {blank more vs}, isGap blank → Tiles file (offset + byteSize front) (blank :: more) vs →
        Tiles file offset (front ++ blank :: more) (ts ++ vs) := by
  generalize hall : ts ++ t :: us = all at h
  induction h generalizing ts with
  | @done offset gap hgap =>
    obtain ⟨rfl, rfl, rfl⟩ : ts = [] ∧ t = _ ∧ us = [] := by
      cases ts with
      | nil => exact ⟨rfl, List.cons.inj hall⟩
      | cons y ys => simp at hall
    exact ⟨gap, [], by simp [endOfInput], rfl, fun _ => rfl, fun _ htiles => htiles.gap hgap⟩
  | @next offset _ _ gap text rest kind _ hgap htext hstart hstop hrest ih =>
    subst hstart hstop
    cases ts with
    | nil =>
      obtain ⟨rfl, rfl⟩ := List.cons.inj hall
      refine ⟨gap, rest, by rw [String.toList_ofList], rfl, ?_, fun _ htiles => htiles.gap hgap⟩
      rintro rfl
      cases hrest
    | cons y ys =>
      obtain ⟨rfl, hys⟩ := List.cons.inj hall
      obtain ⟨front, after, rfl, hstart, hlast, hcontinued⟩ := ih hys
      have hplace : offset + byteSize (gap ++ (text ++ front)) =
          offset + byteSize gap + byteSize text + byteSize front := by
        simp only [Text.byteSize_append, Nat.add_assoc]
      refine ⟨gap ++ (text ++ front), after, by simp, by rw [hplace, hstart], ?_, ?_⟩
      · intro hus
        rw [← hlast hus]
      · intro blank more vs hblank htiles
        rw [hplace] at htiles
        rw [List.append_assoc, List.append_assoc]
        exact .next hgap (htext.truncate.blank hblank more) rfl rfl (hcontinued hblank htiles)

/-! ### What can be written -/

theorem exists_plain {kind : Kind} (h : kind.isWritable) :
    ∃ t : Token, t.kind = kind ∧ t.Plain := by
  simp only [Kind.isWritable, Bool.or_eq_true, beq_iff_eq] at h
  rcases h with rfl | h
  · exact ⟨_, rfl, plain_name (x := ⟨.unplaced .identifier "x"⟩) (by decide)⟩
  · exact ⟨.fixed kind, rfl, plain_fixed h⟩

theorem exists_plains {kinds : List Kind} (h : ∀ k ∈ kinds, k.isWritable) :
    ∃ ts : List Token, ts.map kind = kinds ∧ ∀ t ∈ ts, t.Plain := by
  induction kinds with
  | nil => exact ⟨[], rfl, by simp⟩
  | cons k kinds ih =>
    obtain ⟨t, hk, ht⟩ := exists_plain (h k (by simp))
    obtain ⟨ts, hkinds, hts⟩ := ih fun j hj => h j (List.mem_cons_of_mem k hj)
    exact ⟨t :: ts, by rw [List.map_cons, hk, hkinds], List.forall_mem_cons.2 ⟨ht, hts⟩⟩

end Token

/-- Up to a token a text may go on with tokens of any kinds that can be written. -/
theorem exists_continuation {source : Source} {before after : List Token} {t : Token}
    (h : tokenize source = before ++ t :: after) :
    ∃ front rest, source.text = front ++ (t.literal ++ rest) ∧
      t.start = .ofOffset source.name front.utf8ByteSize ∧ (after = [] → front = source.text) ∧
      ∀ kinds : List Token.Kind, (∀ k ∈ kinds, k.isWritable) → ∃ c cs, cs.map Token.kind = kinds ∧
        (tokenize ⟨source.name, front ++ " " ++ c⟩).dropLast = before ++ cs := by
  have htiles := Token.tiles_scan source.name 0 source.text.toList
  rw [show Token.scan _ _ _ ++ [Token.scanEnd _ _ _] = _ from h] at htiles
  obtain ⟨front, rest, htext, hstart, hlast, hcontinued⟩ := htiles.continued
  have hofList : source.text = String.ofList front ++ (t.literal ++ String.ofList rest) := by
    apply String.toList_injective
    simp [htext]
  rw [Nat.zero_add, ← Text.byteSize_ofList] at hstart
  refine ⟨String.ofList front, String.ofList rest, hofList, hstart, ?_, fun kinds hkinds => ?_⟩
  · intro hafter
    rw [hlast hafter, String.ofList_toList]
  · obtain ⟨ts, hts, hplain⟩ := Token.exists_plains hkinds
    have hgap : ∀ c ∈ [' '], Token.isGap c := by simp [Token.isGap]
    obtain ⟨us, finish, hspaced, hmap⟩ :=
      Token.tiles_spaced source.name hplain (0 + byteSize front) hgap
    let c := String.ofList ([' '].intercalate (ts.map (·.literal.toList)))
    have hc : (String.ofList front ++ " " ++ c).toList =
        front ++ ' ' :: [' '].intercalate (ts.map (·.literal.toList)) := by simp [c]
    have hscan := (hcontinued rfl hspaced).eq_scan
    have htokens : tokenize ⟨source.name, String.ofList front ++ " " ++ c⟩ =
        before ++ us ++ [finish] := by
      rw [tokenize, hc, List.append_assoc]
      exact hscan.symm
    refine ⟨c, us, ?_, by rw [htokens, List.dropLast_concat]⟩
    rw [← hts, ← hmap, List.map_map]
    rfl

end LetLang
