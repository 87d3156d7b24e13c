import LetLang.Token.Lexeme
import Mathlib.Data.List.TakeWhile

/-! Which texts are lexemes.

`Spells` says of a text that it is a lexeme of a kind, without saying how it is
read. A text is a lexeme of one kind at most (`Spells.unique`), and what is read
at the front of a text is the longest lexeme there (`longest_read`), which is the
only one that is longest (`Longest.eq_read`). -/
namespace LetLang.Token

/-- How tokens of the kind are written, where there is one way only. -/
def Kind.spelling? : Kind → Option String
  | eof | illegal | identifier | integer => none
  | openCurly => some "\x7b"
  | closeCurly => some "\x7d"
  | openParen => some "("
  | closeParen => some ")"
  | assignment => some "="
  | equals => some "=="
  | not => some "!"
  | notEquals => some "!="
  | less => some "<"
  | lessEquals => some "<="
  | greater => some ">"
  | greaterEquals => some ">="
  | semicolon => some ";"
  | comma => some ","
  | plusEquals => some "+="
  | minusEquals => some "-="
  | starEquals => some "*="
  | slashEquals => some "/="
  | plus => some "+"
  | dash => some "-"
  | slash => some "/"
  | star => some "*"
  | kwFn => some "fn"
  | kwLet => some "let"
  | kwTrue => some "true"
  | kwFalse => some "false"
  | kwIf => some "if"
  | kwElse => some "else"
  | kwReturn => some "return"

/-- What can be written for a token of the kind is known from the kind. -/
def Kind.isWritable (kind : Kind) : Bool := kind == .identifier || kind.spelling?.isSome

namespace Lexeme

/-- The lexemes that a program may contain. -/
inductive Legal : Kind → List Char → Prop where
  /-- Signs, marks and reserved words. -/
  | fixed {kind : Kind} {text : String} : kind.spelling? = some text → Legal kind text.toList
  | identifier {c : Char} {cs : List Char} :
      isWordStart c → (∀ d ∈ cs, isWordPart d) →
      (∀ kind : Kind, kind.spelling? ≠ some (String.ofList (c :: cs))) →
      Legal .identifier (c :: cs)
  | integer {c : Char} {cs : List Char} :
      isDigit c → (∀ d ∈ cs, isDigit d) → Legal .integer (c :: cs)

/-- All lexemes. A character that begins no legal one is illegal, and is a lexeme alone. -/
inductive Spells : Kind → List Char → Prop where
  | legal {kind : Kind} {cs : List Char} : Legal kind cs → Spells kind cs
  | illegal {c : Char} : isGap c = false → (∀ kind cs, ¬ Legal kind (c :: cs)) → Spells .illegal [c]

/-- The text is a lexeme, and none that goes on into `rest` is longer. -/
def Longest (kind : Kind) (text rest : List Char) : Prop :=
  Spells kind text ∧
    ∀ kind' longer, Spells kind' longer → longer <+: text ++ rest → longer.length ≤ text.length

/-! ### Characters -/

theorem isGap_cases {c : Char} (h : isGap c) : c = ' ' ∨ c = '\t' ∨ c = '\n' ∨ c = '\r' := by
  simpa [isGap, or_assoc] using h

theorem not_isGap_of_isWordStart {c : Char} (h : isWordStart c) : isGap c = false := by
  rw [Bool.eq_false_iff]
  intro hg
  rcases isGap_cases hg with rfl | rfl | rfl | rfl <;> exact absurd h (by decide)

theorem not_isGap_of_isDigit {c : Char} (h : isDigit c) : isGap c = false := by
  rw [Bool.eq_false_iff]
  intro hg
  rcases isGap_cases hg with rfl | rfl | rfl | rfl <;> exact absurd h (by decide)

theorem not_isWordStart_of_isDigit {c : Char} (h : isDigit c) : isWordStart c = false := by
  rw [Bool.eq_false_iff]
  intro hw
  simp only [isWordStart, isDigit, Bool.or_eq_true, Bool.and_eq_true, decide_eq_true_eq,
    beq_iff_eq, Char.le_def, UInt32.le_iff_toNat_le] at h hw
  have hlo : ('0' : Char).val.toNat = 48 := rfl
  have hhi : ('9' : Char).val.toNat = 57 := rfl
  have ha : ('a' : Char).val.toNat = 97 := rfl
  have hA : ('A' : Char).val.toNat = 65 := rfl
  rcases hw with (hw | hw) | rfl
  · omega
  · omega
  · exact absurd h (by decide)

/-! ### Spellings -/

/-- A reserved word is spelled as itself. -/
theorem spelling?_ofWord {word : String} (h : Kind.ofWord word ≠ .identifier) :
    (Kind.ofWord word).spelling? = some word := by
  unfold Kind.ofWord at h ⊢
  split at h
  case h_8 => exact absurd rfl h
  all_goals rfl

theorem spelling?_of_sign? {c : Char} {alone followed : Kind}
    (h : sign? c = some (alone, followed)) :
    alone.spelling? = some (String.ofList [c]) ∧
      followed.spelling? = some (String.ofList [c, '=']) := by
  unfold sign? at h
  split at h <;> cases h <;> exact ⟨rfl, rfl⟩

theorem spelling?_mark {c : Char} (h : mark c ≠ .illegal) :
    (mark c).spelling? = some (String.ofList [c]) := by
  unfold mark at h ⊢
  split at h
  case h_7 => exact absurd rfl h
  all_goals rfl

/-! ### Reading -/

variable {kind : Kind} {text rest : List Char}

/-- A legal lexeme is read to its end. -/
theorem Legal.read (h : Legal kind text) :
    ∃ c cs, text = c :: cs ∧ isGap c = false ∧ read c cs = ⟨kind, c :: cs, []⟩ := by
  cases h with
  | @fixed kind text h => cases kind <;> cases h <;> exact ⟨_, _, rfl, by decide, by decide⟩
  | @identifier c cs hc hcs hk =>
    refine ⟨c, cs, rfl, not_isGap_of_isWordStart hc, ?_⟩
    have hkind : Kind.ofWord (String.ofList (c :: cs)) = .identifier := by
      by_contra hne
      exact hk _ (spelling?_ofWord hne)
    simp only [Lexeme.read, hc, if_true, List.takeWhile_eq_self_iff.2 hcs,
      List.dropWhile_eq_nil_iff.2 hcs, hkind]
  | @integer c cs hc hcs =>
    refine ⟨c, cs, rfl, not_isGap_of_isDigit hc, ?_⟩
    simp only [Lexeme.read, hc, not_isWordStart_of_isDigit hc, Bool.false_eq_true, if_true, if_false,
      List.takeWhile_eq_self_iff.2 hcs, List.dropWhile_eq_nil_iff.2 hcs]

theorem not_legal_illegal : ¬ Legal .illegal text := by
  rintro ⟨⟨⟩⟩

/-- No blank is part of a lexeme. -/
theorem Legal.not_isGap {kind : Kind} {cs : List Char} (h : Legal kind cs) :
    ∀ c ∈ cs, isGap c = false := by
  cases h with
  | @fixed kind text h => cases kind <;> cases h <;> simp [isGap]
  | @identifier c cs hc hcs =>
    intro d hd
    rcases List.mem_cons.1 hd with rfl | hd
    · exact not_isGap_of_isWordStart hc
    · rcases Bool.or_eq_true _ _ ▸ hcs d hd with hw | hn
      · exact not_isGap_of_isWordStart hw
      · exact not_isGap_of_isDigit hn
  | @integer c cs hc hcs =>
    intro d hd
    rcases List.mem_cons.1 hd with rfl | hd
    · exact not_isGap_of_isDigit hc
    · exact not_isGap_of_isDigit (hcs d hd)

theorem Spells.not_isGap {kind : Kind} {cs : List Char} (h : Spells kind cs) :
    ∀ c ∈ cs, isGap c = false := by
  cases h with
  | legal h => exact h.not_isGap
  | illegal h => simpa using h

/-- What is read is a lexeme. -/
theorem spells_read {c : Char} (h : isGap c = false) (cs : List Char) :
    Spells (read c cs).kind (read c cs).text := by
  unfold read
  split
  · rename_i hc
    let word := c :: cs.takeWhile isWordPart
    have hparts : ∀ d ∈ cs.takeWhile isWordPart, isWordPart d := fun d => List.mem_takeWhile_imp
    show Spells (Kind.ofWord (String.ofList word)) word
    by_cases hk : Kind.ofWord (String.ofList word) = .identifier
    · rw [hk]
      refine .legal (.identifier hc hparts fun kind hkind => ?_)
      -- a reserved word would have been read as one
      obtain ⟨d, ds, hd, -, hread⟩ := (Legal.fixed hkind).read
      rw [String.toList_ofList] at hd
      cases hd
      simp only [read, hc, if_true, List.takeWhile_idem, mk.injEq] at hread
      rw [← hread.1] at hkind
      exact absurd (hk ▸ hkind) (by simp [Kind.spelling?])
    · have hfixed := Legal.fixed (spelling?_ofWord hk)
      rw [String.toList_ofList] at hfixed
      exact .legal hfixed
  · rename_i hw
    split
    · rename_i hd
      exact .legal (.integer hd fun d => List.mem_takeWhile_imp)
    · rename_i hd
      split
      · rename_i alone followed hs
        obtain ⟨halone, hfollowed⟩ := spelling?_of_sign? hs
        have hone := Legal.fixed halone
        have htwo := Legal.fixed hfollowed
        rw [String.toList_ofList] at hone htwo
        unfold readSign
        split
        · exact .legal htwo
        · exact .legal hone
      · rename_i hs
        by_cases hm : mark c = .illegal
        · simp only [hm]
          refine .illegal h fun kind ds hlegal => ?_
          obtain ⟨d, ds, heq, -, hread⟩ := hlegal.read
          cases heq
          simp only [read, if_neg hw, if_neg hd, hs, hm, mk.injEq] at hread
          exact not_legal_illegal (hread.1 ▸ hlegal)
        · have hfixed := Legal.fixed (spelling?_mark hm)
          rw [String.toList_ofList] at hfixed
          exact .legal hfixed

/-- A lexeme is read to its end. -/
theorem Spells.read (h : Spells kind text) :
    ∃ c cs, text = c :: cs ∧ isGap c = false ∧ read c cs = ⟨kind, c :: cs, []⟩ := by
  cases h with
  | legal h => exact h.read
  | @illegal c hgap hnot =>
    refine ⟨c, [], rfl, hgap, ?_⟩
    have hspells := spells_read hgap []
    have hall := text_append_rest c []
    have hne := text_ne_nil c []
    cases hread : Lexeme.read c [] with
    | mk kind text rest =>
      rw [hread] at hspells hall hne
      obtain ⟨rfl, rfl⟩ : text = [c] ∧ rest = [] := by
        rcases List.append_eq_singleton_iff.1 hall with ⟨hnil, -⟩ | h
        · exact absurd hnil hne
        · exact h
      cases hspells with
      | legal h => exact absurd h (hnot _ _)
      | illegal => rfl

/-- A text is a lexeme of one kind at most. -/
theorem Spells.unique {kind' : Kind} (h : Spells kind text) (h' : Spells kind' text) :
    kind = kind' := by
  obtain ⟨c, cs, rfl, -, hread⟩ := h.read
  obtain ⟨d, ds, heq, -, hread'⟩ := h'.read
  cases heq
  rw [hread] at hread'
  cases hread'
  rfl

theorem length_text_le_append (c : Char) (cs ds : List Char) :
    (read c cs).text.length ≤ (read c (cs ++ ds)).text.length := by
  have hwhile : ∀ p : Char → Bool,
      (cs.takeWhile p).length ≤ ((cs ++ ds).takeWhile p).length := by
    intro p
    rw [List.takeWhile_append]
    split
    · rename_i h
      simp [h]
    · exact Nat.le_refl _
  unfold read
  split
  · exact Nat.succ_le_succ (hwhile isWordPart)
  · split
    · exact Nat.succ_le_succ (hwhile isDigit)
    · split
      · cases cs with
        | nil => exact List.length_pos_iff.2 (readSign_text_ne_nil c _ _ ds)
        | cons d cs =>
          unfold readSign
          split <;> simp_all
      · exact Nat.le_refl _

/-- What is read is the longest lexeme. -/
theorem longest_read {c : Char} (h : isGap c = false) (cs : List Char) :
    Longest (read c cs).kind (read c cs).text (read c cs).rest := by
  refine ⟨spells_read h cs, fun kind' longer hlonger hprefix => ?_⟩
  obtain ⟨d, ds, rfl, -, hread⟩ := hlonger.read
  obtain ⟨more, hmore⟩ := hprefix
  rw [text_append_rest] at hmore
  cases hmore
  have hle := length_text_le_append c ds more
  rwa [hread] at hle

/-- The longest lexeme is what is read. -/
theorem Longest.eq_read {kind : Kind} {text rest : List Char} (h : Longest kind text rest) :
    ∃ c cs, text = c :: cs ∧ isGap c = false ∧ read c (cs ++ rest) = ⟨kind, text, rest⟩ := by
  obtain ⟨hspells, hlongest⟩ := h
  obtain ⟨c, cs, rfl, hgap, hread⟩ := hspells.read
  refine ⟨c, cs, rfl, hgap, ?_⟩
  have hall := text_append_rest c (cs ++ rest)
  have hle := length_text_le_append c cs rest
  have hge := hlongest _ _ (spells_read hgap (cs ++ rest)) ⟨_, hall⟩
  rw [hread] at hle
  obtain ⟨htext, hrest⟩ := List.append_inj hall (Nat.le_antisymm hge hle)
  have hkind := (spells_read hgap (cs ++ rest)).unique (htext ▸ hspells)
  cases hread' : read c (cs ++ rest) with
  | mk kind' text' rest' => simp_all

/-- What is longest in front of a text is longest in front of less of it. -/
theorem Longest.truncate {kind : Kind} {text rest more : List Char}
    (h : Longest kind text (rest ++ more)) : Longest kind text rest := by
  refine ⟨h.1, fun kind' longer hspells hprefix => h.2 kind' longer hspells ?_⟩
  rw [← List.append_assoc]
  exact hprefix.trans (List.prefix_append _ _)

/-- No lexeme goes on past a blank. -/
theorem Longest.blank {kind : Kind} {text rest : List Char} {blank : Char}
    (h : Longest kind text rest) (hblank : isGap blank) (more : List Char) :
    Longest kind text (rest ++ blank :: more) := by
  refine ⟨h.1, fun kind' longer hspells hprefix => h.2 kind' longer hspells ?_⟩
  rw [← List.append_assoc] at hprefix
  rcases List.prefix_or_prefix_of_prefix hprefix (List.prefix_append _ _) with hle | ⟨beyond, rfl⟩
  · exact hle
  · rw [List.prefix_append_right_inj] at hprefix
    cases beyond with
    | nil => simp
    | cons c beyond =>
      obtain ⟨rfl, -⟩ := List.cons_prefix_cons.1 hprefix
      rw [hspells.not_isGap c (by simp)] at hblank
      cases hblank

end Lexeme
end LetLang.Token
