import LetLang.Proofs.Nodes
import LetLang.Proofs.Printing.Text
import LetLang.Proofs.Tiling
import Mathlib.Data.List.Induction

/-! A tree stores the tokens of its source.

The tokens that the nodes of a tree are named for, read from left to right, are tokens
of the source in the order in which they stand there, none of them twice. Each node
says what its token says: an integer is the number that the digits are, an assignment
computes with the operator in front of the `=`. And where nothing is wrong, no token is
missing but those that only separate and close (`tree_stores_tokens`). -/
namespace LetLang
open Token (Kind isDigit)
open Token.Lexeme (Legal Spells)

/-- The operator that a compound one computes with. -/
def Token.Kind.arithmetic? : Kind → Option Kind
  | .plusEquals => some .plus
  | .minusEquals => some .dash
  | .starEquals => some .star
  | .slashEquals => some .slash
  | _ => none

/-- The node says what the token it is named for says. -/
structure Node.Agrees (n : Node) : Prop where
  fits : n.Fits
  /-- The digits are the decimal of the value, perhaps after some zeros. -/
  decimal : ∀ t v, n = expr (.integer t v) →
    ∃ zeros, t.literal.toList = List.replicate zeros '0' ++ Nat.toDigits 10 v
  /-- The operator is spelled as the one it computes with and an `=`. -/
  compound : ∀ x t e s, n = expr (.assign x t e s) →
    ∃ k, t.kind.arithmetic? = some k ∧ k.spelling? = some t.arithmeticOperator ∧
      t.literal = t.arithmeticOperator ++ "="

/-! ### What tokens say -/

namespace Token

theorem Tiles.spells {file : String} {offset : Nat} {cs : List Char} {ts : List Token} {t : Token}
    (h : Tiles file offset cs ts) (ht : t ∈ ts) (hk : t.kind ≠ .eof) :
    Spells t.kind t.literal.toList := by
  induction h with
  | done =>
    rw [List.mem_singleton.1 ht] at hk
    exact absurd rfl hk
  | next _ htext _ _ _ ih =>
    rcases List.mem_cons.1 ht with rfl | ht
    · rw [String.toList_ofList]
      exact htext.1
    · exact ih ht

/-- A token of the source is a legal lexeme, unless it is illegal. -/
theorem legal_of_mem {source : Source} {t : Token} (ht : t ∈ tokenize source)
    (hend : t.kind ≠ .eof) (hk : t.kind ≠ .illegal) : Legal t.kind t.literal.toList := by
  have hspells := (tiles_scan source.name 0 source.text.toList).spells ht hend
  generalize t.kind = kind, t.literal.toList = text at hspells hk
  cases hspells with
  | legal h => exact h
  | illegal => exact absurd rfl hk

theorem exists_digitChar {c : Char} (h : isDigit c) : ∃ x, x < 10 ∧ c = x.digitChar := by
  simp only [isDigit, Bool.and_eq_true, decide_eq_true_eq, Char.le_def, UInt32.le_iff_toNat_le] at h
  have hlo : 48 ≤ c.toNat := h.1
  have hhi : c.toNat ≤ 57 := h.2
  refine ⟨c.toNat - 48, by omega, ?_⟩
  apply Char.toNat_inj.1
  rw [Nat.toNat_digitChar_of_lt_ten (by omega)]
  omega

theorem value_append_digit (cs : List Char) {x : Nat} (h : x < 10) :
    Nat.ofDigitChars 10 (cs ++ [x.digitChar]) 0 = 10 * Nat.ofDigitChars 10 cs 0 + x := by
  rw [Nat.ofDigitChars_append, Nat.ofDigitChars_cons, Nat.ofDigitChars_nil]
  exact congrArg _ (Nat.toNat_digitChar_sub_48_of_lt_ten h)

/-- Digits are the decimal of the number they say, after some zeros. -/
theorem digits_eq {cs : List Char} (hne : cs ≠ []) (h : ∀ c ∈ cs, isDigit c) :
    ∃ zeros, cs = List.replicate zeros '0' ++ Nat.toDigits 10 (Nat.ofDigitChars 10 cs 0) := by
  induction cs using List.reverseRecOn with
  | nil => exact absurd rfl hne
  | append_singleton ds d ih =>
    obtain ⟨x, hx, rfl⟩ := exists_digitChar (h d (by simp))
    rw [value_append_digit ds hx]
    by_cases hds : ds = []
    · subst hds
      refine ⟨0, ?_⟩
      rw [Nat.ofDigitChars_nil, Nat.mul_zero, Nat.zero_add, Nat.toDigits_of_lt_base hx]
      rfl
    · obtain ⟨zeros, hzeros⟩ := ih hds fun c hc => h c (by simp [hc])
      generalize Nat.ofDigitChars 10 ds 0 = v at hzeros ⊢
      by_cases hv : v = 0
      · -- zeros only, and the decimal of zero is one of them
        subst hv
        refine ⟨zeros + 1, ?_⟩
        rw [hzeros, Nat.mul_zero, Nat.zero_add, Nat.toDigits_of_lt_base hx, List.replicate_succ']
        rfl
      · refine ⟨zeros, ?_⟩
        rw [← Nat.toDigits_append_toDigits (by decide) (Nat.pos_of_ne_zero hv) hx,
          Nat.toDigits_of_lt_base hx, ← List.append_assoc, ← hzeros]

theorem literal_of_integer {t : Token} (hk : t.kind = .integer)
    (h : Legal t.kind t.literal.toList) :
    ∃ zeros, t.literal.toList = List.replicate zeros '0' ++ Nat.toDigits 10 t.value := by
  have hdigits : t.literal.toList ≠ [] ∧ ∀ c ∈ t.literal.toList, isDigit c := by
    generalize t.literal.toList = text at h ⊢
    rw [hk] at h
    cases h with
    | fixed h => cases h
    | integer hc hcs => exact ⟨by simp, List.forall_mem_cons.2 ⟨hc, hcs⟩⟩
  exact digits_eq hdigits.1 hdigits.2

/-- A compound operator is written as the one it computes with and an `=`. -/
theorem Kind.spelling?_of_compound {kind : Kind} (h : kind.isCompound) :
    ∃ k operator, kind.arithmetic? = some k ∧ k.spelling? = some operator ∧
      kind.spelling? = some (operator ++ "=") := by
  cases kind with
  | plusEquals => exact ⟨.plus, "+", rfl, rfl, by decide⟩
  | minusEquals => exact ⟨.dash, "-", rfl, rfl, by decide⟩
  | starEquals => exact ⟨.star, "*", rfl, rfl, by decide⟩
  | slashEquals => exact ⟨.slash, "/", rfl, rfl, by decide⟩
  | _ => cases h

theorem arithmeticOperator_eq {t : Token} {operator : String} (h : t.literal = operator ++ "=") :
    t.arithmeticOperator = operator := by
  have hlist : t.literal.toList = operator.toList ++ ['='] := by rw [h, String.toList_append]; rfl
  rw [arithmeticOperator, hlist, List.getLast?_concat, if_pos rfl, List.dropLast_concat,
    String.ofList_toList]

theorem literal_of_compound {t : Token} (hk : t.kind.isCompound)
    (h : Legal t.kind t.literal.toList) :
    ∃ k, t.kind.arithmetic? = some k ∧ k.spelling? = some t.arithmeticOperator ∧
      t.literal = t.arithmeticOperator ++ "=" := by
  obtain ⟨k, operator, harithmetic, hoperator, hspelling⟩ := Kind.spelling?_of_compound hk
  have hliteral : t.literal = operator ++ "=" := by
    generalize htext : t.literal.toList = text at h
    generalize t.kind = kind at hk h hspelling
    cases h with
    | fixed h =>
      rw [String.toList_inj.1 htext]
      exact Option.some.inj (h.symm.trans hspelling)
    | identifier => cases hk
    | integer => cases hk
  rw [arithmeticOperator_eq hliteral]
  exact ⟨k, harithmetic, hoperator, hliteral⟩

end Token

theorem Node.Fits.agrees {n : Node} {source : Source} (h : n.Fits) (ht : n.token ∈ tokenize source) :
    n.Agrees := by
  refine ⟨h, ?_, ?_⟩
  · rintro t v rfl
    have ht : t ∈ tokenize source := ht
    obtain ⟨hk, rfl, -⟩ := h
    exact Token.literal_of_integer hk (Token.legal_of_mem ht (by simp [hk]) (by simp [hk]))
  · rintro x t e s rfl
    have ht : t ∈ tokenize source := ht
    have hk : t.kind.isCompound := h
    refine Token.literal_of_compound hk (Token.legal_of_mem ht ?_ ?_)
    · intro hend
      rw [hend] at hk
      cases hk
    · intro hillegal
      rw [hillegal] at hk
      cases hk

/-! ### What a tree takes from its tokens -/

/-- Some of the tokens in their order; where nothing is wrong, all that a tree has to keep. -/
structure Picks (ds : List Diagnostic) (xs ts : List Token) : Prop where
  sublist : xs.Sublist ts
  kept : ds = [] → xs.filter (fun t => t.kind.isKept) = ts.filter fun t => t.kind.isKept

variable {ds : List Diagnostic} {ps : List Piece} {xs ys ts us : List Token}

theorem Picks.append (h : Picks ds xs ts) (h' : Picks ds ys us) : Picks ds (xs ++ ys) (ts ++ us) where
  sublist := h.sublist.append h'.sublist
  kept hnone := by rw [List.filter_append, List.filter_append, h.kept hnone, h'.kept hnone]

theorem Picks.token (t : Token) : Picks ds [t] [t] := ⟨.refl _, fun _ => rfl⟩

theorem Picks.skip {t : Token} (h : ds = [] → t.kind.isKept = false) : Picks ds [] [t] where
  sublist := List.nil_sublist _
  kept hnone := by simp [h hnone]

/-- The tokens of all pieces are picked from those they are spread over. -/
theorem Spread.picks (h : Spread ds ps ts) : Picks ds (ps.flatMap Piece.tokens) ts := by
  induction h with
  | nil => exact ⟨.slnil, fun _ => rfl⟩
  | skip ht _ ih => exact (Picks.skip ht).append ih
  | token _ ih => exact (Picks.token _).append ih
  | @node n _ _ _ _ _ _ _ _ _ ihpieces ih =>
    rw [← n.tokens_eq] at ihpieces
    exact ihpieces.append ih

/-! ### Sources -/

/-- The tokens of a tree are tokens of the source in their order, each node agrees with its own, and
where nothing is wrong every token that has to be kept is there. -/
theorem tree_stores_tokens (source : Source) :
    (parse source).program.tokens.Sublist (tokenize source) ∧
      (∀ n, (parse source).program.Has n → n.Agrees) ∧
      ((parse source).diagnostics = [] →
        (parse source).program.tokens.filter (fun t => t.kind.isKept) =
          (tokenize source).filter fun t => t.kind.isKept) := by
  have hlaid := parseWithin_laid maxNesting source
  have hpicks := hlaid.spread.picks
  have htokens : (parse source).program.tokens =
      (Part.statements (parse source).program.statements
        (Token.scanEnd source.name 0 source.text.toList)).pieces.flatMap Piece.tokens := by
    rw [Program.tokens, Stmt.tokensAll_eq, Part.pieces, List.flatMap_map]
    rfl
  have hend : [].filter (fun t : Token => t.kind.isKept) =
      [Token.scanEnd source.name 0 source.text.toList].filter fun t => t.kind.isKept := rfl
  rw [htokens]
  refine ⟨hpicks.sublist.trans (List.sublist_append_left _ _), fun n hn => ?_, fun hnone => ?_⟩
  · obtain ⟨first, us, hrun, hover⟩ := hn.over hlaid
    exact hover.fits.agrees (List.mem_append_left _ (hrun.subset hover.token))
  · rw [tokenize, List.filter_append, ← hend, List.filter_nil, List.append_nil]
    exact hpicks.kept hnone

/-- Leading zeros, a compound assignment and a group, with nothing wrong. -/
theorem zeros_are_stored :
    let source : Source := ⟨"main", "let x = 007; x += (1 + 2); fn(a) \x7b a \x7d"⟩
    (parse source).diagnostics = [] ∧
      (parse source).program.tokens.filter (fun t => t.kind.isKept) =
        (tokenize source).filter fun t => t.kind.isKept := by
  intro source
  have h : (parse source).diagnostics = [] := by decide +kernel
  exact ⟨h, (tree_stores_tokens source).2.2 h⟩

end LetLang
