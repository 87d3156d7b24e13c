import LetLang.Proofs.Grammar
import LetLang.Token.Scan

/-! Parentheses, in a text and among its tokens.

A parenthesis is always a token of its own and stands in no other token, so a text has
the parentheses that its tokens have (`parens_scan`). In what the grammar derives each
of them has its counterpart (`Derives.level`): read in front of it or behind it, as many
are open. So where a derived phrase is cut in two, behind some opening ones at its front
or in front of some closing ones at its end, what is left matches no more
(`Level.front_nil`, `Level.back_nil`). -/
namespace LetLang
open Token (Kind)

inductive Paren where
  | opening
  | closing
deriving DecidableEq, Repr

/-- How many are open after these, if `n` were open before, unless one closes that is not open. -/
def Paren.depth? : Nat → List Paren → Option Nat
  | n, [] => some n
  | n, opening :: ps => depth? (n + 1) ps
  | 0, closing :: _ => none
  | n + 1, closing :: ps => depth? n ps

def Paren.ofChar? : Char → Option Paren
  | '(' => some opening
  | ')' => some closing
  | _ => none

def Paren.ofKind? : Kind → Option Paren
  | .openParen => some opening
  | .closeParen => some closing
  | _ => none

namespace Text

def parens (cs : List Char) : List Paren := cs.filterMap Paren.ofChar?

/-- Every parenthesis in the text has its counterpart. -/
def Balanced (cs : List Char) : Prop := Paren.depth? 0 (parens cs) = some 0

instance (cs : List Char) : Decidable (Balanced cs) :=
  inferInstanceAs (Decidable (Paren.depth? 0 (parens cs) = some 0))

end Text

def Token.parens (ts : List Token) : List Paren := ts.filterMap fun t => Paren.ofKind? t.kind

/-! ### Depths -/

theorem Paren.depth?_append {n : Nat} {ps qs : List Paren} :
    depth? n (ps ++ qs) = (depth? n ps).bind fun k => depth? k qs := by
  fun_induction depth? n ps with
  | case1 => rfl
  | case2 n ps ih => exact ih
  | case3 => rfl
  | case4 n ps ih => exact ih

/-- What is open around does not matter to what is closed inside. -/
theorem Paren.depth?_add {n k : Nat} {ps : List Paren} (h : depth? n ps = some k) (m : Nat) :
    depth? (n + m) ps = some (k + m) := by
  fun_induction depth? n ps with
  | case1 n =>
    cases h
    rfl
  | case2 n ps ih =>
    rw [depth?, Nat.add_right_comm]
    exact ih h
  | case3 => cases h
  | case4 n ps ih =>
    rw [Nat.succ_add, depth?]
    exact ih h

/-! ### Texts and tokens -/

namespace Token

theorem parens_append (ts us : List Token) : parens (ts ++ us) = parens ts ++ parens us :=
  List.filterMap_append

theorem parens_cons (t : Token) (ts : List Token) :
    parens (t :: ts) = (Paren.ofKind? t.kind).toList ++ parens ts := by
  rw [parens, List.filterMap_cons]
  cases Paren.ofKind? t.kind <;> rfl

theorem parens_text_append (cs ds : List Char) :
    Text.parens (cs ++ ds) = Text.parens cs ++ Text.parens ds := List.filterMap_append

theorem ofKind?_ofWord (word : String) : Paren.ofKind? (Kind.ofWord word) = none := by
  unfold Kind.ofWord
  split <;> rfl

theorem ofChar?_cases (c : Char) : c = '(' ∨ c = ')' ∨ Paren.ofChar? c = none := by
  unfold Paren.ofChar?
  split <;> simp

theorem ofChar?_of_isWordPart {c : Char} (h : isWordPart c) : Paren.ofChar? c = none := by
  rcases ofChar?_cases c with rfl | rfl | hc
  · exact absurd h (by decide)
  · exact absurd h (by decide)
  · exact hc

theorem parens_eq_nil {cs : List Char} (h : ∀ c ∈ cs, isWordPart c) : Text.parens cs = [] :=
  List.filterMap_eq_nil_iff.2 fun c hc => ofChar?_of_isWordPart (h c hc)

theorem parens_gaps {cs : List Char} (h : ∀ c ∈ cs, isGap c) : Text.parens cs = [] := by
  refine List.filterMap_eq_nil_iff.2 fun c hc => ?_
  rcases ofChar?_cases c with rfl | rfl | hnone
  · exact absurd (h _ hc) (by decide)
  · exact absurd (h _ hc) (by decide)
  · exact hnone

theorem parens_readSign {c : Char} {alone followed : Kind}
    (h : Lexeme.sign? c = some (alone, followed)) (cs : List Char) :
    Text.parens (Lexeme.readSign c alone followed cs).text =
      (Paren.ofKind? (Lexeme.readSign c alone followed cs).kind).toList := by
  unfold Lexeme.sign? at h
  split at h <;> cases h <;> unfold Lexeme.readSign <;> split <;> rfl

theorem parens_mark (c : Char) : Text.parens [c] = (Paren.ofKind? (Lexeme.mark c)).toList := by
  rcases ofChar?_cases c with rfl | rfl | hc
  · rfl
  · rfl
  · have hmark : Paren.ofKind? (Lexeme.mark c) = none := by
      unfold Lexeme.mark
      split <;> first | rfl | cases hc
    rw [Text.parens, List.filterMap_cons_none hc, hmark]
    rfl

/-- A lexeme is a parenthesis or has none. -/
theorem parens_read (c : Char) (cs : List Char) :
    Text.parens (Lexeme.read c cs).text = (Paren.ofKind? (Lexeme.read c cs).kind).toList := by
  unfold Lexeme.read
  split
  · rename_i hword
    rw [ofKind?_ofWord]
    refine parens_eq_nil fun d hd => ?_
    rcases List.mem_cons.1 hd with rfl | hd
    · simp [isWordPart, hword]
    · exact List.all_eq_true.1 List.all_takeWhile d hd
  · split
    · rename_i hdigit
      refine parens_eq_nil fun d hd => ?_
      rcases List.mem_cons.1 hd with rfl | hd
      · simp [isWordPart, hdigit]
      · simp [isWordPart, show isDigit d from List.all_eq_true.1 List.all_takeWhile d hd]
    · split
      · exact parens_readSign ‹_› cs
      · exact parens_mark c

theorem parens_dropGaps (cs : List Char) : Text.parens (cs.dropWhile isGap) = Text.parens cs := by
  have hgaps := parens_gaps fun c hc => List.all_eq_true.1 (List.all_takeWhile (l := cs)) c hc
  have happend := parens_text_append (cs.takeWhile isGap) (cs.dropWhile isGap)
  rwa [List.takeWhile_append_dropWhile, hgaps, List.nil_append, eq_comm] at happend

theorem parens_next? (file : String) (offset : Nat) (cs : List Char) :
    Text.parens cs = match next? file offset cs with
      | none => []
      | some n => (Paren.ofKind? n.token.kind).toList ++ Text.parens n.rest := by
  rw [← parens_dropGaps, next?]
  cases cs.dropWhile isGap with
  | nil => rfl
  | cons c cs =>
    show _ = (Paren.ofKind? (Lexeme.read c cs).kind).toList ++ Text.parens (Lexeme.read c cs).rest
    rw [← parens_read, ← parens_text_append, Lexeme.text_append_rest]

/-- A text has the parentheses of its tokens. -/
theorem parens_scan (file : String) (offset : Nat) (cs : List Char) :
    Text.parens cs = parens (scan file offset cs) := by
  fun_induction scan file offset cs with
  | case1 offset cs hn =>
    rw [parens_next? file offset, hn]
    rfl
  | case2 offset cs n hn ih =>
    rw [parens_next? file offset, hn]
    show (Paren.ofKind? n.token.kind).toList ++ Text.parens n.rest = _
    rw [ih, parens_cons]

/-! ### Matched parentheses -/

/-- Every parenthesis among the tokens has its counterpart. -/
def Matched (ts : List Token) : Prop := Paren.depth? 0 (parens ts) = some 0

variable {t opening closing : Token} {ts us opens closes : List Token} {k : Nat}

theorem matched_scan (file : String) (offset : Nat) (cs : List Char) :
    Matched (scan file offset cs) ↔ Text.Balanced cs := by
  rw [Matched, Text.Balanced, parens_scan file offset]

namespace Matched

theorem nil : Matched [] := rfl

/-- As many are open behind them as in front of them. -/
theorem depth? (h : Matched ts) (n : Nat) : Paren.depth? n (parens ts) = some n := by
  have hadd := Paren.depth?_add h n
  rwa [Nat.zero_add] at hadd

theorem append (h : Matched ts) (h' : Matched us) : Matched (ts ++ us) := by
  rw [Matched, parens_append, Paren.depth?_append, h, Option.bind_some, h']

theorem cons (ht : Paren.ofKind? t.kind = none) (h : Matched ts) : Matched (t :: ts) := by
  rw [Matched, parens_cons, ht]
  exact h

theorem single (ht : Paren.ofKind? t.kind = none) : Matched [t] := cons ht nil

theorem group (ho : opening.kind = .openParen) (h : Matched ts) (hc : closing.kind = .closeParen) :
    Matched (opening :: (ts ++ [closing])) := by
  rw [Matched, parens_cons, ho, parens_append, parens_cons, hc]
  show Paren.depth? 1 (parens ts ++ [.closing]) = some 0
  rw [Paren.depth?_append, h.depth? 1]
  rfl

end Matched

theorem depth?_opens (h : ∀ t ∈ opens, t.kind = .openParen) (n : Nat) :
    Paren.depth? n (parens opens) = some (n + opens.length) := by
  induction opens generalizing n with
  | nil => rfl
  | cons t opens ih =>
    rw [parens_cons, h t List.mem_cons_self]
    show Paren.depth? (n + 1) (parens opens) = _
    rw [ih (fun u hu => h u (List.mem_cons_of_mem t hu)), List.length_cons, Nat.add_right_comm,
      Nat.add_assoc]

theorem depth?_closes (h : ∀ t ∈ closes, t.kind = .closeParen)
    (hk : Paren.depth? k (parens closes) = some 0) : k = closes.length := by
  induction closes generalizing k with
  | nil => exact Option.some.inj hk
  | cons t closes ih =>
    rw [parens_cons, h t List.mem_cons_self] at hk
    cases k with
    | zero => cases hk
    | succ k =>
      rw [ih (fun u hu => h u (List.mem_cons_of_mem t hu)) hk, List.length_cons]

/-- Behind an opening parenthesis at the front of what matches, what is left closes more than it
opens. -/
theorem Matched.front_nil (h : Matched (opens ++ ts)) (hopens : ∀ t ∈ opens, t.kind = .openParen)
    (hts : Paren.depth? 0 (parens ts) = some k) : opens = [] ∧ k = 0 := by
  have hadd := Paren.depth?_add hts opens.length
  rw [Matched, parens_append, Paren.depth?_append, depth?_opens hopens, Option.bind_some, hadd] at h
  have hlength : k + opens.length = 0 := Option.some.inj h
  exact ⟨List.length_eq_zero_iff.1 (by omega), by omega⟩

/-- In front of a closing parenthesis at the end of what matches, what is left opens more than it
closes. -/
theorem Matched.back_nil (h : Matched (ts ++ closes)) (hcloses : ∀ t ∈ closes, t.kind = .closeParen)
    (hts : Matched ts) : closes = [] := by
  rw [Matched, parens_append, Paren.depth?_append, hts, Option.bind_some] at h
  exact List.length_eq_zero_iff.1 (depth?_closes hcloses h).symm

end Token

/-! ### What the grammar derives -/

open Grammar Token

theorem Grammar.Ending.matched {ts : List Token} {bare : Bool} (h : Ending ts bare) :
    Matched ts := by
  cases h with
  | bare => exact .nil
  | semicolon h => exact .single (by rw [h]; rfl)

theorem ofKind?_operator {τ : Tier} {kind : Kind} (h : kind ∈ τ.operators) :
    Paren.ofKind? kind = none := by
  cases τ <;> simp only [Tier.operators, List.mem_cons, List.not_mem_nil, or_false] at h <;>
    grind [Paren.ofKind?]

theorem ofKind?_compound {kind : Kind} (h : kind.isCompound) : Paren.ofKind? kind = none := by
  cases kind <;> first | rfl | cases h

theorem ofKind?_sign {kind : Kind} (h : kind ∈ signs) : Paren.ofKind? kind = none := by
  simp only [signs, List.mem_cons, List.not_mem_nil, or_false] at h
  rcases h with rfl | rfl <;> rfl

/-- In a phrase all parentheses match. -/
theorem Grammar.Derives.matched {n : Nat} {φ : Phrase} {ts : List Token} (h : Derives n φ ts) :
    Matched ts := by
  have hplain : ∀ {t : Token} {kind : Kind}, t.kind = kind → Paren.ofKind? kind = none →
      Paren.ofKind? t.kind = none := fun h hk => h ▸ hk
  induction h with
  | done => exact .nil
  | next _ _ _ ih ihs => exact ih.append ihs
  | binding hk hn hs _ hend ih =>
    exact .cons (hplain hk rfl) (.cons (hplain hn rfl) (.cons (hplain hs rfl)
      (ih.append hend.matched)))
  | returning hk _ hend ih => exact .cons (hplain hk rfl) (ih.append hend.matched)
  | expression _ hend ih => exact ih.append hend.matched
  | blockStatement _ ih => exact ih
  | block ho _ hc ih => exact .cons (hplain ho rfl) (ih.append (.single (hplain hc rfl)))
  | assign _ ho _ ihx ihe => exact ihx.append (.cons (ofKind?_compound ho) ihe)
  | equality _ ih => exact ih
  | binary _ ho _ ihl ihr => exact ihl.append (.cons (ofKind?_operator ho) ihr)
  | tighter _ ih => exact ih
  | unary ho _ ih => exact .cons (ofKind?_sign ho) ih
  | applied _ ih => exact ih
  | call _ ho _ hc ih ihs => exact ih.append (.group ho ihs hc)
  | primary _ ih => exact ih
  | integer hk | name hk | true hk | false hk | targetName hk | lastName hk =>
    exact .single (hplain hk rfl)
  | group ho _ hc ih | targetGroup ho _ hc ih => exact .group ho ih hc
  | conditional hk ho _ hc _ ih ihb =>
    exact .cons (hplain hk rfl) (by simpa using (Matched.group ho ih hc).append ihb)
  | conditionalElse hk ho _ hc _ he _ ih ihb ihb' =>
    have hblocks := ihb.append (Matched.cons (hplain he rfl) ihb')
    exact .cons (hplain hk rfl) (by simpa using (Matched.group ho ih hc).append hblocks)
  | function hk ho _ hc _ ihp ihb =>
    exact .cons (hplain hk rfl) (by simpa using (Matched.group ho ihp hc).append ihb)
  | noArguments | noParameters => exact .nil
  | someArguments _ ih | lastExpression _ ih | someParameters _ ih => exact ih
  | nextExpression _ hc _ ih ihs => exact ih.append (.cons (hplain hc rfl) ihs)
  | nextName hk hc _ ih => exact .cons (hplain hk rfl) (.cons (hplain hc rfl) ih)

end LetLang
