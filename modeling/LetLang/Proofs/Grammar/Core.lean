import LetLang.Proofs.Grammar.Chain
import LetLang.Proofs.Grammar.Complete
import LetLang.Proofs.Parens

/-! What an expression spans.

Parentheses leave no node, and what a node of several parts spans goes from where the
first of them starts to where the last one stops. So of the tokens that an expression is
derived from it spans all but some opening parentheses at the front and some closing
ones at the end, which is its core. If the parentheses in the core match, the core is a
phrase by itself, and one for the same tree (`Derives.hasCore`). -/
namespace LetLang.Grammar
open Token (Kind Matched parens)

/-- The tree spans `core`, which is an expression by itself if its parentheses match. -/
structure IsCore (n : Nat) (e : Expr) (core : List Token) : Prop where
  starts : ∃ t, core.head? = some t ∧ t.start = e.start
  stops : ∃ t, core.getLast? = some t ∧ t.stop = e.stop
  alone : Matched core → Derives n (.whole e) core

/-- Nothing but parentheses stands around the core of the expression. -/
def HasCore (n : Nat) (e : Expr) (ts : List Token) : Prop :=
  ∃ opens core closes, ts = opens ++ (core ++ closes) ∧ (∀ t ∈ opens, t.kind = .openParen) ∧
    (∀ t ∈ closes, t.kind = .closeParen) ∧ IsCore n e core

/-- Behind some opening parentheses, something starts at the place. -/
def StartsAt (p : Position) (ts : List Token) : Prop :=
  ∃ opens us, ts = opens ++ us ∧ (∀ t ∈ opens, t.kind = .openParen) ∧
    ∃ t, us.head? = some t ∧ t.start = p

/-- In front of some closing parentheses, something stops at the place. -/
def StopsAt (p : Position) (ts : List Token) : Prop :=
  ∃ us closes, ts = us ++ closes ∧ (∀ t ∈ closes, t.kind = .closeParen) ∧
    ∃ t, us.getLast? = some t ∧ t.stop = p

variable {n m : Nat} {e : Expr} {x : Name} {t : Token} {ts us : List Token} {p : Position}

theorem startsAt_cons (t : Token) (ts : List Token) : StartsAt t.start (t :: ts) :=
  ⟨[], t :: ts, rfl, by simp, t, rfl, rfl⟩

theorem stopsAt_concat (ts : List Token) (t : Token) : StopsAt t.stop (ts ++ [t]) :=
  ⟨ts ++ [t], [], (List.append_nil _).symm, by simp, t, List.getLast?_concat, rfl⟩

theorem StopsAt.cons (h : StopsAt p ts) (t : Token) : StopsAt p (t :: ts) := by
  obtain ⟨us, closes, rfl, hcloses, last, hlast, hstop⟩ := h
  refine ⟨t :: us, closes, rfl, hcloses, last, ?_, hstop⟩
  rw [List.getLast?_cons, hlast]
  rfl

namespace HasCore

theorem startsAt (h : HasCore n e ts) : StartsAt e.start ts := by
  obtain ⟨opens, core, closes, rfl, hopens, -, ⟨t, ht, hstart⟩, -, -⟩ := h
  refine ⟨opens, core ++ closes, rfl, hopens, t, ?_, hstart⟩
  rw [List.head?_append, ht]
  rfl

theorem stopsAt (h : HasCore n e ts) : StopsAt e.stop ts := by
  obtain ⟨opens, core, closes, rfl, -, hcloses, -, ⟨t, ht, hstop⟩, -⟩ := h
  refine ⟨opens ++ core, closes, (List.append_assoc ..).symm, hcloses, t, ?_, hstop⟩
  rw [List.getLast?_append, ht]
  rfl

/-- All of it. -/
theorem whole (hstart : ∃ t, ts.head? = some t ∧ t.start = e.start)
    (hstop : ∃ t, ts.getLast? = some t ∧ t.stop = e.stop) (h : Derives n (.whole e) ts) :
    HasCore n e ts :=
  ⟨[], ts, [], by simp, by simp, by simp, hstart, hstop, fun _ => h⟩

/-- Where two parts make an expression and each of them matches, the core matches only if it is all
of it. -/
theorem of_parts (hts : Matched ts) (hus : Matched us) (hstart : StartsAt e.start ts)
    (hstop : StopsAt e.stop us) (h : Derives n (.whole e) (ts ++ us)) : HasCore n e (ts ++ us) := by
  obtain ⟨opens, ts', rfl, hopens, first, hfirst, hstart⟩ := hstart
  obtain ⟨us', closes, rfl, hcloses, last, hlast, hstop⟩ := hstop
  refine ⟨opens, ts' ++ us', closes, by simp, hopens, hcloses,
    ⟨first, ?_, hstart⟩, ⟨last, ?_, hstop⟩, fun hcore => ?_⟩
  · rw [List.head?_append, hfirst]
    rfl
  · rw [List.getLast?_append, hlast]
    rfl
  · rw [Matched, Token.parens_append, Paren.depth?_append] at hcore
    obtain ⟨k, hk, hrest⟩ := Option.bind_eq_some_iff.1 hcore
    obtain ⟨rfl, rfl⟩ := hts.front_nil hopens hk
    obtain rfl := hus.back_nil hcloses hrest
    simpa using h

end HasCore

namespace Derives

/-- Every expression is one of any kind. -/
theorem whole_of_tree {φ : Phrase} (h : Derives n φ ts) (he : φ.tree? = some e) :
    Derives n (.whole e) ts := by
  cases φ <;> cases he
  case whole => exact h
  case tier τ => exact ofPower_mono (q := .lowest) (Nat.zero_le _) (ofPower_power τ e ▸ h)
  case unary => exact ofPower_mono (p := .unary) (q := .lowest) (by decide) h
  case applied => exact ofPower_mono (p := .call) (q := .lowest) (by decide) h
  case primary => exact ofPower_mono (p := .call) (q := .lowest) (by decide) h.primary

/-- A target is an expression, too. -/
theorem primary_of_target {φ : Phrase} (h : Derives n φ ts) (hx : φ = .target x) :
    Derives n (.primary (.name x)) ts := by
  induction h with
  | targetName hk =>
    cases hx
    exact .name hk
  | targetGroup ho _ hc ih => exact .group ho (whole_of_tree (ih hx) rfl) hc
  | _ => cases hx

theorem target_startsAt {φ : Phrase} (h : Derives n φ ts) (hx : φ = .target x) :
    StartsAt x.token.start ts := by
  induction h with
  | targetName =>
    cases hx
    exact startsAt_cons ..
  | @targetGroup _ _ opening closing _ ho _ _ ih =>
    obtain ⟨opens, us, rfl, hopens, first, hfirst, hstart⟩ := ih hx
    refine ⟨opening :: opens, us ++ [closing], by simp, List.forall_mem_cons.2 ⟨ho, hopens⟩, first,
      ?_, hstart⟩
    rw [List.head?_append, hfirst]
    rfl
  | _ => cases hx

/-- What ends with a block stops where the block does. -/
theorem block_stops {b : Block} (h : Derives n (.block b) us) (hus : us <:+ ts) :
    ∃ t, ts.getLast? = some t ∧ t.stop = b.span.stop := by
  obtain ⟨last, hlast, hstop⟩ := Parser.block_stop h
  obtain ⟨front, rfl⟩ := hus
  refine ⟨last, ?_, hstop⟩
  rw [List.getLast?_append, hlast]
  rfl

/-- An expression has a core among its tokens. -/
theorem hasCore {φ : Phrase} (h : Derives n φ ts) (he : φ.tree? = some e) : HasCore n e ts := by
  induction h generalizing e with
  | assign hx ho hvalue _ ih =>
    cases he
    exact .of_parts hx.matched (.cons (ofKind?_compound ho) hvalue.matched)
      (target_startsAt hx rfl) ((ih rfl).stopsAt.cons _) (.assign hx ho hvalue)
  | binary hl ho hr ihl ihr =>
    cases he
    exact .of_parts hl.matched (.cons (ofKind?_operator ho) hr.matched)
      (ihl rfl).startsAt ((ihr (tree?_operand _ _)).stopsAt.cons _)
      (whole_of_tree (.binary hl ho hr) rfl)
  | unary ho hoperand ih =>
    cases he
    exact .of_parts (.single (ofKind?_sign ho)) hoperand.matched (startsAt_cons ..) (ih rfl).stopsAt
      (whole_of_tree (.unary ho hoperand) rfl)
  | call hf ho hes hc ihf =>
    cases he
    exact .of_parts hf.matched (.group ho hes.matched hc) (ihf rfl).startsAt
      ((stopsAt_concat _ _).cons _) (whole_of_tree (.call hf ho hes hc) rfl)
  | integer hk hv =>
    cases he
    exact .whole ⟨_, rfl, rfl⟩ ⟨_, rfl, rfl⟩ (whole_of_tree (.integer hk hv) rfl)
  | name hk =>
    cases he
    exact .whole ⟨_, rfl, rfl⟩ ⟨_, rfl, rfl⟩ (whole_of_tree (.name hk) rfl)
  | true hk =>
    cases he
    exact .whole ⟨_, rfl, rfl⟩ ⟨_, rfl, rfl⟩ (whole_of_tree (.true hk) rfl)
  | false hk =>
    cases he
    exact .whole ⟨_, rfl, rfl⟩ ⟨_, rfl, rfl⟩ (whole_of_tree (.false hk) rfl)
  | @conditional _ keyword opening closing _ _ ts us hk ho hcond hc hb =>
    cases he
    exact .whole ⟨_, rfl, rfl⟩ (block_stops hb ⟨keyword :: opening :: (ts ++ [closing]), by simp⟩)
      (whole_of_tree (.conditional hk ho hcond hc hb) rfl)
  | @conditionalElse _ keyword opening closing _ _ otherwise _ ts us vs
      hk ho hcond hc hb helse hb' =>
    cases he
    exact .whole ⟨_, rfl, rfl⟩
      (block_stops hb' ⟨keyword :: opening :: (ts ++ closing :: (us ++ [otherwise])), by simp⟩)
      (whole_of_tree (.conditionalElse hk ho hcond hc hb helse hb') rfl)
  | @function _ keyword opening closing _ _ ts us hk ho hparameters hc hb =>
    cases he
    exact .whole ⟨_, rfl, rfl⟩ (block_stops hb ⟨keyword :: opening :: (ts ++ [closing]), by simp⟩)
      (whole_of_tree (.function hk ho hparameters hc hb) rfl)
  | @group _ _ opening closing _ ho _ hc ih =>
    obtain ⟨opens, core, closes, rfl, hopens, hcloses, hcore⟩ := ih he
    refine ⟨opening :: opens, core, closes ++ [closing], by simp,
      List.forall_mem_cons.2 ⟨ho, hopens⟩, ?_, hcore.starts, hcore.stops, fun hmatched => (hcore.alone hmatched).more⟩
    exact List.forall_mem_append.2 ⟨hcloses, by simpa using hc⟩
  | equality _ ih | applied _ ih | primary _ ih => exact ih he
  | tighter _ ih => exact ih ((tree?_operand _ _).trans he)
  | _ => cases he

end Derives
end LetLang.Grammar
