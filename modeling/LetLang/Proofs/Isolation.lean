import LetLang.Parse
import LetLang.Proofs.Parallel.Constructs
import LetLang.Proofs.Placement

/-! The isolation theorem.

What stands between a pair of braces never changes how the code around it is
parsed. Two token streams that differ in a balanced body, and in where the tokens
after it stand, come to the same trees and the same diagnostics outside the
braces (`body_is_isolated`): whatever is wrong inside, and whether the braces
become a block, are skipped in recovery, or are refused for their nesting. Both
streams are compared with the one whose body is empty (`outside_eq_empty`). -/
namespace LetLang
open LetLang.Parser
open Token (Ordered)

/-- What is outside a pair of braces, of which the second stands `n` bytes further on than `closing`:
the block they make loses its statements, and from the closing brace on everything moves back. -/
def Redraw.outside (opening closing : Token) (n : Nat) : Redraw where
  empties t := t = opening
  move p := if closing.start.offset + n ≤ p.offset then ⟨p.offset - n, p.file⟩ else p

/-- The place is behind the opening brace and not behind the closing one. -/
def isInside (opening closing : Token) (n : Nat) (p : Position) : Bool :=
  opening.start.offset < p.offset && p.offset ≤ closing.start.offset + n

/-- What was parsed outside the braces, and what was wrong there. -/
def Parsed.outside (opening closing : Token) (n : Nat) (p : Parsed) : Program × List Diagnostic :=
  let v := Redraw.outside opening closing n
  (v.program p.program,
    (p.diagnostics.filter fun d => !isInside opening closing n d.position).map v.diagnostic)

section
variable {before after body : List Token} {opening closing : Token} {finish : Position} {n : Nat}

/-- Tokens with a body in braces, where what follows the body is `n` bytes further on than without
it. -/
structure Embraced (before after body : List Token) (opening closing : Token) (finish : Position)
    (n : Nat) : Prop where
  opens : opening.kind = .openCurly
  closes : closing.kind = .closeCurly
  balanced : Balanced body
  gap : opening.stop.offset ≤ closing.start.offset
  ordered : Ordered 0 ((Redraw.shift n).move finish)
    (before ++ opening :: (body ++ Token.shifted n (closing :: after)))

namespace Embraced
variable (h : Embraced before after body opening closing finish n)
include h

theorem before_opening :
    (∀ x ∈ before, x.start.offset < x.stop.offset ∧ x.stop.offset ≤ opening.start.offset) ∧
      opening.start.offset < opening.stop.offset := by
  obtain ⟨hbefore, -, hlt, -⟩ := h.ordered.split
  exact ⟨fun x hx => (hbefore x hx).2, hlt⟩

theorem body_start : ∀ x ∈ (body ++ [(Redraw.shift n).token closing]).head?,
    opening.stop.offset ≤ x.start.offset := by
  obtain ⟨-, -, -, hrest⟩ := h.ordered.split
  intro x hx
  refine (hrest.of_mem ?_).1
  cases body with
  | nil =>
    cases hx
    simp [Token.shifted]
  | cons y ys =>
    cases hx
    simp

theorem after_closing : closing.start.offset < closing.stop.offset ∧
    (∀ x ∈ after, closing.stop.offset ≤ x.start.offset ∧ x.start.offset < x.stop.offset) ∧
      closing.stop.offset ≤ finish.offset := by
  obtain ⟨-, -, -, hrest⟩ := h.ordered.split
  obtain ⟨-, -, hlt, hafter⟩ := hrest.split
  have hfinish := hafter.le_finish
  simp only [Redraw.shift, Redraw.start_token, Redraw.stop_token] at hlt hafter hfinish
  refine ⟨by omega, fun x hx => ?_, by omega⟩
  have hx' := hafter.of_mem (List.mem_map.2 ⟨x, hx, rfl⟩)
  simp only [Redraw.start_token, Redraw.stop_token] at hx'
  omega

/-! ### How the streams go together -/

theorem move_before {p : Position} (hp : p.offset ≤ opening.stop.offset) :
    (Redraw.outside opening closing n).move p = p := by
  have hgap := h.gap
  show (if closing.start.offset + n ≤ p.offset then (⟨p.offset - n, p.file⟩ : Position) else p) = p
  split
  · obtain rfl : n = 0 := by omega
    rfl
  · rfl

omit h in
theorem move_after {p : Position} (hp : closing.start.offset ≤ p.offset) :
    (Redraw.outside opening closing n).move ((Redraw.shift n).move p) = p := by
  show (if closing.start.offset + n ≤ p.offset + n then
    (⟨p.offset + n - n, p.file⟩ : Position) else _) = p
  rw [if_pos (by omega), Nat.add_sub_cancel]

theorem token_before {x : Token} (hx : x ∈ before) :
    (Redraw.outside opening closing n).token x = x ∧ x.start.offset < opening.start.offset := by
  obtain ⟨hbefore, hopening⟩ := h.before_opening
  obtain ⟨hlt, hle⟩ := hbefore x hx
  have hstart : (Redraw.outside opening closing n).move x.start = x.start :=
    h.move_before (by omega)
  have hstop : (Redraw.outside opening closing n).move x.stop = x.stop := h.move_before (by omega)
  exact ⟨Redraw.token_eq _ rfl rfl hstart hstop, by omega⟩

theorem token_opening : (Redraw.outside opening closing n).token opening = opening := by
  obtain ⟨-, hopening⟩ := h.before_opening
  have hstart : (Redraw.outside opening closing n).move opening.start = opening.start :=
    h.move_before (by omega)
  have hstop : (Redraw.outside opening closing n).move opening.stop = opening.stop :=
    h.move_before (Nat.le_refl _)
  exact Redraw.token_eq _ rfl rfl hstart hstop

omit h in
theorem token_after {x : Token} (hx : closing.start.offset ≤ x.start.offset)
    (hx' : closing.start.offset ≤ x.stop.offset) :
    (Redraw.outside opening closing n).token ((Redraw.shift n).token x) = x :=
  Redraw.token_eq _ rfl rfl (move_after hx) (move_after hx')

/-- The tokens with the body go with the tokens without it: as they are up to the opening brace,
and moved back after the closing one. -/
def matching : Matching where
  redraw := .outside opening closing n
  hides := isInside opening closing n
  finish := (Redraw.shift n).move finish
  earlier := []
  earlier' := []
  streams ts us :=
    (∃ front, front <:+ before ∧
      ts = front ++ opening :: (body ++ Token.shifted n (closing :: after)) ∧
      us = front ++ opening :: closing :: after) ∨
    us <:+ after ∧ ts = Token.shifted n us
  empties_open := by
    intro x hx
    obtain rfl : x = opening := by simpa [Redraw.outside] using hx
    exact h.opens
  hides_finish := by
    obtain ⟨hlt, -, hfinish⟩ := h.after_closing
    have hoffset : ((Redraw.shift n).move finish).offset = finish.offset + n := rfl
    simp only [isInside, hoffset, Bool.and_eq_false_iff, decide_eq_false_iff_not]
    omega
  nil := by
    intro us h
    rcases h with ⟨front, -, hnil, -⟩ | ⟨-, hnil⟩
    · cases front <;> cases hnil
    · exact List.map_eq_nil_iff.1 hnil.symm
  cons := by
    intro x ts us hstreams hx
    rcases hstreams with ⟨front, hfront, hts, rfl⟩ | ⟨hus, hts⟩
    · cases front with
      | nil =>
        cases hts
        simp [Redraw.outside] at hx
      | cons y ys =>
        cases hts
        obtain ⟨htoken, hlt⟩ := h.token_before (hfront.subset List.mem_cons_self)
        refine ⟨?_, _, by rw [htoken]; rfl, .inl ⟨ys, (List.suffix_cons _ _).trans hfront, rfl, rfl⟩⟩
        simp only [isInside, Bool.and_eq_false_iff, decide_eq_false_iff_not]
        omega
    · cases us with
      | nil => cases hts
      | cons y ys =>
        cases hts
        obtain ⟨hlt, hafter, -⟩ := h.after_closing
        obtain ⟨hle, hlt'⟩ := hafter y (hus.subset List.mem_cons_self)
        refine ⟨?_, ys, ?_, .inr ⟨(List.suffix_cons _ _).trans hus, rfl⟩⟩
        · have hoffset : ((Redraw.shift n).token y).start.offset = y.start.offset + n := rfl
          simp only [isInside, hoffset, Bool.and_eq_false_iff, decide_eq_false_iff_not]
          omega
        · rw [token_after (by omega) (by omega)]
  emptied := by
    intro x ts us hstreams hx
    rcases hstreams with ⟨front, hfront, hts, rfl⟩ | ⟨hus, hts⟩
    · obtain rfl : x = opening := by simpa [Redraw.outside] using hx
      cases front with
      | cons y ys =>
        -- nothing in front of the opening brace is that brace
        cases hts
        have := (h.token_before (hfront.subset List.mem_cons_self)).2
        omega
      | nil =>
        cases hts
        obtain ⟨hlt, -, -⟩ := h.after_closing
        obtain ⟨-, hopening⟩ := h.before_opening
        refine ⟨by simp [isInside], body, (Redraw.shift n).token closing, Token.shifted n after, after,
          rfl, h.balanced, h.closes, ?_, .inr ⟨List.suffix_refl _, rfl⟩, ?_⟩
        · rw [h.token_opening, token_after (Nat.le_refl _) (Nat.le_of_lt hlt)]
          rfl
        · intro y hy p hlow hhigh
          have := h.body_start y hy
          have hclosing : ((Redraw.shift n).token closing).start.offset = closing.start.offset + n :=
            rfl
          simp only [isInside, Bool.and_eq_true, decide_eq_true_eq]
          omega
    · obtain rfl : x = opening := by simpa [Redraw.outside] using hx
      cases us with
      | nil => cases hts
      | cons y ys =>
        -- nothing after the closing brace is the opening one
        cases hts
        obtain ⟨hlt, hafter, -⟩ := h.after_closing
        obtain ⟨hle, -⟩ := hafter y (hus.subset List.mem_cons_self)
        have hgap := h.gap
        have hstart : ((Redraw.shift n).token y).start.offset = y.start.offset + n := rfl
        obtain ⟨-, hopening⟩ := h.before_opening
        omega

theorem aligned :
    h.matching.Aligned
      (.ofTokens (before ++ opening :: (body ++ Token.shifted n (closing :: after)))
        ((Redraw.shift n).move finish))
      (.ofTokens (before ++ opening :: closing :: after) finish) := by
  obtain ⟨hlt, -, hfinish⟩ := h.after_closing
  have hend : h.matching.redraw.move ((Redraw.shift n).move finish) = finish :=
    move_after (by omega)
  exact ⟨h.ordered.sorted, .inl ⟨before, List.suffix_refl _, rfl, rfl⟩, rfl, hend.symm, [], rfl, rfl⟩

/-- Outside the braces everything is as if there were nothing between them. -/
theorem outside_eq_empty (limit : Nat) :
    (parseTokens limit (before ++ opening :: (body ++ Token.shifted n (closing :: after)))
      ((Redraw.shift n).move finish)).outside opening closing n =
    ((parseTokens limit (before ++ opening :: closing :: after) finish).program,
      (parseTokens limit (before ++ opening :: closing :: after) finish).diagnostics) := by
  have hagree := Matching.program_agrees limit limit h.aligned
  obtain ⟨program, s, hs, hparse⟩ := parseTokens_eq limit
    (before ++ opening :: (body ++ Token.shifted n (closing :: after))) ((Redraw.shift n).move finish)
  obtain ⟨program', t, ht, hparse'⟩ :=
    parseTokens_eq limit (before ++ opening :: closing :: after) finish
  rw [hs, ht] at hagree
  obtain ⟨hprogram, haligned⟩ := hagree
  rw [hparse, hparse', Parsed.outside]
  obtain ⟨ds, hds, hds'⟩ := haligned.reported
  obtain rfl : s.reported.toList = ds := hds
  exact Prod.ext hprogram.symm hds'.symm

end Embraced

/-- Whatever stands between a pair of braces, the tokens around it are parsed in the same way. -/
theorem body_is_isolated (limit : Nat) {before after body body' : List Token}
    {opening closing : Token} {finish : Position} {j k : Nat}
    (h : Embraced before after body opening closing finish j)
    (h' : Embraced before after body' opening closing finish k) :
    (parseTokens limit (before ++ opening :: (body ++ Token.shifted j (closing :: after)))
      ((Redraw.shift j).move finish)).outside opening closing j =
    (parseTokens limit (before ++ opening :: (body' ++ Token.shifted k (closing :: after)))
      ((Redraw.shift k).move finish)).outside opening closing k :=
  (h.outside_eq_empty limit).trans (h'.outside_eq_empty limit).symm

/-- The braces after `fn()` and before `;y`, once around `x` and once around `@;1`. -/
theorem body_of_function_is_isolated :
    Embraced (Token.scan "shell" 0 ['f', 'n', '(', ')']) (Token.scan "shell" 6 [';', 'y'])
      (Token.scan "shell" 5 ['x']) ⟨.openCurly, "\x7b", .ofOffsets "shell" 4 5⟩
      ⟨.closeCurly, "\x7d", .ofOffsets "shell" 5 6⟩ ⟨8, "shell"⟩ 1 ∧
    Embraced (Token.scan "shell" 0 ['f', 'n', '(', ')']) (Token.scan "shell" 6 [';', 'y'])
      (Token.scan "shell" 5 ['@', ';', '1']) ⟨.openCurly, "\x7b", .ofOffsets "shell" 4 5⟩
      ⟨.closeCurly, "\x7d", .ofOffsets "shell" 5 6⟩ ⟨8, "shell"⟩ 3 ∧
    (parseTokens maxNesting (Token.scan "shell" 0 ['f', 'n', '(', ')'] ++
      ⟨.openCurly, "\x7b", .ofOffsets "shell" 4 5⟩ :: (Token.scan "shell" 5 ['x'] ++
        Token.shifted 1 (⟨.closeCurly, "\x7d", .ofOffsets "shell" 5 6⟩ ::
          Token.scan "shell" 6 [';', 'y']))) ((Redraw.shift 1).move ⟨8, "shell"⟩)).outside
      ⟨.openCurly, "\x7b", .ofOffsets "shell" 4 5⟩ ⟨.closeCurly, "\x7d", .ofOffsets "shell" 5 6⟩ 1 =
    (parseTokens maxNesting (Token.scan "shell" 0 ['f', 'n', '(', ')'] ++
      ⟨.openCurly, "\x7b", .ofOffsets "shell" 4 5⟩ :: (Token.scan "shell" 5 ['@', ';', '1'] ++
        Token.shifted 3 (⟨.closeCurly, "\x7d", .ofOffsets "shell" 5 6⟩ ::
          Token.scan "shell" 6 [';', 'y']))) ((Redraw.shift 3).move ⟨8, "shell"⟩)).outside
      ⟨.openCurly, "\x7b", .ofOffsets "shell" 4 5⟩ ⟨.closeCurly, "\x7d", .ofOffsets "shell" 5 6⟩ 3 := by
  have h : Embraced (Token.scan "shell" 0 ['f', 'n', '(', ')']) (Token.scan "shell" 6 [';', 'y'])
      (Token.scan "shell" 5 ['x']) ⟨.openCurly, "\x7b", .ofOffsets "shell" 4 5⟩
      ⟨.closeCurly, "\x7d", .ofOffsets "shell" 5 6⟩ ⟨8, "shell"⟩ 1 :=
    ⟨rfl, rfl, by decide +kernel, by decide, by decide +kernel⟩
  have h' : Embraced (Token.scan "shell" 0 ['f', 'n', '(', ')']) (Token.scan "shell" 6 [';', 'y'])
      (Token.scan "shell" 5 ['@', ';', '1']) ⟨.openCurly, "\x7b", .ofOffsets "shell" 4 5⟩
      ⟨.closeCurly, "\x7d", .ofOffsets "shell" 5 6⟩ ⟨8, "shell"⟩ 3 :=
    ⟨rfl, rfl, by decide +kernel, by decide, by decide +kernel⟩
  exact ⟨h, h', body_is_isolated maxNesting h h'⟩

end

end LetLang
