import LetLang.Proofs.Cut
import LetLang.Proofs.Strict

/-! A mistake is decided by its token.

The strict parser, like the other one, can do without the tokens that it leaves
(`strictLevel_cuts`), and it never comes to those behind the token of its mistake. So
it makes the same mistake whatever is put in their place (`untilMistake_behind`), and
that mistake is the first to be reported (`parseTokens_behind`). -/
namespace LetLang
namespace Parser

variable {α : Type} {edge : Bool} {limit : Nat} {inner : Level}

theorem openly_cuts {p : Parser α} (hp : p.Cuts edge) : (openly p).Cuts edge := by
  intro s more finish hspares
  have hcut := hp s.opened more finish
  have hopened : (s.extend more finish).opened = s.opened.extend more finish := rfl
  simp only [openly, hopened] at hspares ⊢
  cases hr : p.run (s.opened.extend more finish) with
  | ok a t =>
    rw [hr] at hspares
    rw [← hr, hcut (hr ▸ hspares)]
    cases p.run s.opened <;> rfl
  | error d t =>
    rw [hr] at hspares
    rw [← hr, hcut (hr ▸ hspares)]
    cases p.run s.opened <;> rfl

section
variable (hi : inner.Cuts)
include hi

theorem guarded_cuts (bound : Power) : (guarded (expression inner bound)).Cuts true := by
  intro s more finish
  refine cut_of_consumes (consumes_guarded (expression_consumes inner bound)) fun hs => ?_
  refine cut_bind (cut_current hs) fun t _ _ => ?_
  split
  · exact cut_failHere _
  · exact expression_cuts hi bound _ _ _

theorem statementsUpTo_cuts (ends : Option Token → Bool) : (statementsUpTo inner ends).Cuts false := by
  have hstep : (statementUpTo inner ends).Cuts false := by
    intro s more finish
    refine cut_inside fun hs => ?_
    refine cut_bind (cut_next? hs) fun found t _ => ?_
    split
    · exact cut_pure none
    · exact cut_bind ((statement_cuts hi).inside _ _ _) fun _ _ _ => cut_pure _
  exact fun s _ _ => cut_many hstep s

theorem strictBlock_cuts : (strictBlock inner).Cuts true := by
  intro s more finish
  refine cut_bind (cut_expect (by simp)) fun x t _ => ?_
  refine cut_bind_inside (statementsUpTo_cuts hi _ _ _ _) (fun xs u _ => ?_) fun xs => ?_
  · refine cut_bind (cut_expect (by simp)) fun _ _ _ => ?_
    exact cut_bind cut_lastEnd fun _ _ _ => cut_pure _
  · exact consumes_bind_left (consumes_expect (by simp)) _

theorem strictProgram_cuts : (strictProgram inner).Cuts false :=
  fun _ _ _ => cut_bind (statementsUpTo_cuts hi _ _ _ _) fun _ _ _ => cut_pure _

end

theorem strictLevel_cuts (limit n : Nat) : (strictLevel limit n).Cuts := by
  induction n with
  | zero => exact level_cuts limit 0
  | succ n ih =>
    exact ⟨fun bound => openly_cuts (guarded_cuts ih bound), openly_cuts (strictBlock_cuts ih)⟩

theorem ofTokens_extend {tokens : List Token} (h : tokens ≠ []) (more : List Token)
    (finish finish' : Position) :
    (State.ofTokens tokens finish).extend more finish' = .ofTokens (tokens ++ more) finish' := by
  obtain ⟨t, ts, rfl⟩ := List.exists_cons_of_ne_nil h
  rfl

/-- The tokens behind that of the mistake make no difference to it, nor does where the input ends. -/
theorem untilMistake_behind {before after : List Token} {t : Token} {finish : Position}
    {e : Diagnostic} {u : State}
    (h : untilMistake limit (.ofTokens (before ++ t :: after) finish) = .error e u)
    (hu : u.ahead = t :: after) (more : List Token) (finish' : Position) :
    ∃ v, untilMistake limit (.ofTokens (before ++ t :: more) finish') = .error e v := by
  have hne : before ++ [t] ≠ [] := by simp
  let s := State.ofTokens (before ++ [t]) finish
  have hstate : ∀ more finish',
      State.ofTokens (before ++ t :: more) finish' = s.extend more finish' := by
    intro more finish'
    rw [ofTokens_extend hne, List.append_assoc, List.singleton_append]
  have hcuts := strictProgram_cuts (strictLevel_cuts limit limit) s after finish
  rw [untilMistake, hstate] at h
  rw [Cut, h] at hcuts
  have hspares : after.length < u.ahead.length := by rw [hu, List.length_cons]; omega
  have hrun := hcuts hspares
  -- without the tokens behind it, the mistake is made in front of this one
  cases hr : (strictProgram (strictLevel limit limit)).run s with
  | ok p v =>
    rw [hr] at hrun
    cases hrun
  | error d v =>
    rw [hr] at hrun
    obtain ⟨rfl, rfl⟩ := Result.error.inj hrun
    have hahead : v.ahead = [t] :=
      List.append_cancel_right (show v.ahead ++ after = [t] ++ after from hu)
    have hunseen := (strictProgram (strictLevel limit limit)).unseen s more finish'
    rw [hr] at hunseen
    refine ⟨v.extend more finish', ?_⟩
    rw [untilMistake, hstate, hunseen (by simp [Result.state, hahead])]
    rfl

theorem parseTokens_behind {before after : List Token} {t : Token} {finish : Position}
    {e : Diagnostic} {u : State}
    (h : untilMistake limit (.ofTokens (before ++ t :: after) finish) = .error e u)
    (hu : u.ahead = t :: after) (more : List Token) (finish' : Position) :
    (parseTokens limit (before ++ t :: more) finish').diagnostics.head? = some e := by
  obtain ⟨v, hv⟩ := untilMistake_behind h hu more finish'
  have hreports := untilMistake_reports limit (before ++ t :: more) finish'
  rw [hv] at hreports
  exact hreports.1

end Parser
end LetLang
