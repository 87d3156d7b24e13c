import LetLang.Proofs.Accepts
import LetLang.Proofs.Grammar.Tightness

/-! What is accepted is derived.

Every construct of the parser, run without a mistake, has read a phrase of the
grammar with the tree that it returns, and stopped where the phrase cannot go on
(`level_sound`). The operator loop carries how tightly the expression so far binds:
the token after it binds no tighter, so an operator that follows may take the
expression as its left operand. -/
namespace LetLang.Parser
open Grammar
open Token (Kind)

/-- What the parsers of a level accept are phrases within `n` levels of nesting. -/
structure Level.Sound (n : Nat) (inner : Level) : Prop where
  expr : ∀ {bound s e t}, (inner.expr bound).Accepts s e t →
    ∃ m ts, n = m + 1 ∧ Reads s ts t ∧ Derives m (.above bound e) ts ∧
      ¬ bound < t.current.kind.power
  block : ∀ {s b t}, inner.block.Accepts s b t →
    ∃ ts, Reads s ts t ∧ Derives n (.block b) ts ∧ t.lastEnd = b.span.stop

/-- A whole statement's span goes from its first token to where it stopped. -/
theorem Reads.covering {s t : State} {x : Token} {ts : List Token} (h : Reads s (x :: ts) t) :
    (⟨x.start, t.lastEnd⟩ : Span) = .covering x ts := by
  rw [h.lastEnd, List.getLast?_cons, Span.covering, List.getLastD_eq_getLast?]
  rfl

variable {n : Nat} {inner : Level}

/-! ### Operands -/

theorem literal_sound {s t : State} {e : Expr} (h : literal.Accepts s e t) :
    ∃ ts, Reads s ts t ∧ Derives n (.primary e) ts := by
  simp only [literal, accepts_bind, accepts_advance] at h
  obtain ⟨x, u, ⟨rfl, rfl⟩, h⟩ := h
  refine ⟨[s.current], ?_⟩
  split at h
  · rename_i hk
    split at h
    · rename_i hv
      obtain ⟨rfl, rfl⟩ := accepts_pure.1 h
      exact ⟨.current (by simp [hk]), .integer hk hv⟩
    · exact absurd h not_accepts_fail
  · rename_i hk
    obtain ⟨rfl, rfl⟩ := accepts_pure.1 h
    exact ⟨.current (by simp [hk]), .name hk⟩
  · rename_i hk
    obtain ⟨rfl, rfl⟩ := accepts_pure.1 h
    exact ⟨.current (by simp [hk]), .true hk⟩
  · rename_i hk
    obtain ⟨rfl, rfl⟩ := accepts_pure.1 h
    exact ⟨.current (by simp [hk]), .false hk⟩
  · exact absurd h not_accepts_fail

theorem unary_sound (hi : inner.Sound n) {s t : State} {e : Expr} (hs : s.current.kind ∈ signs)
    (h : (unary inner).Accepts s e t) :
    ∃ ts, Reads s ts t ∧ Derives n (.unary e) ts ∧ ¬ Power.unary < t.current.kind.power := by
  simp only [unary, accepts_bind, accepts_advance, accepts_pure] at h
  obtain ⟨x, u, ⟨rfl, rfl⟩, e, v, hv, rfl, rfl⟩ := h
  obtain ⟨m, ts, rfl, hr, hd, hp⟩ := hi.expr hv
  have he : s.current.kind ≠ .eof := by
    intro hk
    simp [hk, signs] at hs
  exact ⟨s.current :: ts, Reads.after he hr, .unary hs hd, hp⟩

theorem group_sound (hi : inner.Sound n) {s t : State} {e : Expr} (hs : s.current.kind = .openParen)
    (h : (group inner).Accepts s e t) :
    ∃ ts, Reads s ts t ∧ Derives n (.primary e) ts := by
  simp only [group, accepts_bind, accepts_advance, accepts_expect, accepts_pure] at h
  obtain ⟨x, u, ⟨rfl, rfl⟩, e, v, hv, y, w, ⟨hc, rfl, rfl⟩, rfl, rfl⟩ := h
  obtain ⟨m, ts, rfl, hr, hd, -⟩ := hi.expr hv
  refine ⟨s.current :: (ts ++ [v.current]), ?_, .group hs hd hc⟩
  exact .after (by simp [hs]) (hr.trans (.current (by simp [hc])))

theorem conditional_sound (hi : inner.Sound n) {s t : State} {e : Expr}
    (hs : s.current.kind = .kwIf) (h : (conditional inner).Accepts s e t) :
    ∃ ts, Reads s ts t ∧ Derives n (.primary e) ts := by
  simp only [conditional, alternative, accepts_bind, accepts_advance, accepts_expect,
    accepts_lastEnd, accepts_pure] at h
  obtain ⟨x, u, ⟨rfl, rfl⟩, o, v, ⟨ho, rfl, rfl⟩, c, v, hv, y, w, ⟨hc, rfl, rfl⟩, b, w, hw, a, z,
    ⟨otherwise, z', hz', h⟩, stop, z'', ⟨rfl, rfl⟩, rfl, rfl⟩ := h
  obtain ⟨m, ts, rfl, hr, hd, -⟩ := hi.expr hv
  obtain ⟨us, hr', hd', hlast⟩ := hi.block hw
  have hstart : Reads s (s.current :: s.advance.current :: (ts ++ v.current :: us)) w := by
    exact .after (by simp [hs]) (.after (by simp [ho]) (hr.trans (.after (by simp [hc]) hr')))
  rcases accepts_skip.1 hz' with ⟨hk, rfl, rfl⟩ | ⟨-, rfl, rfl⟩
  · simp only [if_true, accepts_bind, accepts_pure] at h
    obtain ⟨b', z', hz', rfl, rfl⟩ := h
    obtain ⟨vs, hr'', hd'', hlast'⟩ := hi.block hz'
    refine ⟨_, hstart.trans (.after (by simp [hk]) hr''), ?_⟩
    rw [hlast']
    simpa using Derives.conditionalElse hs ho hd hc hd' hk hd''
  · simp only [Bool.false_eq_true, if_false, accepts_pure] at h
    obtain ⟨rfl, rfl⟩ := h
    refine ⟨_, hstart, ?_⟩
    rw [hlast]
    exact .conditional hs ho hd hc hd'

/-! ### Lists in parentheses -/

theorem afterComma_sound {α : Type} {p : Parser α} {s t : State} {found : Option α}
    (h : (afterComma p).Accepts s found t) :
    (found = none ∧ t = s) ∨
      ∃ a, found = some a ∧ s.current.kind = .comma ∧ p.Accepts s.advance a t := by
  simp only [afterComma, accepts_bind, accepts_skip] at h
  obtain ⟨more, u, ⟨hk, rfl, rfl⟩ | ⟨-, rfl, rfl⟩, h⟩ := h
  · simp only [if_true, accepts_bind, accepts_pure] at h
    obtain ⟨a, v, hv, rfl, rfl⟩ := h
    exact .inr ⟨a, rfl, hk, hv⟩
  · simp only [Bool.false_eq_true, if_false, accepts_pure] at h
    exact .inl h

section Lists
variable {α : Type} {p : Parser α} (item : List Token → α → Prop)
  (items all : List Token → List α → Prop)

/-- `items` is any reading of lists with commas that is closed under them. -/
theorem commaSeparated_sound
    (hp : ∀ {s a t}, p.Accepts s a t → ∃ ts, Reads s ts t ∧ item ts a)
    (one : ∀ {ts a}, item ts a → items ts [a])
    (more : ∀ {ts a comma us as}, item ts a → comma.kind = .comma → items us as →
      items (ts ++ comma :: us) (a :: as))
    {s t : State} {found : List α} (h : (commaSeparated p).Accepts s found t) :
    ∃ ts, Reads s ts t ∧ items ts found := by
  -- a first item that was read, and the rest of the loop after it
  have loop : ∀ rest {s t ts a}, item ts a →
      (many (afterComma p) (afterComma_advances p)).Accepts s rest t →
      ∃ us, Reads s us t ∧ items (ts ++ us) (a :: rest) := by
    intro rest
    induction rest with
    | nil =>
      intro s t ts a ha h
      rcases accepts_many.1 h with ⟨h, -⟩ | ⟨b, u, rest', -, -, heq⟩
      · rcases afterComma_sound h with ⟨-, rfl⟩ | ⟨b, hb, -⟩
        · exact ⟨[], .nil t, by simpa using one ha⟩
        · cases hb
      · cases heq
    | cons b rest ih =>
      intro s t ts a ha h
      rcases accepts_many.1 h with ⟨-, heq⟩ | ⟨b', u, rest', hb, hrest, heq⟩
      · cases heq
      · cases heq
        rcases afterComma_sound hb with ⟨hb, -⟩ | ⟨b', hb', hk, hread⟩
        · cases hb
        · cases hb'
          obtain ⟨us, hus, hitem⟩ := hp hread
          obtain ⟨vs, hvs, hitems⟩ := ih hitem hrest
          exact ⟨s.current :: (us ++ vs), .after (by simp [hk]) (hus.trans hvs),
            more ha hk hitems⟩
  simp only [commaSeparated, accepts_bind, accepts_pure] at h
  obtain ⟨a, u, ha, rest, v, hrest, rfl, rfl⟩ := h
  obtain ⟨ts, hts, hitem⟩ := hp ha
  obtain ⟨us, hus, hitems⟩ := loop rest hitem hrest
  exact ⟨ts ++ us, hts.trans hus, hitems⟩

theorem untilParen_sound
    (hp : ∀ {s found t}, (commaSeparated p).Accepts s found t → ∃ ts, Reads s ts t ∧ items ts found)
    (none : all [] []) (some : ∀ {ts found}, items ts found → all ts found)
    {s t : State} {found : List α} (h : (untilParen p).Accepts s found t) :
    ∃ ts closing, Reads s (ts ++ [closing]) t ∧ all ts found ∧ closing.kind = .closeParen := by
  simp only [untilParen, beforeParen, accepts_bind, accepts_current, accepts_expect,
    accepts_pure] at h
  obtain ⟨found, u, ⟨x, v, ⟨rfl, rfl⟩, h⟩, y, w, ⟨hc, rfl, rfl⟩, rfl, rfl⟩ := h
  have hclose : Reads u [u.current] u.advance := .current (by simp [hc])
  split at h
  · obtain ⟨rfl, rfl⟩ := accepts_pure.1 h
    exact ⟨[], u.current, hclose, none, hc⟩
  · obtain ⟨ts, hts, hitems⟩ := hp h
    exact ⟨ts, u.current, hts.trans hclose, some hitems, hc⟩

end Lists

theorem parameters_sound {s t : State} {xs : List Name} (h : (untilParen parameter).Accepts s xs t) :
    ∃ ts closing, Reads s (ts ++ [closing]) t ∧ Derives n (.parameters xs) ts ∧
      closing.kind = .closeParen := by
  let names ts xs := Derives n (.names xs) ts
  refine untilParen_sound names (fun ts xs => Derives n (.parameters xs) ts) (fun h => ?_)
    .noParameters .someParameters h
  refine commaSeparated_sound (fun ts x => ∃ y, ts = [y] ∧ x = ⟨y⟩ ∧ y.kind = .identifier) names
    (fun h => ?_) ?_ ?_ h
  · simp only [parameter, accepts_bind, accepts_expect, accepts_pure] at h
    obtain ⟨x, u, ⟨hk, rfl, rfl⟩, rfl, rfl⟩ := h
    exact ⟨_, .current (by simp [hk]), _, rfl, rfl, hk⟩
  · rintro ts a ⟨y, rfl, rfl, hk⟩
    exact .lastName hk
  · rintro ts a comma us as ⟨y, rfl, rfl, hk⟩ hc hd
    exact .nextName hk hc hd

theorem arguments_sound (hi : inner.Sound n) {s t : State} {es : List Expr}
    (h : (untilParen (inner.expr .lowest)).Accepts s es t) :
    ∃ ts closing, Reads s (ts ++ [closing]) t ∧ Derives n (.arguments es) ts ∧
      closing.kind = .closeParen := by
  let expressions ts es := Derives n (.expressions es) ts
  refine untilParen_sound expressions (fun ts es => Derives n (.arguments es) ts) (fun h => ?_)
    .noArguments .someArguments h
  refine commaSeparated_sound (fun ts e => ∃ m, n = m + 1 ∧ Derives m (.whole e) ts) expressions
    (fun h => ?_) ?_ ?_ h
  · obtain ⟨m, ts, rfl, hr, hd, -⟩ := hi.expr h
    exact ⟨ts, hr, m, rfl, hd⟩
  · rintro ts e ⟨m, rfl, hd⟩
    exact .lastExpression hd
  · rintro ts e comma us es ⟨m, rfl, hd⟩ hc hes
    exact .nextExpression hd hc hes

theorem function_sound (hi : inner.Sound n) {s t : State} {e : Expr} (hs : s.current.kind = .kwFn)
    (h : (function inner).Accepts s e t) :
    ∃ ts, Reads s ts t ∧ Derives n (.primary e) ts := by
  simp only [function, accepts_bind, accepts_advance, accepts_expect, accepts_lastEnd,
    accepts_pure] at h
  obtain ⟨x, u, ⟨rfl, rfl⟩, o, v, ⟨ho, rfl, rfl⟩, xs, v, hv, b, w, hw, stop, z, ⟨rfl, rfl⟩, rfl,
    rfl⟩ := h
  obtain ⟨ts, closing, hr, hd, hc⟩ := parameters_sound (n := n) hv
  obtain ⟨us, hr', hd', hlast⟩ := hi.block hw
  refine ⟨s.current :: s.advance.current :: (ts ++ closing :: us), ?_, ?_⟩
  · have := Reads.after (by simp [hs]) (Reads.after (by simp [ho]) (hr.trans hr'))
    simpa using this
  · rw [hlast]
    exact .function hs ho hd hc hd'

/-! ### Expressions -/

/-- An expression so far: the token after it does not bind tighter than the power `p` at which it
holds together. -/
def Holds (n : Nat) (bound : Power) (s : State) (e : Expr) (t : State) : Prop :=
  ∃ ts p, Reads s ts t ∧ Derives n (.ofPower p e) ts ∧ Derives n (.above bound e) ts ∧
    ¬ p < t.current.kind.power

theorem holds_of_unary {bound : Power} {s t : State} {e : Expr} {ts : List Token}
    (hr : Reads s ts t) (hd : Derives n (.unary e) ts)
    (hp : ¬ Power.unary < t.current.kind.power) : Holds n bound s e t :=
  ⟨ts, .unary, hr, hd, hd.above_of_unary bound, hp⟩

theorem not_call_lt (p : Power) : ¬ Power.call < p := by
  cases p <;> decide

theorem holds_of_applied {bound : Power} {s t : State} {e : Expr} {ts : List Token}
    (hr : Reads s ts t) (hd : Derives n (.applied e) ts) : Holds n bound s e t :=
  ⟨ts, .call, hr, hd, (Derives.applied hd).above_of_unary bound, not_call_lt _⟩

theorem operand_sound (hi : inner.Sound n) {bound : Power} {s t : State} {e : Expr}
    (h : (operand inner).Accepts s e t) : Holds n bound s e t := by
  simp only [operand, accepts_bind, accepts_current] at h
  obtain ⟨x, u, ⟨rfl, rfl⟩, h⟩ := h
  have primary : (∃ ts, Reads u ts t ∧ Derives n (.primary e) ts) → Holds n bound u e t := by
    intro h
    obtain ⟨ts, hr, hd⟩ := h
    exact holds_of_applied hr (.primary hd)
  split at h
  · rename_i p hp
    rcases operand?_cases inner hp with rfl | ⟨hs, rfl⟩ | ⟨hs, rfl⟩ | ⟨hs, rfl⟩ | ⟨hs, rfl⟩
    · exact primary (literal_sound h)
    · obtain ⟨ts, hr, hd, hp⟩ := unary_sound hi (by simpa [signs] using hs) h
      exact holds_of_unary hr hd hp
    · exact primary (group_sound hi hs h)
    · exact primary (conditional_sound hi hs h)
    · exact primary (function_sound hi hs h)
  · exact absurd h not_accepts_failHere

theorem operator?_tier {kind : Kind} {p : Expr → Power → Parser Expr}
    (h : operator? inner kind = some p) :
    (kind.isCompound ∧ kind.power = .assignment ∧ p = fun left _ => assignment inner left) ∨
      (∃ τ : Tier, kind ∈ τ.operators ∧ kind.power = τ.power ∧ p = binary inner) ∨
        (kind = .openParen ∧ p = fun left _ => call inner left) := by
  unfold operator? at h
  split at h <;> cases h
  case h_1 | h_2 | h_3 | h_4 => exact .inl ⟨rfl, rfl, rfl⟩
  case h_5 | h_6 => exact .inr (.inl ⟨.equality, by simp [Tier.operators], rfl, rfl⟩)
  case h_7 | h_8 | h_9 | h_10 =>
    exact .inr (.inl ⟨.relational, by simp [Tier.operators], rfl, rfl⟩)
  case h_11 | h_12 => exact .inr (.inl ⟨.additive, by simp [Tier.operators], rfl, rfl⟩)
  case h_13 | h_14 => exact .inr (.inl ⟨.multiplicative, by simp [Tier.operators], rfl, rfl⟩)
  case h_15 => exact .inr (.inr ⟨rfl, rfl⟩)

/-- Whatever binds at all is an operator. -/
theorem lowest_of_operator?_none {kind : Kind} (h : operator? inner kind = none) :
    kind.power = .lowest := by
  cases kind <;> first | rfl | cases h

theorem binary_sound (hi : inner.Sound n) {bound : Power} {s t u : State} {left e : Expr} {τ : Tier}
    (h : Holds n bound s left t) (hk : t.current.kind ∈ τ.operators)
    (hp : t.current.kind.power = τ.power) (hb : bound < τ.power)
    (he : (binary inner left τ.power).Accepts t e u) : Holds n bound s e u := by
  obtain ⟨ts, p, hr, hd, -, hle⟩ := h
  simp only [binary, accepts_bind, accepts_advance, accepts_pure] at he
  obtain ⟨o, v, ⟨rfl, rfl⟩, right, w, hw, rfl, rfl⟩ := he
  obtain ⟨m, us, rfl, hr', hd', hp'⟩ := hi.expr hw
  have hleft : Derives (m + 1) (.tier τ left) ts := by
    rw [← ofPower_power]
    exact hd.ofPower_mono (Nat.le_of_not_lt (hp ▸ hle))
  rw [above_power] at hd'
  have hwhole := Derives.binary hleft hk hd'
  rw [← ofPower_power] at hwhole
  have hne : t.current.kind ≠ .eof := by
    intro he
    rw [he] at hk
    cases τ <;> simp [Tier.operators] at hk
  exact ⟨_, τ.power, hr.trans (.after hne hr'), hwhole,
    hwhole.above_of_ofPower hb, hp'⟩

theorem assignment_sound (hi : inner.Sound n) {bound : Power} {s t u : State} {left e : Expr}
    (h : Holds n bound s left t) (hk : t.current.kind.isCompound) (hb : bound < .assignment)
    (he : (assignment inner left).Accepts t e u) : Holds n bound s e u := by
  obtain ⟨ts, p, hr, hd, -, -⟩ := h
  unfold assignment at he
  split at he
  · rename_i x
    simp only [accepts_bind, accepts_advance, accepts_pure] at he
    obtain ⟨o, v, ⟨rfl, rfl⟩, value, w, hw, rfl, rfl⟩ := he
    obtain ⟨m, us, rfl, hr', hd', hp'⟩ := hi.expr hw
    have htarget : Derives (m + 1) (.target x) ts := hd.target_of_name (by cases p <;> rfl)
    have hwhole : Derives (m + 1) (.ofPower .assignment _) _ := .assign htarget hk hd'
    have hne : t.current.kind ≠ .eof := by
      intro he
      rw [he] at hk
      cases hk
    refine ⟨_, .assignment, hr.trans (.after hne hr'), hwhole,
      hwhole.above_of_ofPower hb, ?_⟩
    intro hlt
    exact hp' (Nat.lt_trans (by decide : Power.lowest < .assignment) hlt)
  · exact absurd he not_accepts_fail

theorem call_sound (hi : inner.Sound n) {bound : Power} {s t u : State} {left e : Expr}
    (h : Holds n bound s left t) (hk : t.current.kind = .openParen)
    (he : (call inner left).Accepts t e u) : Holds n bound s e u := by
  obtain ⟨ts, p, hr, hd, -, hle⟩ := h
  simp only [call, accepts_bind, accepts_advance, accepts_lastEnd, accepts_pure] at he
  obtain ⟨o, v, ⟨rfl, rfl⟩, es, w, hw, stop, w', ⟨rfl, rfl⟩, rfl, rfl⟩ := he
  obtain ⟨us, closing, hr', hd', hc⟩ := arguments_sound hi hw
  have hcall : Power.call.rank ≤ p.rank := by
    rw [hk] at hle
    exact Nat.le_of_not_lt hle
  have hleft : Derives n (.applied left) ts := hd.ofPower_mono hcall
  have hread := Reads.after (by simp [hk]) hr'
  rw [hread.lastEnd, ← List.cons_append, List.getLast?_concat]
  exact holds_of_applied (hr.trans hread) (.call hleft hk hd' hc)

theorem operatorAbove_sound (hi : inner.Sound n) {bound : Power} {s t u : State} {left e : Expr}
    (h : Holds n bound s left t) (he : (operatorAbove inner bound left).Accepts t (some e) u) :
    Holds n bound s e u := by
  simp only [operatorAbove, accepts_bind, accepts_current] at he
  obtain ⟨x, v, ⟨rfl, rfl⟩, he⟩ := he
  split at he
  · rename_i hb
    split at he
    · rename_i p hp
      simp only [accepts_bind, accepts_pure] at he
      obtain ⟨e, w, he, heq, rfl⟩ := he
      cases heq
      rcases operator?_tier hp with ⟨hk, hpow, rfl⟩ | ⟨τ, hk, hpow, rfl⟩ | ⟨hk, rfl⟩
      · exact assignment_sound hi h hk (hpow ▸ hb) he
      · rw [hpow] at hb he
        exact binary_sound hi h hk hpow hb he
      · exact call_sound hi h hk he
    · simp at he
  · simp at he

theorem operatorAbove_none {bound : Power} {t u : State} {left : Expr}
    (he : (operatorAbove inner bound left).Accepts t none u) :
    u = t ∧ ¬ bound < t.current.kind.power := by
  simp only [operatorAbove, accepts_bind, accepts_current] at he
  obtain ⟨x, v, ⟨rfl, rfl⟩, he⟩ := he
  split at he
  · rename_i hb
    split at he
    · simp [accepts_bind] at he
    · rename_i hp
      rw [lowest_of_operator?_none hp] at hb
      cases bound <;> exact absurd hb (by decide)
  · rename_i hb
    exact ⟨(accepts_pure.1 he).2, hb⟩

theorem expression_sound (hi : inner.Sound n) {bound : Power} {s t : State} {e : Expr}
    (h : (expression inner bound).Accepts s e t) :
    ∃ ts, Reads s ts t ∧ Derives n (.above bound e) ts ∧ ¬ bound < t.current.kind.power := by
  obtain ⟨left, u, hleft, h⟩ := accepts_bind.1 h
  obtain ⟨v, ⟨ts, p, hr, -, hd, -⟩, hv⟩ := accepts_iterate_induction
    (fun e t => Holds n bound s e t) (operatorAbove_sound hi) (operand_sound hi hleft) h
  obtain ⟨rfl, hb⟩ := operatorAbove_none hv
  exact ⟨ts, hr, hd, hb⟩

/-! ### Statements -/

theorem terminated_sound {p : Parser (Position → Stmt)} {s t : State} {x : Stmt}
    (h : (terminated p).Accepts s x t) :
    ∃ make u ending bare, p.Accepts s make u ∧ Reads u ending t ∧ Ending ending bare ∧
      x = make t.lastEnd ∧
        (bare = true → t.current.kind ≠ .semicolon ∧ t.current.kind = u.current.kind) := by
  simp only [terminated, accepts_bind, accepts_lastEnd, accepts_pure] at h
  obtain ⟨make, u, hu, found, v, hv, stop, w, ⟨rfl, rfl⟩, rfl, rfl⟩ := h
  rcases accepts_skip.1 hv with ⟨hk, -, rfl⟩ | ⟨hk, -, rfl⟩
  · exact ⟨make, u, _, false, hu, Reads.current (by simp [hk]), .semicolon hk, rfl, by simp⟩
  · exact ⟨make, _, [], true, hu, .nil _, .bare, rfl, fun _ => ⟨hk, rfl⟩⟩

theorem not_continues {t : Token} (hs : t.kind ≠ .semicolon) (hp : ¬ Power.lowest < t.kind.power) :
    ¬ Continues t := fun h => h.elim hs hp

/-- A statement was read, and what follows does not go on with it if it could have. -/
def ReadsStatement (n : Nat) (s : State) (x : Stmt) (t : State) : Prop :=
  ∃ ts bare, Reads s ts t ∧ Derives n (.statement x bare) ts ∧
    (bare = true → ¬ Continues t.current)

theorem binding_sound (hi : inner.Sound n) {s t : State} {x : Stmt} (hs : s.current.kind = .kwLet)
    (h : (binding inner).Accepts s x t) : ReadsStatement n s x t := by
  obtain ⟨make, u, ending, bare, hu, hread, hend, rfl, hbare⟩ := terminated_sound h
  simp only [accepts_bind, accepts_advance, accepts_expect, accepts_pure] at hu
  obtain ⟨o, v, ⟨rfl, rfl⟩, name, v, ⟨hn, rfl, rfl⟩, sign, v, ⟨hk, rfl, rfl⟩, e, w, hw, rfl, rfl⟩ :=
    hu
  obtain ⟨m, ts, rfl, hr, hd, hp⟩ := hi.expr hw
  have hall := Reads.after (by simp [hs]) (Reads.after (by simp [hn]) (Reads.after (by simp [hk])
    (hr.trans hread)))
  refine ⟨_, bare, hall, ?_, fun hb => ?_⟩
  · show Derives _ (.statement (.binding _ _ _ ⟨s.current.start, t.lastEnd⟩) bare) _
    rw [hall.covering]
    exact .binding hs hn hk hd hend
  · obtain ⟨hsemi, hcur⟩ := hbare hb
    exact not_continues hsemi (hcur ▸ hp)

theorem returning_sound (hi : inner.Sound n) {s t : State} {x : Stmt}
    (hs : s.current.kind = .kwReturn) (h : (returning inner).Accepts s x t) :
    ReadsStatement n s x t := by
  obtain ⟨make, u, ending, bare, hu, hread, hend, rfl, hbare⟩ := terminated_sound h
  simp only [accepts_bind, accepts_advance, accepts_pure] at hu
  obtain ⟨o, v, ⟨rfl, rfl⟩, e, w, hw, rfl, rfl⟩ := hu
  obtain ⟨m, ts, rfl, hr, hd, hp⟩ := hi.expr hw
  have hall := Reads.after (by simp [hs]) (hr.trans hread)
  refine ⟨_, bare, hall, ?_, fun hb => ?_⟩
  · show Derives _ (.statement (.returning _ _ ⟨s.current.start, t.lastEnd⟩) bare) _
    rw [hall.covering]
    exact .returning hs hd hend
  · obtain ⟨hsemi, hcur⟩ := hbare hb
    exact not_continues hsemi (hcur ▸ hp)

theorem expressionStatement_sound (hi : inner.Sound n) {s t : State} {x : Stmt}
    (h : (expressionStatement inner).Accepts s x t) : ReadsStatement n s x t := by
  obtain ⟨make, u, ending, bare, hu, hread, hend, rfl, hbare⟩ := terminated_sound h
  simp only [accepts_bind, accepts_current, accepts_pure] at hu
  obtain ⟨o, v, ⟨rfl, rfl⟩, e, w, hw, rfl, rfl⟩ := hu
  obtain ⟨m, ts, rfl, hr, hd, hp⟩ := hi.expr hw
  obtain ⟨first, rest, rfl, -⟩ := hd.starts (.inl ⟨e, tree?_above _ _⟩)
  have hall := hr.trans hread
  rw [State.current_of_ahead hr.ahead]
  refine ⟨_, bare, hall, ?_, fun hb => ?_⟩
  · show Derives _ (.statement (.expression _ _ ⟨first.start, t.lastEnd⟩) bare) _
    rw [List.cons_append] at hall ⊢
    rw [hall.covering]
    exact .expression hd hend
  · obtain ⟨hsemi, hcur⟩ := hbare hb
    exact not_continues hsemi (hcur ▸ hp)

theorem statement_sound (hi : inner.Sound n) {s t : State} {x : Stmt}
    (h : (statement inner).Accepts s x t) : ReadsStatement n s x t := by
  obtain ⟨o, u, ho, h⟩ := accepts_bind.1 h
  obtain ⟨rfl, rfl⟩ := accepts_current.1 ho
  unfold statementFrom at h
  split at h
  · rename_i hk
    exact binding_sound hi hk h
  · rename_i hk
    exact returning_sound hi hk h
  · simp only [blockStatement, accepts_bind, accepts_pure] at h
    obtain ⟨b, v, hv, rfl, rfl⟩ := h
    obtain ⟨ts, hr, hd, -⟩ := hi.block hv
    exact ⟨ts, false, hr, .blockStatement hd, by simp⟩
  · exact expressionStatement_sound hi h

theorem statements_sound (hi : inner.Sound n) {ends : Option Token → Bool} {resume : Parser Unit}
    {ha : (statementUnless inner ends resume).Advances} {found : List (Option Stmt)} {s t : State}
    (h : (many (statementUnless inner ends resume) ha).Accepts s found t) :
    ∃ ts, Reads s ts t ∧ Derives n (.statements (found.filterMap id)) ts ∧ ends t.ahead.head? := by
  induction found generalizing s with
  | nil =>
    rcases accepts_many.1 h with ⟨h, -⟩ | ⟨a, u, rest, -, -, heq⟩
    · simp only [statementUnless, accepts_bind, accepts_next?] at h
      obtain ⟨e, u, ⟨rfl, rfl⟩, h⟩ := h
      split at h
      · rename_i he
        obtain ⟨-, rfl⟩ := accepts_pure.1 h
        exact ⟨[], .nil t, .done, he⟩
      · simp [accepts_bind] at h
    · cases heq
  | cons x found ih =>
    rcases accepts_many.1 h with ⟨-, heq⟩ | ⟨a, u, rest, hx, hrest, heq⟩
    · cases heq
    · cases heq
      obtain ⟨us, hus, hds, hends⟩ := ih hrest
      simp only [statementUnless, accepts_bind, accepts_next?] at hx
      obtain ⟨e, v, ⟨rfl, rfl⟩, hx⟩ := hx
      split at hx
      · simp at hx
      · simp only [accepts_bind, accepts_pure, accepts_recovering] at hx
        obtain ⟨y, w, ⟨stmt, hstmt, rfl⟩, heq, rfl⟩ := hx
        cases heq
        obtain ⟨ts, bare, hts, hd, hbare⟩ := statement_sound hi hstmt
        refine ⟨ts ++ us, hts.trans hus, .next hd (fun hb x hx => ?_) hds, hends⟩
        have hcur : u.current = x := by
          obtain ⟨rest, rfl⟩ := List.head?_eq_some_iff.1 hx
          exact State.current_of_ahead hus.ahead
        exact hcur ▸ hbare hb

theorem block_sound (hi : inner.Sound n) {s t : State} {b : Block}
    (h : (block inner).Accepts s b t) :
    ∃ ts, Reads s ts t ∧ Derives (n + 1) (.block b) ts ∧ t.lastEnd = b.span.stop := by
  simp only [block, blockBody, accepts_bind, accepts_expect, accepts_lastEnd, accepts_pure] at h
  obtain ⟨o, u, ⟨ho, rfl, rfl⟩, ss, v, ⟨found, w, hw, rfl, rfl⟩, c, w, ⟨hc, rfl, rfl⟩, stop, x,
    ⟨rfl, rfl⟩, rfl, rfl⟩ := h
  obtain ⟨ts, hr, hd, -⟩ := statements_sound hi hw
  exact ⟨_, .after (by simp [ho]) (hr.trans (.current (by simp [hc]))), .block ho hd hc, rfl⟩

/-! ### Levels -/

theorem level_sound (limit n : Nat) : (level limit n).Sound n := by
  induction n with
  | zero =>
    constructor
    · intro bound s e t h
      exact absurd h not_accepts_failHere
    · intro s b t h
      exact absurd h not_accepts_failHere
  | succ n ih =>
    constructor
    · intro bound s e t h
      obtain ⟨u, hu, rfl⟩ := accepts_nest.1 h
      obtain ⟨ts, hr, hd, hp⟩ := expression_sound ih hu
      exact ⟨n, ts, rfl, hr.nested, hd, hp⟩
    · intro s b t h
      obtain ⟨u, hu, rfl⟩ := accepts_nest.1 h
      obtain ⟨ts, hr, hd, hlast⟩ := block_sound ih hu
      exact ⟨ts, hr.nested, hd, hlast⟩

/-- A program read without a mistake is one that the grammar derives, with its tree. -/
theorem program_sound {limit n : Nat} {s t : State} {p : Program}
    (h : (program (level limit n)).Accepts s p t) :
    Derives n (.statements p.statements) s.ahead := by
  simp only [program, accepts_bind, accepts_pure] at h
  obtain ⟨found, u, hu, rfl, rfl⟩ := h
  obtain ⟨ts, hr, hd, hends⟩ := statements_sound (level_sound limit n) hu
  have hnil : t.ahead = [] := by simpa using hends
  rw [hr.ahead, hnil, List.append_nil]
  exact hd

end LetLang.Parser
