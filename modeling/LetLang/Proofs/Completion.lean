import LetLang.Proofs.Grammar.Sound
import LetLang.Proofs.Halts
import LetLang.Proofs.Spelling

/-! What is left unfinished can be completed.

Where the strict parser stops at a token that should not be there, the tokens before
it are the beginning of a phrase of the grammar: there are kinds of token such that
any tokens of these kinds complete it (`Interrupted`). Each construct completes what
it was made of so far and closes what it has opened. This takes a level that may still
be opened, for a condition or a body that has not come yet (`Early`). -/
namespace LetLang
open Token (Kind)

/-- It is about a token that should not be there: another was needed, or an operand. -/
def Problem.isMisplaced : Problem → Bool
  | .unexpected .. | .noOperand .. | .illegalCharacter _ | .integerTooLarge _ => true
  | .notAssignable _ | .tooDeep _ => false

/-- The problem says what the token is. -/
def Problem.Quotes (t : Token) : Problem → Prop
  | .unexpected _ found literal => found = t.kind ∧ literal = t.literal
  | .noOperand kind literal => kind = t.kind ∧ literal = t.literal
  | .illegalCharacter literal | .integerTooLarge literal => literal = t.literal
  | .notAssignable _ | .tooDeep _ => False

namespace Parser
open Grammar

variable {α β : Type} {limit n : Nat} {e : Diagnostic} {s t u : State}

/-! ### What was interrupted -/

/-- The run from `s` was interrupted at the token where `u` stands, and can be completed before it. -/
structure Interrupted (e : Diagnostic) (s u : State) (P : List Token → Prop) : Prop where
  position : e.position = u.position
  quotes : e.problem.Quotes u.current
  completes : ∃ ts kinds, s.ahead = ts ++ u.ahead ∧ (∀ k ∈ kinds, k.isWritable) ∧
    ∀ cs, cs.map Token.kind = kinds → P (ts ++ cs)

/-- Too early for the limit to be reached. -/
structure Early (limit : Nat) (e : Diagnostic) (u : State) : Prop where
  misplaced : e.problem.isMisplaced
  depth : u.depth < limit

variable {P Q : List Token → Prop}

namespace Interrupted

theorem mono (h : Interrupted e s u P) (hPQ : ∀ ts, P ts → Q ts) : Interrupted e s u Q := by
  obtain ⟨hposition, hquotes, ts, kinds, hts, hkinds, hcs⟩ := h
  exact ⟨hposition, hquotes, ts, kinds, hts, hkinds, fun cs h => hPQ _ (hcs cs h)⟩

/-- After what was read before. -/
theorem after {ts : List Token} (hst : Reads s ts t)
    (h : Interrupted e t u fun us => P (ts ++ us)) : Interrupted e s u P := by
  obtain ⟨hposition, hquotes, us, kinds, hus, hkinds, hcs⟩ := h
  refine ⟨hposition, hquotes, ts ++ us, kinds, ?_, hkinds, fun cs h => ?_⟩
  · rw [hst.ahead, hus, List.append_assoc]
  · rw [List.append_assoc]
    exact hcs cs h

/-- With what closes it. -/
theorem closing (h : Interrupted e s u P) (kinds : List Kind)
    (hkinds : ∀ k ∈ kinds, k.isWritable)
    (hPQ : ∀ ts cs, P ts → cs.map Token.kind = kinds → Q (ts ++ cs)) : Interrupted e s u Q := by
  obtain ⟨hposition, hquotes, ts, kinds', hts, hkinds', hcs⟩ := h
  refine ⟨hposition, hquotes, ts, kinds' ++ kinds, hts, ?_, fun cs h => ?_⟩
  · intro k hk
    rcases List.mem_append.1 hk with hk | hk
    · exact hkinds' k hk
    · exact hkinds k hk
  · obtain ⟨cs, ds, rfl, hc, hd⟩ := List.map_eq_append_iff.1 h
    rw [← List.append_assoc]
    exact hPQ _ _ (hcs cs hc) hd

end Interrupted

/-- At its first token. -/
theorem interrupted_here (hposition : e.position = u.position) (hquotes : e.problem.Quotes u.current)
    (kinds : List Kind) (hkinds : ∀ k ∈ kinds, k.isWritable)
    (h : ∀ cs, cs.map Token.kind = kinds → P cs) : Interrupted e u u P :=
  ⟨hposition, hquotes, [], kinds, rfl, hkinds, h⟩

/-- Where another token was needed. -/
theorem interrupted_expect {kind : Kind} (hu : (expect kind).Halts s e u) (kinds : List Kind)
    (hkinds : ∀ k ∈ kinds, k.isWritable)
    (h : ∀ cs, cs.map Token.kind = kinds → P cs) : Interrupted e s u P := by
  obtain ⟨-, rfl, rfl⟩ := halts_expect.1 hu
  exact interrupted_here rfl ⟨rfl, rfl⟩ kinds hkinds h

/-! ### What completes -/

theorem derives_name {x : Token} (hx : x.kind = .identifier) (bound : Power) :
    ∃ e, Derives n (.above bound e) [x] :=
  ⟨_, (Derives.applied (.primary (.name hx))).above_of_unary bound⟩

theorem derives_empty {cs : List Token} (h : cs.map Token.kind = [.openCurly, .closeCurly]) :
    ∃ b, Derives (n + 1) (.block b) cs := by
  simp only [List.map_eq_cons_iff, List.map_eq_nil_iff] at h
  obtain ⟨opening, _, rfl, ho, closing, _, rfl, hc, rfl⟩ := h
  exact ⟨_, .block ho .done hc⟩

/-- What the parsers of a level can complete. -/
structure Level.Completes (limit n : Nat) (inner : Level) : Prop extends Level.Sound n inner where
  stopping : ∃ inner', ∀ base depth, (Parser.stopping base depth).Levels inner inner'
  expr_halts : ∀ {bound s e u}, (inner.expr bound).Halts s e u → Early limit e u →
    s.depth + n = limit →
    ∃ m, n = m + 1 ∧ Interrupted e s u fun ts => ∃ x, Derives m (.above bound x) ts
  block_halts : ∀ {s e u}, inner.block.Halts s e u → Early limit e u → s.depth + n = limit →
    Interrupted e s u fun ts => ∃ b, Derives n (.block b) ts

/-- Nothing that accepts leaves more levels open than there were. -/
theorem accepts_stopping {p q : Parser α} {V : α → α → Prop} {a : α}
    (h : (stopping s.reported.toList s.depth).holds V p q) (hp : p.Accepts s a t) :
    ∃ b, q.Accepts s b t ∧ V a b ∧ t.depth = s.depth := by
  obtain ⟨hr, ht⟩ := hp
  have hends := h s s ⟨rfl, rfl, rfl⟩
  rw [hr] at hends
  rcases hends with htogether | ⟨d, v, hv, -⟩
  · generalize hq : q.run s = r' at htogether
    cases htogether with
    | ok hv hs =>
      obtain ⟨rfl, -, hdepth⟩ := hs
      exact ⟨_, ⟨hq, ht⟩, hv, hdepth⟩
  · cases hv

theorem Level.Completes.expr_depth {inner : Level} (hi : inner.Completes limit n) {bound : Power}
    {x : Expr} (h : (inner.expr bound).Accepts s x t) : t.depth = s.depth := by
  obtain ⟨inner', hlevels⟩ := hi.stopping
  obtain ⟨_, -, -, hdepth⟩ := accepts_stopping ((hlevels _ _).expr bound) h
  exact hdepth

theorem Level.Completes.block_depth {inner : Level} (hi : inner.Completes limit n) {b : Block}
    (h : inner.block.Accepts s b t) : t.depth = s.depth := by
  obtain ⟨inner', hlevels⟩ := hi.stopping
  obtain ⟨_, -, -, hdepth⟩ := accepts_stopping (hlevels _ _).block h
  exact hdepth

/-- Where a token is needed, a level is left. -/
theorem Early.level {kind : Kind} (he : Early limit e u) (h : (expect kind).Halts s e u)
    (hs : s.depth + n = limit) : ∃ m, n = m + 1 := by
  obtain ⟨-, -, rfl⟩ := halts_expect.1 h
  have hlt := he.depth
  exact ⟨n - 1, by omega⟩

/-! ### Operands -/

section
variable {inner : Level} (hi : inner.Completes limit n) (he : Early limit e u)
  (hs : s.depth + n = limit)
include hi he hs

theorem unary_completes (hk : s.current.kind ∈ signs) (h : (unary inner).Halts s e u) :
    Interrupted e s u fun ts => ∃ x, Derives n (.unary x) ts := by
  simp only [unary, halts_bind, not_halts_advance, accepts_advance, not_halts_pure, and_false,
    exists_false, or_false, false_or] at h
  obtain ⟨_, _, ⟨rfl, rfl⟩, h⟩ := h
  obtain ⟨m, rfl, hx⟩ := hi.expr_halts h he hs
  refine .after (Reads.current (ne_of_mem_of_not_mem hk (by decide))) (hx.mono ?_)
  rintro ts ⟨x, hd⟩
  exact ⟨_, .unary hk hd⟩

theorem group_completes (hk : s.current.kind = .openParen) (h : (group inner).Halts s e u) :
    Interrupted e s u fun ts => ∃ x, Derives n (.primary x) ts := by
  simp only [group, halts_bind, not_halts_advance, accepts_advance, not_halts_pure, and_false,
    exists_false, or_false, false_or] at h
  obtain ⟨_, _, ⟨rfl, rfl⟩, h⟩ := h
  refine .after (Reads.current (by simp [hk])) ?_
  rcases h with h | ⟨x, v, hx, h⟩
  · obtain ⟨m, rfl, hx⟩ := hi.expr_halts h he hs
    refine hx.closing [.closeParen] (by decide) ?_
    rintro ts cs ⟨x, hd⟩ hcs
    obtain ⟨c, rfl, hc⟩ := List.map_eq_singleton_iff.1 hcs
    exact ⟨x, .group hk hd hc⟩
  · obtain ⟨m, ts, rfl, hr, hd, -⟩ := hi.expr hx
    refine .after hr (interrupted_expect h [.closeParen] (by decide) fun cs hcs => ?_)
    obtain ⟨c, rfl, hc⟩ := List.map_eq_singleton_iff.1 hcs
    exact ⟨x, .group hk hd hc⟩

omit hi he hs in
/-- A condition, the parenthesis after it, and an empty block. -/
theorem derives_conditional {keyword opening : Token} {c : Expr} {ts cs : List Token}
    (hk : keyword.kind = .kwIf) (ho : opening.kind = .openParen) (hd : Derives n (.whole c) ts)
    (hcs : cs.map Token.kind = [.closeParen, .openCurly, .closeCurly]) :
    ∃ x, Derives (n + 1) (.primary x) (keyword :: opening :: (ts ++ cs)) := by
  obtain ⟨closing, us, rfl, hc, hus⟩ := List.map_eq_cons_iff.1 hcs
  obtain ⟨b, hb⟩ := derives_empty (n := n) hus
  exact ⟨_, .conditional hk ho hd hc hb⟩

theorem conditional_completes (hk : s.current.kind = .kwIf) (h : (conditional inner).Halts s e u) :
    Interrupted e s u fun ts => ∃ x, Derives n (.primary x) ts := by
  simp only [conditional, alternative, halts_bind, not_halts_advance, accepts_advance,
    accepts_expect, not_halts_skip, not_halts_lastEnd, not_halts_pure, and_false, exists_false,
    or_false, false_or] at h
  obtain ⟨_, _, ⟨rfl, rfl⟩, h⟩ := h
  refine .after (Reads.current (by simp [hk])) ?_
  rcases h with h | ⟨_, _, ⟨ho, rfl, rfl⟩, h⟩
  · obtain ⟨m, rfl⟩ := he.level h hs
    refine interrupted_expect h [.openParen, .identifier, .closeParen, .openCurly, .closeCurly]
      (by decide) fun cs hcs => ?_
    obtain ⟨opening, us, rfl, ho, hus⟩ := List.map_eq_cons_iff.1 hcs
    obtain ⟨x, vs, rfl, hx, hvs⟩ := List.map_eq_cons_iff.1 hus
    obtain ⟨c, hc⟩ := derives_name (n := m) hx .lowest
    exact derives_conditional hk ho hc hvs
  refine .after (Reads.current (by simp [ho])) ?_
  rcases h with h | ⟨c, v, hc, h⟩
  · obtain ⟨m, rfl, hx⟩ := hi.expr_halts h he hs
    refine hx.closing [.closeParen, .openCurly, .closeCurly] (by decide) ?_
    rintro ts cs ⟨x, hd⟩ hcs
    exact (derives_conditional hk ho hd hcs :)
  obtain ⟨m, ts, rfl, hr, hd, -⟩ := hi.expr hc
  have hv : v.depth = s.depth := (hi.expr_depth hc).trans rfl
  refine .after hr ?_
  rcases h with h | ⟨_, _, ⟨hclose, rfl, rfl⟩, h⟩
  · refine interrupted_expect h [.closeParen, .openCurly, .closeCurly] (by decide) fun cs hcs => ?_
    exact (derives_conditional hk ho hd hcs :)
  refine .after (Reads.current (by simp [hclose])) ?_
  rcases h with h | ⟨b, w, hb, h⟩
  · refine (hi.block_halts h he (hv ▸ hs)).mono ?_
    rintro us ⟨b, hb⟩
    exact ⟨_, .conditional hk ho hd hclose hb⟩
  obtain ⟨us, hr', hd', -⟩ := hi.block hb
  have hw : w.depth = s.depth := (hi.block_depth hb).trans hv
  refine .after hr' ?_
  obtain ⟨_, _, hskip, h⟩ := h
  rcases accepts_skip.1 hskip with ⟨helse, rfl, rfl⟩ | ⟨-, rfl, rfl⟩
  · simp only [if_true, halts_bind, not_halts_pure, and_false, exists_false, or_false] at h
    refine .after (Reads.current (by simp [helse])) ?_
    refine (hi.block_halts h he (hw ▸ hs)).mono ?_
    rintro vs ⟨b', hb'⟩
    exact ⟨_, .conditionalElse hk ho hd hclose hd' helse hb'⟩
  · exact absurd h not_halts_pure

omit hi hs he in
theorem not_halts_literal
    (hk : s.current.kind ∈ ([.integer, .identifier, .kwTrue, .kwFalse] : List Kind))
    (hlarge : ¬ Oversized s.current) : ¬ literal.Halts s e u := by
  simp only [literal, halts_bind, not_halts_advance, accepts_advance, false_or]
  rintro ⟨_, _, ⟨rfl, rfl⟩, h⟩
  split at h
  · rename_i hk
    split at h
    · exact not_halts_pure h
    · rename_i hv
      exact hlarge ⟨hk, Nat.lt_of_not_le hv⟩
  · exact not_halts_pure h
  · exact not_halts_pure h
  · exact not_halts_pure h
  · simp_all

/-! ### Lists in parentheses -/

end

section Lists
variable {p : Parser α} (item : List Token → α → Prop) (items all : List Token → List α → Prop)
  (inv : State → Prop)

theorem commaSeparated_completes
    (hp : ∀ {s a t}, inv s → p.Accepts s a t → inv t ∧ ∃ ts, Reads s ts t ∧ item ts a)
    (hc : ∀ {s}, inv s → p.Halts s e u → Interrupted e s u fun ts => ∃ a, item ts a)
    (hadvance : ∀ {s}, inv s → inv s.advance)
    (one : ∀ {ts a}, item ts a → items ts [a])
    (more : ∀ {ts a comma us as}, item ts a → comma.kind = .comma → items us as →
      items (ts ++ comma :: us) (a :: as))
    (hs : inv s) (h : (commaSeparated p).Halts s e u) :
    Interrupted e s u fun ts => ∃ as, items ts as := by
  -- what was interrupted after a first item
  have loop : ∀ k s {ts a}, s.ahead.length = k → inv s → item ts a →
      (many (afterComma p) (afterComma_advances p)).Halts s e u →
      Interrupted e s u fun us => ∃ as, items (ts ++ us) as := by
    intro k
    induction k using Nat.strongRecOn with
    | _ k ih =>
      intro s ts a hk hs ha hmany
      rcases halts_many.1 hmany with h | ⟨b, t, hb, h⟩
      · simp only [afterComma, halts_bind, not_halts_skip, false_or] at h
        obtain ⟨found, v, hskip, h⟩ := h
        rcases accepts_skip.1 hskip with ⟨hcomma, rfl, rfl⟩ | ⟨-, rfl, rfl⟩
        · simp only [if_true, halts_bind, not_halts_pure, and_false, exists_false, or_false] at h
          refine .after (Reads.current (by simp [hcomma])) ((hc (hadvance hs) h).mono ?_)
          rintro us ⟨b, hb⟩
          exact ⟨_, more ha hcomma (one hb)⟩
        · exact absurd h not_halts_pure
      · have hlt := afterComma_advances p s b t hb.1
        rcases afterComma_sound hb with ⟨hnone, -⟩ | ⟨b', hb', hcomma, hread⟩
        · cases hnone
        · cases hb'
          obtain ⟨ht, us, hus, hitem⟩ := hp (hadvance hs) hread
          have hrest := ih _ (hk ▸ hlt) t rfl ht hitem h
          refine .after (Reads.current (by simp [hcomma])) (.after hus (hrest.mono ?_))
          rintro vs ⟨as, has⟩
          exact ⟨_, more ha hcomma has⟩
  simp only [commaSeparated, halts_bind, not_halts_pure, and_false, exists_false, or_false] at h
  rcases h with h | ⟨a, t, ha, h⟩
  · refine (hc hs h).mono ?_
    rintro ts ⟨a, ha⟩
    exact ⟨_, one ha⟩
  · obtain ⟨ht, ts, hts, hitem⟩ := hp hs ha
    exact .after hts (loop _ t rfl ht hitem h)

theorem untilParen_completes
    (hp : ∀ {s found t}, (commaSeparated p).Accepts s found t → ∃ ts, Reads s ts t ∧ items ts found)
    {s : State} (hc : (commaSeparated p).Halts s e u → Interrupted e s u fun ts => ∃ as, items ts as)
    (none : all [] []) (some : ∀ {ts found}, items ts found → all ts found)
    (h : (untilParen p).Halts s e u) :
    Interrupted e s u fun ts =>
      ∃ us closing as, ts = us ++ [closing] ∧ all us as ∧ closing.kind = .closeParen := by
  simp only [untilParen, beforeParen, halts_bind, accepts_bind, not_halts_current, accepts_current,
    not_halts_pure, and_false, exists_false, or_false, false_or, and_assoc, exists_and_left,
    exists_eq_left] at h
  rcases h with h | ⟨found, t, hfound, h⟩
  · split at h
    · exact absurd h not_halts_pure
    · refine (hc h).closing [.closeParen] (by decide) ?_
      rintro ts cs ⟨as, has⟩ hcs
      obtain ⟨c, rfl, hk⟩ := List.map_eq_singleton_iff.1 hcs
      exact ⟨ts, c, as, rfl, some has, hk⟩
  · have hread : ∃ ts, Reads s ts t ∧ all ts found := by
      split at hfound
      · obtain ⟨rfl, rfl⟩ := accepts_pure.1 hfound
        exact ⟨[], .nil _, none⟩
      · obtain ⟨ts, hts, hitems⟩ := hp hfound
        exact ⟨ts, hts, some hitems⟩
    obtain ⟨ts, hts, hall⟩ := hread
    refine .after hts (interrupted_expect h [.closeParen] (by decide) fun cs hcs => ?_)
    obtain ⟨c, rfl, hk⟩ := List.map_eq_singleton_iff.1 hcs
    exact ⟨ts, c, found, rfl, hall, hk⟩

end Lists

section
variable {inner : Level} (hi : inner.Completes limit n) (he : Early limit e u)
  (hs : s.depth + n = limit)
include hi he hs

theorem arguments_complete (h : (untilParen (inner.expr .lowest)).Halts s e u) :
    Interrupted e s u fun ts =>
      ∃ us closing es, ts = us ++ [closing] ∧ Derives n (.arguments es) us ∧
        closing.kind = .closeParen := by
  let item ts x := ∃ m, n = m + 1 ∧ Derives m (.whole x) ts
  let items ts es := Derives n (.expressions es) ts
  have hone : ∀ {ts x}, item ts x → items ts [x] := by
    rintro ts x ⟨m, rfl, hd⟩
    exact .lastExpression hd
  have hmore : ∀ {ts x comma us es}, item ts x → comma.kind = .comma → items us es →
      items (ts ++ comma :: us) (x :: es) := by
    rintro ts x comma us es ⟨m, rfl, hd⟩ hc hes
    exact .nextExpression hd hc hes
  have hread : ∀ {s x t}, (inner.expr .lowest).Accepts s x t → ∃ ts, Reads s ts t ∧ item ts x := by
    intro s x t hx
    obtain ⟨m, ts, rfl, hr, hd, -⟩ := hi.expr hx
    exact ⟨ts, hr, m, rfl, hd⟩
  refine untilParen_completes items (fun ts es => Derives n (.arguments es) ts)
    (commaSeparated_sound item items hread hone hmore) (fun h => ?_) .noArguments .someArguments h
  refine commaSeparated_completes item items (fun s => s.depth + n = limit) ?_ ?_ (fun hs => hs)
    hone hmore hs h
  · intro s x t hs hx
    exact ⟨(hi.expr_depth hx) ▸ hs, hread hx⟩
  · intro s hs hx
    obtain ⟨m, rfl, hx⟩ := hi.expr_halts hx he hs
    refine hx.mono ?_
    rintro ts ⟨x, hd⟩
    exact ⟨x, m, rfl, hd⟩

omit hi he hs in
theorem parameters_complete (h : (untilParen parameter).Halts s e u) :
    Interrupted e s u fun ts =>
      ∃ us closing xs, ts = us ++ [closing] ∧ Derives n (.parameters xs) us ∧
        closing.kind = .closeParen := by
  let item (ts : List Token) (x : Name) := ∃ y, ts = [y] ∧ x = ⟨y⟩ ∧ y.kind = .identifier
  let items ts xs := Derives n (.names xs) ts
  have hone : ∀ {ts x}, item ts x → items ts [x] := by
    rintro ts x ⟨y, rfl, rfl, hk⟩
    exact .lastName hk
  have hmore : ∀ {ts x comma us xs}, item ts x → comma.kind = .comma → items us xs →
      items (ts ++ comma :: us) (x :: xs) := by
    rintro ts x comma us xs ⟨y, rfl, rfl, hk⟩ hc hxs
    exact .nextName hk hc hxs
  have hread : ∀ {s x t}, parameter.Accepts s x t → ∃ ts, Reads s ts t ∧ item ts x := by
    intro s x t hx
    simp only [parameter, accepts_bind, accepts_expect, accepts_pure] at hx
    obtain ⟨y, v, ⟨hk, rfl, rfl⟩, rfl, rfl⟩ := hx
    exact ⟨_, .current (by simp [hk]), _, rfl, rfl, hk⟩
  refine untilParen_completes items (fun ts xs => Derives n (.parameters xs) ts)
    (commaSeparated_sound item items hread hone hmore) (fun h => ?_) .noParameters .someParameters h
  refine commaSeparated_completes item items (fun _ => True) (fun _ hx => ⟨trivial, hread hx⟩) ?_
    (fun _ => trivial) hone hmore trivial h
  intro s _ hx
  simp only [parameter, halts_bind, not_halts_pure, and_false, exists_false, or_false] at hx
  refine interrupted_expect hx [.identifier] (by decide) fun cs hcs => ?_
  obtain ⟨y, rfl, hy⟩ := List.map_eq_singleton_iff.1 hcs
  exact ⟨_, y, rfl, rfl, hy⟩

omit hi he hs in
/-- Reading parameters opens no level, whether it fails or not. -/
theorem parameters_depth (s : State) : ((untilParen parameter).run s).state.depth = s.depth := by
  let m : Simulation := .exactly (fun t => t.depth = s.depth) (fun _ h => h) .never
  rcases m.untilParen_holds m.parameter_holds s s ⟨rfl, rfl⟩ with htogether | hparted
  · generalize (untilParen parameter).run s = r at htogether
    cases htogether with
    | ok _ ht | error _ ht => exact ht.2
  · exact hparted.elim

theorem function_completes (hk : s.current.kind = .kwFn) (h : (function inner).Halts s e u) :
    Interrupted e s u fun ts => ∃ x, Derives n (.primary x) ts := by
  simp only [function, halts_bind, not_halts_advance, accepts_advance, accepts_expect,
    not_halts_lastEnd, not_halts_pure, and_false, exists_false, or_false, false_or] at h
  obtain ⟨_, _, ⟨rfl, rfl⟩, h⟩ := h
  refine .after (Reads.current (by simp [hk])) ?_
  rcases h with h | ⟨_, _, ⟨ho, rfl, rfl⟩, h⟩
  · obtain ⟨m, rfl⟩ := he.level h hs
    refine interrupted_expect h [.openParen, .closeParen, .openCurly, .closeCurly] (by decide)
      fun cs hcs => ?_
    obtain ⟨opening, us, rfl, ho, hus⟩ := List.map_eq_cons_iff.1 hcs
    obtain ⟨closing, vs, rfl, hc, hvs⟩ := List.map_eq_cons_iff.1 hus
    obtain ⟨b, hb⟩ := derives_empty (n := m) hvs
    exact ⟨_, .function hk ho .noParameters hc hb⟩
  refine .after (Reads.current (by simp [ho])) ?_
  rcases h with h | ⟨xs, v, hxs, h⟩
  · obtain ⟨m, rfl⟩ : ∃ m, n = m + 1 := by
      have hdepth := parameters_depth s.advance.advance
      have hlt := he.depth
      rw [h.1] at hdepth
      have hdepth : u.depth = s.depth := hdepth
      exact ⟨n - 1, by omega⟩
    refine (parameters_complete (n := m + 1) h).closing [.openCurly, .closeCurly] (by decide) ?_
    rintro _ cs ⟨us, closing, xs, rfl, hd, hc⟩ hcs
    obtain ⟨b, hb⟩ := derives_empty (n := m) hcs
    have hall := Derives.function hk ho hd hc hb
    exact ⟨_, by simpa using hall⟩
  obtain ⟨ts, closing, hr, hd, hc⟩ := parameters_sound (n := n) hxs
  have hv : v.depth = s.depth := by
    have hdepth := parameters_depth s.advance.advance
    rw [hxs.1] at hdepth
    exact hdepth
  refine .after hr ((hi.block_halts h he (hv ▸ hs)).mono ?_)
  rintro us ⟨b, hb⟩
  have hall := Derives.function hk ho hd hc hb
  exact ⟨_, by simpa using hall⟩

/-! ### Expressions -/

omit hi he hs in
theorem noOperand_quotes (t : Token) : (noOperand t).Quotes t := by
  unfold noOperand
  split
  · exact rfl
  · exact ⟨rfl, rfl⟩

theorem operand_completes (hlarge : ¬ Oversized s.current) (h : (operand inner).Halts s e u) :
    Interrupted e s u fun ts => ∃ x, Derives n (.unary x) ts := by
  have primary : (Interrupted e s u fun ts => ∃ x, Derives n (.primary x) ts) →
      Interrupted e s u fun ts => ∃ x, Derives n (.unary x) ts := by
    intro h
    refine h.mono ?_
    rintro ts ⟨x, hd⟩
    exact ⟨x, .applied (.primary hd)⟩
  simp only [operand, halts_bind, not_halts_current, accepts_current, false_or, and_assoc,
    exists_and_left, exists_eq_left] at h
  cases hk : s.current.kind with
  | integer | identifier | kwTrue | kwFalse =>
    simp only [hk, operand?] at h
    exact absurd h (not_halts_literal (by simp [hk]) hlarge)
  | not | dash =>
    simp only [hk, operand?] at h
    exact unary_completes hi he hs (by simp [hk, signs]) h
  | openParen =>
    simp only [hk, operand?] at h
    exact primary (group_completes hi he hs hk h)
  | kwIf =>
    simp only [hk, operand?] at h
    exact primary (conditional_completes hi he hs hk h)
  | kwFn =>
    simp only [hk, operand?] at h
    exact primary (function_completes hi he hs hk h)
  | _ =>
    simp only [hk, operand?] at h
    obtain ⟨rfl, rfl⟩ := halts_failHere.1 h
    refine interrupted_here rfl (noOperand_quotes _) [.identifier] (by decide) fun cs hcs => ?_
    obtain ⟨x, rfl, hx⟩ := List.map_eq_singleton_iff.1 hcs
    exact ⟨_, .applied (.primary (.name hx))⟩

section Operators
variable {bound : Power} {left : Expr} {s t : State} (hleft : Holds n bound s left t)
  (ht : t.depth + n = limit)
include hleft ht
omit hs

theorem binary_completes {τ : Tier} (hk : t.current.kind ∈ τ.operators)
    (hp : t.current.kind.power = τ.power) (hb : bound < τ.power)
    (h : (binary inner left τ.power).Halts t e u) :
    Interrupted e s u fun ts => ∃ x, Derives n (.above bound x) ts := by
  obtain ⟨ts, p, hr, hd, -, hle⟩ := hleft
  simp only [binary, halts_bind, not_halts_advance, accepts_advance, not_halts_pure, and_false,
    exists_false, or_false, false_or, and_assoc, exists_and_left, exists_eq_left] at h
  obtain ⟨m, rfl, hx⟩ := hi.expr_halts h he ht
  have hl : Derives (m + 1) (.tier τ left) ts := by
    rw [← ofPower_power]
    exact hd.ofPower_mono (Nat.le_of_not_lt (hp ▸ hle))
  have hne : t.current.kind ≠ .eof := ne_of_mem_of_not_mem hk (by cases τ <;> decide)
  refine .after hr (.after (Reads.current hne) (hx.mono ?_))
  rintro us ⟨x, hd'⟩
  rw [above_power] at hd'
  have hwhole := Derives.binary hl hk hd'
  rw [← ofPower_power] at hwhole
  exact ⟨_, hwhole.above_of_ofPower hb⟩

theorem assignment_completes (hk : t.current.kind.isCompound) (hb : bound < .assignment)
    (h : (assignment inner left).Halts t e u) :
    Interrupted e s u fun ts => ∃ x, Derives n (.above bound x) ts := by
  obtain ⟨ts, p, hr, hd, -, -⟩ := hleft
  unfold assignment at h
  split at h
  · rename_i x
    simp only [halts_bind, not_halts_advance, accepts_advance, not_halts_pure, and_false,
      exists_false, or_false, false_or, and_assoc, exists_and_left, exists_eq_left] at h
    obtain ⟨m, rfl, hx⟩ := hi.expr_halts h he ht
    have htarget : Derives (m + 1) (.target x) ts := hd.target_of_name (by cases p <;> rfl)
    have hne : t.current.kind ≠ .eof := by
      intro hk'
      rw [hk'] at hk
      cases hk
    refine .after hr (.after (Reads.current hne) (hx.mono ?_))
    rintro us ⟨y, hd'⟩
    have hwhole : Derives (m + 1) (.ofPower .assignment _) _ := .assign htarget hk hd'
    exact ⟨_, hwhole.above_of_ofPower hb⟩
  · -- what is wrong with a target is not about a token that should not be there
    obtain ⟨rfl, -⟩ := halts_fail.1 h
    cases he.misplaced

theorem call_completes (hk : t.current.kind = .openParen) (h : (call inner left).Halts t e u) :
    Interrupted e s u fun ts => ∃ x, Derives n (.above bound x) ts := by
  obtain ⟨ts, p, hr, hd, -, hle⟩ := hleft
  simp only [call, halts_bind, not_halts_advance, accepts_advance, not_halts_lastEnd,
    not_halts_pure, and_false, exists_false, or_false, false_or, and_assoc, exists_and_left,
    exists_eq_left] at h
  have hcall : Power.call.rank ≤ p.rank := by
    rw [hk] at hle
    exact Nat.le_of_not_lt hle
  have hl : Derives n (.applied left) ts := hd.ofPower_mono hcall
  refine .after hr (.after (Reads.current (by simp [hk])) ?_)
  refine (arguments_complete (s := t.advance) hi he ht h).mono ?_
  rintro _ ⟨us, closing, es, rfl, hd', hc⟩
  exact ⟨_, (Derives.applied (.call hl hk hd' hc)).above_of_unary bound⟩

theorem operatorAbove_completes (h : (operatorAbove inner bound left).Halts t e u) :
    Interrupted e s u fun ts => ∃ x, Derives n (.above bound x) ts := by
  simp only [operatorAbove, halts_bind, not_halts_current, accepts_current, false_or, and_assoc,
    exists_and_left, exists_eq_left] at h
  split at h
  · rename_i hb
    split at h
    · rename_i p hp
      simp only [halts_bind, not_halts_pure, and_false, exists_false, or_false] at h
      rcases operator?_tier hp with ⟨hk, hpow, rfl⟩ | ⟨τ, hk, hpow, rfl⟩ | ⟨hk, rfl⟩
      · exact assignment_completes hi he hleft ht hk (hpow ▸ hb) h
      · rw [hpow] at hb h
        exact binary_completes hi he hleft ht hk hpow hb h
      · exact call_completes hi he hleft ht hk h
    · exact absurd h not_halts_pure
  · exact absurd h not_halts_pure

end Operators

/-- How far an expression has come where its next operator is interrupted. -/
theorem expression_completes {bound : Power} (hlarge : ¬ Oversized s.current)
    (h : (expression inner bound).Halts s e u) :
    Interrupted e s u fun ts => ∃ x, Derives n (.above bound x) ts := by
  obtain ⟨inner', hlevels⟩ := hi.stopping
  rw [expression, halts_bind] at h
  rcases h with h | ⟨left, t, hleft, h⟩
  · refine (operand_completes hi he hs hlarge h).mono ?_
    rintro ts ⟨x, hd⟩
    exact ⟨x, hd.above_of_unary bound⟩
  · obtain ⟨left', -, hv, hdepth⟩ :=
      accepts_stopping (Simulation.operand_holds _ (hlevels _ _)) hleft
    -- an expression that is found is found by both parsers
    let inv (x : Expr) (t : State) :=
      Holds n bound s x t ∧ t.depth + n = limit ∧ Likeness.exact.expr x x
    have hinv : inv left t := by
      obtain rfl := Likeness.eq_of_expr hv
      exact ⟨operand_sound hi.toSound hleft, hdepth ▸ hs, hv⟩
    have hstep {a b : Expr} {v w : State} (ha : inv a v)
        (hb : (operatorAbove inner bound a).Accepts v (some b) w) : inv b w := by
      obtain ⟨ha, hv, hlike⟩ := ha
      obtain ⟨b', -, hrel, hdepth⟩ :=
        accepts_stopping (Simulation.operatorAbove_holds _ (hlevels _ _) hlike bound) hb
      cases hrel with
      | some hv' =>
        obtain rfl := Likeness.eq_of_expr hv'
        exact ⟨operatorAbove_sound hi.toSound ha hb, hdepth ▸ hv, hv'⟩
    obtain ⟨x, v, ⟨hx, hv, -⟩, h⟩ := halts_iterate_induction inv hstep hinv h
    exact operatorAbove_completes hi he hx hv h

/-! ### Statements -/

omit hi hs he in
@[simp] theorem halts_terminated {p : Parser (Position → Stmt)} :
    (terminated p).Halts s e u ↔ p.Halts s e u := by
  simp only [terminated, halts_bind, not_halts_skip, not_halts_lastEnd, not_halts_pure, and_false,
    exists_false, or_false]

omit hi hs he in
theorem derives_binding {keyword name sign : Token} {x : Expr} {ts : List Token}
    (hk : keyword.kind = .kwLet) (hn : name.kind = .identifier) (hsign : sign.kind = .assignment)
    (hd : Derives n (.whole x) ts) :
    ∃ y bare, Derives (n + 1) (.statement y bare) (keyword :: name :: sign :: ts) := by
  have hall := Derives.binding hk hn hsign hd .bare
  rw [List.append_nil] at hall
  exact ⟨_, _, hall⟩

theorem binding_completes (hk : s.current.kind = .kwLet) (h : (binding inner).Halts s e u) :
    Interrupted e s u fun ts => ∃ x bare, Derives n (.statement x bare) ts := by
  simp only [binding, halts_terminated, halts_bind, not_halts_advance, accepts_advance,
    accepts_expect, not_halts_pure, and_false, exists_false, or_false, false_or] at h
  obtain ⟨_, _, ⟨rfl, rfl⟩, h⟩ := h
  refine .after (Reads.current (by simp [hk])) ?_
  rcases h with h | ⟨_, _, ⟨hn, rfl, rfl⟩, h⟩
  · obtain ⟨m, rfl⟩ := he.level h hs
    refine interrupted_expect h [.identifier, .assignment, .identifier] (by decide) fun cs hcs => ?_
    obtain ⟨name, us, rfl, hn, hus⟩ := List.map_eq_cons_iff.1 hcs
    obtain ⟨sign, vs, rfl, hsign, hvs⟩ := List.map_eq_cons_iff.1 hus
    obtain ⟨x, rfl, hx⟩ := List.map_eq_singleton_iff.1 hvs
    obtain ⟨y, hd⟩ := derives_name (n := m) hx .lowest
    exact derives_binding hk hn hsign hd
  refine .after (Reads.current (by simp [hn])) ?_
  rcases h with h | ⟨_, _, ⟨hsign, rfl, rfl⟩, h⟩
  · obtain ⟨m, rfl⟩ := he.level h hs
    refine interrupted_expect h [.assignment, .identifier] (by decide) fun cs hcs => ?_
    obtain ⟨sign, vs, rfl, hsign, hvs⟩ := List.map_eq_cons_iff.1 hcs
    obtain ⟨x, rfl, hx⟩ := List.map_eq_singleton_iff.1 hvs
    obtain ⟨y, hd⟩ := derives_name (n := m) hx .lowest
    exact derives_binding hk hn hsign hd
  · obtain ⟨m, rfl, hx⟩ := hi.expr_halts h he hs
    refine .after (Reads.current (by simp [hsign])) (hx.mono ?_)
    rintro ts ⟨y, hd⟩
    exact derives_binding hk hn hsign hd

theorem returning_completes (hk : s.current.kind = .kwReturn) (h : (returning inner).Halts s e u) :
    Interrupted e s u fun ts => ∃ x bare, Derives n (.statement x bare) ts := by
  simp only [returning, halts_terminated, halts_bind, not_halts_advance, accepts_advance,
    not_halts_pure, and_false, exists_false, or_false, false_or, and_assoc, exists_and_left,
    exists_eq_left] at h
  obtain ⟨m, rfl, hx⟩ := hi.expr_halts h he hs
  refine .after (Reads.current (by simp [hk])) (hx.mono ?_)
  rintro ts ⟨y, hd⟩
  have hall := Derives.returning hk hd .bare
  rw [List.append_nil] at hall
  exact ⟨_, _, hall⟩

theorem expressionStatement_completes (h : (expressionStatement inner).Halts s e u) :
    Interrupted e s u fun ts => ∃ x bare, Derives n (.statement x bare) ts := by
  simp only [expressionStatement, halts_terminated, halts_bind, not_halts_current, accepts_current,
    not_halts_pure, and_false, exists_false, or_false, false_or, and_assoc, exists_and_left,
    exists_eq_left] at h
  obtain ⟨m, rfl, hx⟩ := hi.expr_halts h he hs
  refine hx.mono ?_
  rintro ts ⟨y, hd⟩
  obtain ⟨first, rest, rfl, -⟩ := hd.starts (.inl ⟨y, tree?_above _ _⟩)
  have hall := Derives.expression hd .bare
  rw [List.append_nil] at hall
  exact ⟨_, _, hall⟩

theorem statement_completes (h : (statement inner).Halts s e u) :
    Interrupted e s u fun ts => ∃ x bare, Derives n (.statement x bare) ts := by
  simp only [statement, halts_bind, not_halts_current, accepts_current, false_or, and_assoc,
    exists_and_left, exists_eq_left] at h
  unfold statementFrom at h
  split at h
  · rename_i hk
    exact binding_completes hi he hs hk h
  · rename_i hk
    exact returning_completes hi he hs hk h
  · simp only [blockStatement, halts_bind, not_halts_pure, and_false, exists_false, or_false] at h
    refine (hi.block_halts h he hs).mono ?_
    rintro ts ⟨b, hd⟩
    exact ⟨_, _, .blockStatement hd⟩
  · exact expressionStatement_completes hi he hs h

end

end Parser
end LetLang
