import LetLang.Proofs.Grammar
import LetLang.Parser.Operator

/-! Phrases by the power of their operators.

The grammar speaks of tiers, the parser of powers and bounds. `Phrase.ofPower`
and `Phrase.above` name the phrase that goes with each; what binds tighter is also
a phrase of anything looser (`Derives.ofPower_mono`). -/
namespace LetLang

def Power.looser : Power → Power
  | .lowest | .assignment => .lowest
  | .equality => .assignment
  | .relational => .equality
  | .additive => .relational
  | .multiplicative => .additive
  | .unary => .multiplicative
  | .call => .unary

theorem Power.rank_looser {p : Power} {k : Nat} (h : p.rank = k + 1) : p.looser.rank = k := by
  cases p <;> simp_all [Power.rank, Power.looser]

theorem Power.eq_of_rank_eq {p q : Power} (h : p.rank = q.rank) : p = q := by
  cases p <;> cases q <;> first | rfl | cases h

namespace Grammar
open Token (Kind)

def Tier.power : Tier → Power
  | equality => .equality
  | relational => .relational
  | additive => .additive
  | multiplicative => .multiplicative

/-- An expression whose operators, outside all parentheses, bind at least as tightly as `p`. -/
def Phrase.ofPower (p : Power) (e : Expr) : Phrase :=
  match p with
  | .lowest | .assignment => .whole e
  | .equality => .tier .equality e
  | .relational => .tier .relational e
  | .additive => .tier .additive e
  | .multiplicative => .tier .multiplicative e
  | .unary => .unary e
  | .call => .applied e

/-- An expression whose operators, outside all parentheses, bind tighter than the bound; prefix
operators and calls bind tighter than any bound that is asked for. -/
def Phrase.above (bound : Power) (e : Expr) : Phrase :=
  match bound with
  | .lowest => .whole e
  | .assignment => .tier .equality e
  | .equality => .tier .relational e
  | .relational => .tier .additive e
  | .additive => .tier .multiplicative e
  | .multiplicative | .unary | .call => .unary e

/-- The tree of a phrase that is an expression. -/
def Phrase.tree? : Phrase → Option Expr
  | whole e | tier _ e | unary e | applied e | primary e => some e
  | _ => none

@[simp] theorem tree?_operand (τ : Tier) (e : Expr) : (τ.operand e).tree? = some e := by
  cases τ <;> rfl

@[simp] theorem tree?_above (bound : Power) (e : Expr) : (Phrase.above bound e).tree? = some e := by
  cases bound <;> rfl

theorem ofPower_power (τ : Tier) (e : Expr) : Phrase.ofPower τ.power e = .tier τ e := by
  cases τ <;> rfl

theorem above_power (τ : Tier) (e : Expr) : Phrase.above τ.power e = τ.operand e := by
  cases τ <;> rfl

namespace Derives
variable {n : Nat} {e : Expr} {ts : List Token}

theorem ofPower_looser {p : Power} (h : Derives n (.ofPower p e) ts) :
    Derives n (.ofPower p.looser e) ts := by
  cases p with
  | lowest => exact h
  | assignment => exact h
  | equality => exact .equality h
  | relational => exact .tighter h
  | additive => exact .tighter h
  | multiplicative => exact .tighter h
  | unary => exact .tighter h
  | call => exact .applied h

/-- What binds tighter is also a phrase of anything looser. -/
theorem ofPower_mono {p q : Power} (hle : q.rank ≤ p.rank) (h : Derives n (.ofPower p e) ts) :
    Derives n (.ofPower q e) ts := by
  obtain ⟨k, hk⟩ := Nat.exists_eq_add_of_le hle
  clear hle
  induction k generalizing p with
  | zero => exact Power.eq_of_rank_eq hk ▸ h
  | succ k ih => exact ih h.ofPower_looser (Power.rank_looser hk)

theorem above_of_unary (bound : Power) (h : Derives n (.unary e) ts) :
    Derives n (.above bound e) ts := by
  have hp : ∀ {q : Power}, q.rank ≤ Power.unary.rank → Derives n (.ofPower q e) ts :=
    fun hq => ofPower_mono (p := .unary) hq h
  cases bound with
  | lowest => exact hp (q := .lowest) (by decide)
  | assignment => exact hp (q := .equality) (by decide)
  | equality => exact hp (q := .relational) (by decide)
  | relational => exact hp (q := .additive) (by decide)
  | additive => exact hp (q := .multiplicative) (by decide)
  | multiplicative => exact h
  | unary => exact h
  | call => exact h

theorem above_of_ofPower {bound p : Power} (hlt : bound < p) (h : Derives n (.ofPower p e) ts) :
    Derives n (.above bound e) ts := by
  rw [Power.lt_def] at hlt
  cases bound with
  | lowest => exact ofPower_mono (q := .assignment) hlt h
  | assignment => exact ofPower_mono (q := .equality) hlt h
  | equality => exact ofPower_mono (q := .relational) hlt h
  | relational => exact ofPower_mono (q := .additive) hlt h
  | additive => exact ofPower_mono (q := .multiplicative) hlt h
  | multiplicative => exact ofPower_mono (q := .unary) hlt h
  | unary => exact ofPower_mono (q := .unary) (Nat.le_of_lt hlt) h
  | call => cases p <;> exact absurd hlt (by decide)

/-! ### What a phrase looks like -/

/-- An expression that is only a name is a target, whatever parentheses stand around it. -/
theorem target_of_name {φ : Phrase} {x : Name} (h : Derives n φ ts)
    (hx : φ.tree? = some (.name x)) : Derives n (.target x) ts := by
  induction h with
  | equality _ ih => exact ih hx
  | tighter _ ih => exact ih ((tree?_operand _ _).trans hx)
  | applied _ ih => exact ih hx
  | primary _ ih => exact ih hx
  | name hk =>
    cases hx
    exact .targetName hk
  | group ho _ hc ih => exact .targetGroup ho (ih hx) hc
  | _ => cases hx

/-- The kinds of token that an operand starts with. -/
def operandStarts : List Kind :=
  [.integer, .identifier, .kwTrue, .kwFalse, .not, .dash, .openParen, .kwIf, .kwFn]

/-- Every expression, and every target, starts like an operand. -/
theorem starts {φ : Phrase} (h : Derives n φ ts)
    (hφ : (∃ e, φ.tree? = some e) ∨ ∃ x, φ = .target x) :
    ∃ t rest, ts = t :: rest ∧ t.kind ∈ operandStarts := by
  induction h with
  | assign _ _ _ ih =>
    obtain ⟨t, rest, rfl, ht⟩ := ih (.inr ⟨_, rfl⟩)
    exact ⟨t, _, rfl, ht⟩
  | equality _ ih => exact ih (.inl ⟨_, rfl⟩)
  | binary _ _ _ ih =>
    obtain ⟨t, rest, rfl, ht⟩ := ih (.inl ⟨_, rfl⟩)
    exact ⟨t, _, rfl, ht⟩
  | tighter _ ih => exact ih (.inl ⟨_, tree?_operand _ _⟩)
  | unary ho =>
    refine ⟨_, _, rfl, ?_⟩
    simp only [signs, List.mem_cons, List.not_mem_nil, or_false] at ho
    rcases ho with ho | ho <;> simp [operandStarts, ho]
  | applied _ ih => exact ih (.inl ⟨_, rfl⟩)
  | call _ _ _ _ ih =>
    obtain ⟨t, rest, rfl, ht⟩ := ih (.inl ⟨_, rfl⟩)
    exact ⟨t, _, rfl, ht⟩
  | primary _ ih => exact ih (.inl ⟨_, rfl⟩)
  | integer hk | name hk | true hk | false hk | group hk | conditional hk | conditionalElse hk
  | function hk | targetName hk | targetGroup hk => exact ⟨_, _, rfl, by simp [operandStarts, hk]⟩
  | _ =>
    rcases hφ with ⟨e, h⟩ | ⟨x, h⟩
    · cases h
    · cases h

end Derives
end Grammar
end LetLang
