import LetLang.Token.Kind

/-! How tightly operators bind.

`Kind.power` is the power of a token that follows a complete operand. A token
that cannot continue an expression binds at `lowest`, so nothing is above a
bound that it could meet. -/
namespace LetLang

inductive Power where
  | lowest | assignment | equality | relational | additive | multiplicative | unary | call
deriving DecidableEq, Repr

namespace Power

/-- All powers, from the weakest up. -/
def all : List Power :=
  [lowest, assignment, equality, relational, additive, multiplicative, unary, call]

def rank : Power → Nat
  | lowest => 0
  | assignment => 1
  | equality => 2
  | relational => 3
  | additive => 4
  | multiplicative => 5
  | unary => 6
  | call => 7

instance : LT Power := ⟨fun a b => a.rank < b.rank⟩

instance (a b : Power) : Decidable (a < b) := inferInstanceAs (Decidable (a.rank < b.rank))

theorem lt_def (a b : Power) : a < b ↔ a.rank < b.rank := Iff.rfl

end Power

def Token.Kind.power : Token.Kind → Power
  | plusEquals | minusEquals | starEquals | slashEquals => .assignment
  | equals | notEquals => .equality
  | less | lessEquals | greater | greaterEquals => .relational
  | plus | dash => .additive
  | star | slash => .multiplicative
  | openParen => .call
  | _ => .lowest

end LetLang
