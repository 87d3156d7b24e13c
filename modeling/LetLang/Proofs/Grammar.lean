import LetLang.Parser.Operand

/-! The grammar of the language, with the tree of every phrase.

`Derives n φ ts`: the tokens `ts` are the phrase `φ`, and no point of it lies under
more than `n` levels of nesting that the phrase itself opens. A level is opened by
the expression of a statement, of a group, of a condition, of an argument or of an
assignment, by the operand of a prefix operator, by the right operand of a binary
operator, and by a block.

Operators come in four tiers, each of them grouping to the left (`Tier`); below
them stand the prefix operators, then calls, then what needs no operator. Only an
assignment may stand above the tiers, and what it assigns to is a name. -/
namespace LetLang

/-- From the first token to the end of the last one after it. -/
def Span.covering (first : Token) (rest : List Token) : Span :=
  ⟨first.start, (rest.getLastD first).stop⟩

namespace Grammar
open Token (Kind)

/-- The binary operators by how tightly they bind, from the loosest up. -/
inductive Tier where
  | equality | relational | additive | multiplicative

def Tier.operators : Tier → List Kind
  | equality => [.equals, .notEquals]
  | relational => [.less, .lessEquals, .greater, .greaterEquals]
  | additive => [.plus, .dash]
  | multiplicative => [.star, .slash]

/-- What stands before an operand to the right of it. -/
def signs : List Kind := [.not, .dash]

/-- A token that goes on with a statement: a statement that could still have ended with a
semicolon is not followed by one of these. -/
def Continues (t : Token) : Prop := t.kind = .semicolon ∨ Power.lowest < t.kind.power

/-- What the grammar has a name for, with its tree. -/
inductive Phrase where
  | statements (ss : List Stmt)
  /-- It is bare if it is not a block and no semicolon ends it. -/
  | statement (s : Stmt) (bare : Bool)
  | block (b : Block)
  /-- An expression of any kind, assignments included. -/
  | whole (e : Expr)
  /-- A name, in parentheses or not. -/
  | target (x : Name)
  | tier (τ : Tier) (e : Expr)
  | unary (e : Expr)
  | applied (e : Expr)
  | primary (e : Expr)
  /-- Expressions with commas between them, at least one. -/
  | expressions (es : List Expr)
  | arguments (es : List Expr)
  /-- Names with commas between them, at least one. -/
  | names (xs : List Name)
  | parameters (xs : List Name)

/-- The operands to the right of a tier's operators. -/
def Tier.operand (e : Expr) : Tier → Phrase
  | equality => .tier .relational e
  | relational => .tier .additive e
  | additive => .tier .multiplicative e
  | multiplicative => .unary e

/-- The semicolon that may end a statement; without it the statement is bare. -/
inductive Ending : List Token → Bool → Prop where
  | bare : Ending [] true
  | semicolon {t : Token} (h : t.kind = .semicolon) : Ending [t] false

inductive Derives : Nat → Phrase → List Token → Prop where
  /- statements -/
  | done {n} : Derives n (.statements []) []
  | next {n s bare ts ss rest} :
      Derives n (.statement s bare) ts → (bare = true → ∀ t ∈ rest.head?, ¬ Continues t) →
      Derives n (.statements ss) rest → Derives n (.statements (s :: ss)) (ts ++ rest)
  | binding {n keyword name sign e ts bare ending} :
      keyword.kind = .kwLet → name.kind = .identifier → sign.kind = .assignment →
      Derives n (.whole e) ts → Ending ending bare →
      Derives (n + 1) (.statement (.binding keyword ⟨name⟩ e
        (.covering keyword (name :: sign :: (ts ++ ending)))) bare)
        (keyword :: name :: sign :: (ts ++ ending))
  | returning {n keyword e ts bare ending} :
      keyword.kind = .kwReturn → Derives n (.whole e) ts → Ending ending bare →
      Derives (n + 1) (.statement (.returning keyword e (.covering keyword (ts ++ ending))) bare)
        (keyword :: (ts ++ ending))
  | expression {n e first ts bare ending} :
      Derives n (.whole e) (first :: ts) → Ending ending bare →
      Derives (n + 1) (.statement (.expression first e (.covering first (ts ++ ending))) bare)
        (first :: (ts ++ ending))
  | blockStatement {n b ts} :
      Derives n (.block b) ts → Derives n (.statement (.block b) false) ts
  | block {n ss ts opening closing} :
      opening.kind = .openCurly → Derives n (.statements ss) ts → closing.kind = .closeCurly →
      Derives (n + 1) (.block (.mk opening ss ⟨opening.start, closing.stop⟩))
        (opening :: (ts ++ [closing]))
  /- expressions -/
  | assign {n x operator e ts us} :
      Derives (n + 1) (.target x) ts → operator.kind.isCompound → Derives n (.whole e) us →
      Derives (n + 1) (.whole (.assign x operator e ⟨x.token.start, e.stop⟩))
        (ts ++ operator :: us)
  | equality {n e ts} : Derives n (.tier .equality e) ts → Derives n (.whole e) ts
  | binary {n τ l r operator ts us} :
      Derives (n + 1) (.tier τ l) ts → operator.kind ∈ τ.operators → Derives n (τ.operand r) us →
      Derives (n + 1) (.tier τ (.binary l operator r ⟨l.start, r.stop⟩)) (ts ++ operator :: us)
  | tighter {n τ e ts} : Derives n (τ.operand e) ts → Derives n (.tier τ e) ts
  | unary {n operator e ts} :
      operator.kind ∈ signs → Derives n (.unary e) ts →
      Derives (n + 1) (.unary (.unary operator e ⟨operator.start, e.stop⟩)) (operator :: ts)
  | applied {n e ts} : Derives n (.applied e) ts → Derives n (.unary e) ts
  | call {n f es opening closing ts us} :
      Derives n (.applied f) ts → opening.kind = .openParen → Derives n (.arguments es) us →
      closing.kind = .closeParen →
      Derives n (.applied (.call f opening es ⟨f.start, closing.stop⟩))
        (ts ++ opening :: (us ++ [closing]))
  | primary {n e ts} : Derives n (.primary e) ts → Derives n (.applied e) ts
  /- expressions without an operator -/
  | integer {n t} :
      t.kind = .integer → t.value ≤ Parser.maxInteger → Derives n (.primary (.integer t t.value)) [t]
  | name {n t} : t.kind = .identifier → Derives n (.primary (.name ⟨t⟩)) [t]
  | true {n t} : t.kind = .kwTrue → Derives n (.primary (.boolean t .true)) [t]
  | false {n t} : t.kind = .kwFalse → Derives n (.primary (.boolean t .false)) [t]
  | group {n e opening closing ts} :
      opening.kind = .openParen → Derives n (.whole e) ts → closing.kind = .closeParen →
      Derives (n + 1) (.primary e) (opening :: (ts ++ [closing]))
  | conditional {n keyword opening closing c b ts us} :
      keyword.kind = .kwIf → opening.kind = .openParen → Derives n (.whole c) ts →
      closing.kind = .closeParen → Derives (n + 1) (.block b) us →
      Derives (n + 1) (.primary (.conditional keyword c b none ⟨keyword.start, b.span.stop⟩))
        (keyword :: opening :: (ts ++ closing :: us))
  | conditionalElse {n keyword opening closing c b otherwise b' ts us vs} :
      keyword.kind = .kwIf → opening.kind = .openParen → Derives n (.whole c) ts →
      closing.kind = .closeParen → Derives (n + 1) (.block b) us → otherwise.kind = .kwElse →
      Derives (n + 1) (.block b') vs →
      Derives (n + 1) (.primary (.conditional keyword c b (some b') ⟨keyword.start, b'.span.stop⟩))
        (keyword :: opening :: (ts ++ closing :: (us ++ otherwise :: vs)))
  | function {n keyword opening closing xs b ts us} :
      keyword.kind = .kwFn → opening.kind = .openParen → Derives n (.parameters xs) ts →
      closing.kind = .closeParen → Derives n (.block b) us →
      Derives n (.primary (.function keyword xs b ⟨keyword.start, b.span.stop⟩))
        (keyword :: opening :: (ts ++ closing :: us))
  /- target of an assignment -/
  | targetName {n t} : t.kind = .identifier → Derives n (.target ⟨t⟩) [t]
  | targetGroup {n x opening closing ts} :
      opening.kind = .openParen → Derives n (.target x) ts → closing.kind = .closeParen →
      Derives (n + 1) (.target x) (opening :: (ts ++ [closing]))
  /- lists with commas -/
  | noArguments {n} : Derives n (.arguments []) []
  | someArguments {n es ts} : Derives n (.expressions es) ts → Derives n (.arguments es) ts
  | lastExpression {n e ts} : Derives n (.whole e) ts → Derives (n + 1) (.expressions [e]) ts
  | nextExpression {n e es comma ts us} :
      Derives n (.whole e) ts → comma.kind = .comma → Derives (n + 1) (.expressions es) us →
      Derives (n + 1) (.expressions (e :: es)) (ts ++ comma :: us)
  | noParameters {n} : Derives n (.parameters []) []
  | someParameters {n xs ts} : Derives n (.names xs) ts → Derives n (.parameters xs) ts
  | lastName {n t} : t.kind = .identifier → Derives n (.names [⟨t⟩]) [t]
  | nextName {n t xs comma us} :
      t.kind = .identifier → comma.kind = .comma → Derives n (.names xs) us →
      Derives n (.names (⟨t⟩ :: xs)) (t :: comma :: us)

end Grammar
end LetLang
