import LetLang.Proofs.Grammar.Tightness

/-! Chains of operands with binary operators between them, and how they group.

A chain is an operand and the links behind it, each an operator with the operand on
its right. How it groups is said without a grammar and without a parser: it falls
apart at the last operator of lowest power (`split`), and then each of the two
parts does, until operands are left (`group`). -/
namespace LetLang
open Grammar
open Token (Kind)

/-- An operand of a binary operator: prefix operators, what needs no operator, and calls. -/
structure Operand where
  tokens : List Token
  tree : Expr
  /-- How many levels of nesting it opens. -/
  levels : Nat
  derives : Derives levels (.unary tree) tokens

/-- A binary operator with the operand on its right. -/
structure Link where
  operator : Token
  operand : Operand
  binary : ∃ τ : Tier, operator.kind ∈ τ.operators

namespace Link

def power (l : Link) : Power := l.operator.kind.power

def tokens (l : Link) : List Token := l.operator :: l.operand.tokens

end Link

/-- What a chain falls into: an operand, or two groups with an operator between them. -/
inductive Grouping where
  | operand (u : Operand)
  | pair (left : Grouping) (operator : Token) (right : Grouping)

namespace Grouping

def tree : Grouping → Expr
  | operand u => u.tree
  | pair l o r => .binary l.tree o r.tree ⟨l.tree.start, r.tree.stop⟩

/-- How many levels of nesting it opens; the right operand of an operator lies in one more. -/
def levels : Grouping → Nat
  | operand u => u.levels
  | pair l _ r => max l.levels (r.levels + 1)

end Grouping

namespace Chain

def tokens (first : Operand) (links : List Link) : List Token :=
  first.tokens ++ links.flatMap Link.tokens

def last (first : Operand) (links : List Link) : Operand :=
  (links.getLast?.map Link.operand).getD first

/-- The last link of lowest power, with the links before it and behind it. -/
structure Split (links : List Link) where
  before : List Link
  link : Link
  after : List Link
  eq : links = before ++ link :: after
  lowest : ∀ l ∈ before, ¬ l.power < link.power
  last : ∀ l ∈ after, link.power < l.power

theorem Split.shorter {links : List Link} (s : Split links) :
    s.before.length < links.length ∧ s.after.length < links.length := by
  have heq := congrArg List.length s.eq
  rw [List.length_append, List.length_cons] at heq
  omega

theorem Split.mem_iff {links : List Link} (s : Split links) {l : Link} :
    l ∈ links ↔ l ∈ s.before ∨ l = s.link ∨ l ∈ s.after := by
  obtain ⟨before, link, after, rfl, lowest, last⟩ := s
  rw [List.mem_append, List.mem_cons]

/-- What binds looser than the last link of lowest power binds looser than every link. -/
theorem Split.looser {links : List Link} (s : Split links) {p : Power} (hp : p < s.link.power) :
    ∀ l ∈ links, p < l.power := by
  intro l hl
  rcases s.mem_iff.1 hl with hl | rfl | hl
  · exact Nat.lt_of_lt_of_le hp (Nat.le_of_not_lt (s.lowest l hl))
  · exact hp
  · exact Nat.lt_trans hp (s.last l hl)

/-- Splits the chain behind `l` at its last link of lowest power; `l` is the one if it binds looser
than that. -/
def split (l : Link) : (ls : List Link) → Split (l :: ls)
  | [] => ⟨[], l, [], rfl, by simp, by simp⟩
  | m :: ls =>
    let s := split m ls
    if h : l.power < s.link.power then ⟨[], l, m :: ls, rfl, by simp, s.looser h⟩
    else
      ⟨l :: s.before, s.link, s.after, congrArg (l :: ·) s.eq, by simpa [h] using s.lowest, s.last⟩

/-- A chain grouped by splitting it at the last operator of lowest power, again and again. -/
def group (first : Operand) : List Link → Grouping
  | [] => .operand first
  | l :: ls =>
    .pair (group first (split l ls).before) (split l ls).link.operator
      (group (split l ls).link.operand (split l ls).after)
termination_by links => links.length
decreasing_by
  · exact (split l ls).shorter.1
  · exact (split l ls).shorter.2

/-- The links at the front whose operators are all above the bound, as many as there are. -/
def above (bound : Power) (links : List Link) : List Link :=
  links.takeWhile fun l => bound < l.power

/-- The links from the first one on whose operator is not above the bound. -/
def beyond (bound : Power) (links : List Link) : List Link :=
  links.dropWhile fun l => bound < l.power

theorem above_append_beyond (bound : Power) (links : List Link) :
    above bound links ++ beyond bound links = links := List.takeWhile_append_dropWhile

theorem lt_of_mem_above {bound : Power} {links : List Link} {l : Link}
    (h : l ∈ above bound links) : bound < l.power :=
  of_decide_eq_true (List.all_eq_true.1 (List.all_takeWhile ..) l h)

theorem not_lt_of_beyond {bound : Power} {links ls : List Link} {l : Link}
    (h : beyond bound links = l :: ls) : ¬ bound < l.power := by
  have hhead := List.head?_dropWhile_not (fun l : Link => bound < l.power) links
  rw [beyond] at h
  rw [h] at hhead
  exact of_decide_eq_false hhead

theorem tokens_append (first : Operand) (links links' : List Link) :
    tokens first (links ++ links') = tokens first links ++ links'.flatMap Link.tokens := by
  rw [tokens, tokens, List.flatMap_append, List.append_assoc]

theorem tokens_split (first : Operand) {links : List Link} (s : Split links) :
    tokens first links =
      tokens first s.before ++ s.link.operator :: tokens s.link.operand s.after := by
  rw [tokens, congrArg (List.flatMap Link.tokens) s.eq]
  simp [tokens, Link.tokens]

theorem last_split (first : Operand) {links : List Link} (s : Split links) :
    last first links = last s.link.operand s.after := by
  rw [last, congrArg List.getLast? s.eq, List.getLast?_append, List.getLast?_cons, last]
  cases s.after.getLast? <;> rfl

end Chain

/-- The expression ends with an `if` that has no alternative, unless parentheses stand around it. -/
def Expr.lacksElse : Expr → Bool
  | .conditional _ _ _ none _ => true
  | .unary _ e _ => e.lacksElse
  | _ => false

/-- An `else` behind the tokens of the expression would belong to it. -/
def Expr.TakesElse (e : Expr) (ts : List Token) : Prop :=
  e.lacksElse ∧ ts.getLast?.map Token.kind = some .closeCurly

def Operand.TakesElse (u : Operand) : Prop := u.tree.TakesElse u.tokens

/-! ### Derivations with more levels -/

namespace Grammar.Derives
variable {n : Nat} {φ : Phrase} {ts : List Token}

/-- What lies under some levels may lie under one more. -/
theorem more (h : Derives n φ ts) : Derives (n + 1) φ ts := by
  induction h with
  | done => exact .done
  | next _ hbare _ ih ihs => exact .next ih hbare ihs
  | binding hk hn hs _ hend ih => exact .binding hk hn hs ih hend
  | returning hk _ hend ih => exact .returning hk ih hend
  | expression _ hend ih => exact .expression ih hend
  | blockStatement _ ih => exact .blockStatement ih
  | block ho _ hc ih => exact .block ho ih hc
  | assign _ ho _ ihx ihe => exact .assign ihx ho ihe
  | equality _ ih => exact .equality ih
  | binary _ ho _ ihl ihr => exact .binary ihl ho ihr
  | tighter _ ih => exact .tighter ih
  | unary ho _ ih => exact .unary ho ih
  | applied _ ih => exact .applied ih
  | call _ ho _ hc ih ihs => exact .call ih ho ihs hc
  | primary _ ih => exact .primary ih
  | integer hk hv => exact .integer hk hv
  | name hk => exact .name hk
  | true hk => exact .true hk
  | false hk => exact .false hk
  | group ho _ hc ih => exact .group ho ih hc
  | conditional hk ho _ hc _ ih ihb => exact .conditional hk ho ih hc ihb
  | conditionalElse hk ho _ hc _ he _ ih ihb ihb' =>
    exact .conditionalElse hk ho ih hc ihb he ihb'
  | function hk ho _ hc _ ihp ihb => exact .function hk ho ihp hc ihb
  | targetName hk => exact .targetName hk
  | targetGroup ho _ hc ih => exact .targetGroup ho ih hc
  | noArguments => exact .noArguments
  | someArguments _ ih => exact .someArguments ih
  | lastExpression _ ih => exact .lastExpression ih
  | nextExpression _ hc _ ih ihs => exact .nextExpression ih hc ihs
  | noParameters => exact .noParameters
  | someParameters _ ih => exact .someParameters ih
  | lastName hk => exact .lastName hk
  | nextName hk hc _ ih => exact .nextName hk hc ih

theorem mono {m : Nat} (h : Derives n φ ts) (hle : n ≤ m) : Derives m φ ts := by
  induction hle with
  | refl => exact h
  | step _ ih => exact ih.more

end Grammar.Derives
end LetLang
