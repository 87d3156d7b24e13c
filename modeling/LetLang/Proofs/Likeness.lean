import LetLang.Diagnostic
import LetLang.Tree.Basic
import Mathlib.Data.List.Forall2
import Mathlib.Data.Option.Basic

/-! Trees and diagnostics that are alike.

A `Likeness` says which tokens of two runs go together, and which places. Two trees
are alike if they have the same nodes, and in the same place of each a token that
goes with the other and a span whose ends do; two diagnostics are alike if they say
the same of tokens that go together. What is alike under equality is equal
(`eq_of_stmts`, `eq_of_diagnostic`). -/
namespace LetLang
open Token (Kind)

structure Likeness where
  token : Token → Token → Prop
  place : Position → Position → Prop

namespace Likeness
variable (m : Likeness)

def span (s s' : Span) : Prop := m.place s.start s'.start ∧ m.place s.stop s'.stop

def name (x x' : Name) : Prop := m.token x.token x'.token

/-! ### Trees -/

mutual

inductive expr : Expr → Expr → Prop where
  | name {x x'} : m.name x x' → expr (.name x) (.name x')
  /-- The value is what the digits of each token stand for. -/
  | integer {t t'} : m.token t t' → expr (.integer t t.value) (.integer t' t'.value)
  | boolean {t t' b} : m.token t t' → expr (.boolean t b) (.boolean t' b)
  | unary {o o' e e' s s'} :
      m.token o o' → expr e e' → m.span s s' → expr (.unary o e s) (.unary o' e' s')
  | binary {l l' o o' r r' s s'} :
      expr l l' → m.token o o' → expr r r' → m.span s s' →
      expr (.binary l o r s) (.binary l' o' r' s')
  | assign {x x' o o' e e' s s'} :
      m.name x x' → m.token o o' → expr e e' → m.span s s' →
      expr (.assign x o e s) (.assign x' o' e' s')
  | conditional {t t' c c' b b' a a' s s'} :
      m.token t t' → expr c c' → block b b' → Option.Rel block a a' → m.span s s' →
      expr (.conditional t c b a s) (.conditional t' c' b' a' s')
  | function {t t' xs xs' b b' s s'} :
      m.token t t' → List.Forall₂ m.name xs xs' → block b b' → m.span s s' →
      expr (.function t xs b s) (.function t' xs' b' s')
  | call {f f' t t' es es' s s'} :
      expr f f' → m.token t t' → List.Forall₂ expr es es' → m.span s s' →
      expr (.call f t es s) (.call f' t' es' s')

inductive stmt : Stmt → Stmt → Prop where
  | binding {t t' x x' e e' s s'} :
      m.token t t' → m.name x x' → expr e e' → m.span s s' →
      stmt (.binding t x e s) (.binding t' x' e' s')
  | returning {t t' e e' s s'} :
      m.token t t' → expr e e' → m.span s s' → stmt (.returning t e s) (.returning t' e' s')
  | expression {t t' e e' s s'} :
      m.token t t' → expr e e' → m.span s s' → stmt (.expression t e s) (.expression t' e' s')
  | block {b b'} : block b b' → stmt (.block b) (.block b')

inductive block : Block → Block → Prop where
  | mk {t t' xs xs' s s'} :
      m.token t t' → List.Forall₂ stmt xs xs' → m.span s s' → block (.mk t xs s) (.mk t' xs' s')

end

def program (p p' : Program) : Prop := List.Forall₂ m.stmt p.statements p'.statements

/-! ### Diagnostics -/

/-- The texts of two tokens that go together. -/
def text (l l' : String) : Prop := ∃ t t', m.token t t' ∧ l = t.literal ∧ l' = t'.literal

inductive problem : Problem → Problem → Prop where
  | unexpected {expected found l l'} :
      m.text l l' → problem (.unexpected expected found l) (.unexpected expected found l')
  | noOperand {kind l l'} : m.text l l' → problem (.noOperand kind l) (.noOperand kind l')
  | illegalCharacter {l l'} : m.text l l' → problem (.illegalCharacter l) (.illegalCharacter l')
  | integerTooLarge {l l'} : m.text l l' → problem (.integerTooLarge l) (.integerTooLarge l')
  | notAssignable {l l'} : m.text l l' → problem (.notAssignable l) (.notAssignable l')
  | tooDeep {limit} : problem (.tooDeep limit) (.tooDeep limit)

def diagnostic (d d' : Diagnostic) : Prop :=
  m.problem d.problem d'.problem ∧ m.place d.position d'.position

/-! ### Where two trees start and stop -/

section
variable {m} (hstart : ∀ {t t'}, m.token t t' → m.place t.start t'.start)
  (hstop : ∀ {t t'}, m.token t t' → m.place t.stop t'.stop)
include hstart hstop

theorem span_of_token {t t' : Token} (h : m.token t t') : m.span t.span t'.span :=
  ⟨hstart h, hstop h⟩

theorem expr.span {e e' : Expr} (h : m.expr e e') : m.span e.span e'.span := by
  cases h with
  | name h | integer h | boolean h => exact span_of_token hstart hstop h
  | unary _ _ hs | binary _ _ _ hs | assign _ _ _ hs | conditional _ _ _ _ hs | function _ _ _ hs
  | call _ _ _ hs => exact hs

omit hstart hstop in
theorem expr.token {e e' : Expr} (h : m.expr e e') : m.token e.token e'.token := by
  cases h <;> assumption

end

/-! ### Equality -/

/-- Each token goes with itself, and each place. -/
def exact : Likeness := ⟨Eq, Eq⟩

theorem eq_of_span {s s' : Span} (h : exact.span s s') : s = s' := by
  cases s
  cases s'
  obtain ⟨rfl, rfl⟩ := h
  rfl

theorem eq_of_name {x x' : Name} (h : exact.name x x') : x = x' := congrArg Name.mk h

mutual

theorem eq_of_expr : ∀ {e e' : Expr}, exact.expr e e' → e = e'
  | _, _, .name h => by rw [eq_of_name h]
  | _, _, .integer h => by cases h; rfl
  | _, _, .boolean h => by cases h; rfl
  | _, _, .unary ho he hs => by cases ho; rw [eq_of_expr he, eq_of_span hs]
  | _, _, .binary hl ho hr hs => by cases ho; rw [eq_of_expr hl, eq_of_expr hr, eq_of_span hs]
  | _, _, .assign hx ho he hs => by cases ho; rw [eq_of_name hx, eq_of_expr he, eq_of_span hs]
  | _, _, .conditional ht hc hb .none hs => by
      cases ht; rw [eq_of_expr hc, eq_of_block hb, eq_of_span hs]
  | _, _, .conditional ht hc hb (.some ha) hs => by
      cases ht; rw [eq_of_expr hc, eq_of_block hb, eq_of_block ha, eq_of_span hs]
  | _, _, .function ht hxs hb hs => by
      have hnames := List.forall₂_eq_eq_eq ▸ hxs.imp fun _ _ => eq_of_name
      cases ht; rw [hnames, eq_of_block hb, eq_of_span hs]
  | _, _, .call hf ht hes hs => by cases ht; rw [eq_of_expr hf, eq_of_exprs hes, eq_of_span hs]

theorem eq_of_exprs : ∀ {es es' : List Expr}, List.Forall₂ exact.expr es es' → es = es'
  | _, _, .nil => rfl
  | _, _, .cons he hes => by rw [eq_of_expr he, eq_of_exprs hes]

theorem eq_of_stmt : ∀ {x x' : Stmt}, exact.stmt x x' → x = x'
  | _, _, .binding ht hx he hs => by cases ht; rw [eq_of_name hx, eq_of_expr he, eq_of_span hs]
  | _, _, .returning ht he hs => by cases ht; rw [eq_of_expr he, eq_of_span hs]
  | _, _, .expression ht he hs => by cases ht; rw [eq_of_expr he, eq_of_span hs]
  | _, _, .block hb => by rw [eq_of_block hb]

theorem eq_of_stmts : ∀ {xs xs' : List Stmt}, List.Forall₂ exact.stmt xs xs' → xs = xs'
  | _, _, .nil => rfl
  | _, _, .cons hx hxs => by rw [eq_of_stmt hx, eq_of_stmts hxs]

theorem eq_of_block : ∀ {b b' : Block}, exact.block b b' → b = b'
  | _, _, .mk ht hxs hs => by cases ht; rw [eq_of_stmts hxs, eq_of_span hs]

end

theorem eq_of_program {p p' : Program} (h : exact.program p p') : p = p' :=
  congrArg Program.mk (eq_of_stmts h)

theorem eq_of_diagnostic {d d' : Diagnostic} (h : exact.diagnostic d d') : d = d' := by
  obtain ⟨problem, position⟩ := d
  obtain ⟨problem', position'⟩ := d'
  obtain ⟨hproblem, rfl⟩ := h
  have htext : ∀ {l l'}, exact.text l l' → l = l' := by
    rintro _ _ ⟨t, _, rfl, rfl, rfl⟩
    rfl
  cases hproblem with
  | tooDeep => rfl
  | unexpected h | noOperand h | illegalCharacter h | integerTooLarge h | notAssignable h =>
    rw [htext h]

end Likeness
end LetLang
