import LetLang.Proofs.Acceptance
import LetLang.Proofs.Printing.Text

/-! The round trip.

Of tokens that were printed for a proper tree the grammar makes that tree, since
an operand stands in parentheses wherever it would otherwise be read as part of
something else (`Grammar.yields`). So parsing the text of a proper program gives
the program back (`parse_text`). -/
namespace LetLang
open Token (Kind)

/-! ### Tokens that were printed -/

namespace Printed

/-- The tokens, in some place, are the printed ones, and `n` levels are enough for them. -/
def Shows (p : Printed) (n : Nat) (ts : List Token) : Prop :=
  ts.map Redraw.unplaced.token = p.tokens ∧ p.levels ≤ n

variable {p q : Printed} {n : Nat} {ts : List Token}

theorem shows_empty : empty.Shows n ts ↔ ts = [] := by
  simp [Shows, empty]

theorem shows_token {t : Token} :
    (token t).Shows n ts ↔ ∃ u, ts = [u] ∧ Redraw.unplaced.token u = t := by
  simp [Shows, token, List.map_eq_singleton_iff]

theorem shows_kind {k : Kind} :
    (kind k).Shows n ts ↔ ∃ u, ts = [u] ∧ Redraw.unplaced.token u = .fixed k := shows_token

theorem shows_append :
    (p ++ q).Shows n ts ↔ ∃ us vs, ts = us ++ vs ∧ p.Shows n us ∧ q.Shows n vs := by
  have hlevels : (p ++ q).levels = max p.levels q.levels := rfl
  simp only [Shows, tokens_append, List.map_eq_append_iff, hlevels, Nat.max_le]
  constructor
  · rintro ⟨⟨us, vs, rfl, hus, hvs⟩, hp, hq⟩
    exact ⟨us, vs, rfl, ⟨hus, hp⟩, hvs, hq⟩
  · rintro ⟨us, vs, rfl, ⟨hus, hp⟩, hvs, hq⟩
    exact ⟨⟨us, vs, rfl, hus, hvs⟩, hp, hq⟩

theorem shows_deeper : p.deeper.Shows n ts ↔ ∃ m, n = m + 1 ∧ p.Shows m ts := by
  have hlevels : p.deeper.levels = p.levels + 1 := rfl
  simp only [Shows, tokens_deeper, hlevels]
  constructor
  · rintro ⟨hts, hn⟩
    exact ⟨n - 1, by omega, hts, by omega⟩
  · rintro ⟨m, rfl, hts, hm⟩
    exact ⟨hts, by omega⟩

theorem shows_parenthesized : p.parenthesized.Shows n ts ↔
    ∃ opening us closing, ts = opening :: (us ++ [closing]) ∧
      Redraw.unplaced.token opening = .fixed .openParen ∧ p.Shows n us ∧
      Redraw.unplaced.token closing = .fixed .closeParen := by
  simp only [parenthesized, shows_append, shows_kind]
  constructor
  · rintro ⟨-, -, rfl, ⟨-, us, rfl, ⟨opening, rfl, ho⟩, hus⟩, closing, rfl, hc⟩
    exact ⟨opening, us, closing, rfl, ho, hus, hc⟩
  · rintro ⟨opening, us, closing, rfl, ho, hus, hc⟩
    exact ⟨_, _, rfl, ⟨_, _, rfl, ⟨_, rfl, ho⟩, hus⟩, _, rfl, hc⟩

end Printed

namespace Grammar
open Redraw (unplaced)

attribute [local simp] Expr.respelled Expr.respelledAll Stmt.respelled Stmt.respelledAll
  Block.respelled Block.respelledOption

theorem kind_of_unplaced {t : Token} {k : Kind} (h : unplaced.token t = .fixed k) : t.kind = k :=
  congrArg Token.kind h

theorem tier_of_isBinary {k : Kind} (h : k.isBinary) :
    ∃ τ : Tier, k ∈ τ.operators ∧ k.power = τ.power := by
  revert h
  cases k <;> first
    | (intro h; cases h; done)
    | exact fun _ => ⟨.equality, by decide, rfl⟩
    | exact fun _ => ⟨.relational, by decide, rfl⟩
    | exact fun _ => ⟨.additive, by decide, rfl⟩
    | exact fun _ => ⟨.multiplicative, by decide, rfl⟩

/-- Of the tokens that show an expression, the grammar makes that expression. -/
def Yields (e : Expr) : Prop :=
  ∀ n ts, e.printed.Shows n ts →
    ∃ e', Derives n (.ofPower e.power e') ts ∧ unplaced.expr e' = e.respelled

variable {e : Expr} {n : Nat} {ts : List Token}

theorem Yields.whole (h : Yields e) (hts : e.printed.Shows n ts) :
    ∃ e', Derives n (.whole e') ts ∧ unplaced.expr e' = e.respelled := by
  obtain ⟨e', he, heq⟩ := h n ts hts
  exact ⟨e', Derives.ofPower_mono (q := .lowest) (Nat.zero_le _) he, heq⟩

/-- An operand that is grouped where it has to be is an operand. -/
theorem Yields.operand (h : Yields e) {needed : Bool} (hts : (e.printed.groupedIf needed).Shows n ts) :
    ∃ e', unplaced.expr e' = e.respelled ∧
      (Derives n (.applied e') ts ∨ needed = false ∧ Derives n (.ofPower e.power e') ts) := by
  unfold Printed.groupedIf at hts
  split at hts
  · obtain ⟨opening, us, closing, rfl, ho, hus, hc⟩ := Printed.shows_parenthesized.1 hts
    obtain ⟨m, rfl, hinner⟩ := Printed.shows_deeper.1 hus
    obtain ⟨e', he, heq⟩ := h.whole hinner
    exact ⟨e', heq, .inl (.primary (.group (kind_of_unplaced ho) he (kind_of_unplaced hc)))⟩
  · rename_i hneeded
    obtain ⟨e', he, heq⟩ := h n ts hts
    exact ⟨e', heq, .inr ⟨Bool.eq_false_iff.2 hneeded, he⟩⟩

theorem Yields.operandOfPower (h : Yields e) {p : Power}
    (hts : (e.printed.groupedIf (e.power < p)).Shows n ts) :
    ∃ e', Derives n (.ofPower p e') ts ∧ unplaced.expr e' = e.respelled := by
  obtain ⟨e', heq, he | ⟨hnot, he⟩⟩ := h.operand hts
  · exact ⟨e', Derives.ofPower_mono (p := .call) (by cases p <;> decide) he, heq⟩
  · rw [decide_eq_false_iff_not, Power.lt_def, Nat.not_lt] at hnot
    exact ⟨e', Derives.ofPower_mono hnot he, heq⟩

theorem Yields.operandAbove (h : Yields e) {p : Power}
    (hts : (e.printed.groupedIf !(p < e.power)).Shows n ts) :
    ∃ e', Derives n (.above p e') ts ∧ unplaced.expr e' = e.respelled := by
  obtain ⟨e', heq, he | ⟨hnot, he⟩⟩ := h.operand hts
  · exact ⟨e', Derives.above_of_unary p (.applied he), heq⟩
  · rw [Bool.not_eq_false', decide_eq_true_eq] at hnot
    exact ⟨e', Derives.above_of_ofPower hnot he, heq⟩

/-! ### Names and lists -/

theorem shows_name {x : Name} :
    x.printed.Shows n ts ↔ ∃ t, ts = [t] ∧ unplaced.token t = x.respelled.token :=
  Printed.shows_token

theorem derives_names {xs : List Name} (hxs : xs ≠ [])
    (hts : (Printed.commaSeparated (xs.map Name.printed)).Shows n ts) :
    ∃ ys, Derives n (.names ys) ts ∧ ys.map unplaced.name = xs.map Name.respelled := by
  induction xs generalizing ts with
  | nil => exact absurd rfl hxs
  | cons x xs ih =>
    cases xs with
    | nil =>
      obtain ⟨t, rfl, ht⟩ := shows_name.1 hts
      exact ⟨[⟨t⟩], .lastName (congrArg Token.kind ht), by simp [Redraw.name, ht]⟩
    | cons y ys =>
      obtain ⟨_, rest, rfl, hfirst, hrest⟩ := Printed.shows_append.1 hts
      obtain ⟨_, _, rfl, hx, hcomma⟩ := Printed.shows_append.1 hfirst
      obtain ⟨t, rfl, ht⟩ := shows_name.1 hx
      obtain ⟨comma, rfl, hc⟩ := Printed.shows_kind.1 hcomma
      obtain ⟨zs, hzs, heq⟩ := ih (by simp) hrest
      exact ⟨⟨t⟩ :: zs, .nextName (congrArg Token.kind ht) (kind_of_unplaced hc) hzs,
        by simp [Redraw.name, ht, ← heq]⟩

theorem derives_parameters {xs : List Name}
    (hts : (Printed.commaSeparated (xs.map Name.printed)).Shows n ts) :
    ∃ ys, Derives n (.parameters ys) ts ∧ ys.map unplaced.name = xs.map Name.respelled := by
  by_cases hxs : xs = []
  · subst hxs
    obtain rfl := Printed.shows_empty.1 hts
    exact ⟨[], .noParameters, rfl⟩
  · obtain ⟨ys, hys, heq⟩ := derives_names hxs hts
    exact ⟨ys, .someParameters hys, heq⟩

theorem derives_expressions {es : List Expr} (hes : es ≠ []) (hyields : ∀ e ∈ es, Yields e)
    (hts : (Printed.commaSeparated (Expr.printedAll es)).Shows n ts) :
    ∃ fs, Derives n (.expressions fs) ts ∧ unplaced.exprs fs = Expr.respelledAll es := by
  induction es generalizing ts with
  | nil => exact absurd rfl hes
  | cons e es ih =>
    have he := hyields e (by simp)
    cases es with
    | nil =>
      obtain ⟨m, rfl, hinner⟩ := Printed.shows_deeper.1 hts
      obtain ⟨e', hderives, heq⟩ := he.whole hinner
      exact ⟨[e'], .lastExpression hderives, by simp [Redraw.exprs, heq]⟩
    | cons f fs =>
      obtain ⟨_, rest, rfl, hfirst, hrest⟩ := Printed.shows_append.1 hts
      obtain ⟨us, _, rfl, hus, hcomma⟩ := Printed.shows_append.1 hfirst
      obtain ⟨comma, rfl, hc⟩ := Printed.shows_kind.1 hcomma
      obtain ⟨gs, hgs, heqs⟩ := ih (by simp) (fun g hg => hyields g (List.mem_cons_of_mem e hg)) hrest
      obtain ⟨m, rfl, hinner⟩ := Printed.shows_deeper.1 hus
      obtain ⟨e', hderives, heq⟩ := he.whole hinner
      refine ⟨e' :: gs, ?_, by simp [Redraw.exprs, heq, heqs]⟩
      simpa using .nextExpression hderives (kind_of_unplaced hc) hgs

theorem derives_arguments {es : List Expr} (hyields : ∀ e ∈ es, Yields e)
    (hts : (Printed.commaSeparated (Expr.printedAll es)).Shows n ts) :
    ∃ fs, Derives n (.arguments fs) ts ∧ unplaced.exprs fs = Expr.respelledAll es := by
  by_cases hes : es = []
  · subst hes
    obtain rfl := Printed.shows_empty.1 hts
    exact ⟨[], .noArguments, by simp [Redraw.exprs]⟩
  · obtain ⟨fs, hfs, heq⟩ := derives_expressions hes hyields hts
    exact ⟨fs, .someArguments hfs, heq⟩

/-! ### Expressions -/

theorem yields_name (x : Name) : Yields (.name x) := by
  intro n ts hts
  obtain ⟨t, rfl, ht⟩ := shows_name.1 hts
  refine ⟨.name ⟨t⟩, .primary (.name (congrArg Token.kind ht)), ?_⟩
  simp [Redraw.expr, Redraw.name, ht]

theorem yields_integer (t : Token) {k : Nat} (hk : k ≤ Parser.maxInteger) :
    Yields (.integer t k) := by
  intro n ts hts
  obtain ⟨t, rfl, ht⟩ := Printed.shows_token.1 hts
  have hvalue : t.value = k := by rw [← Redraw.value_token unplaced, ht, Token.value_number]
  refine ⟨.integer t t.value, .primary (.integer (congrArg Token.kind ht) (hvalue ▸ hk)), ?_⟩
  simp [Redraw.expr, ht, hvalue]

theorem yields_boolean (t : Token) (b : Bool) : Yields (.boolean t b) := by
  intro n ts hts
  obtain ⟨t, rfl, ht⟩ := Printed.shows_token.1 hts
  refine ⟨.boolean t b, .primary ?_, by simp [Redraw.expr, ht]⟩
  cases b with
  | true => exact .true (kind_of_unplaced ht)
  | false => exact .false (kind_of_unplaced ht)

theorem Yields.unary (h : Yields e) {o : Token} (ho : o.kind ∈ signs) (s : Span) :
    Yields (.unary o e s) := by
  intro n ts hts
  obtain ⟨_, us, rfl, hsign, hus⟩ := Printed.shows_append.1 hts
  obtain ⟨operator, rfl, hoperator⟩ := Printed.shows_kind.1 hsign
  obtain ⟨m, rfl, hoperand⟩ := Printed.shows_deeper.1 hus
  obtain ⟨e', he, heq⟩ := h.operandOfPower hoperand
  refine ⟨.unary operator e' ⟨operator.start, e'.stop⟩, ?_, ?_⟩
  · exact .unary (kind_of_unplaced hoperator ▸ ho) he
  · rw [Redraw.expr, Expr.respelled, hoperator, heq]
    rfl

theorem Yields.binary {l r : Expr} (hl : Yields l) (hr : Yields r) {o : Token}
    (ho : o.kind.isBinary) (s : Span) : Yields (.binary l o r s) := by
  intro n ts hts
  obtain ⟨τ, hτ, hpower⟩ := tier_of_isBinary ho
  obtain ⟨_, vs, rfl, hfirst, hvs⟩ := Printed.shows_append.1 hts
  obtain ⟨us, _, rfl, hus, hsign⟩ := Printed.shows_append.1 hfirst
  obtain ⟨operator, rfl, hoperator⟩ := Printed.shows_kind.1 hsign
  obtain ⟨m, rfl, hright⟩ := Printed.shows_deeper.1 hvs
  obtain ⟨l', hl', heql⟩ := hl.operandOfPower hus
  obtain ⟨r', hr', heqr⟩ := hr.operandAbove hright
  rw [hpower, ofPower_power] at hl'
  rw [hpower, above_power] at hr'
  refine ⟨.binary l' operator r' ⟨l'.start, r'.stop⟩, ?_, ?_⟩
  · rw [Expr.power, hpower, ofPower_power, List.append_assoc]
    exact .binary hl' (kind_of_unplaced hoperator ▸ hτ) hr'
  · rw [Redraw.expr, Expr.respelled, hoperator, heql, heqr]
    rfl

theorem Yields.assign (h : Yields e) (x : Name) {o : Token} (ho : o.kind.isCompound) (s : Span) :
    Yields (.assign x o e s) := by
  intro n ts hts
  obtain ⟨_, us, rfl, hfirst, hus⟩ := Printed.shows_append.1 hts
  obtain ⟨_, _, rfl, hx, hsign⟩ := Printed.shows_append.1 hfirst
  obtain ⟨t, rfl, ht⟩ := shows_name.1 hx
  obtain ⟨operator, rfl, hoperator⟩ := Printed.shows_kind.1 hsign
  obtain ⟨m, rfl, hvalue⟩ := Printed.shows_deeper.1 hus
  obtain ⟨e', he, heq⟩ := h.whole hvalue
  have hk : t.kind = .identifier := congrArg Token.kind ht
  refine ⟨.assign ⟨t⟩ operator e' ⟨t.start, e'.stop⟩, ?_, ?_⟩
  · exact .assign (.targetName hk) (kind_of_unplaced hoperator ▸ ho) he
  · rw [Redraw.expr, Expr.respelled, hoperator, heq, Redraw.name, ht]
    rfl

theorem Yields.call {f : Expr} {es : List Expr} (hf : Yields f) (hes : ∀ e ∈ es, Yields e)
    (t : Token) (s : Span) : Yields (.call f t es s) := by
  intro n ts hts
  obtain ⟨us, _, rfl, hus, harguments⟩ := Printed.shows_append.1 hts
  obtain ⟨opening, vs, closing, rfl, ho, hvs, hc⟩ := Printed.shows_parenthesized.1 harguments
  obtain ⟨f', hf', heqf⟩ := hf.operandOfPower hus
  obtain ⟨gs, hgs, heqs⟩ := derives_arguments hes hvs
  refine ⟨.call f' opening gs ⟨f'.start, closing.stop⟩, ?_, ?_⟩
  · exact .call hf' (kind_of_unplaced ho) hgs (kind_of_unplaced hc)
  · rw [Redraw.expr, Expr.respelled, ho, heqf, heqs]
    rfl

/-! ### Blocks and what is made of them -/

/-- The same for a block. -/
def YieldsBlock (b : Block) : Prop :=
  ∀ n ts, b.printed.Shows n ts →
    ∃ b', Derives n (.block b') ts ∧ unplaced.block b' = b.respelled

theorem Yields.function {b : Block} (hb : YieldsBlock b) (t : Token) (xs : List Name) (s : Span) :
    Yields (.function t xs b s) := by
  intro n ts hts
  obtain ⟨_, vs, rfl, hfirst, hvs⟩ := Printed.shows_append.1 hts
  obtain ⟨_, _, rfl, hkeyword, hparameters⟩ := Printed.shows_append.1 hfirst
  obtain ⟨keyword, rfl, hk⟩ := Printed.shows_kind.1 hkeyword
  obtain ⟨opening, us, closing, rfl, ho, hus, hc⟩ := Printed.shows_parenthesized.1 hparameters
  obtain ⟨ys, hys, heqs⟩ := derives_parameters hus
  obtain ⟨b', hb', heqb⟩ := hb _ _ hvs
  refine ⟨.function keyword ys b' ⟨keyword.start, b'.span.stop⟩, .primary ?_, ?_⟩
  · simpa using .function (kind_of_unplaced hk) (kind_of_unplaced ho) hys (kind_of_unplaced hc) hb'
  · rw [Redraw.expr, Expr.respelled, hk, heqs, heqb]
    rfl

theorem Yields.conditional {c : Expr} {b : Block} {a : Option Block} (hc : Yields c)
    (hb : YieldsBlock b) (ha : ∀ b ∈ a, YieldsBlock b) (t : Token) (s : Span) :
    Yields (.conditional t c b a s) := by
  intro n ts hts
  obtain ⟨_, vs, rfl, hfirst, hvs⟩ := Printed.shows_append.1 hts
  obtain ⟨_, us, rfl, hhead, hus⟩ := Printed.shows_append.1 hfirst
  obtain ⟨_, _, rfl, hkeyword, hcondition⟩ := Printed.shows_append.1 hhead
  obtain ⟨keyword, rfl, hk⟩ := Printed.shows_kind.1 hkeyword
  obtain ⟨opening, cs, closing, rfl, ho, hcs, hclosing⟩ :=
    Printed.shows_parenthesized.1 hcondition
  obtain ⟨m, rfl, hinner⟩ := Printed.shows_deeper.1 hcs
  obtain ⟨c', hc', heqc⟩ := hc.whole hinner
  obtain ⟨b', hb', heqb⟩ := hb _ _ hus
  cases a with
  | none =>
    obtain rfl := Printed.shows_empty.1 hvs
    refine ⟨.conditional keyword c' b' none ⟨keyword.start, b'.span.stop⟩, .primary ?_, ?_⟩
    · simpa using .conditional (kind_of_unplaced hk) (kind_of_unplaced ho) hc'
        (kind_of_unplaced hclosing) hb'
    · rw [Redraw.expr, Expr.respelled, hk, heqc, heqb, Redraw.blockOption, Block.respelledOption]
      rfl
  | some a =>
    obtain ⟨_, ws, rfl, helse, hws⟩ := Printed.shows_append.1 hvs
    obtain ⟨otherwise, rfl, hotherwise⟩ := Printed.shows_kind.1 helse
    obtain ⟨a', ha', heqa⟩ := ha a rfl _ _ hws
    refine ⟨.conditional keyword c' b' (some a') ⟨keyword.start, a'.span.stop⟩, .primary ?_, ?_⟩
    · simpa using .conditionalElse (kind_of_unplaced hk) (kind_of_unplaced ho) hc'
        (kind_of_unplaced hclosing) hb' (kind_of_unplaced hotherwise) ha'
    · rw [Redraw.expr, Expr.respelled, hk, heqc, heqb, Redraw.blockOption, Block.respelledOption,
        heqa]
      rfl

/-! ### Statements -/

/-- The same for a statement: it ends before what follows, whatever that is. -/
def YieldsStatement (s : Stmt) : Prop :=
  ∀ n ts, s.printed.Shows n ts →
    ∃ s', Derives n (.statement s' false) ts ∧ unplaced.stmt s' = s.respelled

def YieldsStatements (ss : List Stmt) : Prop :=
  ∀ n ts, (Stmt.printedAll ss).Shows n ts →
    ∃ ss', Derives n (.statements ss') ts ∧ unplaced.stmts ss' = Stmt.respelledAll ss

theorem Yields.binding (h : Yields e) (t : Token) (x : Name) (s : Span) :
    YieldsStatement (.binding t x e s) := by
  intro n ts hts
  obtain ⟨_, _, rfl, hfirst, hend⟩ := Printed.shows_append.1 hts
  obtain ⟨_, us, rfl, hhead, hus⟩ := Printed.shows_append.1 hfirst
  obtain ⟨_, _, rfl, hbound, hsign⟩ := Printed.shows_append.1 hhead
  obtain ⟨_, _, rfl, hkeyword, hname⟩ := Printed.shows_append.1 hbound
  obtain ⟨keyword, rfl, hk⟩ := Printed.shows_kind.1 hkeyword
  obtain ⟨t, rfl, ht⟩ := shows_name.1 hname
  obtain ⟨sign, rfl, hs⟩ := Printed.shows_kind.1 hsign
  obtain ⟨semicolon, rfl, hsemicolon⟩ := Printed.shows_kind.1 hend
  obtain ⟨m, rfl, hvalue⟩ := Printed.shows_deeper.1 hus
  obtain ⟨e', he, heq⟩ := h.whole hvalue
  refine ⟨.binding keyword ⟨t⟩ e' (.covering keyword (t :: sign :: (us ++ [semicolon]))), ?_, ?_⟩
  · simpa using .binding (kind_of_unplaced hk) (congrArg Token.kind ht) (kind_of_unplaced hs) he
      (.semicolon (kind_of_unplaced hsemicolon))
  · rw [Redraw.stmt, Stmt.respelled, hk, heq, Redraw.name, ht]
    rfl

theorem Yields.returning (h : Yields e) (t : Token) (s : Span) :
    YieldsStatement (.returning t e s) := by
  intro n ts hts
  obtain ⟨_, _, rfl, hfirst, hend⟩ := Printed.shows_append.1 hts
  obtain ⟨_, us, rfl, hkeyword, hus⟩ := Printed.shows_append.1 hfirst
  obtain ⟨keyword, rfl, hk⟩ := Printed.shows_kind.1 hkeyword
  obtain ⟨semicolon, rfl, hsemicolon⟩ := Printed.shows_kind.1 hend
  obtain ⟨m, rfl, hvalue⟩ := Printed.shows_deeper.1 hus
  obtain ⟨e', he, heq⟩ := h.whole hvalue
  refine ⟨.returning keyword e' (.covering keyword (us ++ [semicolon])), ?_, ?_⟩
  · simpa using .returning (kind_of_unplaced hk) he (.semicolon (kind_of_unplaced hsemicolon))
  · rw [Redraw.stmt, Stmt.respelled, hk, heq]
    rfl

theorem Yields.expression (h : Yields e) (t : Token) (s : Span) :
    YieldsStatement (.expression t e s) := by
  intro n ts hts
  obtain ⟨_, _, rfl, hus, hend⟩ := Printed.shows_append.1 hts
  obtain ⟨semicolon, rfl, hsemicolon⟩ := Printed.shows_kind.1 hend
  obtain ⟨m, rfl, hvalue⟩ := Printed.shows_deeper.1 hus
  obtain ⟨e', he, heq⟩ := h.whole hvalue
  obtain ⟨first, rest, rfl, -⟩ := he.starts (.inl ⟨_, rfl⟩)
  refine ⟨.expression first e' (.covering first (rest ++ [semicolon])), ?_, ?_⟩
  · simpa using .expression he (.semicolon (kind_of_unplaced hsemicolon))
  · rw [Redraw.stmt, Stmt.respelled, heq, ← hvalue.1]
    rfl

theorem YieldsBlock.statement {b : Block} (h : YieldsBlock b) : YieldsStatement (.block b) := by
  intro n ts hts
  obtain ⟨b', hb, heq⟩ := h n ts hts
  exact ⟨.block b', .blockStatement hb, by simp [Redraw.stmt, heq]⟩

theorem yields_nil : YieldsStatements [] := by
  intro n ts hts
  obtain rfl := Printed.shows_empty.1 hts
  exact ⟨[], .done, by simp [Redraw.stmts]⟩

theorem YieldsStatement.cons {s : Stmt} {ss : List Stmt} (h : YieldsStatement s)
    (hss : YieldsStatements ss) : YieldsStatements (s :: ss) := by
  intro n ts hts
  obtain ⟨us, vs, rfl, hus, hvs⟩ := Printed.shows_append.1 hts
  obtain ⟨s', hs', heq⟩ := h n us hus
  obtain ⟨ss', hss', heqs⟩ := hss n vs hvs
  exact ⟨s' :: ss', .next hs' (by simp) hss', by simp [Redraw.stmts, heq, heqs]⟩

theorem YieldsStatements.block {ss : List Stmt} (h : YieldsStatements ss) (t : Token) (s : Span) :
    YieldsBlock (.mk t ss s) := by
  intro n ts hts
  obtain ⟨m, rfl, hinner⟩ := Printed.shows_deeper.1 hts
  obtain ⟨_, _, rfl, hfirst, hclosing⟩ := Printed.shows_append.1 hinner
  obtain ⟨_, us, rfl, hopening, hus⟩ := Printed.shows_append.1 hfirst
  obtain ⟨opening, rfl, ho⟩ := Printed.shows_kind.1 hopening
  obtain ⟨closing, rfl, hc⟩ := Printed.shows_kind.1 hclosing
  obtain ⟨ss', hss, heq⟩ := h m us hus
  refine ⟨.mk opening ss' ⟨opening.start, closing.stop⟩, ?_, ?_⟩
  · simpa using .block (kind_of_unplaced ho) hss (kind_of_unplaced hc)
  · rw [Redraw.block, Block.respelled, ho, heq]
    rfl

/-! ### Every proper tree -/

mutual

theorem yields : ∀ {e : Expr}, e.isProper → Yields e
  | .name x, _ => yields_name x
  | .integer t _, h => yields_integer t (by simpa [Expr.isProper] using h)
  | .boolean t b, _ => yields_boolean t b
  | .unary _ _ s, h => by
    simp only [Expr.isProper, Bool.and_eq_true, decide_eq_true_eq] at h
    exact (yields h.2).unary h.1 s
  | .binary _ _ _ s, h => by
    simp only [Expr.isProper, Bool.and_eq_true] at h
    exact (yields h.1.1).binary (yields h.2) h.1.2 s
  | .assign x _ _ s, h => by
    simp only [Expr.isProper, Bool.and_eq_true] at h
    exact (yields h.2).assign x h.1.2 s
  | .conditional t _ _ _ s, h => by
    simp only [Expr.isProper, Bool.and_eq_true] at h
    exact (yields h.1.1).conditional (yieldsBlock h.1.2) (yieldsOption h.2) t s
  | .function t xs _ s, h => by
    simp only [Expr.isProper, Bool.and_eq_true] at h
    exact Yields.function (yieldsBlock h.2) t xs s
  | .call _ t _ s, h => by
    simp only [Expr.isProper, Bool.and_eq_true] at h
    exact (yields h.1).call (yieldsAll h.2) t s

theorem yieldsAll : ∀ {es : List Expr}, Expr.areProper es → ∀ e ∈ es, Yields e
  | [], _ => by simp
  | _ :: _, h => by
    simp only [Expr.areProper, Bool.and_eq_true] at h
    exact List.forall_mem_cons.2 ⟨yields h.1, yieldsAll h.2⟩

theorem yieldsStatement : ∀ {s : Stmt}, s.isProper → YieldsStatement s
  | .binding t x _ s, h => by
    simp only [Stmt.isProper, Bool.and_eq_true] at h
    exact (yields h.2).binding t x s
  | .returning t _ s, h => (yields (by simpa [Stmt.isProper] using h)).returning t s
  | .expression t _ s, h => (yields (by simpa [Stmt.isProper] using h)).expression t s
  | .block _, h => (yieldsBlock (by simpa [Stmt.isProper] using h)).statement

theorem yieldsStatements : ∀ {ss : List Stmt}, Stmt.areProper ss → YieldsStatements ss
  | [], _ => yields_nil
  | _ :: _, h => by
    simp only [Stmt.areProper, Bool.and_eq_true] at h
    exact (yieldsStatement h.1).cons (yieldsStatements h.2)

theorem yieldsBlock : ∀ {b : Block}, b.isProper → YieldsBlock b
  | .mk t _ s, h => YieldsStatements.block (yieldsStatements h) t s

theorem yieldsOption : ∀ {a : Option Block}, Block.isProperOption a → ∀ b ∈ a, YieldsBlock b
  | none, _ => by simp
  | some b, h => by simpa using yieldsBlock (b := b) h

end
end Grammar

/-- A program whose text nests no deeper than the parser allows is what its text is parsed as. -/
theorem parse_text (name : String) (p : Program) (hp : p.isProper)
    (hnesting : p.printed.levels ≤ maxNesting) :
    (parse ⟨name, p.text⟩).diagnostics = [] ∧
      Redraw.unplaced.program (parse ⟨name, p.text⟩).program = p.respelled := by
  obtain ⟨ss, hss, heq⟩ := Grammar.yieldsStatements hp maxNesting
    (tokenize ⟨name, p.text⟩).dropLast ⟨tokenize_text name hp, hnesting⟩
  obtain ⟨hnone, hprogram⟩ := (parseWithin_iff_derives maxNesting ⟨name, p.text⟩ ss).2 hss
  refine ⟨hnone, ?_⟩
  rw [parse, hprogram, Redraw.program, Program.respelled, heq]

/-- The operand of a prefix operator is grouped, and so is a right operand that binds no tighter. -/
theorem parse_text_grouped :
    let a := Expr.name ⟨.unplaced .identifier "a"⟩
    let sum := Expr.binary a (.fixed .plus) a .nowhere
    let negated := Expr.unary (.fixed .dash) sum .nowhere
    let difference := Expr.binary negated (.fixed .dash) sum .nowhere
    let p : Program := ⟨[.expression (.fixed .dash) difference .nowhere]⟩
    p.text = "- ( a + a ) - ( a + a ) ;" ∧
    (parse ⟨"shell", p.text⟩).diagnostics = [] ∧
    Redraw.unplaced.program (parse ⟨"shell", p.text⟩).program = p.respelled :=
  ⟨by decide, parse_text "shell" _ (by decide) (by decide)⟩

end LetLang
