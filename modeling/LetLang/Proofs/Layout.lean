import LetLang.Proofs.Braces
import LetLang.Proofs.Grammar

/-! How a tree lies over the tokens of a source, mistakes and all.

`Laid ds φ ts`: the tokens `ts` are what the part `φ` of a tree was made from.
Unlike a derivation of the grammar this leaves room for mistakes: between the
statements of a list there may be tokens of which nothing was made, as long as one
of the diagnostics `ds` is about them (`Charged`). It says nothing about how
operators bind. What it does say is where every token of a tree comes from, so the
start of an expression is the start of one of its tokens (`Laid.root`), and every
block of a tree lies between its own braces (`Laid.blocks`). -/
namespace LetLang
open Token (Kind)
open Grammar (Ending Tier signs)
open LetLang.Parser (Balanced)

/-! ### The blocks of a tree -/

mutual

def Expr.blocks : Expr → List Block
  | .name _ | .integer _ _ | .boolean _ _ => []
  | .unary _ e _ => e.blocks
  | .binary l _ r _ => l.blocks ++ r.blocks
  | .assign _ _ e _ => e.blocks
  | .conditional _ c b a _ => c.blocks ++ b.blocks ++ Block.blocksOption a
  | .function _ _ b _ => b.blocks
  | .call f _ es _ => f.blocks ++ Expr.blocksAll es

def Expr.blocksAll : List Expr → List Block
  | [] => []
  | e :: es => e.blocks ++ Expr.blocksAll es

def Stmt.blocks : Stmt → List Block
  | .binding _ _ e _ => e.blocks
  | .returning _ e _ => e.blocks
  | .expression _ e _ => e.blocks
  | .block b => b.blocks

def Stmt.blocksAll : List Stmt → List Block
  | [] => []
  | s :: ss => s.blocks ++ Stmt.blocksAll ss

/-- The block itself, and those in it. -/
def Block.blocks : Block → List Block
  | .mk t ss s => .mk t ss s :: Stmt.blocksAll ss

def Block.blocksOption : Option Block → List Block
  | none => []
  | some b => b.blocks

end

/-- All blocks of the program, at any depth. -/
def Program.blocks (p : Program) : List Block := Stmt.blocksAll p.statements

/-! ### Parts and their tokens -/

/-- Nothing was made of the tokens of the run, and unless there are none one of the diagnostics is
about one of them or about the token after them. -/
def Charged (ds : List Diagnostic) (run : List Token) (next : Token) : Prop :=
  run = [] ∨ ∃ d ∈ ds, ∃ x ∈ run ++ [next], d.position = x.start

/-- What a run of tokens may have been made into. -/
inductive Part where
  /-- A list of statements, with the token that comes after its tokens. -/
  | statements (ss : List Stmt) (next : Token)
  | statement (s : Stmt)
  | block (b : Block)
  | expression (e : Expr)
  | arguments (es : List Expr)
  /-- Arguments with a comma before each of them. -/
  | moreArguments (es : List Expr)
  | parameters (xs : List Name)
  /-- Parameters with a comma before each of them. -/
  | moreParameters (xs : List Name)

inductive Laid (ds : List Diagnostic) : Part → List Token → Prop where
  /- statements -/
  | done {run next} : Charged ds run next → Laid ds (.statements [] next) run
  | next {run s ss first ts rest next} :
      Charged ds run first → Laid ds (.statement s) (first :: ts) →
      Laid ds (.statements ss next) rest →
      Laid ds (.statements (s :: ss) next) (run ++ (first :: ts ++ rest))
  | binding {keyword name sign e ts ending bare} :
      keyword.kind = .kwLet → name.kind = .identifier → sign.kind = .assignment →
      Laid ds (.expression e) ts → Ending ending bare →
      Laid ds (.statement (.binding keyword ⟨name⟩ e
        (.covering keyword (name :: sign :: (ts ++ ending)))))
        (keyword :: name :: sign :: (ts ++ ending))
  | returning {keyword e ts ending bare} :
      keyword.kind = .kwReturn → Laid ds (.expression e) ts → Ending ending bare →
      Laid ds (.statement (.returning keyword e (.covering keyword (ts ++ ending))))
        (keyword :: (ts ++ ending))
  | expressionStatement {e first ts ending bare} :
      Laid ds (.expression e) (first :: ts) → Ending ending bare →
      Laid ds (.statement (.expression first e (.covering first (ts ++ ending))))
        (first :: (ts ++ ending))
  | blockStatement {b ts} : Laid ds (.block b) ts → Laid ds (.statement (.block b)) ts
  | block {opening ss region closing} :
      opening.kind = .openCurly → closing.kind = .closeCurly → Balanced region →
      Laid ds (.statements ss closing) region →
      Laid ds (.block (.mk opening ss ⟨opening.start, closing.stop⟩))
        (opening :: (region ++ [closing]))
  /- expressions -/
  | name {t} : t.kind = .identifier → Laid ds (.expression (.name ⟨t⟩)) [t]
  | integer {t} :
      t.kind = .integer → t.value ≤ Parser.maxInteger →
      Laid ds (.expression (.integer t t.value)) [t]
  | true {t} : t.kind = .kwTrue → Laid ds (.expression (.boolean t .true)) [t]
  | false {t} : t.kind = .kwFalse → Laid ds (.expression (.boolean t .false)) [t]
  | group {e opening closing ts} :
      opening.kind = .openParen → Laid ds (.expression e) ts → closing.kind = .closeParen →
      Laid ds (.expression e) (opening :: (ts ++ [closing]))
  | unary {operator e ts} :
      operator.kind ∈ signs → Laid ds (.expression e) ts →
      Laid ds (.expression (.unary operator e ⟨operator.start, e.stop⟩)) (operator :: ts)
  | binary {τ : Tier} {l r operator ts us} :
      Laid ds (.expression l) ts → operator.kind ∈ τ.operators → Laid ds (.expression r) us →
      Laid ds (.expression (.binary l operator r ⟨l.start, r.stop⟩)) (ts ++ operator :: us)
  | assign {x operator e ts us} :
      Laid ds (.expression (.name x)) ts → operator.kind.isCompound → Laid ds (.expression e) us →
      Laid ds (.expression (.assign x operator e ⟨x.token.start, e.stop⟩)) (ts ++ operator :: us)
  | call {f es opening closing ts us} :
      Laid ds (.expression f) ts → opening.kind = .openParen → Laid ds (.arguments es) us →
      closing.kind = .closeParen →
      Laid ds (.expression (.call f opening es ⟨f.start, closing.stop⟩))
        (ts ++ opening :: (us ++ [closing]))
  | conditional {keyword opening closing c b ts us} :
      keyword.kind = .kwIf → opening.kind = .openParen → Laid ds (.expression c) ts →
      closing.kind = .closeParen → Laid ds (.block b) us →
      Laid ds (.expression (.conditional keyword c b none ⟨keyword.start, b.span.stop⟩))
        (keyword :: opening :: (ts ++ closing :: us))
  | conditionalElse {keyword opening closing c b otherwise b' ts us vs} :
      keyword.kind = .kwIf → opening.kind = .openParen → Laid ds (.expression c) ts →
      closing.kind = .closeParen → Laid ds (.block b) us → otherwise.kind = .kwElse →
      Laid ds (.block b') vs →
      Laid ds (.expression (.conditional keyword c b (some b') ⟨keyword.start, b'.span.stop⟩))
        (keyword :: opening :: (ts ++ closing :: (us ++ otherwise :: vs)))
  | function {keyword opening closing xs b ts us} :
      keyword.kind = .kwFn → opening.kind = .openParen → Laid ds (.parameters xs) ts →
      closing.kind = .closeParen → Laid ds (.block b) us →
      Laid ds (.expression (.function keyword xs b ⟨keyword.start, b.span.stop⟩))
        (keyword :: opening :: (ts ++ closing :: us))
  /- lists with commas -/
  | noArguments : Laid ds (.arguments []) []
  | arguments {e es ts us} :
      Laid ds (.expression e) ts → Laid ds (.moreArguments es) us →
      Laid ds (.arguments (e :: es)) (ts ++ us)
  | noMoreArguments : Laid ds (.moreArguments []) []
  | moreArguments {comma e es ts us} :
      comma.kind = .comma → Laid ds (.expression e) ts → Laid ds (.moreArguments es) us →
      Laid ds (.moreArguments (e :: es)) (comma :: (ts ++ us))
  | noParameters : Laid ds (.parameters []) []
  | parameters {t xs us} :
      t.kind = .identifier → Laid ds (.moreParameters xs) us →
      Laid ds (.parameters (⟨t⟩ :: xs)) (t :: us)
  | noMoreParameters : Laid ds (.moreParameters []) []
  | moreParameters {comma t xs us} :
      comma.kind = .comma → t.kind = .identifier → Laid ds (.moreParameters xs) us →
      Laid ds (.moreParameters (⟨t⟩ :: xs)) (comma :: t :: us)

variable {ds : List Diagnostic} {φ : Part} {ts : List Token}

/-! ### More diagnostics -/

theorem Charged.mono {es : List Diagnostic} (hsub : ds ⊆ es) {run : List Token} {next : Token}
    (h : Charged ds run next) : Charged es run next :=
  h.imp_right fun ⟨d, hd, hx⟩ => ⟨d, hsub hd, hx⟩

theorem Laid.mono {es : List Diagnostic} (hsub : ds ⊆ es) (h : Laid ds φ ts) : Laid es φ ts := by
  induction h with
  | done hrun => exact .done (hrun.mono hsub)
  | next hrun _ _ ih ih' => exact .next (hrun.mono hsub) ih ih'
  | _ => constructor <;> assumption

/-! ### More tokens that were left out -/

theorem Charged.append {run run' : List Token} {first next : Token} (h : Charged ds run first)
    (h' : Charged ds run' next) (hfirst : (run' ++ [next]).head? = some first) :
    Charged ds (run ++ run') next := by
  rcases h with rfl | ⟨d, hd, x, hx, hposition⟩
  · exact h'
  · refine .inr ⟨d, hd, x, ?_, hposition⟩
    rw [List.append_assoc]
    rcases List.mem_append.1 hx with hx | hx
    · exact List.mem_append_left _ hx
    · rw [List.mem_singleton.1 hx]
      exact List.mem_append_right _ (List.mem_of_mem_head? hfirst)

/-- Tokens in front of a list of statements of which nothing was made. -/
theorem Laid.skip {run : List Token} {first next : Token} {ss : List Stmt}
    (h : Laid ds (.statements ss next) ts) (hrun : Charged ds run first)
    (hfirst : (ts ++ [next]).head? = some first) : Laid ds (.statements ss next) (run ++ ts) := by
  cases h with
  | done hrun' => exact .done (hrun.append hrun' hfirst)
  | @next run' s ss x us rest next hrun' hs hss =>
    have hx : (run' ++ [x]).head? = some first := by
      cases run' with
      | nil => simpa using hfirst
      | cons y ys => simpa using hfirst
    rw [← List.append_assoc]
    exact .next (hrun.append hrun' hx) hs hss

/-! ### Where expressions start -/

/-- An expression starts with one of its tokens, and is named for that one or for one after it. The
tokens before it are parentheses. -/
theorem Laid.root {e : Expr} (h : Laid ds (.expression e) ts) :
    ∃ before x after, ts = before ++ x :: after ∧ e.start = x.start ∧ e.token ∈ x :: after := by
  generalize hφ : Part.expression e = φ at h
  induction h generalizing e with
  | @name t | @integer t | @true t | @false t =>
    cases hφ
    exact ⟨[], t, [], rfl, rfl, by simp [Expr.token]⟩
  | @group _ opening closing _ _ _ _ ih =>
    cases hφ
    obtain ⟨before, x, after, rfl, hstart, htoken⟩ := ih rfl
    refine ⟨opening :: before, x, after ++ [closing], by simp, hstart, ?_⟩
    exact List.mem_append_left [closing] htoken
  | @unary operator _ us _ _ _ =>
    cases hφ
    exact ⟨[], operator, us, rfl, rfl, List.mem_cons_self⟩
  | @binary _ l r operator _ us _ _ _ ih =>
    cases hφ
    obtain ⟨before, x, after, rfl, hstart, -⟩ := ih rfl
    exact ⟨before, x, after ++ operator :: us, by simp, hstart, by simp [Expr.token]⟩
  | @assign x operator e _ us _ _ _ ih =>
    cases hφ
    obtain ⟨before, x, after, rfl, hstart, -⟩ := ih rfl
    exact ⟨before, x, after ++ operator :: us, by simp, hstart, by simp [Expr.token]⟩
  | @call f _ opening closing _ us _ _ _ _ ih =>
    cases hφ
    obtain ⟨before, x, after, rfl, hstart, -⟩ := ih rfl
    exact ⟨before, x, after ++ opening :: (us ++ [closing]), by simp, hstart, by simp [Expr.token]⟩
  | @conditional keyword | @conditionalElse keyword | @function keyword =>
    cases hφ
    exact ⟨[], keyword, _, rfl, rfl, List.mem_cons_self⟩
  | _ => cases hφ

/-! ### Where blocks lie -/

/-- The tokens of the region stand between the braces of the block. -/
structure Block.Encloses (b : Block) (region : List Token) (closing : Token) : Prop where
  opens : b.token.kind = .openCurly
  closes : closing.kind = .closeCurly
  span : b.span = ⟨b.token.start, closing.stop⟩
  balanced : Balanced region

/-- The block lies somewhere among the tokens, and its statements between its braces. -/
def Block.LiesIn (ds : List Diagnostic) (ts : List Token) (b : Block) : Prop :=
  ∃ before region closing after, ts = before ++ b.token :: (region ++ closing :: after) ∧
    b.Encloses region closing ∧ Laid ds (.statements b.statements closing) region

theorem Block.LiesIn.among {b : Block} (h : b.LiesIn ds ts) (xs ys : List Token) :
    b.LiesIn ds (xs ++ (ts ++ ys)) := by
  obtain ⟨before, region, closing, after, rfl, hb⟩ := h
  exact ⟨xs ++ before, region, closing, after ++ ys, by simp, hb⟩

def Part.blocks : Part → List Block
  | statements ss _ => Stmt.blocksAll ss
  | statement s => s.blocks
  | block b => b.blocks
  | expression e => e.blocks
  | arguments es | moreArguments es => Expr.blocksAll es
  | parameters _ | moreParameters _ => []

theorem Laid.blocks (h : Laid ds φ ts) : ∀ b ∈ φ.blocks, b.LiesIn ds ts := by
  induction h with
  | @next run s ss first ts rest _ _ _ _ ih ih' =>
    intro b hb
    simp only [Part.blocks, Stmt.blocksAll, List.mem_append] at hb
    rcases hb with hb | hb
    · exact (ih b hb).among run rest
    · simpa using (ih' b hb).among (run ++ first :: ts) []
  | @block opening ss region closing ho hc hregion hss ih =>
    intro b hb
    rcases List.mem_cons.1 hb with rfl | hb
    · exact ⟨[], region, closing, [], rfl, ⟨ho, hc, rfl, hregion⟩, hss⟩
    · exact (ih b hb).among [opening] [closing]
  | @binding keyword name sign e ts ending _ _ _ _ _ _ ih =>
    intro b hb
    exact (ih b hb).among [keyword, name, sign] ending
  | @returning keyword e ts ending _ _ _ _ ih =>
    intro b hb
    exact (ih b hb).among [keyword] ending
  | @expressionStatement e first ts ending _ _ _ ih =>
    intro b hb
    exact (ih b hb).among [] ending
  | blockStatement _ ih => exact ih
  | @group e opening closing ts _ _ _ ih =>
    intro b hb
    exact (ih b hb).among [opening] [closing]
  | @unary operator e ts _ _ ih =>
    intro b hb
    simpa using (ih b hb).among [operator] []
  | @binary _ l r operator ts us _ _ _ ih ih' =>
    intro b hb
    simp only [Part.blocks, Expr.blocks, List.mem_append] at hb
    rcases hb with hb | hb
    · exact (ih b hb).among [] (operator :: us)
    · simpa using (ih' b hb).among (ts ++ [operator]) []
  | @assign x operator e ts us _ _ _ _ ih =>
    intro b hb
    simpa using (ih b hb).among (ts ++ [operator]) []
  | @call f es opening closing ts us _ _ _ _ ih ih' =>
    intro b hb
    simp only [Part.blocks, Expr.blocks, List.mem_append] at hb
    rcases hb with hb | hb
    · exact (ih b hb).among [] (opening :: (us ++ [closing]))
    · simpa using (ih' b hb).among (ts ++ [opening]) [closing]
  | @conditional keyword opening closing c b ts us _ _ _ _ _ ih ih' =>
    intro b hb
    simp only [Part.blocks, Expr.blocks, Block.blocksOption, List.append_nil, List.mem_append] at hb
    rcases hb with hb | hb
    · exact (ih b hb).among [keyword, opening] (closing :: us)
    · simpa using (ih' b hb).among (keyword :: opening :: ts ++ [closing]) []
  | @conditionalElse keyword opening closing c b otherwise b' ts us vs _ _ _ _ _ _ _ ih ih' ih'' =>
    intro b hb
    simp only [Part.blocks, Expr.blocks, Block.blocksOption, List.mem_append] at hb
    rcases hb with (hb | hb) | hb
    · exact (ih b hb).among [keyword, opening] (closing :: (us ++ otherwise :: vs))
    · simpa using (ih' b hb).among (keyword :: opening :: ts ++ [closing]) (otherwise :: vs)
    · simpa using (ih'' b hb).among (keyword :: opening :: ts ++ closing :: us ++ [otherwise]) []
  | @function keyword opening closing xs b ts us _ _ _ _ _ _ ih =>
    intro b hb
    simpa using (ih b hb).among (keyword :: opening :: ts ++ [closing]) []
  | @arguments e es ts us _ _ ih ih' =>
    intro b hb
    simp only [Part.blocks, Expr.blocksAll, List.mem_append] at hb
    rcases hb with hb | hb
    · exact (ih b hb).among [] us
    · simpa using (ih' b hb).among ts []
  | @moreArguments comma e es ts us _ _ _ ih ih' =>
    intro b hb
    simp only [Part.blocks, Expr.blocksAll, List.mem_append] at hb
    rcases hb with hb | hb
    · exact (ih b hb).among [comma] us
    · simpa using (ih' b hb).among (comma :: ts) []
  | _ =>
    intro b hb
    cases hb

end LetLang
