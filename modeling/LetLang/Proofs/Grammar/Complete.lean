import LetLang.Proofs.Accepts
import LetLang.Proofs.Grammar.Tightness

/-! What is derived is accepted.

By induction on the derivation, every construct of the parser, put in front of a
phrase and of something that the phrase cannot go on with, reads the phrase and
finds its tree. For an expression the induction says more (`Grows`): the operator
loop, started before the phrase, comes to where it has the tree and the phrase is
consumed. So the phrase may also be the left operand of what follows. -/
namespace LetLang

/-- The kind of the first token, or of the end where there is none. -/
def Token.leading : List Token → Kind
  | [] => .eof
  | t :: _ => t.kind

namespace Parser
open Grammar
open Token (Kind leading)

theorem State.current_kind (s : State) : s.current.kind = leading s.ahead := by
  cases h : s.ahead with
  | nil => simp [State.current, h, State.endToken, Token.endOfInput, leading]
  | cons t ts => simp [State.current, h, leading]

variable {α β : Type}

/-- In front of `ts` and `rest`, it reads `ts` and finds what `f` makes of the place where it
stops. -/
def Makes (p : Parser α) (f : Position → α) (ts rest : List Token) : Prop :=
  ∀ s : State, s.ahead = ts ++ rest → ∃ t, p.Accepts s (f t.lastEnd) t ∧ Reads s ts t ∧ t.ahead = rest

/-- In front of `ts` and `rest`, it reads `ts` and finds `a`. -/
def Takes (p : Parser α) (a : α) (ts rest : List Token) : Prop := p.Makes (fun _ => a) ts rest

/-! ### One after the other -/

theorem Takes.bind {p : Parser α} {f : α → Parser β} {a : α} {g : Position → β}
    {ts us rest : List Token} (hp : p.Takes a ts (us ++ rest)) (hf : (f a).Makes g us rest) :
    (p >>= f).Makes g (ts ++ us) rest := by
  intro s hs
  obtain ⟨t, ht, hr, ha⟩ := hp s (by rw [hs, List.append_assoc])
  obtain ⟨u, hu, hr', ha'⟩ := hf t ha
  exact ⟨u, accepts_bind.2 ⟨a, t, ht, hu⟩, hr.trans hr', ha'⟩

theorem Makes.takes {p : Parser α} {g : Position → α} {ts rest : List Token} {stop : Position}
    (h : p.Makes g ts rest) (hstop : ts.getLast?.map Token.stop = some stop) :
    p.Takes (g stop) ts rest := by
  intro s hs
  obtain ⟨t, ht, hr, ha⟩ := h s hs
  have hlast : t.lastEnd = stop := by simp [hr.lastEnd, hstop]
  exact ⟨t, hlast ▸ ht, hr, ha⟩

theorem takes_pure (a : α) (rest : List Token) : (pure a : Parser α).Takes a [] rest :=
  fun s hs => ⟨s, accepts_pure.2 ⟨rfl, rfl⟩, .nil s, hs⟩

theorem Takes.map {p : Parser α} {a : α} {ts rest : List Token} (h : p.Takes a ts rest)
    (f : α → β) : (p >>= fun a => pure (f a)).Takes (f a) ts rest := by
  intro s hs
  obtain ⟨t, ht, hr, ha⟩ := h s hs
  exact ⟨t, accepts_bind.2 ⟨a, t, ht, accepts_pure.2 ⟨rfl, rfl⟩⟩, hr, ha⟩

theorem Takes.mapEnd {p : Parser α} {a : α} {ts rest : List Token} (h : p.Takes a ts rest)
    (f : α → Position → β) :
    (p >>= fun a => lastEnd >>= fun stop => pure (f a stop)).Makes (f a) ts rest := by
  intro s hs
  obtain ⟨t, ht, hr, ha⟩ := h s hs
  exact ⟨t, accepts_bind.2 ⟨a, t, ht, accepts_bind.2 ⟨_, t, accepts_lastEnd.2 ⟨rfl, rfl⟩,
    accepts_pure.2 ⟨rfl, rfl⟩⟩⟩, hr, ha⟩

theorem takes_advance (x : Token) (rest : List Token) : advance.Takes x [x] rest := by
  intro s hs
  refine ⟨s.advance, accepts_advance.2 ⟨(State.current_of_ahead hs).symm, rfl⟩, .advance hs, ?_⟩
  simp [hs]

theorem takes_expect {kind : Kind} {x : Token} (hx : x.kind = kind) (rest : List Token) :
    (expect kind).Takes x [x] rest := by
  intro s hs
  have hc := State.current_of_ahead hs
  exact ⟨s.advance, accepts_expect.2 ⟨hc ▸ hx, hc.symm, rfl⟩, .advance hs, by simp [hs]⟩

theorem takes_skip {kind : Kind} {x : Token} (hx : x.kind = kind) (rest : List Token) :
    (skip kind).Takes true [x] rest := by
  intro s hs
  have hc := State.current_of_ahead hs
  exact ⟨s.advance, accepts_skip.2 (.inl ⟨hc ▸ hx, rfl, rfl⟩), .advance hs, by simp [hs]⟩

theorem takes_no_skip {kind : Kind} {rest : List Token} (h : leading rest ≠ kind) :
    (skip kind).Takes false [] rest := by
  intro s hs
  refine ⟨s, accepts_skip.2 (.inr ⟨?_, rfl, rfl⟩), .nil s, hs⟩
  rwa [State.current_kind, hs, List.nil_append]

/-- A choice by the current token is made before anything is consumed. -/
theorem Makes.after_current {f : Token → Parser α} {g : Position → α} {x : Token}
    {ts rest : List Token} (h : (f x).Makes g (x :: ts) rest) :
    (current >>= f).Makes g (x :: ts) rest := by
  intro s hs
  obtain ⟨t, ht, hr, ha⟩ := h s hs
  have hc : s.current = x := State.current_of_ahead hs
  exact ⟨t, accepts_bind.2 ⟨x, s, accepts_current.2 ⟨hc.symm, rfl⟩, ht⟩, hr, ha⟩

/-! ### Lists in parentheses -/

section Lists
variable {p : Parser α} {a : α} {as : List α} {ts us rest : List Token}

theorem many_afterComma {s t : State} (hs : s.current.kind = .comma)
    (h : (commaSeparated p).Accepts s.advance as t) :
    (many (afterComma p) (afterComma_advances p)).Accepts s as t := by
  simp only [commaSeparated, accepts_bind, accepts_pure] at h
  obtain ⟨a, u, ha, rest, v, hrest, rfl, rfl⟩ := h
  refine accepts_many.2 (.inr ⟨a, u, rest, ?_, hrest, rfl⟩)
  refine accepts_bind.2 ⟨true, s.advance, accepts_skip.2 (.inl ⟨hs, rfl, rfl⟩), ?_⟩
  exact accepts_bind.2 ⟨a, u, ha, accepts_pure.2 ⟨rfl, rfl⟩⟩

theorem takes_one (h : p.Takes a ts rest) (hrest : leading rest ≠ .comma) :
    (commaSeparated p).Takes [a] ts rest := by
  intro s hs
  obtain ⟨t, ht, hr, ha⟩ := h s hs
  have hc : t.current.kind ≠ .comma := by rwa [State.current_kind, ha]
  refine ⟨t, accepts_bind.2 ⟨a, t, ht, accepts_bind.2 ⟨[], t, ?_, accepts_pure.2 ⟨rfl, rfl⟩⟩⟩, hr, ha⟩
  refine accepts_many.2 (.inl ⟨?_, rfl⟩)
  exact accepts_bind.2 ⟨false, t, accepts_skip.2 (.inr ⟨hc, rfl, rfl⟩), accepts_pure.2 ⟨rfl, rfl⟩⟩

theorem takes_more {comma : Token} (h : p.Takes a ts (comma :: (us ++ rest)))
    (hc : comma.kind = .comma) (has : (commaSeparated p).Takes as us rest) :
    (commaSeparated p).Takes (a :: as) (ts ++ comma :: us) rest := by
  intro s hs
  obtain ⟨t, ht, hr, ha⟩ := h s (by simpa using hs)
  have htc : t.current = comma := State.current_of_ahead ha
  obtain ⟨u, hu, hr', ha'⟩ := has t.advance (by simp [ha])
  refine ⟨u, accepts_bind.2 ⟨a, t, ht, accepts_bind.2 ⟨as, u, ?_, accepts_pure.2 ⟨rfl, rfl⟩⟩⟩, ?_,
    ha'⟩
  · exact many_afterComma (by rw [htc, hc]) hu
  · have hstep := Reads.after (s := t) (by simp [htc, hc]) hr'
    rw [htc] at hstep
    exact hr.trans hstep

theorem takes_nothing (h : leading rest = .closeParen) : (beforeParen p).Takes [] [] rest := by
  intro s hs
  have hk : s.current.kind = .closeParen := by rwa [State.current_kind, hs]
  refine ⟨s, accepts_bind.2 ⟨_, s, accepts_current.2 ⟨rfl, rfl⟩, ?_⟩, .nil s, hs⟩
  rw [if_pos hk]
  exact accepts_pure.2 ⟨rfl, rfl⟩

theorem takes_something {x : Token} (hx : x.kind ≠ .closeParen)
    (h : (commaSeparated p).Takes as (x :: ts) rest) :
    (beforeParen p).Takes as (x :: ts) rest := by
  refine Makes.after_current ?_
  rw [if_neg hx]
  exact h

theorem takes_untilParen {closing : Token} (h : (beforeParen p).Takes as ts (closing :: rest))
    (hc : closing.kind = .closeParen) : (untilParen p).Takes as (ts ++ [closing]) rest := by
  exact Takes.bind h ((takes_expect hc rest).map fun _ => as)

end Lists

/-- In front of `ts` and `rest`, an expression becomes what grows from `e` after `ts`. -/
def Grows (inner : Level) (bound : Power) (e : Expr) (ts rest : List Token) : Prop :=
  ∀ s : State, s.ahead = ts ++ rest → ∃ t, Reads s ts t ∧ t.ahead = rest ∧
    ∀ e' u, (iterate (operatorAbove inner bound) (operatorAbove_advances inner bound) e).Accepts
      t e' u → (expression inner bound).Accepts s e' u

/-- An expression whose operators bind at least as tightly as `p` does not go on with `rest`. -/
structure StopsAt (p : Power) (rest : List Token) : Prop where
  not_else : leading rest ≠ .kwElse
  power : ¬ p < (leading rest).power

/-- A statement, bare or not, does not go on with `rest`. -/
structure Ended (bare : Bool) (rest : List Token) : Prop where
  not_else : leading rest ≠ .kwElse
  not_continues : bare = true → ∀ t ∈ rest.head?, ¬ Continues t

variable {limit n : Nat} {inner : Level}

/-! ### Growing expressions -/

theorem operatorAbove_stops {bound : Power} {s : State} (h : ¬ bound < s.current.kind.power)
    (e : Expr) : (operatorAbove inner bound e).Accepts s none s := by
  refine accepts_bind.2 ⟨_, _, accepts_current.2 ⟨rfl, rfl⟩, ?_⟩
  rw [if_neg h]
  exact accepts_pure.2 ⟨rfl, rfl⟩

theorem iterate_stops {bound : Power} {s : State} (h : ¬ bound < s.current.kind.power) (e : Expr) :
    (iterate (operatorAbove inner bound) (operatorAbove_advances inner bound) e).Accepts s e s := by
  rw [iterate_eq]
  exact accepts_bind.2 ⟨none, s, operatorAbove_stops h e, accepts_pure.2 ⟨rfl, rfl⟩⟩

theorem iterate_goes_on {bound : Power} {s t u : State} {e e' e'' : Expr}
    {p : Expr → Power → Parser Expr} (hb : bound < s.current.kind.power)
    (hp : operator? inner s.current.kind = some p)
    (h : (p e s.current.kind.power).Accepts s e' t)
    (h' : (iterate (operatorAbove inner bound) (operatorAbove_advances inner bound) e').Accepts
      t e'' u) :
    (iterate (operatorAbove inner bound) (operatorAbove_advances inner bound) e).Accepts
      s e'' u := by
  rw [iterate_eq]
  refine accepts_bind.2 ⟨some e', t, ?_, h'⟩
  refine accepts_bind.2 ⟨_, _, accepts_current.2 ⟨rfl, rfl⟩, ?_⟩
  rw [if_pos hb, hp]
  exact accepts_bind.2 ⟨e', t, h, accepts_pure.2 ⟨rfl, rfl⟩⟩

theorem Takes.grows {bound : Power} {e : Expr} {ts rest : List Token}
    (h : (operand inner).Takes e ts rest) : Grows inner bound e ts rest := by
  intro s hs
  obtain ⟨t, ht, hr, ha⟩ := h s hs
  exact ⟨t, hr, ha, fun e' u hu => accepts_bind.2 ⟨e, t, ht, hu⟩⟩

theorem Takes.nest {p : Parser α} {a : α} {ts rest : List Token} (h : p.Takes a ts rest) :
    (nest p).Takes a ts rest := by
  intro s hs
  obtain ⟨t, ht, hr, ha⟩ := h s.opened hs
  exact ⟨t.closed, accepts_nest.2 ⟨t, ht, rfl⟩, hr.nested, ha⟩

theorem Grows.takes {bound : Power} {e : Expr} {ts rest : List Token}
    (h : Grows (level limit n) bound e ts rest) (hb : ¬ bound < (leading rest).power) :
    ((level limit (n + 1)).expr bound).Takes e ts rest := by
  refine Takes.nest (p := expression (level limit n) bound) fun s hs => ?_
  obtain ⟨t, hr, ha, h⟩ := h s hs
  have hstop : ¬ bound < t.current.kind.power := by rwa [State.current_kind, ha]
  exact ⟨t, h _ _ (iterate_stops hstop e), hr, ha⟩

/-- The next operator goes to what has grown so far. -/
theorem Grows.operator {bound : Power} {l e : Expr} {ts us rest : List Token} {o : Token}
    {p : Expr → Power → Parser Expr} (h : Grows inner bound l ts (o :: (us ++ rest)))
    (hb : bound < o.kind.power) (hp : operator? inner o.kind = some p)
    (he : (p l o.kind.power).Takes e (o :: us) rest) :
    Grows inner bound e (ts ++ o :: us) rest := by
  intro s hs
  obtain ⟨t, hr, ha, h⟩ := h s (by simpa using hs)
  have ho : t.current = o := State.current_of_ahead ha
  obtain ⟨u, hu, hr', ha'⟩ := he t ha
  refine ⟨u, hr.trans hr', ha', fun e' v hv => h e' v ?_⟩
  exact iterate_goes_on (ho ▸ hb) (ho ▸ hp) (ho ▸ hu) hv

/-! ### Operands -/

theorem takes_operand {e : Expr} {x : Token} {ts rest : List Token} {p : Parser Expr}
    (hp : operand? inner x.kind = some p) (h : p.Takes e (x :: ts) rest) :
    (operand inner).Takes e (x :: ts) rest := by
  refine Makes.after_current ?_
  rw [hp]
  exact h

theorem takes_after_advance {f : Token → Parser α} {a : α} {x : Token} {rest : List Token}
    (h : (f x).Takes a [] rest) : (advance >>= f).Takes a [x] rest :=
  Takes.bind (takes_advance x _) h

theorem takes_integer {x : Token} (hk : x.kind = .integer) (hv : x.value ≤ maxInteger)
    (rest : List Token) : literal.Takes (.integer x x.value) [x] rest := by
  refine takes_after_advance ?_
  simp only [hk, if_pos hv]
  exact takes_pure _ rest

theorem takes_name {x : Token} (hk : x.kind = .identifier) (rest : List Token) :
    literal.Takes (.name ⟨x⟩) [x] rest := by
  refine takes_after_advance ?_
  simp only [hk]
  exact takes_pure _ rest

theorem takes_true {x : Token} (hk : x.kind = .kwTrue) (rest : List Token) :
    literal.Takes (.boolean x true) [x] rest := by
  refine takes_after_advance ?_
  simp only [hk]
  exact takes_pure _ rest

theorem takes_false {x : Token} (hk : x.kind = .kwFalse) (rest : List Token) :
    literal.Takes (.boolean x false) [x] rest := by
  refine takes_after_advance ?_
  simp only [hk]
  exact takes_pure _ rest

theorem takes_group {e : Expr} {opening closing : Token} {ts rest : List Token}
    (h : (inner.expr .lowest).Takes e ts (closing :: rest)) (hc : closing.kind = .closeParen) :
    (group inner).Takes e (opening :: (ts ++ [closing])) rest := by
  show (group inner).Takes e ([opening] ++ (ts ++ [closing])) rest
  exact Takes.bind (takes_advance _ _) (Takes.bind h ((takes_expect hc rest).map fun _ => e))

theorem takes_unary {e : Expr} {operator : Token} {ts rest : List Token}
    (h : (inner.expr .unary).Takes e ts rest) :
    (unary inner).Takes (.unary operator e ⟨operator.start, e.stop⟩) (operator :: ts) rest :=
  Takes.bind (takes_advance operator _)
    (h.map fun e => Expr.unary operator e ⟨operator.start, e.stop⟩)

theorem takes_alternative {b : Block} {otherwise : Token} {ts rest : List Token}
    (hk : otherwise.kind = .kwElse) (h : inner.block.Takes b ts rest) :
    (alternative inner).Takes (some b) (otherwise :: ts) rest :=
  Takes.bind (takes_skip hk _) (h.map some)

theorem takes_no_alternative {rest : List Token} (h : leading rest ≠ .kwElse) :
    (alternative inner).Takes none [] rest := by
  intro s hs
  obtain ⟨t, ht, hr, ha⟩ := takes_no_skip h s hs
  exact ⟨t, accepts_bind.2 ⟨false, t, ht, accepts_pure.2 ⟨rfl, rfl⟩⟩, hr, ha⟩

theorem makes_conditional (keyword : Token) {c : Expr} {b : Block} {a : Option Block}
    {opening closing : Token} {ts us vs rest : List Token} (ho : opening.kind = .openParen)
    (h : (inner.expr .lowest).Takes c ts (closing :: (us ++ (vs ++ rest))))
    (hc : closing.kind = .closeParen) (hb : inner.block.Takes b us (vs ++ rest))
    (ha : (alternative inner).Takes a vs rest) :
    (conditional inner).Makes (fun stop => .conditional keyword c b a ⟨keyword.start, stop⟩)
      (keyword :: opening :: (ts ++ closing :: (us ++ vs))) rest := by
  have hend := ha.mapEnd fun a stop => Expr.conditional keyword c b a ⟨keyword.start, stop⟩
  have hblock := Takes.bind (f := fun b => alternative inner >>= fun a => lastEnd >>= fun stop =>
    pure (Expr.conditional keyword c b a ⟨keyword.start, stop⟩)) hb hend
  show (conditional inner).Makes _
    ([keyword] ++ ([opening] ++ (ts ++ ([closing] ++ (us ++ vs))))) rest
  refine Takes.bind (takes_advance _ _) (Takes.bind (takes_expect ho _)
    (Takes.bind (a := c) ?_ (Takes.bind (takes_expect hc _) hblock)))
  simpa using h

theorem makes_function (keyword : Token) {xs : List Name} {b : Block} {opening closing : Token}
    {ts us rest : List Token} (ho : opening.kind = .openParen)
    (h : (beforeParen parameter).Takes xs ts (closing :: (us ++ rest)))
    (hc : closing.kind = .closeParen) (hb : inner.block.Takes b us rest) :
    (function inner).Makes (fun stop => .function keyword xs b ⟨keyword.start, stop⟩)
      (keyword :: opening :: (ts ++ closing :: us)) rest := by
  have hend := hb.mapEnd fun b stop => Expr.function keyword xs b ⟨keyword.start, stop⟩
  have hall : (function inner).Makes
      (fun stop => .function keyword xs b ⟨keyword.start, stop⟩)
      ([keyword] ++ ([opening] ++ ((ts ++ [closing]) ++ us))) rest :=
    Takes.bind (takes_advance _ _) (Takes.bind (takes_expect ho _) (Takes.bind
      (takes_untilParen h hc) hend))
  simpa using hall

/-! ### Operators -/

theorem takes_binary {l r : Expr} {power : Power} {operator : Token} {ts rest : List Token}
    (h : (inner.expr power).Takes r ts rest) :
    (binary inner l power).Takes (.binary l operator r ⟨l.start, r.stop⟩) (operator :: ts) rest :=
  Takes.bind (takes_advance operator _)
    (h.map fun r => Expr.binary l operator r ⟨l.start, r.stop⟩)

theorem takes_assignment {x : Name} {e : Expr} {operator : Token} {ts rest : List Token}
    (h : (inner.expr .lowest).Takes e ts rest) :
    (assignment inner (.name x)).Takes (.assign x operator e ⟨x.token.start, e.stop⟩)
      (operator :: ts) rest :=
  Takes.bind (takes_advance operator _)
    (h.map fun e => Expr.assign x operator e ⟨x.token.start, e.stop⟩)

theorem takes_call {f : Expr} {es : List Expr} {opening closing : Token} {ts rest : List Token}
    (h : (beforeParen (inner.expr .lowest)).Takes es ts (closing :: rest))
    (hc : closing.kind = .closeParen) :
    (call inner f).Takes (.call f opening es ⟨f.start, closing.stop⟩)
      (opening :: (ts ++ [closing])) rest := by
  have hend := (takes_untilParen h hc).mapEnd fun es stop => Expr.call f opening es ⟨f.start, stop⟩
  have hall : (call inner f).Makes (fun stop => .call f opening es ⟨f.start, stop⟩)
      ([opening] ++ (ts ++ [closing])) rest := Takes.bind (takes_advance opening _) hend
  refine hall.takes ?_
  rw [← List.append_assoc, List.getLast?_concat]
  rfl

/-! ### Statements -/

theorem getLast?_stop (first : Token) (ts : List Token) :
    (first :: ts).getLast?.map Token.stop = some (Span.covering first ts).stop := by
  simp [Span.covering, List.getLast?_cons, List.getLastD_eq_getLast?]

theorem Ended.of_bare {rest : List Token} (h : Ended true rest) :
    leading rest ≠ .semicolon ∧ StopsAt .lowest rest := by
  have hc := h.not_continues rfl
  cases rest with
  | nil => exact ⟨by decide, by decide, by decide⟩
  | cons t rest =>
    obtain ⟨hs, hp⟩ := not_or.1 (hc t rfl)
    exact ⟨hs, h.not_else, hp⟩

theorem stops_at_ending {ending rest : List Token} {bare : Bool} (h : Ending ending bare)
    (hrest : Ended bare rest) : StopsAt .lowest (ending ++ rest) := by
  cases h with
  | bare => exact hrest.of_bare.2
  | @semicolon t hk =>
    have hlead : leading ([t] ++ rest) = .semicolon := hk
    exact ⟨by rw [hlead]; decide, by rw [hlead]; decide⟩

theorem makes_terminated {p : Parser (Position → Stmt)} {make : Position → Stmt}
    {ts ending rest : List Token} {bare : Bool} (hp : p.Takes make ts (ending ++ rest))
    (h : Ending ending bare) (hrest : Ended bare rest) :
    (terminated p).Makes make (ts ++ ending) rest := by
  refine Takes.bind hp ?_
  cases h with
  | bare =>
    have hskip := takes_no_skip hrest.of_bare.1
    exact hskip.mapEnd fun _ stop => make stop
  | semicolon hk => exact (takes_skip hk rest).mapEnd fun _ stop => make stop

theorem makes_binding {e : Expr} {keyword name sign : Token} {ts ending rest : List Token}
    {bare : Bool} (hn : name.kind = .identifier) (hk : sign.kind = .assignment)
    (h : (inner.expr .lowest).Takes e ts (ending ++ rest)) (hend : Ending ending bare)
    (hrest : Ended bare rest) :
    (binding inner).Makes (fun stop => .binding keyword ⟨name⟩ e ⟨keyword.start, stop⟩)
      (keyword :: name :: sign :: (ts ++ ending)) rest := by
  have hmake := h.map fun e stop => Stmt.binding keyword ⟨name⟩ e ⟨keyword.start, stop⟩
  show (binding inner).Makes _ (([keyword] ++ ([name] ++ ([sign] ++ ts))) ++ ending) rest
  refine makes_terminated (Takes.bind (takes_advance _ _) (Takes.bind (takes_expect hn _)
    (Takes.bind (takes_expect hk _) hmake))) hend hrest

theorem makes_returning {e : Expr} {keyword : Token} {ts ending rest : List Token} {bare : Bool}
    (h : (inner.expr .lowest).Takes e ts (ending ++ rest)) (hend : Ending ending bare)
    (hrest : Ended bare rest) :
    (returning inner).Makes (fun stop => .returning keyword e ⟨keyword.start, stop⟩)
      (keyword :: (ts ++ ending)) rest := by
  have hmake := h.map fun e stop => Stmt.returning keyword e ⟨keyword.start, stop⟩
  show (returning inner).Makes _ (([keyword] ++ ts) ++ ending) rest
  exact makes_terminated (Takes.bind (takes_advance _ _) hmake) hend hrest

theorem makes_expressionStatement {e : Expr} {first : Token} {ts ending rest : List Token}
    {bare : Bool} (h : (inner.expr .lowest).Takes e (first :: ts) (ending ++ rest))
    (hend : Ending ending bare) (hrest : Ended bare rest) :
    (expressionStatement inner).Makes (fun stop => .expression first e ⟨first.start, stop⟩)
      (first :: (ts ++ ending)) rest := by
  have hmake := h.map fun e stop => Stmt.expression first e ⟨first.start, stop⟩
  have hcurrent : (current >>= fun t => inner.expr .lowest >>= fun e =>
      pure fun stop => Stmt.expression t e ⟨t.start, stop⟩).Takes _ (first :: ts) _ :=
    Makes.after_current hmake
  exact makes_terminated hcurrent hend hrest

/-- A statement that starts like an operand is an expression. -/
theorem takes_expressionStatement {first : Token} {x : Stmt} {ts rest : List Token}
    (hk : first.kind ∈ Derives.operandStarts)
    (h : (expressionStatement inner).Takes x (first :: ts) rest) :
    (statement inner).Takes x (first :: ts) rest := by
  refine Makes.after_current ?_
  simp only [Derives.operandStarts, List.mem_cons, List.not_mem_nil, or_false] at hk
  rcases hk with hk | hk | hk | hk | hk | hk | hk | hk | hk
  all_goals
    rw [hk]
    exact h

/-! ### Lists of statements -/

/-- No statement starts with a closing brace or with `else`. -/
theorem statement_starts {x : Stmt} {bare : Bool} {ts : List Token}
    (h : Derives n (.statement x bare) ts) :
    ∃ t us, ts = t :: us ∧ t.kind ≠ .closeCurly ∧ t.kind ≠ .kwElse := by
  cases h with
  | binding hk => exact ⟨_, _, rfl, by simp [hk]⟩
  | returning hk => exact ⟨_, _, rfl, by simp [hk]⟩
  | expression h =>
    obtain ⟨t, us, heq, hk⟩ := h.starts (.inl ⟨_, rfl⟩)
    cases heq
    refine ⟨_, _, rfl, fun hc => ?_, fun hc => ?_⟩ <;>
    · rw [hc] at hk
      exact absurd hk (by decide)
  | blockStatement h =>
    cases h with
    | block hk => exact ⟨_, _, rfl, by simp [hk]⟩

/-- The loop over statements, where it ends in front of `rest`. -/
def TakesStatements (inner : Level) (ss : List Stmt) (ts : List Token) : Prop :=
  ∀ (ends : Option Token → Bool) (resume : Parser Unit)
    (ha : (statementUnless inner ends resume).Advances) (rest : List Token),
    (∀ t : Token, t.kind ≠ .closeCurly → ends (some t) = false) → ends rest.head? = true →
    Ended true rest →
    (many (statementUnless inner ends resume) ha).Takes (ss.map some) ts rest

theorem takes_done : TakesStatements inner [] [] := by
  intro ends resume ha rest _ hrest _ s hs
  refine ⟨s, accepts_many.2 (.inl ⟨?_, rfl⟩), .nil s, hs⟩
  refine accepts_bind.2 ⟨_, s, accepts_next?.2 ⟨rfl, rfl⟩, ?_⟩
  rw [hs, List.nil_append, hrest]
  exact accepts_pure.2 ⟨rfl, rfl⟩

theorem takes_next {x : Stmt} {bare : Bool} {ss : List Stmt} {t : Token} {ts us : List Token}
    (ht : t.kind ≠ .closeCurly)
    (h : ∀ rest : List Token, Ended bare rest → (statement inner).Takes x (t :: ts) rest)
    (hus : us ≠ [] → Ended bare us) (hs : TakesStatements inner ss us) :
    TakesStatements inner (x :: ss) (t :: ts ++ us) := by
  intro ends resume ha rest hstart hends hrest s hs'
  have hnext : Ended bare (us ++ rest) := by
    cases us with
    | nil => exact ⟨hrest.not_else, fun _ => hrest.not_continues rfl⟩
    | cons u us =>
      obtain ⟨helse, hbare⟩ := hus (by simp)
      exact ⟨helse, hbare⟩
  obtain ⟨u, hu, hr, hahead⟩ := h (us ++ rest) hnext s (by rw [hs', List.append_assoc])
  obtain ⟨v, hv, hr', hahead'⟩ := hs _ _ ha _ hstart hends hrest u hahead
  refine ⟨v, accepts_many.2 (.inr ⟨some x, u, _, ?_, hv, rfl⟩), hr.trans hr', hahead'⟩
  refine accepts_bind.2 ⟨_, s, accepts_next?.2 ⟨rfl, rfl⟩, ?_⟩
  rw [hs', List.cons_append, List.cons_append, List.head?_cons, hstart _ ht]
  exact accepts_bind.2 ⟨some x, u, accepts_recovering.2 ⟨x, hu, rfl⟩, accepts_pure.2 ⟨rfl, rfl⟩⟩

theorem makes_block {ss : List Stmt} {opening closing : Token} {ts rest : List Token}
    (ho : opening.kind = .openCurly) (h : TakesStatements inner ss ts)
    (hc : closing.kind = .closeCurly) :
    (block inner).Makes (fun stop => .mk opening ss ⟨opening.start, stop⟩)
      (opening :: (ts ++ [closing])) rest := by
  have hstart : ∀ t : Token, t.kind ≠ .closeCurly → blockEnds (some t) = false := by
    intro t ht
    simpa [blockEnds] using ht
  have hends : blockEnds (closing :: rest).head? = true := by simp [blockEnds, hc]
  have hstop : Ended true (closing :: rest) := by
    have hlead : leading (closing :: rest) = .closeCurly := hc
    refine ⟨by rw [hlead]; decide, ?_⟩
    rintro - t ⟨⟩ hcont
    rw [Continues, hc] at hcont
    exact absurd hcont (by decide)
  have hbody := (h _ _ (statementUnless_advances inner synchronize_resumes) _ hstart hends hstop).map
    fun found : List (Option Stmt) => found.filterMap id
  rw [List.filterMap_map, Function.id_comp, List.filterMap_some] at hbody
  have hend := (takes_expect hc rest).mapEnd fun _ stop => Block.mk opening ss ⟨opening.start, stop⟩
  exact Takes.bind (takes_expect ho _) (Takes.bind hbody hend)

/-! ### The induction -/

/-- What a derivation of `φ` promises of the parsers. -/
def Complete (limit n : Nat) (ts : List Token) : Phrase → Prop
  | .statements ss => TakesStatements (level limit n) ss ts
  | .statement x bare => ∀ rest, Ended bare rest → (statement (level limit n)).Takes x ts rest
  | .block b => ∀ rest, (level limit n).block.Takes b ts rest
  | .target x => ∀ rest, leading rest ≠ .kwElse → (operand (level limit n)).Takes (.name x) ts rest
  | .primary e => ∀ rest, leading rest ≠ .kwElse → (operand (level limit n)).Takes e ts rest
  | .expressions es => ∀ rest, leading rest = .closeParen →
    (commaSeparated ((level limit n).expr .lowest)).Takes es ts rest
  | .arguments es => ∀ rest, leading rest = .closeParen →
    (beforeParen ((level limit n).expr .lowest)).Takes es ts rest
  | .names xs => ∀ rest, leading rest = .closeParen → (commaSeparated parameter).Takes xs ts rest
  | .parameters xs => ∀ rest, leading rest = .closeParen → (beforeParen parameter).Takes xs ts rest
  | .whole e => ∀ rest, StopsAt .lowest rest → Grows (level limit n) .lowest e ts rest
  | .tier τ e => ∀ bound rest, bound < τ.power → StopsAt τ.power rest →
    Grows (level limit n) bound e ts rest
  | .unary e => ∀ bound rest, bound < .call → StopsAt .unary rest →
    Grows (level limit n) bound e ts rest
  | .applied e => ∀ bound rest, bound < .call → leading rest ≠ .kwElse →
    Grows (level limit n) bound e ts rest

theorem compound_power {kind : Kind} (h : kind.isCompound) :
    kind.power = .assignment ∧ operator? inner kind = some fun left _ => assignment inner left := by
  cases kind <;> first | exact ⟨rfl, rfl⟩ | cases h

theorem operators_power {τ : Tier} {kind : Kind} (h : kind ∈ τ.operators) :
    kind.power = τ.power ∧ operator? inner kind = some (binary inner) := by
  cases τ <;> simp only [Tier.operators, List.mem_cons, List.not_mem_nil, or_false] at h
  case equality => rcases h with rfl | rfl <;> exact ⟨rfl, rfl⟩
  case relational => rcases h with rfl | rfl | rfl | rfl <;> exact ⟨rfl, rfl⟩
  case additive => rcases h with rfl | rfl <;> exact ⟨rfl, rfl⟩
  case multiplicative => rcases h with rfl | rfl <;> exact ⟨rfl, rfl⟩

theorem signs_operand {kind : Kind} (h : kind ∈ signs) :
    operand? inner kind = some (unary inner) := by
  simp only [signs, List.mem_cons, List.not_mem_nil, or_false] at h
  rcases h with rfl | rfl <;> rfl

/-- The last token of a block is where its span stops. -/
theorem block_stop {b : Block} {ts : List Token} (h : Derives n (.block b) ts) :
    ∃ x, ts.getLast? = some x ∧ x.stop = b.span.stop := by
  cases h with
  | block => exact ⟨_, by rw [← List.cons_append, List.getLast?_concat], rfl⟩

theorem takes_conditionalElse {keyword opening closing otherwise : Token} {c : Expr} {b b' : Block}
    {ts us vs rest : List Token} (hk : keyword.kind = .kwIf) (ho : opening.kind = .openParen)
    (h : (inner.expr .lowest).Takes c ts (closing :: (us ++ (otherwise :: vs ++ rest))))
    (hc : closing.kind = .closeParen) (hb : inner.block.Takes b us (otherwise :: vs ++ rest))
    (he : otherwise.kind = .kwElse) (hb' : Derives n (.block b') vs)
    (ha : inner.block.Takes b' vs rest) :
    (operand inner).Takes (.conditional keyword c b (some b') ⟨keyword.start, b'.span.stop⟩)
      (keyword :: opening :: (ts ++ closing :: (us ++ otherwise :: vs))) rest := by
  obtain ⟨x, hx, hstop⟩ := block_stop hb'
  have hmakes := makes_conditional keyword ho h hc hb (takes_alternative he ha)
  refine takes_operand (by rw [hk]; rfl) (hmakes.takes ?_)
  simp [List.getLast?_cons, List.getLast?_append, hx, hstop]

theorem takes_function {keyword opening closing : Token} {xs : List Name} {b : Block}
    {ts us rest : List Token} (hk : keyword.kind = .kwFn) (ho : opening.kind = .openParen)
    (h : (beforeParen parameter).Takes xs ts (closing :: (us ++ rest)))
    (hc : closing.kind = .closeParen) (hb : Derives n (.block b) us)
    (hblock : inner.block.Takes b us rest) :
    (operand inner).Takes (.function keyword xs b ⟨keyword.start, b.span.stop⟩)
      (keyword :: opening :: (ts ++ closing :: us)) rest := by
  obtain ⟨x, hx, hstop⟩ := block_stop hb
  have hmakes := makes_function keyword ho h hc hblock
  refine takes_operand (by rw [hk]; rfl) (hmakes.takes ?_)
  simp [List.getLast?_cons, List.getLast?_append, hx, hstop]

/-- A call goes on with whatever has grown before it. -/
theorem grows_call {bound : Power} {f : Expr} {es : List Expr} {opening closing : Token}
    {ts us rest : List Token} (ho : opening.kind = .openParen) (hb : bound < .call)
    (hf : Grows inner bound f ts (opening :: (us ++ [closing] ++ rest)))
    (hes : (beforeParen (inner.expr .lowest)).Takes es us (closing :: rest))
    (hc : closing.kind = .closeParen) :
    Grows inner bound (.call f opening es ⟨f.start, closing.stop⟩)
      (ts ++ opening :: (us ++ [closing])) rest := by
  refine Grows.operator (p := fun left _ => call inner left) hf ?_ ?_ (takes_call hes hc)
  · rw [ho]
    exact hb
  · rw [ho]
    rfl

theorem takes_parameter {x : Token} (hk : x.kind = .identifier) (rest : List Token) :
    parameter.Takes ⟨x⟩ [x] rest := (takes_expect hk rest).map Name.mk

/-- A list that is not empty starts with none of the tokens that end it. -/
theorem expressions_start {es : List Expr} {ts : List Token} (h : Derives n (.expressions es) ts) :
    ∃ t us, ts = t :: us ∧ t.kind ≠ .closeParen := by
  have hne : ∀ {t : Token}, t.kind ∈ Derives.operandStarts → t.kind ≠ .closeParen := by
    intro t ht hk
    rw [hk] at ht
    exact absurd ht (by decide)
  cases h with
  | lastExpression h =>
    obtain ⟨t, us, rfl, ht⟩ := h.starts (.inl ⟨_, rfl⟩)
    exact ⟨t, _, rfl, hne ht⟩
  | nextExpression h =>
    obtain ⟨t, us, rfl, ht⟩ := h.starts (.inl ⟨_, rfl⟩)
    exact ⟨t, _, rfl, hne ht⟩

theorem names_start {xs : List Name} {ts : List Token} (h : Derives n (.names xs) ts) :
    ∃ t us, ts = t :: us ∧ t.kind ≠ .closeParen := by
  cases h with
  | lastName hk => exact ⟨_, _, rfl, by simp [hk]⟩
  | nextName hk => exact ⟨_, _, rfl, by simp [hk]⟩

theorem StopsAt.mono {p q : Power} {rest : List Token} (h : StopsAt p rest) (hpq : p < q) :
    StopsAt q rest := ⟨h.not_else, fun hq => h.power (Nat.lt_trans hpq hq)⟩

/-- Expressions stop in front of an operator that binds as tightly as they do. -/
theorem stops_at_operator {p : Power} {o : Token} (ho : o.kind.power = p) (hp : Power.lowest < p)
    (rest : List Token) : StopsAt p (o :: rest) := by
  refine ⟨fun helse => ?_, fun hlt => ?_⟩
  · have hk : o.kind = .kwElse := helse
    rw [hk] at ho
    exact absurd (ho ▸ hp) (by decide)
  · rw [← ho] at hlt
    exact absurd hlt (Nat.lt_irrefl _)

/-- The operands of a tier stop at every bound and before every token that the tier does. -/
theorem complete_operand {τ : Tier} {e : Expr} {ts : List Token}
    (h : Complete limit n ts (τ.operand e)) {bound : Power} {rest : List Token}
    (hb : ¬ τ.power < bound) (hrest : StopsAt τ.power rest) :
    Grows (level limit n) bound e ts rest := by
  have hlt : ∀ {q : Power}, τ.power < q → bound < q := fun hq =>
    Nat.lt_of_le_of_lt (Nat.le_of_not_lt hb) hq
  cases τ with
  | equality => exact h bound rest (hlt (by decide)) (hrest.mono (by decide))
  | relational => exact h bound rest (hlt (by decide)) (hrest.mono (by decide))
  | additive => exact h bound rest (hlt (by decide)) (hrest.mono (by decide))
  | multiplicative => exact h bound rest (hlt (by decide)) (hrest.mono (by decide))

/-- A whole expression is read to its end in front of what cannot go on with it. -/
theorem complete_whole {e : Expr} {ts rest : List Token} (h : Complete limit n ts (.whole e))
    (hrest : StopsAt .lowest rest) :
    ((level limit (n + 1)).expr .lowest).Takes e ts rest := (h rest hrest).takes hrest.power

/-- Every expression stops in front of what is neither an operator nor `else`. -/
theorem stops_at {kind : Kind} {rest : List Token} (h : leading rest = kind)
    (hk : kind ≠ .kwElse ∧ ¬ Power.lowest < kind.power) : StopsAt .lowest rest := by
  subst h
  exact ⟨hk.1, hk.2⟩

theorem complete_in_parens {e : Expr} {ts : List Token} {closing : Token}
    (h : Complete limit n ts (.whole e)) (hc : closing.kind = .closeParen) (rest : List Token) :
    ((level limit (n + 1)).expr .lowest).Takes e ts (closing :: rest) :=
  complete_whole h (stops_at hc (by decide))

theorem complete {φ : Phrase} {ts : List Token} (h : Derives n φ ts) : Complete limit n ts φ := by
  induction h with
  | done => exact takes_done
  | next hx hbare hss ihx ihs =>
    obtain ⟨t, us, rfl, ht, -⟩ := statement_starts hx
    refine takes_next ht ihx (fun hne => ⟨?_, hbare⟩) ihs
    cases hss with
    | done => exact absurd rfl hne
    | next hy =>
      obtain ⟨t', us', rfl, -, ht'⟩ := statement_starts hy
      exact ht'
  | binding hk hn hs _ hend ih =>
    intro rest hrest
    have hvalue := complete_whole ih (stops_at_ending hend hrest)
    refine Makes.after_current ?_
    rw [hk]
    exact (makes_binding hn hs hvalue hend hrest).takes (getLast?_stop _ _)
  | returning hk _ hend ih =>
    intro rest hrest
    have hvalue := complete_whole ih (stops_at_ending hend hrest)
    refine Makes.after_current ?_
    rw [hk]
    exact (makes_returning hvalue hend hrest).takes (getLast?_stop _ _)
  | expression h hend ih =>
    intro rest hrest
    have hvalue := complete_whole ih (stops_at_ending hend hrest)
    obtain ⟨t, us, heq, hk⟩ := h.starts (.inl ⟨_, rfl⟩)
    cases heq
    refine takes_expressionStatement hk ?_
    exact (makes_expressionStatement hvalue hend hrest).takes (getLast?_stop _ _)
  | blockStatement h ih =>
    intro rest _
    cases h with
    | block hk =>
      refine Makes.after_current ?_
      rw [hk]
      exact (ih rest).map Stmt.block
  | block ho _ hc ih =>
    intro rest
    refine Takes.nest ((makes_block ho ih hc).takes ?_)
    rw [← List.cons_append, List.getLast?_concat]
    rfl
  | @assign n x operator e ts us _ ho _ ihx ihe =>
    intro rest hrest
    obtain ⟨hp, ho⟩ := compound_power ho
    have hstop := stops_at_operator hp (by decide) (us ++ rest)
    refine Grows.operator ((ihx _ hstop.not_else).grows) ?_ ho ?_
    · rw [hp]
      decide
    · exact takes_assignment (complete_whole ihe hrest)
  | equality _ ih =>
    intro rest hrest
    exact ih .lowest rest (by decide) (hrest.mono (by decide))
  | @binary n τ l r operator ts us _ ho _ ihl ihr =>
    intro bound rest hb hrest
    obtain ⟨hp, ho⟩ := operators_power ho
    have hlow : Power.lowest < τ.power := by cases τ <;> decide
    refine Grows.operator (ihl bound _ hb (stops_at_operator hp hlow _)) (hp ▸ hb) ho ?_
    rw [hp]
    exact takes_binary ((complete_operand ihr (Nat.lt_irrefl _) hrest).takes hrest.power)
  | tighter _ ih =>
    intro bound rest hb hrest
    exact complete_operand ih (fun h => Nat.lt_asymm h hb) hrest
  | unary ho _ ih =>
    intro bound rest _ hrest
    have hvalue := (ih .unary rest (by decide) hrest).takes hrest.power
    exact (takes_operand (signs_operand ho) (takes_unary hvalue)).grows
  | applied _ ih =>
    intro bound rest hb hrest
    exact ih bound rest hb hrest.not_else
  | @call n f es opening closing ts us _ ho _ hc ihf ihes =>
    intro bound rest hb _
    have hopen : leading (opening :: (us ++ [closing] ++ rest)) ≠ .kwElse :=
      fun helse => Kind.noConfusion (ho.symm.trans helse)
    exact grows_call ho hb (ihf bound _ hb hopen) (ihes _ hc) hc
  | primary _ ih => exact fun bound rest _ hrest => (ih rest hrest).grows
  | integer hk hv =>
    exact fun rest _ => takes_operand (by rw [hk]; rfl) (takes_integer hk hv rest)
  | name hk => exact fun rest _ => takes_operand (by rw [hk]; rfl) (takes_name hk rest)
  | true hk => exact fun rest _ => takes_operand (by rw [hk]; rfl) (takes_true hk rest)
  | false hk => exact fun rest _ => takes_operand (by rw [hk]; rfl) (takes_false hk rest)
  | group ho _ hc ih =>
    intro rest _
    exact takes_operand (by rw [ho]; rfl) (takes_group (complete_in_parens ih hc rest) hc)
  | @conditional n keyword opening closing c b ts us hk ho _ hc hb ihc ihb =>
    intro rest hrest
    obtain ⟨x, hx, hstop⟩ := block_stop hb
    have h := makes_conditional keyword ho (complete_in_parens ihc hc _) hc (ihb _)
      (takes_no_alternative hrest)
    rw [List.append_nil] at h
    refine takes_operand (by rw [hk]; rfl) (h.takes ?_)
    simp [List.getLast?_cons, List.getLast?_append, hx, hstop]
  | conditionalElse hk ho _ hc _ he hb' ihc ihb ihb' =>
    exact fun rest _ => takes_conditionalElse hk ho (complete_in_parens ihc hc _) hc (ihb _) he hb'
      (ihb' rest)
  | function hk ho _ hc hb ihp ihb =>
    exact fun rest _ => takes_function hk ho (ihp _ hc) hc hb (ihb rest)
  | targetName hk => exact fun rest _ => takes_operand (by rw [hk]; rfl) (takes_name hk rest)
  | @targetGroup n x opening closing ts ho _ hc ih =>
    intro rest _
    have hstop : StopsAt .lowest (closing :: rest) := stops_at hc (by decide)
    have hvalue := (ih _ hstop.not_else).grows.takes hstop.power
    exact takes_operand (by rw [ho]; rfl) (takes_group hvalue hc)
  | noArguments => exact fun rest hrest => takes_nothing hrest
  | someArguments h ih =>
    intro rest hrest
    obtain ⟨t, us, rfl, ht⟩ := expressions_start h
    exact takes_something ht (ih rest hrest)
  | lastExpression _ ih =>
    intro rest hrest
    exact takes_one (complete_whole ih (stops_at hrest (by decide))) (by rw [hrest]; decide)
  | nextExpression _ hc _ ih ihs =>
    intro rest hrest
    refine takes_more (complete_whole ih ?_) hc (ihs rest hrest)
    exact stops_at hc (by decide)
  | noParameters => exact fun rest hrest => takes_nothing hrest
  | someParameters h ih =>
    intro rest hrest
    obtain ⟨t, us, rfl, ht⟩ := names_start h
    exact takes_something ht (ih rest hrest)
  | lastName hk =>
    intro rest hrest
    exact takes_one (takes_parameter hk rest) (by rw [hrest]; decide)
  | nextName hk hc _ ih =>
    intro rest hrest
    exact takes_more (takes_parameter hk _) hc (ih rest hrest)

/-- The program parser reads all of what the grammar derives. -/
theorem program_complete {ss : List Stmt} {s : State} (h : Derives n (.statements ss) s.ahead) :
    ∃ t, (program (level limit n)).Accepts s ⟨ss⟩ t := by
  have hss : TakesStatements (level limit n) ss s.ahead := complete h
  have hnil : Ended true [] := ⟨by decide, by simp⟩
  have htakes := (hss _ _ (statementUnless_advances _ resumeOutside_resumes) _ (by simp) rfl hnil).map
    fun found : List (Option Stmt) => (⟨found.filterMap id⟩ : Program)
  rw [List.filterMap_map, Function.id_comp, List.filterMap_some] at htakes
  obtain ⟨t, ht, -⟩ := htakes s (List.append_nil _).symm
  exact ⟨t, ht⟩

end Parser
end LetLang
