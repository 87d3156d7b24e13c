import LetLang.Parse
import LetLang.Proofs.Grammar.Chain
import LetLang.Proofs.Grammar.Complete

/-! How the parser groups a chain.

The operator loop meets the operators of a chain one after the other and knows
nothing of the last operator of lowest power. But what it has found in front of
that operator is the group before it, since it stops there for nothing that binds
tighter; and the right operand that it asks for then is the group behind it, since
that goes on for as long as operators bind tighter. So the tree is the one of the
chain split at that operator (`group_grows`), and at any bound the parser takes as
much of a chain as stands above the bound (`chain_groups`). -/
namespace LetLang
open Grammar
open Token (Kind leading)

namespace Parser
variable {limit n : Nat}

/-! ### Operands -/

theorem operand_takes_closed {e : Expr} {ts : List Token} (h : Derives n (.primary e) ts)
    (hclosed : ¬ e.TakesElse ts) (rest : List Token) :
    (operand (level limit n)).Takes e ts rest := by
  cases h with
  | integer hk hv => exact takes_operand (by rw [hk]; rfl) (takes_integer hk hv rest)
  | name hk => exact takes_operand (by rw [hk]; rfl) (takes_name hk rest)
  | true hk => exact takes_operand (by rw [hk]; rfl) (takes_true hk rest)
  | false hk => exact takes_operand (by rw [hk]; rfl) (takes_false hk rest)
  | group ho h hc =>
    exact takes_operand (by rw [ho]; rfl) (takes_group (complete_in_parens (complete h) hc rest) hc)
  | conditional hk ho h hc hb =>
    cases hb with
    | block _ _ hclosing =>
      exact absurd ⟨rfl, by simp [List.getLast?_cons, List.getLast?_append, hclosing]⟩ hclosed
  | conditionalElse hk ho h hc hb he hb' =>
    exact takes_conditionalElse hk ho (complete_in_parens (complete h) hc _) hc (complete hb _) he
      hb' (complete hb' rest)
  | function hk ho h hc hb =>
    have hparameters : Complete limit n _ (.parameters _) := complete h
    exact takes_function hk ho (hparameters _ hc) hc hb (complete hb rest)

theorem unary_grows_closed {e : Expr} {ts : List Token} (h : Derives n (.unary e) ts)
    (hclosed : ¬ e.TakesElse ts) {bound : Power} (hb : bound < .call) {rest : List Token}
    (hrest : ¬ Power.unary < (leading rest).power) : Grows (level limit n) bound e ts rest := by
  generalize hφ : Phrase.unary e = φ at h
  induction h generalizing e bound with
  | @unary n operator e' ts ho _ ih =>
    cases hφ
    have hinner : ¬ e'.TakesElse ts := by
      intro h
      obtain ⟨hlacks, hlast⟩ := h
      obtain ⟨t, ht, hk⟩ := Option.map_eq_some_iff.1 hlast
      exact hclosed ⟨hlacks, by simp [List.getLast?_cons, ht, hk]⟩
    have hvalue := (ih hinner (by decide) rfl).takes hrest
    exact (takes_operand (signs_operand ho) (takes_unary hvalue)).grows
  | applied h =>
    cases hφ
    cases h with
    | call hf ho hes hc =>
      refine grows_call ho hb (complete hf bound _ hb ?_) (complete hes _ hc) hc
      exact fun helse => Kind.noConfusion (ho.symm.trans helse)
    | primary h => exact (operand_takes_closed h hclosed rest).grows
  | _ => cases hφ

/-- An operand is read to its end in front of what it does not go on with. -/
theorem unary_grows {e : Expr} {ts : List Token} (h : Derives n (.unary e) ts) {bound : Power}
    (hb : bound < .call) {rest : List Token} (hrest : ¬ Power.unary < (leading rest).power)
    (helse : leading rest = .kwElse → ¬ e.TakesElse ts) :
    Grows (level limit n) bound e ts rest := by
  by_cases hk : leading rest = .kwElse
  · exact unary_grows_closed h (helse hk) hb hrest
  · exact complete h bound rest hb ⟨hk, hrest⟩

end Parser

/-! ### Chains -/

namespace Chain
open LetLang.Parser

/-- None of the operators leaves what comes behind the chain to its operand, nor does an operand go
on with it. -/
structure EndsBefore (first : Operand) (links : List Link) (rest : List Token) : Prop where
  power : ∀ l ∈ links, ¬ l.power < (leading rest).power
  unary : ¬ Power.unary < (leading rest).power
  not_else : leading rest = .kwElse → ¬ (last first links).TakesElse

variable {first : Operand} {links : List Link} {rest : List Token}

/-- The part behind the operator of a split ends where the chain does. -/
theorem EndsBefore.after (h : EndsBefore first links rest) (s : Split links) :
    EndsBefore s.link.operand s.after rest :=
  ⟨fun l hl => h.power l (s.mem_iff.2 (.inr (.inr hl))), h.unary, last_split first s ▸ h.not_else⟩

theorem binary_operator {kind : Kind} (h : ∃ τ : Tier, kind ∈ τ.operators) :
    ¬ Power.unary < kind.power ∧ kind ≠ .kwElse := by
  obtain ⟨τ, hτ⟩ := h
  constructor
  · rw [(@operators_power (level 0 0) τ kind hτ).1]
    cases τ <;> decide
  · intro hk
    rw [hk] at hτ
    cases τ <;> exact absurd hτ (by decide)

/-- The part before it ends there. -/
theorem EndsBefore.before (s : Split links) (rest : List Token) :
    EndsBefore first s.before (s.link.operator :: rest) := by
  obtain ⟨hunary, helse⟩ := binary_operator s.link.binary
  exact ⟨s.lowest, hunary, fun hk => absurd hk helse⟩

/-- What follows the links above a bound is not above it. -/
theorem not_lt_beyond (bound : Power) (links : List Link) (hrest : (leading rest).power = .lowest) :
    ¬ bound < (leading ((beyond bound links).flatMap Link.tokens ++ rest)).power := by
  cases hl : beyond bound links with
  | nil =>
    rw [List.flatMap_nil, List.nil_append, hrest]
    exact Nat.not_lt_zero _
  | cons l ls => exact not_lt_of_beyond hl

theorem endsBefore_beyond {bound : Power} (hbound : ¬ Power.unary < bound)
    (hrest : (leading rest).power = .lowest)
    (helse : leading rest = .kwElse → above bound links = links →
      ¬ (last first links).TakesElse) :
    EndsBefore first (above bound links) ((beyond bound links).flatMap Link.tokens ++ rest) := by
  have hstop := Nat.le_of_not_lt (not_lt_beyond bound links hrest)
  constructor
  · intro l hl
    exact Nat.not_lt_of_le (Nat.le_trans hstop (Nat.le_of_lt (lt_of_mem_above hl)))
  · exact Nat.not_lt_of_le (Nat.le_trans hstop (Nat.le_of_not_lt hbound))
  · intro hk
    cases hl : beyond bound links with
    | nil =>
      have hall : above bound links = links := by
        have happend := above_append_beyond bound links
        rwa [hl, List.append_nil] at happend
      rw [hl] at hk
      rw [hall]
      exact helse hk hall
    | cons l ls =>
      rw [hl] at hk
      exact absurd hk (binary_operator l.binary).2

end Chain

namespace Parser
variable {limit n : Nat}

/-- Whatever the bound, in front of a chain whose operators are all above it an expression becomes
the group of the chain. -/
theorem group_grows (first : Operand) (links : List Link) {bound : Power} {rest : List Token}
    (hlevels : (Chain.group first links).levels ≤ n) (hbound : ∀ l ∈ links, bound < l.power)
    (hcall : bound < .call) (hrest : Chain.EndsBefore first links rest) :
    Grows (level limit n) bound (Chain.group first links).tree (Chain.tokens first links) rest := by
  fun_induction Chain.group first links generalizing n bound rest with
  | case1 first =>
    have hfirst := first.derives.mono hlevels
    rw [Chain.tokens, List.flatMap_nil, List.append_nil]
    exact unary_grows hfirst hcall hrest.unary hrest.not_else
  | case2 first l ls ihl ihr =>
    let s := Chain.split l ls
    have hlink : s.link ∈ l :: ls := s.mem_iff.2 (.inr (.inl rfl))
    obtain ⟨τ, hτ⟩ := s.link.binary
    have hoperator := @operators_power (level limit n) τ s.link.operator.kind hτ
    obtain ⟨hleft, hright⟩ := Nat.max_le.1 hlevels
    obtain ⟨k, rfl⟩ : ∃ k, n = k + 1 := ⟨n - 1, by omega⟩
    have hpower : s.link.power < Power.call := by
      rw [Link.power, hoperator.1]
      cases τ <;> decide
    have hbefore := ihl hleft (fun m hm => hbound m (s.mem_iff.2 (.inl hm))) hcall
      (Chain.EndsBefore.before s (Chain.tokens s.link.operand s.after ++ rest))
    have hafter := ihr (Nat.le_of_succ_le_succ hright) s.last hpower (hrest.after s)
    have htakes := hafter.takes (hrest.power s.link hlink)
    rw [Chain.tokens_split first s]
    exact hbefore.operator (hbound _ hlink) hoperator.2 (takes_binary htakes)

/-- At any bound up to that of a prefix operator, the parser takes as much of a chain as stands
above the bound, and finds the group of that. -/
theorem chain_groups (bound : Power) (hbound : ¬ Power.unary < bound) (first : Operand)
    (links : List Link) (rest : List Token) (hrest : (leading rest).power = .lowest)
    (helse : leading rest = .kwElse → Chain.above bound links = links →
      ¬ (Chain.last first links).TakesElse)
    (s : State) (hs : s.ahead = Chain.tokens first links ++ rest)
    (hdepth : s.depth + (Chain.group first (Chain.above bound links)).levels < maxNesting) :
    ∃ t, (within maxNesting fun inner => inner.expr bound).Accepts s
        (Chain.group first (Chain.above bound links)).tree t ∧
      Reads s (Chain.tokens first (Chain.above bound links)) t := by
  obtain ⟨n, hn⟩ : ∃ n, maxNesting - s.depth = n + 1 := ⟨maxNesting - s.depth - 1, by omega⟩
  have hstop := Chain.not_lt_beyond bound links hrest
  have hends := Chain.endsBefore_beyond hbound hrest helse
  have hcall : bound < Power.call := Nat.lt_of_le_of_lt (Nat.le_of_not_lt hbound) (by decide)
  have hgrows : Grows (level maxNesting n) bound _ _ _ :=
    group_grows first _ (by omega) (fun l hl => Chain.lt_of_mem_above hl) hcall hends
  have hsplit : s.ahead = Chain.tokens first (Chain.above bound links) ++
      ((Chain.beyond bound links).flatMap Link.tokens ++ rest) := by
    rw [hs, ← List.append_assoc, ← Chain.tokens_append, Chain.above_append_beyond]
  obtain ⟨t, ht, hreads, -⟩ := hgrows.takes hstop s hsplit
  refine ⟨t, ?_, hreads⟩
  rw [← hn] at ht
  exact ht

/-- In front of `a - -b() - c * d < e`, an expression that stops at comparisons. -/
theorem subtractions_group_to_left :
    let token (kind : Kind) (literal : String) (start : Nat) : Token :=
      ⟨kind, literal, .ofOffsets "shell" start (start + literal.length)⟩
    let a := token .identifier "a" 0
    let minus := token .dash "-" 2
    let sign := token .dash "-" 4
    let b := token .identifier "b" 5
    let opening := token .openParen "(" 6
    let closing := token .closeParen ")" 7
    let minus' := token .dash "-" 9
    let c := token .identifier "c" 11
    let star := token .star "*" 13
    let d := token .identifier "d" 15
    let less := token .less "<" 17
    let e := token .identifier "e" 19
    let negated : Expr := .unary sign (.call (.name ⟨b⟩) opening [] ⟨b.start, closing.stop⟩)
      ⟨sign.start, closing.stop⟩
    let difference : Expr := .binary (.name ⟨a⟩) minus negated ⟨a.start, closing.stop⟩
    let product : Expr := .binary (.name ⟨c⟩) star (.name ⟨d⟩) ⟨c.start, d.stop⟩
    let s := State.ofTokens [a, minus, sign, b, opening, closing, minus', c, star, d, less, e]
      ⟨20, "shell"⟩
    ¬ Power.unary < Power.relational ∧
    ∃ t, (within maxNesting fun inner => inner.expr .relational).Accepts s
        (.binary difference minus' product ⟨a.start, d.stop⟩) t ∧ t.ahead = [less, e] := by
  intro token a minus sign b opening closing minus' c star d less e negated difference product s
  let name (t : Token) (h : t.kind = .identifier) : Operand :=
    ⟨[t], .name ⟨t⟩, 0, .applied (.primary (.name h))⟩
  let call : Operand := ⟨[sign, b, opening, closing], negated, 1,
    .unary (by decide) (.applied (.call (.primary (.name rfl)) rfl .noArguments rfl))⟩
  let kept : List Link := [⟨minus, call, .additive, by decide⟩,
    ⟨minus', name c rfl, .additive, by decide⟩, ⟨star, name d rfl, .multiplicative, by decide⟩]
  let links : List Link := kept ++ [⟨less, name e rfl, .relational, by decide⟩]
  have hkept : Chain.above .relational links = kept := rfl
  have hgroup : Chain.group (name a rfl) kept =
      .pair (.pair (.operand (name a rfl)) minus (.operand call)) minus'
        (.pair (.operand (name c rfl)) star (.operand (name d rfl))) := by
    with_unfolding_all rfl
  have hlevels : s.depth + (Chain.group (name a rfl) (Chain.above .relational links)).levels <
      maxNesting := by
    rw [hkept, hgroup]
    decide
  have h := chain_groups .relational (by decide) (name a rfl) links [] (by decide)
    (fun helse => Kind.noConfusion helse) s rfl hlevels
  rw [hkept, hgroup] at h
  obtain ⟨t, ht, hreads⟩ := h
  exact ⟨by decide, t, ht, List.append_cancel_left (hreads.ahead.symm.trans rfl)⟩

/-- What is meant to stand in front of an `else` goes on with it when it is an `if` of its own. -/
theorem else_joins_operand : ¬ ∀ (bound : Power) (first : Operand) (links : List Link)
    (rest : List Token) (s : State), ¬ Power.unary < bound → (leading rest).power = .lowest →
      s.ahead = Chain.tokens first links ++ rest →
      s.depth + (Chain.group first (Chain.above bound links)).levels < maxNesting →
      ∃ t, (within maxNesting fun inner => inner.expr bound).Accepts s
          (Chain.group first (Chain.above bound links)).tree t ∧
        Reads s (Chain.tokens first (Chain.above bound links)) t := by
  intro h
  let token (kind : Kind) (literal : String) (start : Nat) : Token :=
    ⟨kind, literal, .ofOffsets "shell" start (start + literal.length)⟩
  let a := token .identifier "a" 4
  let opening := token .openCurly "\x7b" 7
  let closing := token .closeCurly "\x7d" 9
  let body : Block := .mk opening [] ⟨opening.start, closing.stop⟩
  let opening' := token .openCurly "\x7b" 16
  let closing' := token .closeCurly "\x7d" 18
  let body' : Block := .mk opening' [] ⟨opening'.start, closing'.stop⟩
  let keyword := token .kwIf "if" 0
  let ts := [keyword, token .openParen "(" 3, a, token .closeParen ")" 5, opening, closing]
  let us := [token .kwElse "else" 11, opening', closing']
  have ha : Derives 0 (.whole (.name ⟨a⟩)) [a] :=
    .ofPower_mono (p := .call) (q := .lowest) (by decide) (.primary (.name rfl))
  have hbody : Derives 1 (.block body) [opening, closing] := .block rfl .done rfl
  have hbody' : Derives 1 (.block body') [opening', closing'] := .block rfl .done rfl
  have hfirst : Derives 1 (.primary (.conditional keyword (.name ⟨a⟩) body none
      ⟨keyword.start, closing.stop⟩)) ts := .conditional rfl rfl ha rfl hbody
  have hwhole : Derives 1 (.primary (.conditional keyword (.name ⟨a⟩) body (some body')
      ⟨keyword.start, closing'.stop⟩)) (ts ++ us) :=
    .conditionalElse rfl rfl ha rfl hbody rfl hbody'
  let s := State.ofTokens (ts ++ us) ⟨19, "shell"⟩
  have hlevels : s.depth + (Chain.group ⟨ts, _, 1, .applied (.primary hfirst)⟩ []).levels <
      maxNesting := by
    rw [Chain.group]
    show 0 + 1 < maxNesting
    decide
  obtain ⟨t, ⟨hrun, -⟩, hreads⟩ := h .lowest ⟨ts, _, 1, .applied (.primary hfirst)⟩ [] us s
    (by decide) rfl rfl hlevels
  have hcomplete : Complete maxNesting 255 (ts ++ us) (.unary _) :=
    complete ((Derives.applied (.primary hwhole)).mono (by decide))
  have hgrows := hcomplete .lowest [] (by decide) ⟨by decide, by decide⟩
  obtain ⟨t', ⟨hrun', -⟩, -, hnil⟩ := hgrows.takes (by decide) s rfl
  obtain ⟨-, rfl⟩ := Result.ok.inj (hrun.symm.trans hrun')
  have hahead := hreads.ahead
  rw [hnil] at hahead
  cases hahead
end Parser
end LetLang
