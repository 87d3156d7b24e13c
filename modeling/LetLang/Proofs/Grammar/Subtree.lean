import LetLang.Proofs.Grammar.Core
import LetLang.Tree.Node

/-! Every node of a derived tree is derived from a run of its tokens.

What a phrase is the tree of is derived from all its tokens (`derived`), and the nodes
right below it from runs among them, within the same limit on nesting
(`pieces_derived`). So each node of a program, at any depth, is a phrase by itself
(`has_derived`). -/
namespace LetLang
open Grammar

/-- The node is a phrase among the tokens. A statement may open as many levels as `limit` says, and
an expression one less, as the statement that it is part of opens one for it. -/
def Node.DerivedIn (limit : Nat) (ts : List Token) : Node → Prop
  | expr e => ∃ n us, n < limit ∧ us <:+: ts ∧ Derives n (.whole e) us
  | stmt s => ∃ n us bare, n ≤ limit ∧ us <:+: ts ∧ Derives n (.statement s bare) us

/-- A token is a piece wherever it stands. -/
def Piece.DerivedIn (limit : Nat) (ts : List Token) : Piece → Prop
  | token _ => True
  | node m => m.DerivedIn limit ts

namespace Grammar

/-- The node that a phrase is the tree of. -/
def Phrase.node? : Phrase → Option Node
  | statement s _ => some (.stmt s)
  | block b => some (.block b)
  | target x => some (.name x)
  | φ => φ.tree?.map .expr

/-- How many levels the phrase may open. -/
def Phrase.Within (limit n : Nat) : Phrase → Prop
  | statements _ | statement _ _ | block _ => n ≤ limit
  | _ => n < limit

end Grammar

open Token (Kind)

variable {limit n : Nat} {φ : Phrase} {ts us : List Token} {m k : Node} {t : Token}

theorem Node.DerivedIn.mono (h : m.DerivedIn limit us) (hus : us <:+: ts) :
    m.DerivedIn limit ts := by
  cases m with
  | expr e =>
    obtain ⟨n, vs, hn, hvs, h⟩ := h
    exact ⟨n, vs, hn, hvs.trans hus, h⟩
  | stmt s =>
    obtain ⟨n, vs, bare, hn, hvs, h⟩ := h
    exact ⟨n, vs, bare, hn, hvs.trans hus, h⟩

theorem Piece.DerivedIn.mono {p : Piece} (h : p.DerivedIn limit us) (hus : us <:+: ts) :
    p.DerivedIn limit ts := by
  cases p with
  | token => trivial
  | node m => exact Node.DerivedIn.mono h hus

namespace Grammar.Derives

/-- The node that a phrase is the tree of is derived from all its tokens. -/
theorem derived (h : Derives n φ ts) (hm : φ.node? = some m) (hn : φ.Within limit n) :
    m.DerivedIn limit ts := by
  cases φ <;> cases hm
  case statement => exact ⟨n, ts, _, hn, List.infix_refl ts, h⟩
  case block => exact ⟨n, ts, _, hn, List.infix_refl ts, .blockStatement h⟩
  case target => exact ⟨n, ts, hn, List.infix_refl ts, (h.primary_of_target rfl).whole_of_tree rfl⟩
  all_goals exact ⟨n, ts, hn, List.infix_refl ts, h.whole_of_tree rfl⟩

theorem name_derived (hk : t.kind = .identifier) (hlimit : 0 < limit) :
    (Node.name ⟨t⟩).DerivedIn limit [t] :=
  ⟨0, [t], hlimit, List.infix_refl _, whole_of_tree (.name hk) rfl⟩

/-! ### Lists -/

theorem statements_derived {ss : List Stmt} (h : Derives n φ ts) (hφ : φ = .statements ss)
    (hn : n ≤ limit) : ∀ s ∈ ss, (Node.stmt s).DerivedIn limit ts := by
  induction h generalizing ss with
  | done =>
    cases hφ
    simp
  | next h _ _ _ ih =>
    cases hφ
    refine List.forall_mem_cons.2 ⟨?_, fun s hs => ?_⟩
    · exact (h.derived rfl hn).mono (List.prefix_append _ _).isInfix
    · exact (ih rfl hn s hs).mono (List.suffix_append _ _).isInfix
  | _ => cases hφ

theorem expressions_derived {es : List Expr} (h : Derives n φ ts)
    (hφ : φ = .expressions es ∨ φ = .arguments es) (hn : n < limit) :
    ∀ e ∈ es, (Node.expr e).DerivedIn limit ts := by
  induction h generalizing es with
  | noArguments =>
    rcases hφ with hφ | hφ <;> cases hφ
    simp
  | someArguments _ ih =>
    rcases hφ with hφ | hφ <;> cases hφ
    exact ih (.inl rfl) hn
  | lastExpression h =>
    rcases hφ with hφ | hφ <;> cases hφ
    simpa using h.derived rfl (Nat.lt_of_succ_lt hn)
  | nextExpression h _ _ _ ih =>
    rcases hφ with hφ | hφ <;> cases hφ
    refine List.forall_mem_cons.2 ⟨?_, fun e he => ?_⟩
    · exact (h.derived rfl (Nat.lt_of_succ_lt hn)).mono (List.prefix_append _ _).isInfix
    · exact (ih (.inl rfl) hn e he).mono
        ((List.suffix_cons _ _).trans (List.suffix_append _ _)).isInfix
  | _ => rcases hφ with hφ | hφ <;> cases hφ

theorem names_derived {xs : List Name} (h : Derives n φ ts)
    (hφ : φ = .names xs ∨ φ = .parameters xs) (hlimit : 0 < limit) :
    ∀ x ∈ xs, (Node.name x).DerivedIn limit ts := by
  induction h generalizing xs with
  | noParameters =>
    rcases hφ with hφ | hφ <;> cases hφ
    simp
  | someParameters _ ih =>
    rcases hφ with hφ | hφ <;> cases hφ
    exact ih (.inl rfl)
  | lastName hk =>
    rcases hφ with hφ | hφ <;> cases hφ
    simpa using name_derived hk hlimit
  | nextName hk _ _ ih =>
    rcases hφ with hφ | hφ <;> cases hφ
    refine List.forall_mem_cons.2 ⟨?_, fun x hx => ?_⟩
    · exact (name_derived hk hlimit).mono (List.prefix_append [_] _).isInfix
    · exact (ih (.inl rfl) x hx).mono (List.suffix_append [_, _] _).isInfix
  | _ => rcases hφ with hφ | hφ <;> cases hφ

/-! ### The nodes below a node -/

theorem node?_operand (τ : Tier) (e : Expr) : (τ.operand e).node? = some (.expr e) := by
  cases τ <;> rfl

theorem within_operand (τ : Tier) (e : Expr) (hn : n < limit) : (τ.operand e).Within limit n := by
  cases τ <;> exact hn

/-- The pieces of the tree of a phrase are derived from runs of its tokens. -/
theorem pieces_derived (h : Derives n φ ts) (hm : φ.node? = some m) (hn : φ.Within limit n) :
    ∀ p ∈ m.pieces, p.DerivedIn limit ts := by
  induction h generalizing m with
  | @binding _ keyword name sign _ ts _ ending _ hname _ hvalue _ _ =>
    cases hm
    refine List.forall_mem_cons.2 ⟨trivial, List.forall_mem_cons.2 ⟨?_,
      List.forall_mem_singleton.2 ?_⟩⟩
    · exact (name_derived hname (Nat.zero_lt_of_lt hn)).mono
        ⟨[keyword], sign :: (ts ++ ending), rfl⟩
    · exact (hvalue.derived rfl hn).mono ⟨[keyword, name, sign], ending, by simp⟩
  | @returning _ keyword _ _ _ ending _ hvalue _ _ =>
    cases hm
    refine List.forall_mem_cons.2 ⟨trivial, List.forall_mem_singleton.2 ?_⟩
    exact (hvalue.derived rfl hn).mono ⟨[keyword], ending, by simp⟩
  | @expression _ _ _ _ _ ending hvalue _ _ =>
    cases hm
    refine List.forall_mem_singleton.2 ?_
    exact (hvalue.derived rfl hn).mono ⟨[], ending, by simp⟩
  | blockStatement _ ih => exact ih hm hn
  | @block _ _ _ opening closing _ hss _ _ =>
    cases hm
    refine List.forall_mem_cons.2 ⟨trivial, List.forall_mem_map.2 fun s hs => ?_⟩
    exact (statements_derived hss rfl (Nat.le_of_succ_le hn) s hs).mono
      ⟨[opening], [closing], by simp⟩
  | @assign _ _ operator _ ts us hx _ hvalue _ _ =>
    cases hm
    refine List.forall_mem_cons.2 ⟨?_, List.forall_mem_cons.2 ⟨trivial,
      List.forall_mem_singleton.2 ?_⟩⟩
    · exact (hx.derived rfl hn).mono ⟨[], operator :: us, by simp⟩
    · exact (hvalue.derived rfl (Nat.lt_of_succ_lt hn)).mono ⟨ts ++ [operator], [], by simp⟩
  | equality _ ih | applied _ ih | primary _ ih => exact ih hm hn
  | @tighter _ τ e _ _ ih =>
    cases hm
    exact ih (node?_operand τ e) (within_operand τ e hn)
  | @binary _ τ _ r operator ts us hl _ hr _ _ =>
    cases hm
    have hlt : _ < limit := Nat.lt_of_succ_lt hn
    refine List.forall_mem_cons.2 ⟨?_, List.forall_mem_cons.2 ⟨trivial,
      List.forall_mem_singleton.2 ?_⟩⟩
    · exact (hl.derived rfl hn).mono ⟨[], operator :: us, by simp⟩
    · exact (hr.derived (node?_operand τ r) (within_operand τ r hlt)).mono
        ⟨ts ++ [operator], [], by simp⟩
  | @unary _ operator _ _ _ hoperand _ =>
    cases hm
    refine List.forall_mem_cons.2 ⟨trivial, List.forall_mem_singleton.2 ?_⟩
    exact (hoperand.derived rfl (Nat.lt_of_succ_lt hn)).mono ⟨[operator], [], by simp⟩
  | @call _ _ _ opening closing ts us hf _ hes _ _ _ =>
    cases hm
    refine List.forall_mem_cons.2 ⟨?_, List.forall_mem_cons.2 ⟨trivial,
      List.forall_mem_map.2 fun e he => ?_⟩⟩
    · exact (hf.derived rfl hn).mono ⟨[], opening :: (us ++ [closing]), by simp⟩
    · exact (expressions_derived hes (.inr rfl) hn e he).mono ⟨ts ++ [opening], [closing], by simp⟩
  | integer | name | true | false | targetName =>
    cases hm
    exact List.forall_mem_singleton.2 trivial
  | @group _ _ opening closing _ _ _ _ ih =>
    intro p hp
    exact (ih hm (Nat.lt_of_succ_lt hn) p hp).mono ⟨[opening], [closing], by simp⟩
  | @conditional _ keyword opening closing _ _ ts us _ _ hcondition _ hb _ _ =>
    cases hm
    refine List.forall_mem_cons.2 ⟨trivial, List.forall_mem_cons.2 ⟨?_,
      List.forall_mem_singleton.2 ?_⟩⟩
    · exact (hcondition.derived rfl (Nat.lt_of_succ_lt hn)).mono
        ⟨[keyword, opening], closing :: us, by simp⟩
    · exact (hb.derived rfl (Nat.le_of_lt hn)).mono
        ⟨keyword :: opening :: (ts ++ [closing]), [], by simp⟩
  | @conditionalElse _ keyword opening closing _ _ otherwise _ ts us vs
      _ _ hcondition _ hb _ hb' _ _ _ =>
    cases hm
    refine List.forall_mem_cons.2 ⟨trivial, List.forall_mem_cons.2 ⟨?_, List.forall_mem_cons.2 ⟨?_,
      List.forall_mem_singleton.2 ?_⟩⟩⟩
    · exact (hcondition.derived rfl (Nat.lt_of_succ_lt hn)).mono
        ⟨[keyword, opening], closing :: (us ++ otherwise :: vs), by simp⟩
    · exact (hb.derived rfl (Nat.le_of_lt hn)).mono
        ⟨keyword :: opening :: (ts ++ [closing]), otherwise :: vs, by simp⟩
    · exact (hb'.derived rfl (Nat.le_of_lt hn)).mono
        ⟨keyword :: opening :: (ts ++ closing :: (us ++ [otherwise])), [], by simp⟩
  | @function _ keyword opening closing xs _ ts us _ _ hxs _ hb _ _ =>
    cases hm
    refine List.forall_mem_cons.2 ⟨trivial, List.forall_mem_append.2
      ⟨List.forall_mem_map.2 fun x hx => ?_, List.forall_mem_singleton.2 ?_⟩⟩
    · exact (names_derived hxs (.inr rfl) (Nat.zero_lt_of_lt hn) x hx).mono
        ⟨[keyword, opening], closing :: us, by simp⟩
    · exact (hb.derived rfl (Nat.le_of_lt hn)).mono
        ⟨keyword :: opening :: (ts ++ [closing]), [], by simp⟩
  | targetGroup =>
    cases hm
    exact List.forall_mem_singleton.2 trivial
  | _ => cases hm

/-- Every node of a program is derived from a run of its tokens. -/
theorem has_derived {ss : List Stmt} (h : Derives limit (.statements ss) ts)
    (hm : Program.Has ⟨ss⟩ m) : m.DerivedIn limit ts := by
  induction hm with
  | statement hs => exact statements_derived h rfl (Nat.le_refl limit) _ hs
  | @inside m k _ hk ih =>
    cases m with
    | expr e =>
      obtain ⟨n, us, hn, hus, he⟩ := ih
      exact Piece.DerivedIn.mono (he.pieces_derived rfl hn _ hk) hus
    | stmt s =>
      obtain ⟨n, us, bare, hn, hus, hs⟩ := ih
      exact Piece.DerivedIn.mono (hs.pieces_derived rfl hn _ hk) hus

end Grammar.Derives
end LetLang
