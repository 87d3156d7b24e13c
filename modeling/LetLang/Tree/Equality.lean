import LetLang.Tree.Basic

/-! Equality of trees can be decided.

Two trees are the same if they have the same nodes in the same places, and every
token, value and span in them agrees. -/
namespace LetLang

mutual

def Expr.same : Expr → Expr → Bool
  | .name a, .name b => a == b
  | .integer t v, .integer t' v' => t == t' && v == v'
  | .boolean t v, .boolean t' v' => t == t' && v == v'
  | .unary o e s, .unary o' e' s' => o == o' && e.same e' && s == s'
  | .binary l o r s, .binary l' o' r' s' => l.same l' && o == o' && r.same r' && s == s'
  | .assign n o e s, .assign n' o' e' s' => n == n' && o == o' && e.same e' && s == s'
  | .conditional t c b a s, .conditional t' c' b' a' s' =>
    t == t' && c.same c' && b.same b' && Block.sameOption a a' && s == s'
  | .function t ps b s, .function t' ps' b' s' => t == t' && ps == ps' && b.same b' && s == s'
  | .call f t as s, .call f' t' as' s' => f.same f' && t == t' && Expr.sameList as as' && s == s'
  | _, _ => false

def Expr.sameList : List Expr → List Expr → Bool
  | [], [] => true
  | e :: es, e' :: es' => e.same e' && Expr.sameList es es'
  | _, _ => false

def Stmt.same : Stmt → Stmt → Bool
  | .binding t n e s, .binding t' n' e' s' => t == t' && n == n' && e.same e' && s == s'
  | .returning t e s, .returning t' e' s' => t == t' && e.same e' && s == s'
  | .expression t e s, .expression t' e' s' => t == t' && e.same e' && s == s'
  | .block b, .block b' => b.same b'
  | _, _ => false

def Stmt.sameList : List Stmt → List Stmt → Bool
  | [], [] => true
  | x :: xs, y :: ys => x.same y && Stmt.sameList xs ys
  | _, _ => false

def Block.same : Block → Block → Bool
  | .mk t xs s, .mk t' xs' s' => t == t' && Stmt.sameList xs xs' && s == s'

def Block.sameOption : Option Block → Option Block → Bool
  | none, none => true
  | some b, some b' => b.same b'
  | _, _ => false

end

mutual

theorem Expr.same_self : ∀ e : Expr, e.same e
  | .name _ => by simp [Expr.same]
  | .integer _ _ => by simp [Expr.same]
  | .boolean _ _ => by simp [Expr.same]
  | .unary _ e _ => by simp [Expr.same, e.same_self]
  | .binary l _ r _ => by simp [Expr.same, l.same_self, r.same_self]
  | .assign _ _ e _ => by simp [Expr.same, e.same_self]
  | .conditional _ c b a _ => by simp [Expr.same, c.same_self, b.same_self, Block.sameOption_self a]
  | .function _ _ b _ => by simp [Expr.same, b.same_self]
  | .call f _ as _ => by simp [Expr.same, f.same_self, Expr.sameList_self as]

theorem Expr.sameList_self : ∀ es : List Expr, Expr.sameList es es
  | [] => by simp [Expr.sameList]
  | e :: es => by simp [Expr.sameList, e.same_self, Expr.sameList_self es]

theorem Stmt.same_self : ∀ x : Stmt, x.same x
  | .binding _ _ e _ => by simp [Stmt.same, e.same_self]
  | .returning _ e _ => by simp [Stmt.same, e.same_self]
  | .expression _ e _ => by simp [Stmt.same, e.same_self]
  | .block b => by simp [Stmt.same, b.same_self]

theorem Stmt.sameList_self : ∀ xs : List Stmt, Stmt.sameList xs xs
  | [] => by simp [Stmt.sameList]
  | x :: xs => by simp [Stmt.sameList, x.same_self, Stmt.sameList_self xs]

theorem Block.same_self : ∀ b : Block, b.same b
  | .mk _ xs _ => by simp [Block.same, Stmt.sameList_self xs]

theorem Block.sameOption_self : ∀ b : Option Block, Block.sameOption b b
  | none => by simp [Block.sameOption]
  | some b => by simp [Block.sameOption, b.same_self]

end

mutual

theorem Expr.eq_of_same : ∀ {a b : Expr}, a.same b → a = b
  | .name _, b, h => by cases b <;> simp_all [Expr.same]
  | .integer _ _, b, h => by cases b <;> simp_all [Expr.same]
  | .boolean _ _, b, h => by cases b <;> simp_all [Expr.same]
  | .unary _ e _, b, h => by
    cases b <;> simp_all [Expr.same]
    exact Expr.eq_of_same h.1.2
  | .binary l _ r _, b, h => by
    cases b <;> simp_all [Expr.same]
    exact ⟨Expr.eq_of_same h.1.1.1, Expr.eq_of_same h.1.2⟩
  | .assign _ _ e _, b, h => by
    cases b <;> simp_all [Expr.same]
    exact Expr.eq_of_same h.1.2
  | .conditional _ c t a _, b, h => by
    cases b <;> simp_all [Expr.same]
    exact ⟨Expr.eq_of_same h.1.1.1.2, Block.eq_of_same h.1.1.2, Block.eq_of_sameOption h.1.2⟩
  | .function _ _ t _, b, h => by
    cases b <;> simp_all [Expr.same]
    exact Block.eq_of_same h.1.2
  | .call f _ as _, b, h => by
    cases b <;> simp_all [Expr.same]
    exact ⟨Expr.eq_of_same h.1.1.1, Expr.eq_of_sameList h.1.2⟩

theorem Expr.eq_of_sameList : ∀ {as bs : List Expr}, Expr.sameList as bs → as = bs
  | [], bs, h => by cases bs <;> simp_all [Expr.sameList]
  | e :: es, bs, h => by
    cases bs <;> simp_all [Expr.sameList]
    exact ⟨Expr.eq_of_same h.1, Expr.eq_of_sameList h.2⟩

theorem Stmt.eq_of_same : ∀ {a b : Stmt}, a.same b → a = b
  | .binding _ _ e _, b, h => by
    cases b <;> simp_all [Stmt.same]
    exact Expr.eq_of_same h.1.2
  | .returning _ e _, b, h => by
    cases b <;> simp_all [Stmt.same]
    exact Expr.eq_of_same h.1.2
  | .expression _ e _, b, h => by
    cases b <;> simp_all [Stmt.same]
    exact Expr.eq_of_same h.1.2
  | .block t, b, h => by
    cases b <;> simp_all [Stmt.same]
    exact Block.eq_of_same h

theorem Stmt.eq_of_sameList : ∀ {as bs : List Stmt}, Stmt.sameList as bs → as = bs
  | [], bs, h => by cases bs <;> simp_all [Stmt.sameList]
  | x :: xs, bs, h => by
    cases bs <;> simp_all [Stmt.sameList]
    exact ⟨Stmt.eq_of_same h.1, Stmt.eq_of_sameList h.2⟩

theorem Block.eq_of_same : ∀ {a b : Block}, a.same b → a = b
  | .mk _ xs _, .mk _ _ _, h => by
    simp_all [Block.same]
    exact Stmt.eq_of_sameList h.1.2

theorem Block.eq_of_sameOption : ∀ {a b : Option Block}, Block.sameOption a b → a = b
  | none, b, h => by cases b <;> simp_all [Block.sameOption]
  | some t, b, h => by
    cases b <;> simp_all [Block.sameOption]
    exact Block.eq_of_same h

end

theorem Expr.same_iff {a b : Expr} : a.same b ↔ a = b :=
  ⟨Expr.eq_of_same, fun h => h ▸ a.same_self⟩

theorem Stmt.same_iff {a b : Stmt} : a.same b ↔ a = b :=
  ⟨Stmt.eq_of_same, fun h => h ▸ a.same_self⟩

theorem Block.same_iff {a b : Block} : a.same b ↔ a = b :=
  ⟨Block.eq_of_same, fun h => h ▸ a.same_self⟩

instance : DecidableEq Expr := fun _ _ => decidable_of_iff _ Expr.same_iff

instance : DecidableEq Stmt := fun _ _ => decidable_of_iff _ Stmt.same_iff

instance : DecidableEq Block := fun _ _ => decidable_of_iff _ Block.same_iff

deriving instance DecidableEq for Program

end LetLang
