import LetLang.Proofs.Coverage
import LetLang.Tree.Node

/-! The nodes of a tree, spread over the tokens of a source.

`Spread ds ps ts`: the pieces stand one after the other among the tokens, and each
node among them lies over a run of tokens that its span covers, over which its own
pieces are spread. A token between the pieces is of a kind that no tree has to keep,
unless the diagnostics `ds` say that something is wrong. Whatever is laid over tokens
is spread over them (`Laid.spread`), so every node of a tree lies over a run of the
tokens of its source (`Program.Has.over`). -/
namespace LetLang
open Token (Kind)
open Grammar (Ending Tier signs)

/-! ### Nodes and their tokens -/

/-- A token of this kind is in the tree, unless something is wrong. -/
def Token.Kind.isKept : Kind → Bool
  | .identifier | .integer | .kwTrue | .kwFalse => true
  | .equals | .notEquals | .less | .lessEquals | .greater | .greaterEquals => true
  | .plus | .dash | .star | .slash | .not => true
  | .plusEquals | .minusEquals | .starEquals | .slashEquals => true
  | .kwLet | .kwReturn | .kwIf | .kwFn | .openCurly => true
  | _ => false

/-- The operators that stand between two operands. -/
def Token.Kind.binaries : List Kind :=
  [.equals, .notEquals, .less, .lessEquals, .greater, .greaterEquals, .plus, .dash, .star, .slash]

/-- The node is named for a token of a kind that fits it, and has the value of that token. -/
def Node.Fits : Node → Prop
  | expr (.name x) => x.token.kind = .identifier ∧ x.text = x.token.literal
  | expr (.integer t v) => t.kind = .integer ∧ v = t.value ∧ v ≤ Parser.maxInteger
  | expr (.boolean t v) => t.kind = if v then .kwTrue else .kwFalse
  | expr (.unary t _ _) => t.kind = .not ∨ t.kind = .dash
  | expr (.binary _ t _ _) => t.kind ∈ Kind.binaries
  | expr (.assign _ t _ _) => t.kind.isCompound
  | expr (.conditional t _ _ _ _) => t.kind = .kwIf
  | expr (.function t _ _ _) => t.kind = .kwFn
  | expr (.call _ t _ _) => t.kind = .openParen
  | stmt (.binding t _ _ _) => t.kind = .kwLet
  | stmt (.returning t _ _) => t.kind = .kwReturn
  | stmt (.expression _ _ _) => True
  | stmt (.block b) => b.token.kind = .openCurly

/-- Tokens that are in no tree, either because of their kinds or because something is wrong. -/
def Skipped (ds : List Diagnostic) (run : List Token) : Prop :=
  ∀ t ∈ run, ds = [] → t.kind.isKept = false

inductive Spread (ds : List Diagnostic) : List Piece → List Token → Prop where
  | nil : Spread ds [] []
  | skip {t : Token} {ps : List Piece} {ts : List Token} (ht : ds = [] → t.kind.isKept = false)
      (h : Spread ds ps ts) : Spread ds ps (t :: ts)
  | token {t : Token} {ps : List Piece} {ts : List Token} (h : Spread ds ps ts) :
      Spread ds (.token t :: ps) (t :: ts)
  | node {n : Node} {ps : List Piece} {first : Token} {us ts : List Token} (hfits : n.Fits)
      (htoken : n.token ∈ first :: us) (hspan : n.span = .covering first us)
      (hpieces : Spread ds n.pieces (first :: us)) (h : Spread ds ps ts) :
      Spread ds (.node n :: ps) (first :: us ++ ts)

variable {ds : List Diagnostic} {n : Node} {p q : Piece} {ps qs : List Piece}
  {t first : Token} {ts us run : List Token}

/-- What a run covers goes up to its last token. -/
theorem Span.covering_concat (first : Token) (us : List Token) :
    ∃ vs last, first :: us = vs ++ [last] ∧ Span.covering first us = ⟨first.start, last.stop⟩ := by
  have hlast := (List.dropLast_concat_getLast (List.cons_ne_nil first us)).symm
  exact ⟨_, _, hlast, Span.covering_eq hlast⟩

namespace Spread

theorem append (h : Spread ds ps ts) (h' : Spread ds qs us) : Spread ds (ps ++ qs) (ts ++ us) := by
  induction h with
  | nil => exact h'
  | skip ht _ ih => exact .skip ht ih
  | token _ ih => exact .token ih
  | node hfits htoken hspan hpieces _ _ ih =>
    rw [List.append_assoc]
    exact .node hfits htoken hspan hpieces ih

theorem of_skipped (h : Skipped ds run) : Spread ds [] run := by
  induction run with
  | nil => exact .nil
  | cons t run ih =>
    exact .skip (h t List.mem_cons_self) (ih fun u hu => h u (List.mem_cons_of_mem t hu))

theorem skipped (h : Spread ds [] run) : Skipped ds run := by
  generalize hps : ([] : List Piece) = ps at h
  induction h with
  | nil => simp [Skipped]
  | skip ht _ ih =>
    intro u hu
    rcases List.mem_cons.1 hu with rfl | hu
    · exact ht
    · exact ih hps u hu
  | token => cases hps
  | node => cases hps

theorem mem_of_token (h : Spread ds ps ts) (ht : .token t ∈ ps) : t ∈ ts := by
  induction h with
  | nil => cases ht
  | skip _ _ ih => exact List.mem_cons_of_mem _ (ih ht)
  | token _ ih =>
    rcases List.mem_cons.1 ht with heq | ht
    · cases heq
      exact List.mem_cons_self
    · exact List.mem_cons_of_mem _ (ih ht)
  | node _ _ _ _ _ _ ih =>
    rcases List.mem_cons.1 ht with heq | ht
    · cases heq
    · exact List.mem_append_right _ (ih ht)

theorem before (h : Spread ds ps ts) (hus : Skipped ds us) : Spread ds ps (us ++ ts) :=
  (of_skipped hus).append h

theorem after (h : Spread ds ps ts) (hus : Skipped ds us) : Spread ds ps (ts ++ us) := by
  simpa using h.append (of_skipped hus)

/-! ### Putting nodes together -/

theorem wrap (hfits : n.Fits) (htoken : n.token ∈ first :: us) (hspan : n.span = .covering first us)
    (h : Spread ds n.pieces (first :: us)) : Spread ds [.node n] (first :: us) := by
  simpa using Spread.node hfits htoken hspan h .nil

/-- A node that is nothing but a token. -/
theorem leaf (hfits : n.Fits) (hpieces : n.pieces = [.token t]) (htoken : n.token = t)
    (hspan : n.span = t.span) : Spread ds [.node n] [t] := by
  refine wrap hfits ?_ hspan ?_
  · rw [htoken]
    exact List.mem_cons_self
  · rw [hpieces]
    exact .token .nil

/-- The tokens in front of the first piece are skipped. -/
theorem trimLeft (h : Spread ds (p :: ps) ts) :
    ∃ before first us, ts = before ++ first :: us ∧ Skipped ds before ∧
      first.start = p.span.start ∧ Spread ds (p :: ps) (first :: us) := by
  generalize hqs : p :: ps = qs at h
  induction h with
  | nil => cases hqs
  | @skip t _ _ ht _ ih =>
    obtain ⟨before, first, us, rfl, hbefore, hstart, hspread⟩ := ih hqs
    exact ⟨t :: before, first, us, rfl, List.forall_mem_cons.2 ⟨ht, hbefore⟩, hstart, hspread⟩
  | @token t _ ts h _ =>
    cases hqs
    exact ⟨[], t, ts, rfl, by simp [Skipped], rfl, .token h⟩
  | @node n _ first us ts hfits htoken hspan hpieces h _ _ =>
    cases hqs
    refine ⟨[], first, us ++ ts, rfl, by simp [Skipped], ?_, .node hfits htoken hspan hpieces h⟩
    show first.start = n.span.start
    rw [hspan]
    rfl

/-- The tokens behind the last piece are skipped. -/
theorem trimRight (h : Spread ds (qs ++ [q]) ts) :
    ∃ us last after, ts = us ++ last :: after ∧ Skipped ds after ∧
      last.stop = q.span.stop ∧ Spread ds (qs ++ [q]) (us ++ [last]) := by
  generalize hps : qs ++ [q] = ps at h
  induction h generalizing qs with
  | nil => simp at hps
  | @skip t _ _ ht _ ih =>
    obtain ⟨us, last, after, rfl, hafter, hstop, hspread⟩ := ih hps
    exact ⟨t :: us, last, after, rfl, hafter, hstop, .skip ht hspread⟩
  | @token t ps ts h ih =>
    cases qs with
    | nil =>
      cases hps
      exact ⟨[], t, ts, rfl, h.skipped, rfl, .token .nil⟩
    | cons p qs =>
      obtain ⟨rfl, hrest⟩ := List.cons.inj hps
      obtain ⟨us, last, after, rfl, hafter, hstop, hspread⟩ := ih hrest
      exact ⟨t :: us, last, after, rfl, hafter, hstop, .token hspread⟩
  | @node n ps first us ts hfits htoken hspan hpieces h _ ih =>
    cases qs with
    | nil =>
      cases hps
      obtain ⟨vs, last, hlast, hcovers⟩ := Span.covering_concat first us
      refine ⟨vs, last, ts, by simp [hlast], h.skipped, ?_, ?_⟩
      · show last.stop = n.span.stop
        rw [hspan, hcovers]
      · rw [← hlast]
        exact wrap hfits htoken hspan hpieces
    | cons p qs =>
      obtain ⟨rfl, hrest⟩ := List.cons.inj hps
      obtain ⟨vs, last, after, rfl, hafter, hstop, hspread⟩ := ih hrest
      refine ⟨first :: us ++ vs, last, after, by simp, hafter, hstop, ?_⟩
      rw [List.append_assoc]
      exact .node hfits htoken hspan hpieces hspread

/-- A node whose span goes from its first piece to its last one. -/
theorem between (p : Piece) (ps : List Piece) (q : Piece) (hpieces : n.pieces = p :: (ps ++ [q]))
    (hfits : n.Fits) (htoken : .token n.token ∈ n.pieces)
    (hspan : n.span = ⟨p.span.start, q.span.stop⟩) (h : Spread ds n.pieces ts) :
    Spread ds [.node n] ts := by
  rw [hpieces] at h
  obtain ⟨before, first, us, rfl, hbefore, hstart, h⟩ := h.trimLeft
  rw [← List.cons_append] at h
  obtain ⟨vs, last, after, hrun, hafter, hstop, h⟩ := h.trimRight
  obtain ⟨us', hus⟩ : ∃ us', vs ++ [last] = first :: us' := by
    cases vs with
    | nil =>
      obtain ⟨rfl, -⟩ := List.cons.inj hrun
      exact ⟨[], rfl⟩
    | cons v vs =>
      obtain ⟨rfl, -⟩ := List.cons.inj hrun
      exact ⟨vs ++ [last], rfl⟩
  rw [List.cons_append, ← hpieces, hus] at h
  have hcovers : n.span = .covering first us' := by
    rw [hspan, Span.covering_eq hus.symm, hstart, hstop]
  have hnode : Spread ds [.node n] (first :: us') := wrap hfits (h.mem_of_token htoken) hcovers h
  have htokens : first :: us = first :: us' ++ after := by
    rw [hrun, ← hus]
    simp
  rw [htokens]
  exact (hnode.after hafter).before hbefore

/-- A node whose span goes from its first piece to a token behind the last one. -/
theorem closed (p : Piece) (ps : List Piece) {closing : Token} (hpieces : n.pieces = p :: ps)
    (hfits : n.Fits) (htoken : .token n.token ∈ n.pieces)
    (hspan : n.span = ⟨p.span.start, closing.stop⟩) (h : Spread ds n.pieces (ts ++ [closing])) :
    Spread ds [.node n] (ts ++ [closing]) := by
  rw [hpieces] at h
  obtain ⟨before, first, us, htokens, hbefore, hstart, h⟩ := h.trimLeft
  rw [← hpieces] at h
  obtain ⟨vs, last, hlast, hcovers⟩ := Span.covering_concat first us
  obtain rfl : closing = last := by
    rw [hlast, ← List.append_assoc] at htokens
    exact (List.cons.inj (List.append_inj' htokens rfl).2).1
  rw [htokens]
  refine (wrap hfits (h.mem_of_token htoken) ?_ h).before hbefore
  rw [hspan, hcovers, hstart]

end Spread

/-! ### Trees -/

/-- The nodes that a part is made of. -/
def Part.pieces : Part → List Piece
  | statements ss _ => ss.map fun s => .node (.stmt s)
  | statement s => [.node (.stmt s)]
  | block b => [.node (.block b)]
  | expression e => [.node (.expr e)]
  | arguments es | moreArguments es => es.map fun e => .node (.expr e)
  | parameters xs | moreParameters xs => xs.map fun x => .node (.name x)

theorem Charged.skipped {next : Token} (h : Charged ds run next) : Skipped ds run := by
  rcases h with rfl | ⟨d, hd, -⟩
  · simp [Skipped]
  · intro t _ hnone
    rw [hnone] at hd
    cases hd

theorem Grammar.Ending.skipped {bare : Bool} (h : Ending ts bare) : Skipped ds ts := by
  cases h with
  | bare => simp [Skipped]
  | semicolon h => simp [Skipped, h, Kind.isKept]

theorem Grammar.Tier.operators_subset (τ : Tier) : τ.operators ⊆ Kind.binaries := by
  cases τ <;> simp [Tier.operators, Kind.binaries]

theorem skipped_token {kind : Kind} (ht : t.kind = kind) (hkind : kind.isKept = false) :
    Skipped ds [t] := by
  intro u hu _
  rw [List.mem_singleton.1 hu, ht, hkind]

theorem Spread.bound (ht : t.kind = .identifier) : Spread ds [.node (.name ⟨t⟩)] [t] :=
  .leaf ⟨ht, rfl⟩ rfl rfl rfl

/-- Whatever is laid over tokens is spread over them. -/
theorem Laid.spread {φ : Part} (h : Laid ds φ ts) : Spread ds φ.pieces ts := by
  induction h with
  | done hrun => exact .of_skipped hrun.skipped
  | next hrun _ _ ih ih' => exact (ih.append ih').before hrun.skipped
  | binding hkeyword hname hsign _ hending ih =>
    have hvalue := (ih.after hending.skipped).before (skipped_token hsign rfl)
    exact .wrap hkeyword List.mem_cons_self rfl (.token ((Spread.bound hname).append hvalue))
  | returning hkeyword _ hending ih =>
    exact .wrap hkeyword List.mem_cons_self rfl (.token (ih.after hending.skipped))
  | expressionStatement _ hending ih =>
    exact .wrap trivial List.mem_cons_self rfl (ih.after hending.skipped)
  | blockStatement _ ih => exact ih
  | @block opening ss region closing hopening hclosing _ _ ih =>
    have hbody := ih.after (skipped_token hclosing rfl)
    rw [← List.cons_append]
    exact .closed (.token opening) (ss.map fun s => .node (.stmt s)) rfl hopening List.mem_cons_self
      rfl (.token hbody)
  | name ht => exact .bound ht
  | integer ht hvalue => exact .leaf ⟨ht, rfl, hvalue⟩ rfl rfl rfl
  | true ht => exact .leaf ht rfl rfl rfl
  | false ht => exact .leaf ht rfl rfl rfl
  | group hopening _ hclosing ih =>
    exact (ih.after (skipped_token hclosing rfl)).before (skipped_token hopening rfl)
  | @unary operator e _ hoperator _ ih =>
    have hsign : operator.kind = .not ∨ operator.kind = .dash := by simpa [signs] using hoperator
    exact .between (.token operator) [] (.node (.expr e)) rfl hsign List.mem_cons_self rfl (.token ih)
  | @binary τ l r operator _ _ _ hoperator _ ih ih' =>
    refine .between (.node (.expr l)) [.token operator] (.node (.expr r)) rfl ?_ ?_ rfl
      (ih.append (.token ih'))
    · exact τ.operators_subset hoperator
    · exact List.mem_cons_of_mem _ List.mem_cons_self
  | @assign x operator e _ _ _ hoperator _ ih ih' =>
    refine .between (.node (.name x)) [.token operator] (.node (.expr e)) rfl hoperator ?_ rfl
      (ih.append (.token ih'))
    exact List.mem_cons_of_mem _ List.mem_cons_self
  | @call f es opening closing ts us _ hopening _ hclosing ih ih' =>
    have harguments : Spread ds (.token opening :: es.map fun e => .node (.expr e))
        (opening :: (us ++ [closing])) := .token (ih'.after (skipped_token hclosing rfl))
    have hpieces := ih.append harguments
    have htokens : ts ++ opening :: (us ++ [closing]) = ts ++ opening :: us ++ [closing] := by simp
    rw [htokens] at hpieces ⊢
    exact .closed (.node (.expr f)) (.token opening :: es.map fun e => .node (.expr e)) rfl hopening
      (List.mem_cons_of_mem _ List.mem_cons_self) rfl hpieces
  | @conditional keyword opening closing c b _ _ hkeyword hopening _ hclosing _ ih ih' =>
    have hblock := ih'.before (skipped_token hclosing rfl)
    have hcondition := (ih.append hblock).before (skipped_token hopening rfl)
    exact .between (.token keyword) [.node (.expr c)] (.node (.block b)) rfl hkeyword
      List.mem_cons_self rfl (.token hcondition)
  | @conditionalElse keyword opening closing c b otherwise b' _ _ _ hkeyword hopening _ hclosing _
      hotherwise _ ih ih' ih'' =>
    have halternative := ih''.before (skipped_token hotherwise rfl)
    have hblocks := (ih'.append halternative).before (skipped_token hclosing rfl)
    have hcondition := (ih.append hblocks).before (skipped_token hopening rfl)
    exact .between (.token keyword) [.node (.expr c), .node (.block b)] (.node (.block b')) rfl
      hkeyword List.mem_cons_self rfl (.token hcondition)
  | @function keyword opening closing xs b _ _ hkeyword hopening _ hclosing _ ih ih' =>
    have hbody := ih'.before (skipped_token hclosing rfl)
    have hparameters := (ih.append hbody).before (skipped_token hopening rfl)
    exact .between (.token keyword) (xs.map fun x => .node (.name x)) (.node (.block b)) rfl hkeyword
      List.mem_cons_self rfl (.token hparameters)
  | noArguments => exact .nil
  | arguments _ _ ih ih' => exact ih.append ih'
  | noMoreArguments => exact .nil
  | moreArguments hcomma _ _ ih ih' => exact (ih.append ih').before (skipped_token hcomma rfl)
  | noParameters => exact .nil
  | parameters ht _ ih => exact (Spread.bound ht).append ih
  | noMoreParameters => exact .nil
  | moreParameters hcomma ht _ ih =>
    exact ((Spread.bound ht).append ih).before (skipped_token hcomma rfl)

/-! ### Every node of a tree -/

/-- The node lies over the run, which begins with `first`. -/
structure Node.Over (ds : List Diagnostic) (n : Node) (first : Token) (us : List Token) : Prop where
  fits : n.Fits
  token : n.token ∈ first :: us
  span : n.span = .covering first us
  pieces : Spread ds n.pieces (first :: us)

theorem Spread.over (h : Spread ds ps ts) (hn : .node n ∈ ps) :
    ∃ first us, first :: us <:+: ts ∧ n.Over ds first us := by
  induction h with
  | nil => cases hn
  | @skip t _ ts _ _ ih =>
    obtain ⟨first, us, hrun, hover⟩ := ih hn
    exact ⟨first, us, List.infix_cons hrun, hover⟩
  | @token t _ ts _ ih =>
    rcases List.mem_cons.1 hn with heq | hn
    · cases heq
    · obtain ⟨first, us, hrun, hover⟩ := ih hn
      exact ⟨first, us, List.infix_cons hrun, hover⟩
  | @node m _ first us ts hfits htoken hspan hpieces _ _ ih =>
    rcases List.mem_cons.1 hn with heq | hn
    · cases heq
      exact ⟨first, us, (List.prefix_append _ ts).isInfix, hfits, htoken, hspan, hpieces⟩
    · obtain ⟨first', us', hrun, hover⟩ := ih hn
      exact ⟨first', us', hrun.trans (List.suffix_append _ ts).isInfix, hover⟩

theorem Program.Has.over {p : Program} {next : Token} (h : p.Has n)
    (hlaid : Laid ds (.statements p.statements next) ts) :
    ∃ first us, first :: us <:+: ts ∧ n.Over ds first us := by
  induction h with
  | statement hs => exact hlaid.spread.over (List.mem_map_of_mem hs)
  | inside _ hm ih =>
    obtain ⟨first, us, hrun, hover⟩ := ih
    obtain ⟨first', us', hrun', hover'⟩ := hover.pieces.over hm
    exact ⟨first', us', hrun'.trans hrun, hover'⟩

end LetLang
