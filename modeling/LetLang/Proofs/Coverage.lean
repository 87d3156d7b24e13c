import LetLang.Proofs.Order
import LetLang.Proofs.Trail.Constructs

/-! No token is dropped silently.

A list of statements belongs to a region of the source: the whole of it, or what
stands between the braces of a block. Wherever tokens of the region lie outside the
spans of its statements, a diagnostic is about one of them or about the token after
them (`Accounted`), and this holds of every list of statements in the tree
(`parse_accounts_for_tokens`). So nothing is left out where nothing is wrong. -/
namespace LetLang
open LetLang.Parser
open Token (Precedes)

/-- The token lies within the span. -/
def Token.Within (t : Token) (s : Span) : Prop :=
  s.start.offset ≤ t.start.offset ∧ t.stop.offset ≤ s.stop.offset

/-- The token lies within one of the statements. -/
def Covered (ss : List Stmt) (t : Token) : Prop := ∃ s ∈ ss, t.Within s.span

/-- No token of the run is covered, and it cannot be made longer on either side. -/
structure Maximal (ss : List Stmt) (before run after : List Token) : Prop where
  outside : ∀ t ∈ run, ¬ Covered ss t
  left : ∀ t ∈ before.getLast?, Covered ss t
  right : ∀ t ∈ after.head?, Covered ss t

/-- What becomes of the tokens of a region that has the statements, and `next` after it. -/
structure Accounted (ds : List Diagnostic) (ss : List Stmt) (region : List Token) (next : Token) :
    Prop where
  runs : ∀ before run after, region = before ++ (run ++ after) → Maximal ss before run after →
    Charged ds run (after.headD next)
  whole : ds = [] → ∀ t ∈ region, Covered ss t

/-! ### Statements cover their tokens -/

variable {ds : List Diagnostic} {ss : List Stmt} {region ts : List Token} {next first t : Token}
  {s : Stmt}

theorem Laid.span_statement (h : Laid ds (.statement s) (first :: ts)) :
    s.span = .covering first ts := by
  cases h with
  | binding | returning | expressionStatement => rfl
  | blockStatement h =>
    cases h with
    | block =>
      rw [Span.covering, List.getLastD_concat]
      rfl

theorem Token.Precedes.le {t u : Token} (h : Precedes t u) : t.start.offset ≤ t.stop.offset := by
  have := h.nonempty
  omega

theorem Span.covering_eq {us : List Token} {last : Token} (h : first :: ts = us ++ [last]) :
    Span.covering first ts = ⟨first.start, last.stop⟩ := by
  have hget := congrArg (fun l => l.getLastD first) h
  rw [List.getLastD_concat, List.getLastD_cons] at hget
  rw [Span.covering, hget]

/-- The tokens from the first to the last one lie within the span of them all. -/
theorem within_covering (h : (first :: ts ++ [next]).Pairwise Precedes) (ht : t ∈ first :: ts) :
    t.Within (.covering first ts) := by
  obtain ⟨hpairs, -, hnext⟩ := List.pairwise_append.1 h
  constructor
  · rcases List.mem_cons.1 ht with rfl | hmem
    · exact Nat.le_refl _
    · have hfirst := (List.pairwise_cons.1 hpairs).1 t hmem
      exact Nat.le_trans hfirst.le hfirst.apart
  · obtain ⟨us, last, hlast⟩ : ∃ us last, first :: ts = us ++ [last] :=
      ⟨_, _, (List.dropLast_concat_getLast (List.cons_ne_nil first ts)).symm⟩
    rw [Span.covering_eq hlast]
    rw [hlast] at ht hpairs hnext
    rcases List.mem_append.1 ht with hmem | hmem
    · have hlast := (List.pairwise_append.1 hpairs).2.2 t hmem last (by simp)
      exact Nat.le_trans hlast.apart (hnext last (by simp) next (by simp)).le
    · exact Nat.le_of_eq (by rw [List.mem_singleton.1 hmem])

/-- Every statement of a list starts with a token of the region and stops with one. -/
theorem Laid.ends (h : Laid ds (.statements ss next) region) :
    ∀ s ∈ ss, (∃ u ∈ region, s.span.start = u.start) ∧ ∃ u ∈ region, s.span.stop = u.stop := by
  generalize hφ : Part.statements ss next = φ at h
  induction h generalizing ss next with
  | done =>
    cases hφ
    simp
  | @next run s ss first ts rest next _ hs _ _ ih =>
    cases hφ
    intro x hx
    rcases List.mem_cons.1 hx with rfl | hx
    · rw [hs.span_statement]
      have hlast : ts.getLastD first ∈ first :: ts := List.getLastD_mem_cons
      have hmem := List.mem_append_right run (List.mem_append_left rest hlast)
      exact ⟨⟨first, by simp, rfl⟩, ts.getLastD first, hmem, rfl⟩
    · obtain ⟨⟨u, hu, hstart⟩, v, hv, hstop⟩ := ih rfl x hx
      exact ⟨⟨u, by simp [hu], hstart⟩, v, by simp [hv], hstop⟩
  | _ => cases hφ

/-! ### Gaps between statements -/

/-- Tokens that belong to no statement, between tokens that do or the ends of the region. -/
structure Gap (ds : List Diagnostic) (ss : List Stmt) (next : Token) (before gap after : List Token) :
    Prop where
  charged : Charged ds gap (after.headD next)
  left : ∀ t ∈ before.getLast?, Covered ss t
  right : ∀ t ∈ after.head?, Covered ss t
  apart : ∀ s ∈ ss, (∃ u ∈ before, s.span.stop = u.stop) ∨ ∃ u ∈ after, s.span.start = u.start

theorem Covered.cons (s : Stmt) (h : Covered ss t) : Covered (s :: ss) t := by
  obtain ⟨x, hx, hwithin⟩ := h
  exact ⟨x, List.mem_cons_of_mem s hx, hwithin⟩

/-- A gap stays one with a statement more in front of it. -/
theorem Gap.cons {before gap after run : List Token} (h : Gap ds ss next before gap after)
    (hs : s.span = .covering first ts) (hown : ∀ x ∈ first :: ts, Covered (s :: ss) x) :
    Gap ds (s :: ss) next (run ++ (first :: ts ++ before)) gap after := by
  have hlast : (first :: ts).getLast? = some (ts.getLastD first) := by
    rw [List.getLast?_cons, List.getLastD_eq_getLast?]
  refine ⟨h.charged, fun x hx => ?_, fun x hx => (h.right x hx).cons s, fun x hx => ?_⟩
  · rw [List.getLast?_append, List.getLast?_append, hlast] at hx
    cases hbefore : before.getLast? with
    | none =>
      obtain rfl : ts.getLastD first = x := by simpa [hbefore] using hx
      exact hown _ List.getLastD_mem_cons
    | some y =>
      obtain rfl : y = x := by simpa [hbefore] using hx
      exact (h.left y hbefore).cons s
  · rcases List.mem_cons.1 hx with rfl | hx
    · have hmem : ts.getLastD first ∈ first :: ts := List.getLastD_mem_cons
      refine .inl ⟨_, List.mem_append_right run (List.mem_append_left before hmem), ?_⟩
      rw [hs]
      rfl
    · refine (h.apart x hx).imp_left fun ⟨u, hu, hstop⟩ => ⟨u, ?_, hstop⟩
      exact List.mem_append_right run (List.mem_append_right _ hu)

/-- Where two lists make one, a place in it is in the first or in the second. -/
theorem append_eq_append_cons {α : Type} {xs ys pre post : List α} {a : α}
    (h : xs ++ ys = pre ++ a :: post) :
    (∃ more, xs = pre ++ a :: more ∧ post = more ++ ys) ∨
      ∃ more, pre = xs ++ more ∧ ys = more ++ a :: post := by
  rcases List.append_eq_append_iff.1 h with ⟨more, hpre, hys⟩ | ⟨more, hxs, hpost⟩
  · exact .inr ⟨more, hpre, hys⟩
  · cases more with
    | nil => exact .inr ⟨[], by simpa using hxs.symm, by simpa using hpost.symm⟩
    | cons b more =>
      obtain ⟨rfl, rfl⟩ := List.cons.inj hpost
      exact .inl ⟨more, hxs, rfl⟩

/-- A token that is not covered belongs to no statement. -/
theorem Laid.gap (h : Laid ds (.statements ss next) region)
    (hpairs : (region ++ [next]).Pairwise Precedes) {pre post : List Token}
    (hregion : region = pre ++ t :: post) (ht : ¬ Covered ss t) :
    ∃ before left right after, pre = before ++ left ∧ post = right ++ after ∧
      Gap ds ss next before (left ++ t :: right) after := by
  generalize hφ : Part.statements ss next = φ at h
  induction h generalizing ss next pre with
  | @done run next hrun =>
    cases hφ
    subst hregion
    exact ⟨[], pre, post, [], rfl, by simp, hrun, by simp, by simp, by simp⟩
  | @next run s ss first ts rest next hrun hs hss _ ih =>
    cases hφ
    have hsub : (first :: ts ++ [next]).Sublist (run ++ (first :: ts ++ rest) ++ [next]) :=
      ((List.sublist_append_left _ rest).trans (List.sublist_append_right run _)).append
        (List.Sublist.refl _)
    have hsub' : (rest ++ [next]).Sublist (run ++ (first :: ts ++ rest) ++ [next]) :=
      ((List.sublist_append_right _ rest).trans (List.sublist_append_right run _)).append
        (List.Sublist.refl _)
    have hown : ∀ x ∈ first :: ts, Covered (s :: ss) x := by
      intro x hx
      refine ⟨s, List.mem_cons_self, ?_⟩
      rw [hs.span_statement]
      exact within_covering (hpairs.sublist hsub) hx
    rcases append_eq_append_cons hregion with ⟨right, rfl, rfl⟩ | ⟨more, rfl, hmore⟩
    · -- in front of the first statement
      refine ⟨[], pre, right, first :: ts ++ rest, rfl, rfl, hrun, by simp, ?_, ?_⟩
      · simpa using hown first List.mem_cons_self
      · intro x hx
        refine .inr ?_
        rcases List.mem_cons.1 hx with rfl | hx
        · exact ⟨first, by simp, by rw [hs.span_statement]; rfl⟩
        · obtain ⟨⟨u, hu, hstart⟩, -⟩ := hss.ends x hx
          exact ⟨u, List.mem_append_right _ hu, hstart⟩
    · rcases append_eq_append_cons hmore with ⟨right, hin, -⟩ | ⟨more, rfl, hrest⟩
      · exact absurd (hown t (by rw [hin]; simp)) ht
      · -- after the first statement
        obtain ⟨before, left, right, after, rfl, rfl, hgap⟩ :=
          ih (hpairs.sublist hsub') hrest (fun h => ht (h.cons s)) rfl
        exact ⟨run ++ (first :: ts ++ before), left, right, after, by simp, rfl,
          hgap.cons hs.span_statement hown⟩
  | _ => cases hφ

/-- A token of a gap is covered only where offsets are no longer told apart. -/
theorem Gap.covered {before gap after : List Token} (h : Gap ds ss next before gap after)
    (hpairs : (before ++ (gap ++ after) ++ [next]).Pairwise Precedes) (ht : t ∈ gap) (hs : s ∈ ss)
    (hwithin : t.Within s.span) :
    t.start.offset = Position.maxOffset ∧ t.stop.offset = Position.maxOffset := by
  obtain ⟨hregion, -, hnext⟩ := List.pairwise_append.1 hpairs
  obtain ⟨-, hrest, hbefore⟩ := List.pairwise_append.1 hregion
  have hlast := hnext t (by simp [ht]) next (by simp)
  obtain ⟨hstart, hstop⟩ := hwithin
  have hempty : t.stop.offset ≤ t.start.offset := by
    rcases h.apart s hs with ⟨u, hu, heq⟩ | ⟨u, hu, heq⟩
    · rw [heq] at hstop
      exact Nat.le_trans hstop (hbefore u hu t (by simp [ht])).apart
    · rw [heq] at hstart
      exact Nat.le_trans ((List.pairwise_append.1 hrest).2.2 t ht u hu).apart hstart
  exact hlast.nonempty.resolve_left (Nat.not_lt_of_le hempty)

/-- Past the largest offset every token starts where the one before it does. -/
theorem Token.Precedes.start_eq {t u : Token} (h : Precedes t u)
    (ht : t.start.offset = Position.maxOffset ∧ t.stop.offset = Position.maxOffset) :
    u.start = t.start := by
  have hoffset : u.start.offset = t.start.offset := by
    have := h.apart
    have := h.bounded
    omega
  calc
    u.start = ⟨u.start.offset, u.start.file⟩ := rfl
    _ = t.start := by rw [hoffset, ← h.file]

/-- A run that cannot be made longer starts where its gap does. -/
theorem Gap.left_eq_nil {before left right after : List Token}
    (h : Gap ds ss next before (left ++ t :: right) after)
    (hpairs : (before ++ (left ++ t :: right ++ after) ++ [next]).Pairwise Precedes)
    (ht : ¬ Covered ss t) (hleft : ∀ x ∈ (before ++ left).getLast?, Covered ss x) : left = [] := by
  rcases List.eq_nil_or_concat left with rfl | ⟨left, a, rfl⟩
  · rfl
  · obtain ⟨s, hs, hwithin⟩ := hleft a (by simp)
    have hmax := h.covered hpairs (by simp) hs hwithin
    have hsplit : ((before ++ left ++ [a]) ++ (t :: (right ++ after) ++ [next])).Pairwise Precedes := by
      simpa using hpairs
    obtain ⟨-, hrest, hbefore⟩ := List.pairwise_append.1 hsplit
    have hat : Precedes a t := hbefore a (by simp) t (by simp)
    have hnext : Precedes t next := (List.pairwise_append.1 hrest).2.2 t (by simp) next (by simp)
    refine absurd ⟨s, hs, ?_, ?_⟩ ht
    · have := hwithin.1
      have := hat.apart
      omega
    · have := hwithin.2
      have := hnext.apart
      have := hnext.bounded
      omega

/-- A run that cannot be made longer is charged as its gap is, whether it ends with the gap or before
a token that is covered all the same. -/
theorem Gap.charged_run {before right after run rest : List Token}
    (h : Gap ds ss next before (t :: right) after)
    (hpairs : (before ++ (t :: right ++ after) ++ [next]).Pairwise Precedes)
    (hrun : ∀ x ∈ run, ¬ Covered ss x) (hrest : ∀ x ∈ rest.head?, Covered ss x)
    (hpost : run ++ rest = right ++ after) : Charged ds (t :: run) (rest.headD next) := by
  rcases List.append_eq_append_iff.1 hpost with ⟨more, rfl, rfl⟩ | ⟨more, rfl, rfl⟩
  · cases more with
    | nil => simpa using h.charged
    | cons b more =>
      obtain ⟨s, hs, hwithin⟩ := hrest b rfl
      have hmax := h.covered hpairs (by simp) hs hwithin
      obtain hnil | ⟨d, hd, x, hx, hposition⟩ := h.charged
      · cases hnil
      · have hx' : x ∈ (t :: run ++ [b]) ++ (more ++ [after.headD next]) := by simpa using hx
        rcases List.mem_append.1 hx' with hx | hx
        · exact .inr ⟨d, hd, x, by simpa using hx, hposition⟩
        · have hsplit : ((before ++ t :: run ++ [b]) ++ (more ++ (after ++ [next]))).Pairwise
              Precedes := by simpa using hpairs
          have hlater : x ∈ more ++ (after ++ [next]) := by
            rcases List.mem_append.1 hx with hx | hx
            · exact List.mem_append_left _ hx
            · rw [List.mem_singleton.1 hx]
              cases after <;> simp
          have hbx := (List.pairwise_append.1 hsplit).2.2 b (by simp) x hlater
          exact .inr ⟨d, hd, b, by simp, hposition.trans (hbx.start_eq hmax)⟩
  · cases more with
    | nil => simpa using h.charged
    | cons b more => exact absurd (h.right b (by simp)) (hrun b (by simp))

/-! ### Regions -/

theorem Laid.accounted (h : Laid ds (.statements ss next) region)
    (hpairs : (region ++ [next]).Pairwise Precedes) : Accounted ds ss region next := by
  constructor
  · rintro outer run rest rfl hmax
    cases run with
    | nil => exact .inl rfl
    | cons t run =>
      have ht := hmax.outside t List.mem_cons_self
      obtain ⟨before, left, right, after, rfl, hpost, hgap⟩ := h.gap hpairs rfl ht
      have hpost : run ++ rest = right ++ after := hpost
      rw [List.cons_append, hpost] at hpairs
      obtain rfl := hgap.left_eq_nil (by simpa using hpairs) ht hmax.left
      refine hgap.charged_run ?_ (fun x hx => hmax.outside x (List.mem_cons_of_mem t hx)) hmax.right hpost
      simpa using hpairs
  · intro hnone t ht
    refine Classical.byContradiction fun hcovered => ?_
    obtain ⟨pre, post, rfl⟩ := List.append_of_mem ht
    obtain ⟨before, left, right, after, -, -, hgap⟩ := h.gap hpairs rfl hcovered
    rcases hgap.charged with hnil | ⟨d, hd, -⟩
    · simp at hnil
    · rw [hnone] at hd
      cases hd

/-! ### Sources -/

/-- What is parsed lies over the tokens of the source. -/
theorem parseWithin_laid (limit : Nat) (source : Source) :
    Laid (parseWithin limit source).diagnostics
      (.statements (parseWithin limit source).program.statements
        (Token.scanEnd source.name 0 source.text.toList))
      (Token.scan source.name 0 source.text.toList) := by
  obtain ⟨program, t, hrun, hparse⟩ := parseWithin_eq limit source
  have hmoves := program_trail limit limit (sorted_ofSource source)
  rw [hrun] at hmoves
  rw [hparse]
  exact hmoves.2

/-- Every token of the source, and of the body of every block, is in a statement or accounted for by
a diagnostic. -/
theorem parse_accounts_for_tokens (source : Source) :
    let ds := (parse source).diagnostics
    let program := (parse source).program
    ∃ tokens finish, tokenize source = tokens ++ [finish] ∧
      Accounted ds program.statements tokens finish ∧
      ∀ b ∈ program.blocks, ∃ before region closing after,
        tokens = before ++ b.token :: (region ++ closing :: after) ∧ b.Encloses region closing ∧
          Accounted ds b.statements region closing := by
  intro ds program
  have hlaid := parseWithin_laid maxNesting source
  have hpairs := (Token.scan_precedes source.name 0 source.text.toList).1
  refine ⟨_, _, rfl, hlaid.accounted hpairs, fun b hb => ?_⟩
  obtain ⟨before, region, closing, after, htokens, hencloses, hregion⟩ := hlaid.blocks b hb
  refine ⟨before, region, closing, after, htokens, hencloses, hregion.accounted ?_⟩
  have hsub : (region ++ [closing]).Sublist (Token.scan source.name 0 source.text.toList) := by
    have hsplit : before ++ b.token :: (region ++ closing :: after) =
        before ++ [b.token] ++ (region ++ [closing] ++ after) := by simp
    rw [htokens, hsplit]
    exact (List.sublist_append_left _ after).trans (List.sublist_append_right _ _)
  exact (List.pairwise_append.1 hpairs).1.sublist hsub

end LetLang
