import LetLang.Proofs.Front
import LetLang.Proofs.Layout
import LetLang.Proofs.Parallel.Basic

/-! Where the statements of a tree were parsed.

Every statement of a tree, however deep inside blocks, was found by a run of its
own (`Occurs`): what was reported before that run is about earlier places, and what
was reported after it about later ones. A construct that finds something has passed
all places that it reported anything about (`Settles`), so this is kept when
constructs are put together (`finds_bind`); only a list of statements may end at the
place of its last mistake (`statements_find`). -/
namespace LetLang.Parser
open Token (Kind Ordered)

variable {limit : Nat} {s t u v : State}

/-! ### Before and after -/

theorem State.Steps.offset_le (h : s.Steps t) (hs : s.Placed) : s.offset ≤ t.offset := by
  induction h with
  | refl => exact Nat.le_refl _
  | @advance t h ih =>
    have ht : t.Sorted := (h.placed hs).sorted
    exact Nat.le_trans ih ht.advance.2
  | report _ _ ih | opened _ ih | closed _ ih => exact ih

/-- Consuming a token moves on to a later place. -/
theorem offset_lt_advance (hs : s.Placed) (hne : s.ahead ≠ []) : s.offset < s.advance.offset := by
  obtain ⟨x, xs, hx⟩ := List.exists_cons_of_ne_nil hne
  rw [State.Placed, hx] at hs
  obtain ⟨-, hlt, hxs⟩ := hs
  have hoffset : s.offset = x.start.offset := by
    simp [State.offset, State.position, State.current, hx]
  have hnext : x.stop.offset ≤ s.advance.offset := by
    cases xs with
    | nil =>
      simpa [State.offset, State.position, State.current, hx, State.endToken, Token.endOfInput,
        State.advance, Token.start, Ordered] using hxs
    | cons y ys =>
      simpa [State.offset, State.position, State.current, hx, State.advance] using hxs.1
  omega

theorem State.Steps.offset_lt (h : s.Steps t) (hs : s.Placed)
    (hlt : t.ahead.length < s.ahead.length) : s.offset < t.offset := by
  induction h with
  | refl => exact absurd hlt (Nat.lt_irrefl _)
  | @advance t h ih =>
    by_cases ht : t.ahead = []
    · have hsorted : t.Sorted := (h.placed hs).sorted
      rw [State.ahead_advance, ht] at hlt
      exact Nat.lt_of_lt_of_le (ih (by rwa [ht])) hsorted.advance.2
    · exact Nat.lt_of_le_of_lt (h.offset_le hs) (offset_lt_advance (h.placed hs) ht)
  | report _ _ ih | opened _ ih | closed _ ih => exact ih hlt

/-- What was reported between the two states, in this order. -/
def Reports (s t : State) (ds : List Diagnostic) : Prop :=
  t.reported.toList = s.reported.toList ++ ds

theorem Reports.trans {ds es : List Diagnostic} (h : Reports s t ds) (h' : Reports t u es) :
    Reports s u (ds ++ es) := by
  rw [Reports, h', h, List.append_assoc]

/-- The second state comes after the first, and is past every place in between that was reported. -/
structure Settles (s t : State) : Prop where
  steps : s.Steps t
  reports : ∃ ds, Reports s t ds ∧ ∀ d ∈ ds, s.offset ≤ d.offset ∧ d.offset < t.offset

/-- The second state comes after the first, and nothing was reported about an earlier place. -/
structure Later (s t : State) : Prop where
  steps : s.Steps t
  reports : ∃ ds, Reports s t ds ∧ ∀ d ∈ ds, s.offset ≤ d.offset

/-- Steps without a report. -/
theorem settles_quietly (h : s.Steps t) (hr : t.reported = s.reported) : Settles s t :=
  ⟨h, [], by rw [Reports, hr, List.append_nil], by simp⟩

theorem Settles.later (h : Settles s t) : Later s t := by
  obtain ⟨hsteps, ds, hds, hin⟩ := h
  exact ⟨hsteps, ds, hds, fun d hd => (hin d hd).1⟩

theorem Later.trans (h : Later s t) (h' : Later t u) (hs : s.Placed) : Later s u := by
  obtain ⟨hsteps, ds, hds, hin⟩ := h
  obtain ⟨hsteps', es, hes, hin'⟩ := h'
  have hle := hsteps.offset_le hs
  refine ⟨hsteps.trans hsteps', ds ++ es, hds.trans hes, fun d hd => ?_⟩
  rcases List.mem_append.1 hd with hd | hd
  · exact hin d hd
  · exact Nat.le_trans hle (hin' d hd)

theorem Settles.trans (h : Settles s t) (h' : Settles t u) (hs : s.Placed) : Settles s u := by
  obtain ⟨hsteps, ds, hds, hin⟩ := h
  obtain ⟨hsteps', es, hes, hin'⟩ := h'
  have hle := hsteps.offset_le hs
  have hle' := hsteps'.offset_le (hsteps.placed hs)
  refine ⟨hsteps.trans hsteps', ds ++ es, hds.trans hes, fun d hd => ?_⟩
  rcases List.mem_append.1 hd with hd | hd
  · exact ⟨(hin d hd).1, Nat.lt_of_lt_of_le (hin d hd).2 hle'⟩
  · exact ⟨Nat.le_trans hle (hin' d hd).1, (hin' d hd).2⟩

/-! ### Occurrences -/

/-- The statement was found by a run between the two states. -/
def Occurs (limit : Nat) (s : State) (x : Stmt) (t : State) : Prop :=
  ∃ n u v, n ≤ limit ∧ Settles s u ∧ (statement (level limit n)).run u = .ok x v ∧ Later v t

/-- So were the statements of all these blocks. -/
def Contains (limit : Nat) (s : State) (bs : List Block) (t : State) : Prop :=
  ∀ b ∈ bs, ∀ x ∈ b.statements, Occurs limit s x t

theorem Occurs.widen {x : Stmt} (h : Occurs limit t x u) (hst : Settles s t) (huv : Later u v)
    (hs : s.Placed) : Occurs limit s x v := by
  obtain ⟨n, t', u', hn, hsettles, hrun, hlater⟩ := h
  have hsteps := (statement (level limit n)).steps t'
  rw [hrun] at hsteps
  have hplaced : u'.Placed :=
    ((hst.steps.trans hsettles.steps).trans hsteps).placed hs
  exact ⟨n, t', u', hn, hst.trans hsettles hs, hrun, hlater.trans huv hplaced⟩

theorem Contains.widen {bs : List Block} (h : Contains limit t bs u) (hst : Settles s t)
    (huv : Later u v) (hs : s.Placed) : Contains limit s bs v :=
  fun b hb x hx => (h b hb x hx).widen hst huv hs

theorem Later.refl (s : State) : Later s s := (settles_quietly (.refl s) rfl).later

theorem Settles.refl (s : State) : Settles s s := settles_quietly (.refl s) rfl

/-! ### What constructs find -/

variable {α β : Type} {bs : List Block} {Q : α → List Block → Prop} {Q' : β → List Block → Prop}

/-- With the blocks found before, what was found has the blocks that `Q` says, and their statements
occur. -/
def FindsFrom (limit : Nat) (s : State) (bs : List Block) (Q : α → List Block → Prop)
    (r : Result α) : Prop :=
  ∀ a t, r = .ok a t → Settles s t ∧ ∃ cs, Q a (bs ++ cs) ∧ Contains limit s cs t

def Finds (limit : Nat) (bs : List Block) (p : Parser α) (Q : α → List Block → Prop) : Prop :=
  ∀ s, s.Placed → FindsFrom limit s bs Q (p.run s)

theorem findsFrom_bind {p : Parser α} {f : α → Parser β} (hs : s.Placed)
    (hp : FindsFrom limit s bs Q (p.run s))
    (hf : ∀ a bs' t, p.run s = .ok a t → Q a bs' → t.Placed →
      FindsFrom limit t bs' Q' ((f a).run t)) :
    FindsFrom limit s bs Q' ((p >>= f).run s) := by
  intro b u hr
  rw [run_bind] at hr
  cases ha : p.run s with
  | error d t =>
    rw [ha] at hr
    cases hr
  | ok a t =>
    rw [ha] at hr
    obtain ⟨hst, cs, hcs, hin⟩ := hp a t ha
    obtain ⟨htu, ds, hds, hin'⟩ := hf a _ t ha hcs (hst.steps.placed hs) b u hr
    refine ⟨hst.trans htu hs, cs ++ ds, by rwa [← List.append_assoc], fun c hc => ?_⟩
    rcases List.mem_append.1 hc with hc | hc
    · exact fun x hx => (hin c hc x hx).widen (.refl s) htu.later hs
    · exact fun x hx => (hin' c hc x hx).widen hst (.refl u) hs

theorem finds_bind {p : Parser α} {f : α → Parser β} (hp : Finds limit bs p Q)
    (hf : ∀ a bs', Q a bs' → Finds limit bs' (f a) Q') : Finds limit bs (p >>= f) Q' :=
  fun s hs => findsFrom_bind hs (hp s hs) fun a bs' t _ hq => hf a bs' hq t

theorem finds_pure {a : α} (h : Q a bs) : Finds limit bs (pure a) Q := by
  intro s _ b t hr
  cases hr
  exact ⟨.refl s, [], by rwa [List.append_nil], by simp [Contains]⟩

theorem finds_fail (d : Diagnostic) : Finds limit bs (fail d : Parser α) Q := by
  intro s _ b t hr
  cases hr

/-- A parser that reports nothing finds no blocks. -/
theorem finds_quiet {p : Parser α} (hp : ∀ s, (p.run s).state.reported = s.reported) :
    Finds limit bs p fun _ bs' => bs' = bs := by
  intro s _ a t hr
  have hsteps := p.steps s
  have hreported := hp s
  rw [hr] at hsteps hreported
  exact ⟨settles_quietly hsteps hreported, [], List.append_nil bs, by simp [Contains]⟩

theorem Finds.behind {p : Parser α} {γ : α → List Block} (hp : Finds limit [] p fun a cs => cs = γ a) :
    Finds limit bs p fun a bs' => bs' = bs ++ γ a := by
  intro s hs a t hr
  obtain ⟨hst, cs, hcs, hin⟩ := hp s hs a t hr
  exact ⟨hst, cs, congrArg (bs ++ ·) hcs, hin⟩

theorem finds_advance : Finds limit bs advance fun _ bs' => bs' = bs := finds_quiet fun _ => rfl

theorem finds_current : Finds limit bs current fun _ bs' => bs' = bs := finds_quiet fun _ => rfl

theorem finds_lastEnd : Finds limit bs lastEnd fun _ bs' => bs' = bs := finds_quiet fun _ => rfl

theorem finds_expect {kind : Kind} : Finds limit bs (expect kind) fun _ bs' => bs' = bs := by
  refine finds_quiet fun s => ?_
  rw [run_expect]
  split <;> rfl

theorem finds_skip {kind : Kind} : Finds limit bs (skip kind) fun _ bs' => bs' = bs := by
  refine finds_quiet fun s => ?_
  rw [run_skip]
  split <;> rfl

theorem finds_failHere (problem : Problem) : Finds limit bs (failHere problem : Parser α) Q := by
  intro s _ a t hr
  cases hr

section
variable {p : Parser (Option α)} {hp : p.Advances} {f : α → Parser (Option α)}
  {hf : ∀ a, (f a).Advances} {γ : α → List Block}

theorem finds_many
    (h : ∀ bs, Finds limit bs p fun found bs' => bs' = bs ++ (found.map γ).getD [])
    (bs : List Block) : Finds limit bs (many p hp) fun as bs' => bs' = bs ++ as.flatMap γ := by
  intro s hs
  rw [many_eq]
  refine findsFrom_bind hs (h bs s hs) fun found bs' t hrun hbs' ht => ?_
  rw [hbs']
  cases found with
  | none => exact finds_pure (a := []) (by simp) t ht
  | some a =>
    refine findsFrom_bind ht (finds_many h _ t ht) fun as bs'' u _ hbs'' hu => ?_
    exact finds_pure (a := a :: as) (by simp [hbs'']) u hu
termination_by s => s.ahead.length
decreasing_by exact hp s a t hrun

theorem finds_iterate
    (h : ∀ a, Finds limit (γ a) (f a) fun found bs' => bs' = γ (found.getD a)) (a : α) :
    Finds limit (γ a) (iterate f hf a) fun b bs' => bs' = γ b := by
  intro s hs
  rw [iterate_eq]
  refine findsFrom_bind hs (h a s hs) fun found bs' t hrun hbs' ht => ?_
  rw [hbs']
  cases found with
  | none => exact finds_pure (a := a) rfl t ht
  | some b => exact finds_iterate h b t ht
termination_by s => s.ahead.length
decreasing_by exact hf a s b t hrun

end

/-! ### Constructs -/

/-- What the parsers of a level find. -/
structure Level.Finds (limit : Nat) (inner : Level) : Prop where
  expr : ∀ bound, Parser.Finds limit [] (inner.expr bound) fun e bs => bs = e.blocks
  block : Parser.Finds limit [] inner.block fun b bs => bs = b.blocks

theorem literal_finds : Finds limit [] literal fun e bs => bs = e.blocks := by
  refine finds_bind finds_advance fun t bs hbs => ?_
  subst hbs
  split
  · split
    · exact finds_pure rfl
    · exact finds_fail _
  · exact finds_pure rfl
  · exact finds_pure rfl
  · exact finds_pure rfl
  · exact finds_fail _

theorem untilParen_finds {p : Parser α} {γ : α → List Block}
    (hp : Finds limit [] p fun a bs => bs = γ a) :
    Finds limit bs (untilParen p) fun as bs' => bs' = bs ++ as.flatMap γ := by
  have hafter : ∀ bs, Finds limit bs (afterComma p)
      fun found bs' => bs' = bs ++ (found.map γ).getD [] := by
    intro bs
    refine finds_bind finds_skip fun found bs' hbs' => ?_
    rw [hbs']
    split
    · exact finds_bind hp.behind fun a _ h => finds_pure h
    · exact finds_pure (List.append_nil bs).symm
  have hbefore : Finds limit bs (beforeParen p) fun as bs' => bs' = bs ++ as.flatMap γ := by
    refine finds_bind finds_current fun t bs' hbs' => ?_
    rw [hbs']
    split
    · exact finds_pure (List.append_nil bs).symm
    · refine finds_bind hp.behind fun a bs' hbs' => ?_
      refine finds_bind (finds_many hafter _) fun as bs'' hbs'' => ?_
      subst hbs' hbs''
      exact finds_pure (by simp)
  refine finds_bind hbefore fun as bs' hbs' => ?_
  refine finds_bind finds_expect fun t bs'' hbs'' => ?_
  subst hbs' hbs''
  exact finds_pure rfl

theorem parameter_finds : Finds limit [] parameter fun _ bs => bs = [] := by
  refine finds_bind finds_expect fun t bs hbs => ?_
  exact finds_pure hbs

section
variable {inner : Level} (hi : inner.Finds limit)
include hi

theorem unary_finds : Finds limit [] (unary inner) fun e bs => bs = e.blocks := by
  refine finds_bind finds_advance fun _ bs hbs => ?_
  subst hbs
  refine finds_bind (hi.expr _) fun e bs hbs => ?_
  exact finds_pure hbs

theorem group_finds : Finds limit [] (group inner) fun e bs => bs = e.blocks := by
  refine finds_bind finds_advance fun _ bs hbs => ?_
  subst hbs
  refine finds_bind (hi.expr _) fun e bs hbs => ?_
  subst hbs
  exact finds_bind finds_expect fun _ _ hbs => finds_pure hbs

theorem alternative_finds :
    Finds limit [] (alternative inner) fun a bs => bs = Block.blocksOption a := by
  refine finds_bind finds_skip fun _ bs hbs => ?_
  subst hbs
  split
  · exact finds_bind hi.block fun _ _ hbs => finds_pure hbs
  · exact finds_pure rfl

theorem conditional_finds : Finds limit [] (conditional inner) fun e bs => bs = e.blocks := by
  refine finds_bind finds_advance fun _ _ h => ?_
  subst h
  refine finds_bind finds_expect fun _ _ h => ?_
  subst h
  refine finds_bind (hi.expr _) fun c _ h => ?_
  subst h
  refine finds_bind finds_expect fun _ _ h => ?_
  subst h
  refine finds_bind hi.block.behind fun b _ h => ?_
  subst h
  refine finds_bind (alternative_finds hi).behind fun a _ h => ?_
  exact finds_bind finds_lastEnd fun _ _ h' => finds_pure (h'.trans h)

theorem function_finds : Finds limit [] (function inner) fun e bs => bs = e.blocks := by
  refine finds_bind finds_advance fun _ _ h => ?_
  subst h
  refine finds_bind finds_expect fun _ _ h => ?_
  subst h
  refine finds_bind (untilParen_finds parameter_finds) fun xs _ h => ?_
  have hnil : xs.flatMap (fun _ : Name => ([] : List Block)) = [] := by simp
  rw [hnil] at h
  subst h
  refine finds_bind hi.block fun b _ h => ?_
  exact finds_bind finds_lastEnd fun _ _ h' => finds_pure (h'.trans h)

theorem operand_finds : Finds limit [] (operand inner) fun e bs => bs = e.blocks := by
  refine finds_bind finds_current fun _ _ h => ?_
  subst h
  split
  · rename_i p hp
    rcases operand?_cases inner hp with rfl | ⟨-, rfl⟩ | ⟨-, rfl⟩ | ⟨-, rfl⟩ | ⟨-, rfl⟩
    · exact literal_finds
    · exact unary_finds hi
    · exact group_finds hi
    · exact conditional_finds hi
    · exact function_finds hi
  · exact finds_failHere _

theorem binary_finds (left : Expr) (power : Power) :
    Finds limit left.blocks (binary inner left power) fun e bs => bs = e.blocks := by
  refine finds_bind finds_advance fun _ _ h => ?_
  subst h
  exact finds_bind (hi.expr _).behind fun _ _ h => finds_pure h

theorem assignment_finds (left : Expr) :
    Finds limit left.blocks (assignment inner left) fun e bs => bs = e.blocks := by
  unfold assignment
  split
  · refine finds_bind finds_advance fun _ _ h => ?_
    subst h
    exact finds_bind (hi.expr _).behind fun _ _ h => finds_pure h
  · exact finds_fail _

omit hi in
theorem blocksAll_eq_flatMap (es : List Expr) : Expr.blocksAll es = es.flatMap Expr.blocks := by
  induction es with
  | nil => rfl
  | cons e es ih => rw [Expr.blocksAll, List.flatMap_cons, ih]

theorem call_finds (callee : Expr) :
    Finds limit callee.blocks (call inner callee) fun e bs => bs = e.blocks := by
  refine finds_bind finds_advance fun _ _ h => ?_
  subst h
  refine finds_bind (untilParen_finds (hi.expr _)) fun es _ h => ?_
  rw [← blocksAll_eq_flatMap] at h
  exact finds_bind finds_lastEnd fun _ _ h' => finds_pure (h'.trans h)

theorem operatorAbove_finds (bound : Power) (left : Expr) :
    Finds limit left.blocks (operatorAbove inner bound left)
      fun found bs => bs = (found.getD left).blocks := by
  refine finds_bind finds_current fun t _ h => ?_
  subst h
  split
  · split
    · rename_i p hp
      have hfinds : Finds limit left.blocks (p left t.kind.power) fun e bs => bs = e.blocks := by
        rcases operator?_cases inner hp with rfl | rfl | rfl
        · exact assignment_finds hi left
        · exact binary_finds hi left _
        · exact call_finds hi left
      exact finds_bind hfinds fun _ _ h => finds_pure h
    · exact finds_pure rfl
  · exact finds_pure rfl

theorem expression_finds (bound : Power) :
    Finds limit [] (expression inner bound) fun e bs => bs = e.blocks := by
  refine finds_bind (operand_finds hi) fun left _ h => ?_
  subst h
  exact finds_iterate (operatorAbove_finds hi bound) left

/-! ### Statements -/

/-- The blocks of the statement, wherever it is made to end. -/
def MakesBlocks (make : Position → Stmt) (bs : List Block) : Prop :=
  ∀ stop, bs = (make stop).blocks

omit hi in
theorem terminated_finds {p : Parser (Position → Stmt)} (hp : Finds limit [] p MakesBlocks) :
    Finds limit [] (terminated p) fun x bs => bs = x.blocks := by
  refine finds_bind hp fun make bs hmake => ?_
  refine finds_bind finds_skip fun _ _ h => ?_
  subst h
  exact finds_bind finds_lastEnd fun stop _ h => finds_pure (h.trans (hmake stop))

theorem statement_finds : Finds limit [] (statement inner) fun x bs => bs = x.blocks := by
  refine finds_bind finds_current fun t _ h => ?_
  subst h
  unfold statementFrom
  split
  · refine terminated_finds (finds_bind finds_advance fun _ _ h => ?_)
    subst h
    refine finds_bind finds_expect fun _ _ h => ?_
    subst h
    refine finds_bind finds_expect fun _ _ h => ?_
    subst h
    exact finds_bind (hi.expr _) fun _ _ h => finds_pure fun _ => h
  · refine terminated_finds (finds_bind finds_advance fun _ _ h => ?_)
    subst h
    exact finds_bind (hi.expr _) fun _ _ h => finds_pure fun _ => h
  · exact finds_bind hi.block fun _ _ h => finds_pure h
  · refine terminated_finds (finds_bind finds_current fun _ _ h => ?_)
    subst h
    exact finds_bind (hi.expr _) fun _ _ h => finds_pure fun _ => h

end

/-! ### Lists of statements -/

/-- The second state comes after the first, and has passed every place in between that was reported,
but for the last if the list ends there. -/
structure Nearly (ends : Option Token → Bool) (s t : State) : Prop where
  steps : s.Steps t
  reports : ∃ ds, Reports s t ds ∧ ∀ d ∈ ds, s.offset ≤ d.offset ∧ d.offset ≤ t.offset
  settles : ends t.ahead.head? = false → Settles s t

section
variable {ends : Option Token → Bool}

theorem Nearly.later (h : Nearly ends s t) : Later s t := by
  obtain ⟨hsteps, ⟨ds, hds, hin⟩, -⟩ := h
  exact ⟨hsteps, ds, hds, fun d hd => (hin d hd).1⟩

theorem Settles.nearly (h : Settles s t) : Nearly ends s t := by
  obtain ⟨hsteps, ds, hds, hin⟩ := h
  exact ⟨hsteps, ⟨ds, hds, fun d hd => ⟨(hin d hd).1, Nat.le_of_lt (hin d hd).2⟩⟩,
    fun _ => ⟨hsteps, ds, hds, hin⟩⟩

theorem Settles.before (h : Settles s t) (h' : Nearly ends t u) (hs : s.Placed) :
    Nearly ends s u := by
  obtain ⟨hsteps', ⟨es, hes, hin'⟩, hsettles'⟩ := h'
  refine ⟨h.steps.trans hsteps', ?_, fun hends => h.trans (hsettles' hends) hs⟩
  obtain ⟨hsteps, ds, hds, hin⟩ := h
  have hle := hsteps.offset_le hs
  have hle' := hsteps'.offset_le (hsteps.placed hs)
  refine ⟨ds ++ es, hds.trans hes, fun d hd => ?_⟩
  rcases List.mem_append.1 hd with hd | hd
  · exact ⟨(hin d hd).1, Nat.le_trans (Nat.le_of_lt (hin d hd).2) hle'⟩
  · exact ⟨Nat.le_trans hle (hin' d hd).1, (hin' d hd).2⟩

/-- Consuming the token that the list ends at passes the last place. -/
theorem Nearly.advance (h : Nearly ends s t) (hs : s.Placed) (ht : t.ahead ≠ []) :
    Settles s t.advance := by
  obtain ⟨hsteps, ⟨ds, hds, hin⟩, -⟩ := h
  have hlt := offset_lt_advance (hsteps.placed hs) ht
  exact ⟨hsteps.advance, ds, hds, fun d hd => ⟨(hin d hd).1, Nat.lt_of_le_of_lt (hin d hd).2 hlt⟩⟩

/-- What resumes reports nothing, and where the list goes on after it, it has consumed something. -/
structure Passing (ends : Option Token → Bool) (resume : Parser Unit) : Prop where
  resumes : Resumes ends resume
  quiet : ∀ w, (resume.run w).state.reported = w.reported
  stays : ∀ w u, resume.run w = .ok () u → ends w.ahead.head? = true → ends u.ahead.head? = true

variable {inner : Level} {resume : Parser Unit}

/-- After a statement that failed. -/
theorem failed_nearly (hw : inner.Walks) (hresume : Passing ends resume) (hs : s.Placed)
    {d : Diagnostic} {w : State} (hr : (statement inner).run s = .error d w)
    (hu : resume.run (w.report d) = .ok () u) : Nearly ends s u := by
  have hwalk := statement_walks hw hs.sorted
  have hsteps := (statement inner).steps s
  have hsteps' := resume.steps (w.report d)
  have hquiet := hresume.quiet (w.report d)
  rw [hr] at hwalk hsteps
  rw [hu] at hsteps' hquiet
  obtain ⟨ds, hds, hin, -⟩ := hwalk.reports
  have hsteps : s.Steps (w.report d) := hsteps.report d
  have hplaced := hsteps.placed hs
  have hreports : Reports s u ds := (congrArg Array.toList hquiet).trans hds
  have hle := State.Steps.offset_le hsteps' hplaced
  refine ⟨hsteps.trans hsteps', ⟨ds, hreports, fun e he => ?_⟩, fun hends => ?_⟩
  · exact ⟨(hin e he).1, Nat.le_trans (hin e he).2 hle⟩
  · have hgoes : ends (w.report d).ahead.head? = false := by
      cases hend : ends (w.report d).ahead.head? with
      | false => rfl
      | true => rw [hresume.stays _ _ hu hend] at hends; cases hends
    have hlt := State.Steps.offset_lt hsteps' hplaced (hresume.resumes _ _ hgoes hu)
    exact ⟨hsteps.trans hsteps', ds, hreports,
      fun e he => ⟨(hin e he).1, Nat.lt_of_le_of_lt (hin e he).2 hlt⟩⟩

/-- Where the list ends nothing happens. -/
theorem run_statementUnless_none
    (h : (statementUnless inner ends resume).run s = .ok none t) :
    t = s ∧ ends s.ahead.head? = true := by
  simp only [statementUnless, run_bind, run_next?] at h
  split at h
  · rename_i hend
    cases h
    exact ⟨rfl, hend⟩
  · rw [run_bind] at h
    split at h
    · cases h
    · cases h

theorem run_statementUnless_some {x : Option Stmt}
    (h : (statementUnless inner ends resume).run s = .ok (some x) t) :
    (recovering (statement inner) resume).run s = .ok x t := by
  simp only [statementUnless, run_bind, run_next?] at h
  split at h
  · cases h
  · rw [run_bind] at h
    split at h
    · rename_i y u hy
      cases h
      exact hy
    · cases h

/-- What is found of a list: its statements occur, and so do those of all their blocks. -/
structure FindsAll (limit : Nat) (ends : Option Token → Bool) (s : State) (xs : List Stmt)
    (t : State) : Prop where
  nearly : Nearly ends s t
  occur : ∀ x ∈ xs, Occurs limit s x t
  contains : Contains limit s (Stmt.blocksAll xs) t

theorem findsAll_nil (h : Nearly ends s t) : FindsAll limit ends s [] t :=
  ⟨h, by simp, by simp [Stmt.blocksAll, Contains]⟩

theorem FindsAll.behind {xs : List Stmt} (h : FindsAll limit ends t xs u) (hst : Settles s t)
    (hs : s.Placed) : FindsAll limit ends s xs u :=
  ⟨hst.before h.nearly hs, fun x hx => (h.occur x hx).widen hst (.refl u) hs,
    h.contains.widen hst (.refl u) hs⟩

theorem FindsAll.cons {x : Stmt} {xs : List Stmt} (h : FindsAll limit ends t xs u)
    (hst : Settles s t) (hx : Occurs limit s x t) (hbs : Contains limit s x.blocks t)
    (hs : s.Placed) : FindsAll limit ends s (x :: xs) u := by
  have hlater := h.nearly.later
  obtain ⟨hnearly, hxs, hbs'⟩ := h.behind hst hs
  refine ⟨hnearly, fun y hy => ?_, fun b hb => ?_⟩
  · rcases List.mem_cons.1 hy with rfl | hy
    · exact hx.widen (.refl s) hlater hs
    · exact hxs y hy
  · rcases List.mem_append.1 hb with hb | hb
    · exact hbs.widen (.refl s) hlater hs b hb
    · exact hbs' b hb

variable {n : Nat}

/-- A list that begins with a statement or with a mistake, and goes on as it is found to. -/
theorem findsAll_recovering (hn : n ≤ limit) (hi : (level limit n).Finds limit)
    (hresume : Passing ends resume) (hs : s.Placed) {x : Option Stmt} {xs : List Stmt}
    (hx : (recovering (statement (level limit n)) resume).run s = .ok x u)
    (hxs : FindsAll limit ends u xs v) (hends : ends u.ahead.head? = true → xs = [] ∧ v = u) :
    FindsAll limit ends s (x.toList ++ xs) v := by
  rw [run_recovering] at hx
  cases hr : (statement (level limit n)).run s with
  | ok y w =>
    rw [hr] at hx
    cases hx
    obtain ⟨hsettles, bs, hbs, hin⟩ := statement_finds hi s hs y u hr
    rw [List.nil_append] at hbs
    subst hbs
    exact hxs.cons hsettles ⟨n, s, u, hn, .refl s, hr, .refl u⟩ hin hs
  | error d w =>
    rw [hr] at hx
    simp only at hx
    cases hu : resume.run (w.report d) with
    | error e w' =>
      rw [hu] at hx
      cases hx
    | ok a w' =>
      rw [hu] at hx
      cases hx
      have hnearly := failed_nearly (level_walks limit n) hresume hs hr hu
      cases hend : ends u.ahead.head? with
      | false => exact hxs.behind (hnearly.settles hend) hs
      | true =>
        obtain ⟨rfl, rfl⟩ := hends hend
        exact findsAll_nil hnearly

theorem statements_find (hn : n ≤ limit) (hi : (level limit n).Finds limit)
    {ha : (statementUnless (level limit n) ends resume).Advances} (hresume : Passing ends resume)
    {s t : State} (hs : s.Placed) {found : List (Option Stmt)}
    (hr : (many (statementUnless (level limit n) ends resume) ha).run s = .ok found t) :
    FindsAll limit ends s (found.filterMap id) t := by
  rw [run_many] at hr
  cases hstep : (statementUnless (level limit n) ends resume).run s with
  | error d u =>
    rw [hstep] at hr
    cases hr
  | ok x u =>
    rw [hstep] at hr
    cases x with
    | none =>
      cases hr
      rw [(run_statementUnless_none hstep).1]
      exact findsAll_nil (Settles.refl s).nearly
    | some x =>
      have hsteps := (statementUnless (level limit n) ends resume).steps s
      rw [hstep] at hsteps
      have hplaced : u.Placed := State.Steps.placed hsteps hs
      simp only at hr
      cases hrest : (many (statementUnless (level limit n) ends resume) ha).run u with
      | error d v =>
        rw [hrest] at hr
        cases hr
      | ok xs v =>
        rw [hrest] at hr
        cases hr
        have ih := statements_find hn hi hresume hplaced hrest
        have hx := run_statementUnless_some hstep
        have hall := findsAll_recovering hn hi hresume hs hx ih fun hend => by
          have hdone : (statementUnless (level limit n) ends resume).run u = .ok none u := by
            simp [statementUnless, run_bind, hend]
          rw [run_many, hdone] at hrest
          cases hrest
          exact ⟨rfl, rfl⟩
        cases x <;> exact hall
termination_by s.ahead.length
decreasing_by exact ha s x u hstep

end

/-! ### Blocks and programs -/

theorem synchronize_passing : Passing blockEnds synchronize := by
  refine ⟨synchronize_resumes, fun w => (Matching.finish_advanceBy w _).2, ?_⟩
  intro w u hu hend
  cases hu
  cases hw : w.ahead with
  | nil =>
    have hb : boundary 0 w.ahead = 0 := by simp [hw, boundary]
    rwa [State.synchronized, hb]
  | cons x xs =>
    have hb : boundary 0 w.ahead = 0 := by
      have hx : x.kind = .closeCurly := by simpa [hw, blockEnds] using hend
      simp [hw, boundary, hx]
    rwa [State.synchronized, hb]

theorem resumeOutside_passing : Passing Option.isNone resumeOutside := by
  refine ⟨resumeOutside_resumes, fun w => ?_, fun w u hu hend => ?_⟩
  · rw [run_resumeOutside, State.past]
    have hquiet : w.synchronized.reported = w.reported := (Matching.finish_advanceBy w _).2
    split <;> exact hquiet
  · have hsuffix := resumeOutside.forward w
    rw [hu] at hsuffix
    have hw : w.ahead = [] := by simpa using hend
    have hnil : u.ahead = [] := List.suffix_nil.1 (hw ▸ hsuffix)
    simp [hnil]

variable {n : Nat}

theorem block_finds (hn : n ≤ limit) (hi : (level limit n).Finds limit) :
    Finds limit [] (block (level limit n)) fun b bs => bs = b.blocks := by
  intro s hs b t hr
  rw [block, run_bind, run_expect] at hr
  by_cases ho : s.current.kind = .openCurly
  · rw [if_pos ho] at hr
    simp only [blockBody, run_bind] at hr
    cases hbody : (many (statementUnless (level limit n) blockEnds synchronize)
        (statementUnless_advances (level limit n) synchronize_resumes)).run s.advance with
    | error d u =>
      rw [hbody] at hr
      cases hr
    | ok found u =>
      rw [hbody] at hr
      simp only [run_pure, run_expect] at hr
      by_cases hc : u.current.kind = .closeCurly
      · rw [if_pos hc] at hr
        cases hr
        have hopen : Settles s s.advance := settles_quietly (State.Steps.refl s).advance rfl
        have hfinds := statements_find hn hi synchronize_passing (hopen.steps.placed hs) hbody
        have hbehind := hfinds.behind hopen hs
        have hclose : Later u u.advance :=
          (settles_quietly (State.Steps.refl u).advance rfl).later
        refine ⟨hbehind.nearly.advance hs (State.ahead_ne_nil (by simp [hc])), _, rfl, ?_⟩
        intro b hb x hx
        rcases List.mem_cons.1 hb with rfl | hb
        · exact (hbehind.occur x hx).widen (.refl s) hclose hs
        · exact (hbehind.contains b hb x hx).widen (.refl s) hclose hs
      · rw [if_neg hc] at hr
        cases hr
  · rw [if_neg ho] at hr
    cases hr

theorem finds_nest {p : Parser α} (hp : Finds limit bs p Q) : Finds limit bs (nest p) Q := by
  intro s hs a u hr
  simp only [nest] at hr
  cases hopened : p.run s.opened with
  | error d t =>
    rw [hopened] at hr
    cases hr
  | ok b t =>
    rw [hopened] at hr
    cases hr
    have hopen : Settles s s.opened := settles_quietly (State.Steps.refl s).opened rfl
    have hclose : Settles t t.closed := settles_quietly (State.Steps.refl t).closed rfl
    obtain ⟨hst, cs, hcs, hin⟩ := hp s.opened hs a t hopened
    exact ⟨(hopen.trans hst hs).trans hclose hs, cs, hcs, hin.widen hopen hclose.later hs⟩

theorem level_finds (hn : n ≤ limit) : (level limit n).Finds limit := by
  induction n with
  | zero => exact ⟨fun _ => finds_failHere _, finds_failHere _⟩
  | succ n ih =>
    have hn : n ≤ limit := Nat.le_of_succ_le hn
    exact ⟨fun bound => finds_nest (expression_finds (ih hn) bound),
      finds_nest (block_finds hn (ih hn))⟩

/-- Every statement of a program was found by a run of its own, wherever it is in the tree. -/
theorem program_finds {p : Program} (hs : s.Placed)
    (hr : (program (level limit limit)).run s = .ok p t) {x : Stmt}
    (hx : x ∈ p.statements ∨ ∃ b ∈ p.blocks, x ∈ b.statements) : Occurs limit s x t := by
  rw [program, run_bind] at hr
  cases hfound : (many (statementUnless (level limit limit) Option.isNone resumeOutside)
      (statementUnless_advances (level limit limit) resumeOutside_resumes)).run s with
  | error d u =>
    rw [hfound] at hr
    cases hr
  | ok found u =>
    rw [hfound] at hr
    cases hr
    have hn := Nat.le_refl limit
    have hfinds := statements_find hn (level_finds hn) resumeOutside_passing hs hfound
    rcases hx with hx | ⟨b, hb, hx⟩
    · exact hfinds.occur x hx
    · exact hfinds.contains b hb x hx

end LetLang.Parser
