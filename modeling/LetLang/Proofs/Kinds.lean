import LetLang.Parse
import LetLang.Proofs.Reading
import LetLang.Proofs.Simulation
import Mathlib.Data.List.GetD

/-! Parsing depends on the kinds of the tokens only.

Two lexers whose tokens have the same kinds, and whose integers fit where those of
the other do, are parsed to trees and diagnostics that are alike: everything in the
one result that comes from a token comes in the other from the token with the same
index (`parse_depends_on_kinds`). So neither blanks nor spellings, neither the name
of the source nor where reading begins, decide what a tree looks like or what is
found wrong. -/
namespace LetLang
open Token (Kind)
open LetLang.Parser

/-- The token that is read after `i` others. After the last one the end is read again and again. -/
def Lexer.token? (l : Lexer) : Nat → Option Token
  | 0 => l.next?.map Prod.fst
  | i + 1 => l.next?.bind fun next => next.2.token? i

/-- What is parsed from where a lexer stands, if it can read on from there. -/
def parseLexer? (l : Lexer) : Option Parsed :=
  (State.ofLexer? l).map fun s => .ofResult ((within maxNesting Parser.program).run s)

/-- A source is parsed from its beginning. -/
theorem parseLexer?_ofSource (source : Source) :
    parseLexer? (.ofSource source) = some (parse source) := by
  simp [parseLexer?, State.ofLexer?, Lexer.tokens?, Lexer.end?, Lexer.remainder?, Lexer.ofSource,
    Text.splitAtByte?, parse, parseWithin, State.ofSource]

/-! ### The tokens of a lexer -/

theorem Lexer.token?_eq {l : Lexer} {cs : List Char} (h : l.remainder? = some cs) (i : Nat) :
    l.token? i = some ((Token.scan l.source.name l.offset cs).getD i
      (Token.scanEnd l.source.name l.offset cs)) := by
  induction i generalizing l cs with
  | zero =>
    cases hn : Token.next? l.source.name l.offset cs with
    | none =>
      rw [Lexer.token?, Lexer.next?_eq h, Token.scan, hn]
      rfl
    | some n =>
      rw [Lexer.token?, Lexer.next?_eq h, Token.scan, hn]
      rfl
  | succ i ih =>
    cases hn : Token.next? l.source.name l.offset cs with
    | none =>
      have hrest := ih (Lexer.remainder?_advance h)
      have hnil : Token.scan l.source.name (l.offset + Text.byteSize cs) [] = [] := by
        rw [Token.scan]
        rfl
      rw [Lexer.token?, Lexer.next?_eq h, Token.scan, hn]
      rw [Lexer.advance] at hrest ⊢
      simp only [Option.bind_some, hrest, hnil, List.getD_nil]
      rfl
    | some n =>
      have hrest := ih (Lexer.remainder?_next h hn)
      rw [Lexer.token?, Lexer.next?_eq h, Token.scan, hn]
      simp only [Option.bind_some, hrest, List.getD_cons_succ, Token.scanEnd_next? hn]

/-! ### Tokens with the same index -/

/-- The tokens with the same index go together, and so do where they start and where they stop. -/
def Likeness.byIndex (l l' : Lexer) : Likeness where
  token t t' := ∃ i, l.token? i = some t ∧ l'.token? i = some t'
  place p p' := ∃ i t t', l.token? i = some t ∧ l'.token? i = some t' ∧
    (p = t.start ∧ p' = t'.start ∨ p = t.stop ∧ p' = t'.stop)

/-- The tokens of the two lexers have the same kinds, and integers with the same index are both too
large or both not. -/
structure SameKinds (l l' : Lexer) : Prop where
  kind : ∀ i, (l.token? i).map Token.kind = (l'.token? i).map Token.kind
  fits : ∀ i t t', l.token? i = some t → l'.token? i = some t' → t.kind = .integer →
    (t.value ≤ maxInteger ↔ t'.value ≤ maxInteger)

section
variable {l l' : Lexer} {m : Likeness} {s s' : State}

/-- Both runs stand at the same index. -/
structure Abreast (m : Likeness) (s s' : State) : Prop where
  ahead : List.Forall₂ m.token s.ahead s'.ahead
  finish : m.token s.endToken s'.endToken
  lastEnd : m.place s.lastEnd s'.lastEnd
  reported : List.Forall₂ m.diagnostic s.reported.toList s'.reported.toList

namespace Abreast

theorem current (h : Abreast m s s') : m.token s.current s'.current := by
  have hahead := h.ahead
  rw [State.current, State.current]
  generalize s.ahead = ts, s'.ahead = ts' at hahead
  cases hahead with
  | nil => exact h.finish
  | cons ht _ => exact ht

theorem advance (h : Abreast m s s') (hstop : ∀ {t t'}, m.token t t' → m.place t.stop t'.stop) :
    Abreast m s.advance s'.advance := by
  refine ⟨?_, h.finish, hstop h.current, h.reported⟩
  have hahead := h.ahead
  rw [State.ahead_advance, State.ahead_advance]
  generalize s.ahead = ts, s'.ahead = ts' at hahead
  cases hahead with
  | nil => exact .nil
  | cons _ hts => exact hts

theorem advanceBy (h : Abreast m s s') (hstop : ∀ {t t'}, m.token t t' → m.place t.stop t'.stop)
    (n : Nat) : Abreast m (s.advanceBy n) (s'.advanceBy n) := by
  induction n generalizing s s' with
  | zero => exact h
  | succ n ih => exact ih (h.advance hstop)

end Abreast

def Simulation.byIndex (h : SameKinds l l') : Simulation where
  toLikeness := .byIndex l l'
  toParting := .never
  states := Abreast (.byIndex l l')
  kind := by
    intro t t' ⟨i, ht, ht'⟩
    have hk := h.kind i
    rw [ht, ht'] at hk
    exact Option.some.inj hk
  fits := fun ⟨i, ht, ht'⟩ => h.fits i _ _ ht ht'
  start := fun ⟨i, ht, ht'⟩ => ⟨i, _, _, ht, ht', .inl ⟨rfl, rfl⟩⟩
  stop := fun ⟨i, ht, ht'⟩ => ⟨i, _, _, ht, ht', .inr ⟨rfl, rfl⟩⟩
  states_current := Abreast.current
  states_lastEnd := Abreast.lastEnd
  states_advance hs := hs.advance fun ⟨i, ht, ht'⟩ => ⟨i, _, _, ht, ht', .inr ⟨rfl, rfl⟩⟩

variable (h : SameKinds l l')

theorem Simulation.byIndex_recovers : (Simulation.byIndex h).Recovers where
  head? := by
    intro s s' hs
    have hahead := hs.ahead
    generalize s.ahead = ts, s'.ahead = ts' at hahead
    cases hahead with
    | nil => exact .none
    | cons ht _ => exact .some ht
  report := by
    intro d d' s s' hd hs
    refine ⟨hs.ahead, hs.finish, hs.lastEnd, ?_⟩
    simp only [State.report, Array.toList_push]
    exact List.rel_append hs.reported (.cons hd .nil)
  synchronized := by
    intro s s' hs
    rw [State.synchronized, State.synchronized, (Simulation.byIndex h).boundary_eq hs.ahead]
    exact hs.advanceBy (Simulation.byIndex h).stop _
  parted_recovering := False.elim

theorem Simulation.byIndex_nests : (Simulation.byIndex h).Nests where
  opened hs := ⟨hs.ahead, hs.finish, hs.lastEnd, hs.reported⟩
  closed hs := ⟨hs.ahead, hs.finish, hs.lastEnd, hs.reported⟩
  parted_nest := False.elim

end

/-! ### Two lexers -/

variable {l l' : Lexer} {s s' : State}

theorem SameKinds.symm (h : SameKinds l l') : SameKinds l' l := by
  refine ⟨fun i => (h.kind i).symm, fun i t t' ht ht' hk => (h.fits i t' t ht' ht ?_).symm⟩
  have hkind := h.kind i
  rw [ht, ht'] at hkind
  rw [Option.some.inj hkind, hk]

theorem State.ofLexer?_eq (h : State.ofLexer? l = some s) :
    ∃ ts finish, s = .ofTokens ts finish ∧ (∀ t ∈ ts, t.kind ≠ .eof) ∧
      ∀ i, l.token? i = some (ts.getD i (.endOfInput finish)) := by
  cases hcs : l.remainder? with
  | none => simp [State.ofLexer?, Lexer.tokens?, hcs] at h
  | some cs =>
    obtain rfl : .ofTokens (Token.scan l.source.name l.offset cs)
        (Token.scanEnd l.source.name l.offset cs).start = s := by
      simpa [State.ofLexer?, Lexer.tokens?, Lexer.end?, hcs] using h
    exact ⟨_, _, rfl, fun t => Token.kind_of_mem_scan, Lexer.token?_eq hcs⟩

/-- Where one lexer has come to its end, so has the other. -/
theorem SameKinds.length_le (h : SameKinds l l') {ts ts' : List Token} {finish finish' : Position}
    (hts : ∀ i, l.token? i = some (ts.getD i (.endOfInput finish)))
    (hts' : ∀ i, l'.token? i = some (ts'.getD i (.endOfInput finish')))
    (hne : ∀ t ∈ ts', t.kind ≠ .eof) : ts'.length ≤ ts.length := by
  refine Nat.le_of_not_lt fun hlt => ?_
  have hkind := h.kind ts.length
  rw [hts, hts', List.getD_eq_default _ _ (Nat.le_refl _), List.getD_eq_getElem _ _ hlt] at hkind
  exact hne _ (List.getElem_mem hlt) (Option.some.inj hkind).symm

theorem SameKinds.abreast (h : SameKinds l l') (hs : State.ofLexer? l = some s)
    (hs' : State.ofLexer? l' = some s') : Abreast (.byIndex l l') s s' := by
  obtain ⟨ts, finish, rfl, hne, hts⟩ := State.ofLexer?_eq hs
  obtain ⟨ts', finish', rfl, hne', hts'⟩ := State.ofLexer?_eq hs'
  have hlength := Nat.le_antisymm (h.symm.length_le hts' hts hne) (h.length_le hts hts' hne')
  have htoken : ∀ i, (Likeness.byIndex l l').token (ts.getD i (.endOfInput finish))
      (ts'.getD i (.endOfInput finish')) := fun i => ⟨i, hts i, hts' i⟩
  have hahead : List.Forall₂ (Likeness.byIndex l l').token ts ts' := by
    refine List.forall₂_iff_get.2 ⟨hlength, fun i hi hi' => ?_⟩
    have ht := htoken i
    rwa [List.getD_eq_getElem _ _ hi, List.getD_eq_getElem _ _ hi'] at ht
  have hfinish : (Likeness.byIndex l l').token (.endOfInput finish) (.endOfInput finish') := by
    have ht := htoken ts.length
    rwa [List.getD_eq_default _ _ (Nat.le_refl _),
      List.getD_eq_default _ _ (Nat.le_of_eq hlength.symm)] at ht
  refine ⟨hahead, hfinish, ?_, .nil⟩
  cases hahead with
  | nil => exact (Simulation.byIndex h).start hfinish
  | cons ht _ => exact (Simulation.byIndex h).start ht

/-- Two lexers whose tokens have the same kinds are parsed to trees and diagnostics that are alike. -/
theorem parse_depends_on_kinds {r r' : Parsed} (hr : parseLexer? l = some r)
    (hr' : parseLexer? l' = some r') (h : SameKinds l l') :
    (Likeness.byIndex l l').program r.program r'.program ∧
      List.Forall₂ (Likeness.byIndex l l').diagnostic r.diagnostics r'.diagnostics := by
  obtain ⟨s, hs, rfl⟩ := Option.map_eq_some_iff.1 hr
  obtain ⟨s', hs', rfl⟩ := Option.map_eq_some_iff.1 hr'
  have hdepth : s.depth = 0 ∧ s'.depth = 0 := by
    obtain ⟨_, _, rfl, -⟩ := State.ofLexer?_eq hs
    obtain ⟨_, _, rfl, -⟩ := State.ofLexer?_eq hs'
    exact ⟨rfl, rfl⟩
  have hends := (Simulation.byIndex_recovers h).program_holds
    ((Simulation.byIndex_nests h).level_holds (Simulation.byIndex_recovers h) maxNesting maxNesting)
    s s' (h.abreast hs hs')
  simp only [within, hdepth.1, hdepth.2, Nat.sub_zero]
  rcases hends with htogether | hparted
  · generalize (Parser.program (level maxNesting maxNesting)).run s = r,
      (Parser.program (level maxNesting maxNesting)).run s' = r' at htogether ⊢
    cases htogether with
    | ok hprogram ht => exact ⟨hprogram, ht.reported⟩
    | error hd ht =>
      have hreport := (Simulation.byIndex_recovers h).report hd ht
      exact ⟨.nil, hreport.reported⟩
  · exact hparted.elim

/-- The kinds may be compared as lists. -/
theorem SameKinds.of_tokens {ts ts' : List Token} (hts : l.tokens? = some ts)
    (hts' : l'.tokens? = some ts') (hkinds : ts.map Token.kind = ts'.map Token.kind)
    (hfits : ∀ t ∈ ts ++ ts', t.value ≤ maxInteger) : SameKinds l l' := by
  obtain ⟨cs, hcs, rfl⟩ := Option.map_eq_some_iff.1 hts
  obtain ⟨cs', hcs', rfl⟩ := Option.map_eq_some_iff.1 hts'
  have hlength := congrArg List.length hkinds
  rw [List.length_map, List.length_map] at hlength
  constructor
  · intro i
    rw [Lexer.token?_eq hcs, Lexer.token?_eq hcs', Option.map_some, Option.map_some]
    by_cases hi : i < (Token.scan l.source.name l.offset cs).length
    · have hi' := hlength ▸ hi
      have hkind : ∀ (ts : List Token) (hi : i < ts.length),
          (ts.map Token.kind)[i]? = some ts[i].kind := by
        intro ts hi
        rw [List.getElem?_map, List.getElem?_eq_getElem hi, Option.map_some]
      rw [List.getD_eq_getElem _ _ hi, List.getD_eq_getElem _ _ hi', ← hkind, ← hkind, hkinds]
    · rw [List.getD_eq_default _ _ (Nat.le_of_not_lt hi),
        List.getD_eq_default _ _ (Nat.le_of_not_lt (hlength ▸ hi))]
      rfl
  · intro i t t' ht ht' hk
    rw [Lexer.token?_eq hcs] at ht
    rw [Lexer.token?_eq hcs'] at ht'
    cases ht
    cases ht'
    by_cases hi : i < (Token.scan l.source.name l.offset cs).length
    · have hi' := hlength ▸ hi
      rw [List.getD_eq_getElem _ _ hi, List.getD_eq_getElem _ _ hi']
      exact iff_of_true (hfits _ (List.mem_append_left _ (List.getElem_mem hi)))
        (hfits _ (List.mem_append_right _ (List.getElem_mem hi')))
    · rw [List.getD_eq_default _ _ (Nat.le_of_not_lt hi)] at hk
      cases hk

/-- Other blanks, other names, another number, and a lexer that begins further on. -/
theorem spelling_does_not_matter :
    let l : Lexer := .ofSource ⟨"shell", "let x = y + 1 )"⟩
    let l' : Lexer := ⟨⟨"main", "-- let other=name\n+23)"⟩, 3⟩
    ∃ r r', parseLexer? l = some r ∧ parseLexer? l' = some r' ∧
      (Likeness.byIndex l l').program r.program r'.program ∧
      List.Forall₂ (Likeness.byIndex l l').diagnostic r.diagnostics r'.diagnostics := by
  intro l l'
  obtain ⟨r, hr⟩ := Option.isSome_iff_exists.1 (show (parseLexer? l).isSome by decide +kernel)
  obtain ⟨r', hr'⟩ := Option.isSome_iff_exists.1 (show (parseLexer? l').isSome by decide +kernel)
  obtain ⟨ts, hts⟩ := Option.isSome_iff_exists.1 (show l.tokens?.isSome by decide +kernel)
  obtain ⟨ts', hts'⟩ := Option.isSome_iff_exists.1 (show l'.tokens?.isSome by decide +kernel)
  have hkinds : l.tokens?.map (List.map Token.kind) = l'.tokens?.map (List.map Token.kind) := by
    decide +kernel
  have hfits : ∀ t ∈ l.tokens?.getD [] ++ l'.tokens?.getD [], t.value ≤ maxInteger := by
    decide +kernel
  rw [hts, hts'] at hkinds hfits
  have hsame := SameKinds.of_tokens hts hts' (Option.some.inj hkinds) hfits
  exact ⟨r, r', hr, hr', parse_depends_on_kinds hr hr' hsame⟩

end LetLang
