import LetLang.Parse
import LetLang.Proofs.Placement
import LetLang.Proofs.Walk.Constructs

/-! The order of diagnostics.

Diagnostics come out in source order, except that a complaint about the target of
an assignment is made only when the whole target has been read: it comes after
every mistake inside the target (`parse_reports_in_order`). A target that is a
name has nothing inside, so it takes a block within a target to see the
difference (`late_target_out_of_order`). -/
namespace LetLang
open LetLang.Parser

namespace Diagnostic

/-- It is about what an assignment assigns to. -/
def IsAboutTarget (d : Diagnostic) : Prop := ∃ literal, d.problem = .notAssignable literal

/-- None is about an earlier place than one before it. -/
def SourceOrder (ds : List Diagnostic) : Prop := (ds.map offset).Pairwise (· ≤ ·)

theorem sourceOrder_iff {ds : List Diagnostic} (h : ds.Pairwise InOrder) :
    SourceOrder ds ↔ ∀ d e, [d, e].Sublist ds → e.IsAboutTarget → d.offset ≤ e.offset := by
  rw [SourceOrder, List.pairwise_map, List.pairwise_iff_forall_sublist]
  constructor
  · intro hall d e hsub _
    exact hall hsub
  · intro hall d e hsub
    rcases List.pairwise_iff_forall_sublist.1 h hsub with hle | htarget
    · exact hle
    · exact hall d e hsub htarget

end Diagnostic

open Diagnostic (IsAboutTarget SourceOrder)

theorem sorted_ofSource (source : Source) : (State.ofSource source).Sorted :=
  (Token.scan_sorted source.name 0 source.text.toList).1

theorem parseWithin_inOrder (limit : Nat) (source : Source) :
    (parseWithin limit source).diagnostics.Pairwise Diagnostic.InOrder := by
  obtain ⟨program, t, hrun, hparse⟩ := parseWithin_eq limit source
  have hmoves := program_orderly limit limit (sorted_ofSource source)
  rw [hrun] at hmoves
  obtain ⟨ds, hds, -, horder⟩ := hmoves.1.reports
  rw [hparse, hds]
  exact horder

/-- Only a complaint about a target can come later than its place in the source. -/
theorem parse_reports_in_order (source : Source) :
    (parse source).diagnostics.Pairwise (fun d e => d.offset ≤ e.offset ∨ e.IsAboutTarget) ∧
    (SourceOrder (parse source).diagnostics ↔
      ∀ d e, [d, e].Sublist (parse source).diagnostics → e.IsAboutTarget → d.offset ≤ e.offset) :=
  have h := parseWithin_inOrder maxNesting source
  ⟨h, Diagnostic.sourceOrder_iff h⟩

/-- The mistake inside the target comes first, and the complaint about the target after it. -/
theorem late_target_out_of_order : ¬ SourceOrder (parse ⟨"shell", "fn() { @ } += 1"⟩).diagnostics := by
  have h : (parse ⟨"shell", "fn() { @ } += 1"⟩).diagnostics.map Diagnostic.offset = [7, 0] := by
    decide +kernel
  rw [SourceOrder, h]
  decide

end LetLang
