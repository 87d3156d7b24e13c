import LetLang.Parse
import LetLang.Proofs.Grammar.Complete
import LetLang.Proofs.Grammar.Sound

/-! The acceptance theorem.

A source parses without a diagnostic just when the grammar derives its tokens
within the limit on nesting, and then the program is the derived tree
(`parse_accepts_grammar`). So the grammar gives no source two trees. -/
namespace LetLang
open Grammar LetLang.Parser

theorem dropLast_tokenize (source : Source) :
    (tokenize source).dropLast = (State.ofSource source).ahead := List.dropLast_concat

/-- No diagnostics were reported just when the program was accepted. -/
theorem parseWithin_accepts (limit : Nat) (source : Source) (p : Program) :
    ((parseWithin limit source).diagnostics = [] ∧ (parseWithin limit source).program = p) ↔
      ∃ t, (program (level limit limit)).Accepts (.ofSource source) p t := by
  obtain ⟨q, t, hrun, hparse⟩ := parseWithin_eq limit source
  rw [hparse]
  constructor
  · intro h
    obtain ⟨hnil, rfl⟩ := h
    exact ⟨t, hrun, Array.toList_eq_nil_iff.1 hnil⟩
  · intro h
    obtain ⟨u, hu, hrep⟩ := h
    rw [hrun] at hu
    cases hu
    exact ⟨Array.toList_eq_nil_iff.2 hrep, rfl⟩

theorem parseWithin_iff_derives (limit : Nat) (source : Source) (ss : List Stmt) :
    ((parseWithin limit source).diagnostics = [] ∧ (parseWithin limit source).program = ⟨ss⟩) ↔
      Derives limit (.statements ss) (tokenize source).dropLast := by
  rw [parseWithin_accepts, dropLast_tokenize]
  constructor
  · intro h
    obtain ⟨t, ht⟩ := h
    exact program_sound ht
  · exact program_complete

theorem parse_accepts_grammar (source : Source) :
    ((parse source).diagnostics = [] ↔
      ∃ ss, Derives maxNesting (.statements ss) (tokenize source).dropLast) ∧
    ∀ ss, Derives maxNesting (.statements ss) (tokenize source).dropLast →
      (parse source).program = ⟨ss⟩ := by
  constructor
  · constructor
    · intro h
      exact ⟨_, (parseWithin_iff_derives maxNesting source _).1 ⟨h, rfl⟩⟩
    · intro h
      obtain ⟨ss, h⟩ := h
      exact ((parseWithin_iff_derives maxNesting source ss).2 h).1
  · intro ss h
    exact ((parseWithin_iff_derives maxNesting source ss).2 h).2

end LetLang
