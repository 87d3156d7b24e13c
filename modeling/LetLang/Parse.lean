import LetLang.Parser.Nesting
import LetLang.Tree.Equality

/-! From a source to its tree.

Parsing never gives up: statements that fail are left out of the program, and
each leaves a diagnostic. `parse` allows `maxNesting` levels, and `parseWithin`
as many as it is told. -/
namespace LetLang

structure Parsed where
  program : Program
  /-- What was found wrong, in the order it was found. -/
  diagnostics : List Diagnostic
  /-- How many levels of nesting were open at once at most. -/
  deepest : Nat
deriving DecidableEq, Repr

/-- What a run over a whole source comes to. -/
def Parsed.ofResult : Parser.Result Program → Parsed
  | .ok program s => ⟨program, s.reported.toList, s.deepest⟩
  | .error d s => ⟨⟨[]⟩, (s.report d).reported.toList, s.deepest⟩

def parseWithin (limit : Nat) (source : Source) : Parsed :=
  .ofResult ((Parser.within limit Parser.program).run (.ofSource source))

/-- The same for tokens that are already there, with the end of input at `finish`. -/
def parseTokens (limit : Nat) (tokens : List Token) (finish : Position) : Parsed :=
  .ofResult ((Parser.within limit Parser.program).run (.ofTokens tokens finish))

def maxNesting : Nat := 256

def parse (source : Source) : Parsed := parseWithin maxNesting source

/-- `Parsed.ofResult` never meets a failure. -/
theorem parseTokens_eq (limit : Nat) (tokens : List Token) (finish : Position) :
    ∃ program s,
      (Parser.program (Parser.level limit limit)).run (.ofTokens tokens finish) = .ok program s ∧
      parseTokens limit tokens finish = ⟨program, s.reported.toList, s.deepest⟩ := by
  obtain ⟨program, s, h⟩ :=
    Parser.program_succeeds (Parser.level limit limit) (.ofTokens tokens finish)
  exact ⟨program, s, h, congrArg Parsed.ofResult h⟩

theorem parseWithin_eq (limit : Nat) (source : Source) :
    ∃ program s,
      (Parser.program (Parser.level limit limit)).run (.ofSource source) = .ok program s ∧
      parseWithin limit source = ⟨program, s.reported.toList, s.deepest⟩ := parseTokens_eq limit _ _

end LetLang
