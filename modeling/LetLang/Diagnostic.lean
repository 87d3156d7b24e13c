import LetLang.Source.Basic
import LetLang.Text.Quoted
import LetLang.Token.Kind

/-! What can be wrong with a program, and how it is put to its author.

A `Problem` is a cause together with what a message about it needs; a
`Diagnostic` is a problem at a place. Every problem has a name and a message,
and most have a tip. -/
namespace LetLang
open Text (quote)

inductive Problem where
  /-- A construct needed one kind of token and met another. -/
  | unexpected (expected found : Token.Kind) (literal : String)
  /-- An operand was due, and no operand starts like this. -/
  | noOperand (kind : Token.Kind) (literal : String)
  | illegalCharacter (literal : String)
  | integerTooLarge (literal : String)
  /-- The left side of a compound assignment is not a plain name. -/
  | notAssignable (literal : String)
  | tooDeep (limit : Nat)
deriving DecidableEq, Repr

namespace Problem

def name : Problem → String
  | unexpected .. => "UnexpectedToken"
  | noOperand .. => "NoPrefixParseFn"
  | illegalCharacter _ => "IllegalCharacter"
  | integerTooLarge _ => "NumberParseError"
  | notAssignable _ => "InvalidAssignmentTarget"
  | tooDeep _ => "NestingTooDeep"

def message : Problem → String
  | unexpected expected found _ => s!"expected next token to be {expected}, got {found} instead"
  | noOperand kind _ => s!"no prefix parse function for {kind} found"
  | illegalCharacter literal => "illegal character " ++ quote literal
  | integerTooLarge literal => "could not parse " ++ quote literal ++ " as integer"
  | notAssignable literal => "invalid assignment target: " ++ quote literal
  | tooDeep limit => s!"nesting exceeds the limit of {limit} levels"

def tip : Problem → Option String
  | unexpected expected .eof _ =>
    some s!"Input ended while expecting {expected}, is something left unclosed?"
  | unexpected _ _ literal => some s!"Unexpected token: `{literal}`, did you miss a separator?"
  | noOperand _ literal => some s!"`{literal}` cannot start an expression"
  | illegalCharacter _ => none
  | integerTooLarge literal =>
    some s!"Invalid number: `{literal}`, is it above the integer limit?"
  | notAssignable _ => some "Only identifiers can be assigned to"
  | tooDeep _ => some "Split the expression into smaller `let` bindings"

end Problem

structure Diagnostic where
  problem : Problem
  position : Position
deriving DecidableEq, Repr

namespace Diagnostic

def name (d : Diagnostic) : String := d.problem.name

def message (d : Diagnostic) : String := d.problem.message

def tip (d : Diagnostic) : Option String := d.problem.tip

/-- The one line that says what is wrong: the tip if there is one, otherwise the message. -/
def summary (d : Diagnostic) : String := d.tip.getD d.message

end Diagnostic
end LetLang
