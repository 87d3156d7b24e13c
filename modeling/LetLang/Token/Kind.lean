/-! The kinds of token, and the words that are reserved. -/
namespace LetLang.Token

inductive Kind where
  | eof | illegal | identifier | integer
  | openCurly | closeCurly | openParen | closeParen
  | assignment | equals | not | notEquals
  | less | lessEquals | greater | greaterEquals
  | semicolon | comma
  | plusEquals | minusEquals | starEquals | slashEquals
  | plus | dash | slash | star
  | kwFn | kwLet | kwTrue | kwFalse | kwIf | kwElse | kwReturn
deriving DecidableEq, Repr

namespace Kind

/-- The name that messages use. -/
def name : Kind → String
  | eof => "EOF"
  | illegal => "Illegal"
  | identifier => "Identifier"
  | integer => "Integer"
  | openCurly => "OpenCurly"
  | closeCurly => "CloseCurly"
  | openParen => "OpenParen"
  | closeParen => "CloseParen"
  | assignment => "Assignment"
  | equals => "Equals"
  | not => "Not"
  | notEquals => "NotEquals"
  | less => "Less"
  | lessEquals => "LessEquals"
  | greater => "Greater"
  | greaterEquals => "GreaterEquals"
  | semicolon => "Semicolon"
  | comma => "Comma"
  | plusEquals => "PlusEquals"
  | minusEquals => "MinusEquals"
  | starEquals => "StarEquals"
  | slashEquals => "SlashEquals"
  | plus => "Plus"
  | dash => "Dash"
  | slash => "Slash"
  | star => "Star"
  | kwFn => "Fn"
  | kwLet => "Let"
  | kwTrue => "True"
  | kwFalse => "False"
  | kwIf => "If"
  | kwElse => "Else"
  | kwReturn => "Return"

instance : ToString Kind := ⟨name⟩

/-- The kind of a word: its own if it is reserved. -/
def ofWord : String → Kind
  | "fn" => kwFn
  | "let" => kwLet
  | "true" => kwTrue
  | "false" => kwFalse
  | "if" => kwIf
  | "else" => kwElse
  | "return" => kwReturn
  | _ => identifier

theorem ofWord_ne_eof (word : String) : ofWord word ≠ eof := by
  unfold ofWord
  split <;> simp

/-- The operators that compute with a variable and store the result in it. -/
def isCompound : Kind → Bool
  | plusEquals | minusEquals | starEquals | slashEquals => true
  | _ => false

/-- Whether tokens of this kind differ in what they say, so that a message shows it. -/
def variesInText : Kind → Bool
  | identifier | integer | illegal => true
  | _ => false

end Kind
end LetLang.Token
