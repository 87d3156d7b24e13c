import LetLang.Diagnostic
import LetLang.Source.Line
import LetLang.Text.Blank

/-! A diagnostic shown with the line it is about.

The report names the problem and the file; if the source has the diagnostic's
position, three more lines follow: an empty gutter, the line without its
indentation, and an arrow to the column. Positions count bytes and the arrow
counts characters, except that a position inside a character keeps its byte
column. -/
namespace LetLang
open Text (byteSize splitAtByte? trimEnd)

namespace Line

def isIndent (c : Char) : Bool := c == ' ' || c == '\t'

/-- How many characters stand before the column. -/
def charColumn (line : Line) : Nat :=
  match splitAtByte? line.column line.text with
  | some (before, _) => before.length
  | none => line.column

def indent (line : Line) : List Char := line.text.takeWhile isIndent

/-- The text as reports show it. -/
def shown (line : Line) : List Char := trimEnd (line.text.dropWhile isIndent)

/-- How far the arrow reaches to the right; inside the indentation it stays under the first
column. -/
def dashes (line : Line) : Nat := line.charColumn - byteSize line.indent

/-- The bar that closes the gutter, under a line number as wide as this one's. -/
def gutter (line : Line) : List Char :=
  List.replicate ((toString line.number).length + 1) ' ' ++ ['|']

def rows (line : Line) : List (List Char) :=
  [ line.gutter,
    (toString line.number).toList ++ [' ', '|', ' '] ++ line.shown,
    line.gutter ++ [' '] ++ List.replicate line.dashes '-' ++ ['^'] ]

end Line

/-- The rows of a report, each to be ended by a newline. -/
def Diagnostic.rows (d : Diagnostic) (text : String) : List (List Char) :=
  let heading := [s!"Error: {d.name} ({d.summary})".toList, s!"-> {d.position.file}".toList]
  heading ++ ((lineAt? text d.position.offset).map Line.rows).getD []

/-- The whole report. -/
def Diagnostic.render (d : Diagnostic) (text : String) : String :=
  String.ofList ((d.rows text).flatMap (· ++ ['\n']))

end LetLang
