import LetLang.Text.Extending
import LetLang.Text.Printable

/-! Text in double quotes, as diagnostics show it.

Five characters have a short escape beside the quote's own and the backslash's;
a character that would not be seen, or that would change how the one before it
is drawn, is written by its code point. -/
namespace LetLang.Text

/-- One character inside double quotes. -/
def quoteChar (c : Char) : List Char :=
  match c with
  | '\x00' => ['\\', '0']
  | '\t' => ['\\', 't']
  | '\r' => ['\\', 'r']
  | '\n' => ['\\', 'n']
  | '"' => ['\\', '"']
  | '\\' => ['\\', '\\']
  | _ =>
    if isPrintable c && !isExtending c then [c]
    else ['\\', 'u', '{'] ++ Nat.toDigits 16 c.toNat ++ ['}']

def quote (text : String) : String :=
  String.ofList ('"' :: text.toList.flatMap quoteChar ++ ['"'])

end LetLang.Text
