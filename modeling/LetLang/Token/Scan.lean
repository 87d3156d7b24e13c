import LetLang.Text.Bytes
import LetLang.Token.Basic
import LetLang.Token.Lexeme

/-! The tokens of a text.

`next?` reads the first token of a text that begins at a given byte offset, and
`scan` reads them all. `next?_length` says that a token always takes something
from the text, so scanning ends; `kind_of_mem_scan` that the end of the text is
the only token of its kind. -/
namespace LetLang
open Text (byteSize)

namespace Token

/-- A token, and the byte offset and the text after it. -/
structure Next where
  token : Token
  offset : Nat
  rest : List Char

/-- The first token of `cs`, which begin at byte `offset` of `file`, unless only gaps are left. -/
def next? (file : String) (offset : Nat) (cs : List Char) : Option Next :=
  let start := offset + byteSize (cs.takeWhile isGap)
  match cs.dropWhile isGap with
  | [] => none
  | c :: cs =>
    let lexeme := Lexeme.read c cs
    let stop := start + byteSize lexeme.text
    some ⟨⟨lexeme.kind, String.ofList lexeme.text, .ofOffsets file start stop⟩, stop, lexeme.rest⟩

theorem next?_length {file : String} {offset : Nat} {cs : List Char} {n : Next}
    (h : next? file offset cs = some n) : n.rest.length < cs.length := by
  unfold next? at h
  have hd := (List.dropWhile_suffix (l := cs) isGap).length_le
  split at h
  · simp at h
  · rename_i c rest heq
    obtain rfl := Option.some.inj h
    have hr := Lexeme.length_rest_le c rest
    rw [heq, List.length_cons] at hd
    exact Nat.lt_of_le_of_lt hr hd

/-- All tokens of `cs`, which begin at byte `offset` of `file`. -/
def scan (file : String) (offset : Nat) (cs : List Char) : List Token :=
  match _h : next? file offset cs with
  | none => []
  | some n => n.token :: scan file n.offset n.rest
termination_by cs.length
decreasing_by exact next?_length _h

theorem next?_kind {file : String} {offset : Nat} {cs : List Char} {n : Next}
    (h : next? file offset cs = some n) : n.token.kind ≠ .eof := by
  unfold next? at h
  split at h
  · simp at h
  · obtain rfl := Option.some.inj h
    exact Lexeme.kind_ne_eof _ _

/-- The end is told apart from every token before it by its kind. -/
theorem kind_of_mem_scan {file : String} {offset : Nat} {cs : List Char} {t : Token}
    (h : t ∈ scan file offset cs) : t.kind ≠ .eof := by
  fun_induction scan file offset cs with
  | case1 => simp at h
  | case2 offset cs n hn ih =>
    rcases List.mem_cons.1 h with rfl | ht
    · exact next?_kind hn
    · exact ih ht

/-- The token after the last one. -/
def scanEnd (file : String) (offset : Nat) (cs : List Char) : Token :=
  endOfInput (.ofOffset file (offset + byteSize cs))

end Token

/-- The tokens of a source, with one for its end. -/
def tokenize (source : Source) : List Token :=
  let cs := source.text.toList
  Token.scan source.name 0 cs ++ [Token.scanEnd source.name 0 cs]

end LetLang
