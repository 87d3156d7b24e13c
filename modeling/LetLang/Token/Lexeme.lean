import LetLang.Token.Kind

/-! The longest lexeme at the front of a text.

A word starts with a letter or an underscore and runs on through digits too, a
number is a run of digits, eight signs may be followed by `=`, and any other
character that is not a gap stands alone. Letters and digits are the ASCII ones. -/
namespace LetLang.Token

/-- What may stand between tokens without being part of one. -/
def isGap (c : Char) : Bool := c == ' ' || c == '\t' || c == '\n' || c == '\r'

def isDigit (c : Char) : Bool := '0' ≤ c && c ≤ '9'

def isWordStart (c : Char) : Bool :=
  ('a' ≤ c && c ≤ 'z') || ('A' ≤ c && c ≤ 'Z') || c == '_'

def isWordPart (c : Char) : Bool := isWordStart c || isDigit c

/-- A lexeme with its kind, and the text after it. -/
structure Lexeme where
  kind : Kind
  text : List Char
  rest : List Char
deriving DecidableEq, Repr

namespace Lexeme

/-- The kinds of a sign alone and of the sign followed by `=`, for a sign that can be. -/
def sign? : Char → Option (Kind × Kind)
  | '=' => some (.assignment, .equals)
  | '!' => some (.not, .notEquals)
  | '<' => some (.less, .lessEquals)
  | '>' => some (.greater, .greaterEquals)
  | '+' => some (.plus, .plusEquals)
  | '-' => some (.dash, .minusEquals)
  | '*' => some (.star, .starEquals)
  | '/' => some (.slash, .slashEquals)
  | _ => none

/-- The kind of a character that is always a lexeme of its own. -/
def mark : Char → Kind
  | ',' => .comma
  | ';' => .semicolon
  | '(' => .openParen
  | ')' => .closeParen
  | '{' => .openCurly
  | '}' => .closeCurly
  | _ => .illegal

/-- The sign `c`, and with it the `=` that `cs` may go on with. -/
def readSign (c : Char) (alone followed : Kind) : List Char → Lexeme
  | '=' :: cs => ⟨followed, [c, '='], cs⟩
  | cs => ⟨alone, [c], cs⟩

/-- The lexeme that begins with `c`, in a text that goes on with `cs`. -/
def read (c : Char) (cs : List Char) : Lexeme :=
  if isWordStart c then
    let word := c :: cs.takeWhile isWordPart
    ⟨Kind.ofWord (String.ofList word), word, cs.dropWhile isWordPart⟩
  else if isDigit c then
    ⟨.integer, c :: cs.takeWhile isDigit, cs.dropWhile isDigit⟩
  else
    match sign? c with
    | some (alone, followed) => readSign c alone followed cs
    | none => ⟨mark c, [c], cs⟩

/-! ### Nothing is lost -/

theorem readSign_text_append_rest (c : Char) (alone followed : Kind) (cs : List Char) :
    (readSign c alone followed cs).text ++ (readSign c alone followed cs).rest = c :: cs := by
  unfold readSign
  split <;> rfl

theorem readSign_text_ne_nil (c : Char) (alone followed : Kind) (cs : List Char) :
    (readSign c alone followed cs).text ≠ [] := by
  unfold readSign
  split <;> simp

theorem text_append_rest (c : Char) (cs : List Char) :
    (read c cs).text ++ (read c cs).rest = c :: cs := by
  unfold read
  split
  · simp
  · split
    · simp
    · split
      · exact readSign_text_append_rest ..
      · rfl

theorem text_ne_nil (c : Char) (cs : List Char) : (read c cs).text ≠ [] := by
  unfold read
  split
  · simp
  · split
    · simp
    · split
      · exact readSign_text_ne_nil c _ _ cs
      · simp

theorem length_rest_le (c : Char) (cs : List Char) : (read c cs).rest.length ≤ cs.length := by
  have h := congrArg List.length (text_append_rest c cs)
  have hpos := List.length_pos_iff.2 (text_ne_nil c cs)
  simp only [List.length_append, List.length_cons] at h
  omega

/-! ### Kinds -/

theorem readSign_kind (c : Char) (alone followed : Kind) (cs : List Char) :
    (readSign c alone followed cs).kind = alone ∨
      (readSign c alone followed cs).kind = followed := by
  unfold readSign
  split
  · exact .inr rfl
  · exact .inl rfl

theorem sign?_ne_eof {c : Char} {alone followed : Kind} (h : sign? c = some (alone, followed)) :
    alone ≠ .eof ∧ followed ≠ .eof := by
  unfold sign? at h
  split at h <;> simp_all
  all_goals obtain ⟨rfl, rfl⟩ := h; simp

theorem mark_ne_eof (c : Char) : mark c ≠ .eof := by
  unfold mark
  split <;> simp

/-- No text is a lexeme for the end. -/
theorem kind_ne_eof (c : Char) (cs : List Char) : (read c cs).kind ≠ .eof := by
  unfold read
  split
  · exact Kind.ofWord_ne_eof _
  · split
    · simp
    · split
      · rename_i alone followed h
        obtain ⟨ha, hf⟩ := sign?_ne_eof h
        rcases readSign_kind c alone followed cs with hk | hk <;> rw [hk]
        · exact ha
        · exact hf
      · exact mark_ne_eof c

end Lexeme
end LetLang.Token
