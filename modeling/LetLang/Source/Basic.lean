/-! Named texts, and places in them.

Places count UTF-8 bytes from the start of the text and are kept in 32 bits:
`Position.ofOffset` records every offset past the largest one as that one. -/
namespace LetLang

structure Source where
  name : String
  text : String
deriving DecidableEq, Repr

/-- A text under the name given, or under `shell` if it was typed in without one. -/
def Source.ofText (text : String) (name : Option String) : Source := ⟨name.getD "shell", text⟩

structure Position where
  offset : Nat
  file : String
deriving DecidableEq, Repr

structure Span where
  start : Position
  stop : Position
deriving DecidableEq, Repr

namespace Position

def maxOffset : Nat := 0xffffffff

def ofOffset (file : String) (offset : Nat) : Position :=
  ⟨min offset maxOffset, file⟩

@[simp] theorem file_ofOffset (file : String) (offset : Nat) :
    (ofOffset file offset).file = file := rfl

theorem offset_ofOffset {file : String} {offset : Nat} (h : offset ≤ maxOffset) :
    (ofOffset file offset).offset = offset := Nat.min_eq_left h

theorem offset_ofOffset_le (file : String) (offset : Nat) :
    (ofOffset file offset).offset ≤ maxOffset := Nat.min_le_right ..

end Position

/-- Between two byte offsets of one source, each recorded on its own. -/
def Span.ofOffsets (file : String) (start stop : Nat) : Span :=
  ⟨.ofOffset file start, .ofOffset file stop⟩

end LetLang
