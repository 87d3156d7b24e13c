import LetLang.Parser.Operator
import LetLang.Parser.Statement

/-! The limit on nesting.

`level limit n` is the level where `n` more levels may be opened: an expression
or a block opens one of them and is made of the level below, and where none is
left both are refused. `within` gives a construct the level that fits how many
levels are open already. -/
namespace LetLang.Parser

variable {α : Type}

/-- Opens a level for as long as `p` runs, whether it finds something or fails. -/
def nest (p : Parser α) : Parser α where
  run s :=
    match p.run s.opened with
    | .ok a t => .ok a t.closed
    | .error d t => .error d t.closed
  steps s := by
    have hp := (State.Steps.refl s).opened.trans (p.steps s.opened)
    split
    · rename_i a t h
      rw [h] at hp
      exact hp.closed
    · rename_i d t h
      rw [h] at hp
      exact hp.closed
  unseen s more finish hs := by
    have hp := p.unseen s.opened more finish
    have he : (s.extend more finish).opened = s.opened.extend more finish := rfl
    rw [he]
    split at hs
    · rename_i a t h
      rw [h] at hp
      rw [hp hs]
      rfl
    · rename_i d t h
      rw [h] at hp
      rw [hp hs]
      rfl

theorem consumes_nest {p : Parser α} (hp : p.Consumes) : (nest p).Consumes := by
  intro s a u h
  simp only [nest] at h
  split at h
  · rename_i b t ht
    injection h with _ hu
    exact hu ▸ hp s.opened b t ht
  · simp at h

def level (limit : Nat) : Nat → Level
  | 0 =>
    { expr := fun _ => failHere (.tooDeep limit)
      block := failHere (.tooDeep limit)
      expr_consumes := fun _ => consumes_failHere _
      block_consumes := consumes_failHere _ }
  | n + 1 =>
    let inner := level limit n
    { expr := fun bound => nest (expression inner bound)
      block := nest (block inner)
      expr_consumes := fun bound => consumes_nest (expression_consumes inner bound)
      block_consumes := consumes_nest (block_consumes inner) }

/-- A construct, made of what may be opened where it begins. -/
def within (limit : Nat) (p : Level → Parser α) : Parser α where
  run s := (p (level limit (limit - s.depth))).run s
  steps s := (p _).steps s
  unseen s more finish hs := (p _).unseen s more finish hs

end LetLang.Parser
