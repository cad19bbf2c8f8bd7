import Bitemporal.Fault

/-!
Programs on a state.

A program fails or returns, and leaves a state either way: what it changed before it failed stays
changed.
-/

namespace Bitemporal

/-- A program on a state, such as a store: it fails or returns, and leaves a state either way. -/
abbrev Program (σ : Type) := EStateM Fault σ

namespace Program

variable {σ β : Type}

/-- The program that returns or fails as told, and leaves the state as it was. -/
def ofExcept : Except Fault β → Program σ β
  | .ok b => pure b
  | .error fault => throw fault

/-- The program that looks at the state and leaves it as it was. -/
def read (f : σ → Except Fault β) : Program σ β := fun s =>
  match f s with
  | .ok b => .ok b s
  | .error fault => .error fault s

end Program

end Bitemporal
