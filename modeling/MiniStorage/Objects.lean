import Mathlib.Data.List.Basic

namespace MiniStorage.Objects

variable {S T C R : Type*}

/-- What an object answers to some calls, one after the other. A call may fail to come back. -/
def answers (call : S → C → Option (R × S)) : S → List C → Option (List R)
  | _, [] => some []
  | s, c :: cs => (call s c).bind fun (r, s) => (answers call s cs).map fun rs => r :: rs

/-- What a model of the object says, whose calls all come back. -/
def expected (call : T → C → R × T) : T → List C → List R
  | _, [] => []
  | t, c :: cs => (call t c).1 :: expected call (call t c).2 cs

variable {call : S → C → Option (R × S)} {spec : T → C → R × T} {Rel : S → T → Prop} {allowed : C → Prop}

end MiniStorage.Objects
