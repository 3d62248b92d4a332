/-!
# Settings
-/

namespace JvmLowering

/-- Choices that a caller has. -/
structure Settings where
  /-- Push constants again at each use, and give them no local variable. -/
  rematerialize : Bool := true
  /-- Type stack entries by what the verifier sees, where that is known. -/
  preciseStack : Bool := true
  /-- Refuse to move the type of a phi down. -/
  checkMonotone : Bool := true
  /-- Compute the frame at the entry of each block. -/
  frames : Bool := true
deriving DecidableEq, Repr

end JvmLowering
