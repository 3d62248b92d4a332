/-!
# Steps that may fail

A step changes a state and may fail after it has changed some of it. What it has changed stays.
-/

namespace JvmLowering

variable {σ α ε : Type}

/-- Makes a step for each item of a list, up to the first that fails. -/
def attemptAll (step : σ → α → σ × Option ε) (s : σ) : List α → σ × Option ε
  | [] => (s, none)
  | a :: as =>
    match step s a with
    | (s, none) => attemptAll step s as
    | (s, some e) => (s, some e)

end JvmLowering
