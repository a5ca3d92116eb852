import TextHygiene.Fault

/-! A round applies one check to every path of a list, once each and in order. A failure does not
end the round, and the check may carry state from call to call. -/

namespace TextHygiene.Round

variable {m : Type → Type} [Monad m]

/-- The failures of a round, each with its position counted from `start`. -/
def indexed (check : Path → m (Option Failure)) : (start : Nat) → List Path → m (List (Nat × Failure))
  | _, [] => pure []
  | i, p :: rest => do
    let failure? ← check p
    let later ← indexed check (i + 1) rest
    return match failure? with
      | some f => (i, f) :: later
      | none => later

def failures (check : Path → m (Option Failure)) (paths : List Path) : m (List Failure) := do
  return (← indexed check 0 paths).map Prod.snd

end TextHygiene.Round
