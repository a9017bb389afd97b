/-!
# Virtual time

A clock in whole milliseconds that stands still while anything runs and jumps to where something
is due when all wait.
-/

namespace Durable

/-- Something that goes on by itself: when it is due next, and what is then behind it. -/
structure Timeline (σ : Type) where
  due? : σ → Option Nat
  run : (now : Nat) → σ → σ

namespace Timeline

variable {σ : Type}

/-- Lets time go by until `stop` holds or `target` is reached, running what is due on the way. -/
def advanceUntil (line : Timeline σ) (stop : σ → Bool) (target now : Nat) (s : σ) : Nat × σ :=
  if stop s then (now, s)
  else
    match line.due? s with
    | none => (max now target, s)
    | some due =>
      let next := max due (now + 1)
      if _ : next ≤ target then advanceUntil line stop target next (line.run next s)
      else (max now target, s)
termination_by target - now
decreasing_by
  have : now + 1 ≤ next := Nat.le_max_right ..
  omega

/-- Lets time go by up to `target`. -/
def advance (line : Timeline σ) (target now : Nat) (s : σ) : Nat × σ :=
  line.advanceUntil (fun _ => false) target now s

end Timeline

end Durable
