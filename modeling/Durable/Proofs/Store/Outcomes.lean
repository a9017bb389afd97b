import Durable.Store.Basic

/-!
# How calls end

A call ends with a result or an error. A chain of calls succeeds when each of them does; two calls
end alike when both give related results or the same error; and a call of a store leaves another
store behind only when it is a write that is not refused.
-/

namespace Durable

/-! ### One call after another -/

theorem bind_eq_ok {α β : Type} {x : Except Error α} {f : α → Except Error β} {b : β}
    (h : (x >>= f) = .ok b) : ∃ a, x = .ok a ∧ f a = .ok b := by
  cases x with
  | error e => cases h
  | ok a => exact ⟨a, rfl, h⟩

theorem map_eq_ok {α β : Type} {x : Except Error α} {f : α → β} {b : β} (h : x.map f = .ok b) :
    ∃ a, x = .ok a ∧ f a = b := by
  cases x with
  | error e => cases h
  | ok a => exact ⟨a, rfl, Except.ok.inj h⟩

/-! ### Two calls -/

/-- Whether two calls end alike: with related results, or with the same error. -/
def EndAlike {α β : Type} (r : α → β → Prop) : Except Error α → Except Error β → Prop
  | .ok a, .ok b => r a b
  | .error e, .error e' => e = e'
  | _, _ => False

namespace EndAlike

variable {α β α' β' : Type} {r : α → β → Prop} {r' : α' → β' → Prop} {x : Except Error α}
  {y : Except Error β}

theorem imp {r' : α → β → Prop} (h : EndAlike r x y) (hr : ∀ a b, r a b → r' a b) :
    EndAlike r' x y := by
  cases x <;> cases y
  · exact h
  · exact h.elim
  · exact h.elim
  · exact hr _ _ h

theorem bind {f : α → Except Error α'} {g : β → Except Error β'} (h : EndAlike r x y)
    (hnext : ∀ a b, r a b → EndAlike r' (f a) (g b)) : EndAlike r' (x >>= f) (y >>= g) := by
  cases x with
  | error e =>
    cases y with
    | error e' => exact h
    | ok b => exact h.elim
  | ok a =>
    cases y with
    | error e' => exact h.elim
    | ok b => exact hnext a b h

/-- Calls that give nothing back but a store. -/
theorem map_unit (h : EndAlike r x y) :
    EndAlike (fun a b => a.1 = b.1 ∧ r a.2 b.2) (x.map ((), ·)) (y.map ((), ·)) := by
  cases x <;> cases y
  · exact h
  · exact h.elim
  · exact h.elim
  · exact ⟨rfl, h⟩

end EndAlike

/-! ### Calls of a store -/

namespace StoreM

variable {σ α β : Type}

theorem outcome_map_read (f : σ → Except Error α) (g : α → β) (s : σ) :
    (g <$> read f).outcome s = ((f s).map g, s) := by
  show (StoreM.outcome (EStateM.map g (read f))) s = _
  unfold outcome EStateM.map read
  cases f s <;> rfl

theorem outcome_map_write_ok {f : σ → Except Error (α × σ)} {s : σ} {b : α × σ} (h : f s = .ok b)
    (g : α → β) : (g <$> write f).outcome s = (.ok (g b.1), b.2) := by
  show (StoreM.outcome (EStateM.map g (write f))) s = _
  unfold outcome EStateM.map write
  rw [h]

theorem outcome_map_write_error {f : σ → Except Error (α × σ)} {s : σ} {e : Error}
    (h : f s = .error e) (g : α → β) : (g <$> write f).outcome s = (.error e, s) := by
  show (StoreM.outcome (EStateM.map g (write f))) s = _
  unfold outcome EStateM.map write
  rw [h]

end StoreM

end Durable
