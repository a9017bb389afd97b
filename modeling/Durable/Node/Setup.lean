import Durable.Node.Basic

/-!
# Setting up nodes

A node is built from a store and settings. Without a store there is nothing to work on, and a
reaper that never pauses would let no time pass.
-/

namespace Durable

/-- Why a node cannot be built. -/
inductive SetupError where
  | noStore
  | noReaperInterval
  deriving DecidableEq, Repr

/-- The wording of a refusal. -/
def SetupError.message : SetupError → String
  | noStore => "persistence is required"
  | noReaperInterval => "reaper_interval must be positive"

/-- What a node is built from. -/
structure NodeSetup (σ : Type) where
  store : σ
  settings : Settings
  /-- How often the reaper looks. -/
  reaperIntervalMs : Nat
  reaperIntervalMs_pos : 0 < reaperIntervalMs

namespace NodeSetup

variable {σ : Type}

/-- How often the reaper looks if nothing else is said. -/
def defaultReaperIntervalMs : Nat := 1000

/-- Checks what a node is to be built from. A missing store is reported first. -/
def check (store : Option σ) (settings : Settings) (reaperIntervalMs : Nat) :
    Except SetupError (NodeSetup σ) :=
  match store with
  | none => .error .noStore
  | some store =>
    if h : 0 < reaperIntervalMs then .ok ⟨store, settings, reaperIntervalMs, h⟩
    else .error .noReaperInterval

end NodeSetup

namespace Node

variable {σ : Type}

/-- A node over a store with no service running. -/
def initial (clock : Clock) (settings : Settings) (store : σ) : Node σ :=
  { clock
    world := { history := freshHistory settings clock.now store }
    service := .ofSettings settings.timer }

/-- A node with all its services started. -/
def started [Store σ] (clock : Clock) (setup : NodeSetup σ) : Except Error (Node σ) :=
  let n := initial clock setup.settings setup.store
  match n.startUp setup.settings setup.reaperIntervalMs with
  | (.ok (), n) => .ok n
  | (.error e, _) => .error e

end Node

end Durable
