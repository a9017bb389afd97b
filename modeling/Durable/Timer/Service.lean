import Std.Data.ExtTreeSet
import Durable.Time.Clock
import Durable.Timer.Firing

/-!
# The timer service

A scanner looks for due timers in every interval and puts them into a channel; processors take
them out and fire them. The scanner waits while the channel is full. A timer is in flight from the
moment it is offered to the channel until its firing is over, and is not offered again meanwhile.

A firing goes on until it has to wait; what happens at one moment happens in the order in which the
waiting began.
-/

namespace Durable

/-- Where timers are reported to. -/
class TimerHandler (ω : Type) where
  /-- Reports a timer at an instant. -/
  timerFired (now : Instant) (key : TimerKey) : StateM ω CallResult

/-- The firing of a timer, and until when it waits. -/
structure Firing where
  key : TimerKey
  phase : FiringPhase := .reading
  wakeAt : Nat := 0
  /-- The place of its waiting in the order of all waiting. -/
  order : Nat := 0
  deriving DecidableEq, Repr

namespace Firing

variable {ω : Type} [Store ω] [TimerHandler ω]

/-- One step of a firing; a report is made if it is due. -/
def step (s : TimerSettings) (now : Instant) (f : Firing) : StateM ω Firing := do
  let result ← match f.phase with
    | .calling .. => TimerHandler.timerFired now f.key
    | _ => pure .ok
  let phase ← FiringPhase.step s now f.key result f.phase
  pure { f with phase }

/-- Goes on until the firing is over or has to wait, for at most `fuel` steps. -/
def runWithin (s : TimerSettings) (clock : Clock) : (fuel : Nat) → Firing → StateM ω Firing
  | 0, f => pure f
  | fuel + 1, f => do
    let f ← f.step s clock.now
    let delay := f.phase.delay s
    if f.phase.isOver then pure f
    else if 0 < delay then pure { f with wakeAt := clock.elapsed + delay }
    else runWithin s clock fuel f

/-- Goes on until the firing is over or has to wait. Three steps belong to a report, three more to
    reading, claiming and rolling back. -/
def run (s : TimerSettings) (clock : Clock) (f : Firing) : StateM ω Firing :=
  runWithin s clock (3 * FiringPhase.attempts s + 3) f

/-- Goes on until the firing is over, as if no time went by in waiting. -/
def runThrough (s : TimerSettings) (clock : Clock) (f : Firing) : StateM ω Firing :=
  runWithin { s with claimLockMs := 0, backoffMs := 0 } clock
    (3 * FiringPhase.attempts s + 3) f

end Firing

/-- What the scanner is at. -/
inductive ScannerPhase where
  /-- It waits for its next look, since the `order`-th waiting. -/
  | waiting (nextLook order : Nat)
  /-- It offers a timer to the channel, with others behind it. -/
  | sending (timer : Timer) (rest : List Timer) (nextLook : Nat)
  | stopped
  deriving DecidableEq, Repr

/-- How far a service has come in its life. -/
inductive Lifecycle where
  | idle
  | running
  | stopped
  deriving DecidableEq, Repr

/-- Scanner, channel and processors. -/
structure TimerService where
  settings : TimerSettings
  registryShards : Nat
  /-- The shards looked at, all if there is none. -/
  owned : Std.ExtTreeSet Nat
  lifecycle : Lifecycle := .idle
  scanner : ScannerPhase := .stopped
  channel : List Timer := []
  /-- The number of processors that wait for a timer. -/
  idle : Nat := 0
  /-- The firings that processors are at. -/
  busy : List Firing := []
  inflight : Std.ExtTreeSet TimerKey := ∅
  /-- How many times anything began to wait. -/
  waits : Nat := 0

namespace TimerService

variable {ω : Type} [Store ω] [TimerHandler ω]

/-- A service that has not been started. -/
def ofSettings (settings : TimerSettings) : TimerService :=
  { settings
    registryShards := max settings.shards 1
    owned := .ofList settings.ownedShards }

/-- How many timers the channel holds. -/
def capacity (s : TimerService) : Nat := max s.settings.queueCapacity 1

/-- The number of processors. -/
def processors (s : TimerService) : Nat := max s.settings.concurrency 1

/-- Whether the scanner looks for timers. -/
def isRunning (s : TimerService) : Bool := s.lifecycle = .running

/-- The shards that are looked at, ascending. -/
def ownedShards (s : TimerService) : List Nat :=
  if s.owned.isEmpty then List.range s.registryShards else s.owned.toList

/-! ### The channel -/

/-- Offers the next timer that is not in flight; behind the last the scanner waits. -/
def offerNext (s : TimerService) (nextLook : Nat) : List Timer → TimerService
  | [] => { s with scanner := .waiting nextLook s.waits, waits := s.waits + 1 }
  | t :: rest =>
    if t.key ∈ s.inflight then s.offerNext nextLook rest
    else
      { s with
        inflight := s.inflight.insert t.key
        scanner := .sending t rest nextLook }

/-- Puts the offered timer into the channel if there is room. -/
def push? (s : TimerService) : Option TimerService :=
  match s.scanner with
  | .sending t rest nextLook =>
    if s.channel.length < s.capacity then
      some ({ s with channel := s.channel ++ [t] }.offerNext nextLook rest)
    else none
  | _ => none

/-- A processor takes the first timer out of the channel. -/
def receive? (s : TimerService) : Option (Firing × TimerService) :=
  match s.channel with
  | [] => none
  | timer :: rest =>
    if s.idle = 0 then none
    else some ({ key := timer.key }, { s with channel := rest, idle := s.idle - 1 })

/-- A processor puts down a firing: it waits with it, or is idle again if it is over. -/
def putDown (s : TimerService) (f : Firing) : TimerService :=
  if f.phase.isOver then
    { s with idle := s.idle + 1, inflight := s.inflight.erase f.key }
  else { s with busy := s.busy ++ [{ f with order := s.waits }], waits := s.waits + 1 }

/-- A processor takes up the firing that began to wait at a place in the order. -/
def takeUp? (s : TimerService) (order : Nat) : Option (Firing × TimerService) :=
  (s.busy.find? (·.order = order)).map fun f =>
    (f, { s with busy := s.busy.filter (·.order ≠ order) })

/-! ### Looking for timers -/

/-- The due timers of some shards, shard by shard. -/
def dueIn (batch : Nat) (now : Instant) : (shards : List Nat) → StoreM ω (List Timer)
  | [] => pure []
  | shard :: rest => do
    let due ← Store.dueTimers shard now batch
    let others ← dueIn batch now rest
    pure (due ++ others)

/-- The due timers of the shards that are looked at. -/
def scan (s : TimerService) (now : Instant) : StoreM ω (List Timer) :=
  dueIn s.settings.batchSize now s.ownedShards

/-- Fires timers one after another, counting those that were reported. The first error ends it. -/
def fireEach (s : TimerService) (clock : Clock) :
    (timers : List Timer) → StateM ω (Except Error Nat)
  | [] => pure (.ok 0)
  | timer :: rest => do
    let f ← Firing.run s.settings clock { key := timer.key }
    match f.phase.answer with
    | .error e => pure (.error e)
    | .ok outcome => do
      let others ← fireEach s clock rest
      pure (others.map fun k => if outcome = .fired then k + 1 else k)

/-- Fires all due timers of the shards that are looked at; how many were reported. -/
def fireDue (s : TimerService) (clock : Clock) : StateM ω (Except Error Nat) := do
  match ← StoreM.outcome (s.scan clock.now) with
  | .error e => pure (.error e)
  | .ok due => s.fireEach clock due

/-- When the scanner looks next if it looks at `now`, having meant to look at `planned`. A look
    more than five milliseconds late does not shift those that follow. -/
def lookAfter (s : TimerService) (planned now : Nat) : Nat :=
  let interval := s.settings.scanIntervalMs
  if planned + 5 < now then now + interval - (now - planned) % interval else planned + interval

/-- The scanner looks. -/
def look (s : TimerService) (clock : Clock) (planned : Nat) : StateM ω TimerService := do
  let next := s.lookAfter planned clock.elapsed
  match ← StoreM.outcome (s.scan clock.now) with
  | .ok due => pure (s.offerNext next due)
  | .error _ => pure (s.offerNext next [])

/-! ### Running -/

/-- The scanner goes on until it has to wait, for at most `fuel` steps. -/
def runScanner (clock : Clock) : (fuel : Nat) → TimerService → StateM ω TimerService
  | 0, s => pure s
  | fuel + 1, s =>
    match s.scanner with
    | .waiting nextLook _ =>
      if nextLook ≤ clock.elapsed then do runScanner clock fuel (← s.look clock nextLook)
      else pure s
    | .sending .. =>
      match s.push? with
      | some s => runScanner clock fuel s
      | none => pure s
    | .stopped => pure s

/-- Processors take timers out of the channel while there are both; `fuel` is the number of timers
    in it. -/
def serve (clock : Clock) : (fuel : Nat) → TimerService → StateM ω TimerService
  | 0, s => pure s
  | fuel + 1, s =>
    match s.receive? with
    | none => pure s
    | some (f, s) => do serve clock fuel (s.putDown (← f.run s.settings clock))

/-- More steps than the scanner takes at one moment. -/
def turns (s : TimerService) : Nat :=
  16 * (s.settings.batchSize * s.ownedShards.length + 2)

/-- Scanner and processors take turns until all have to wait, for at most `fuel` turns. -/
def settleWithin (clock : Clock) : (fuel : Nat) → TimerService → StateM ω TimerService
  | 0, s => pure s
  | fuel + 1, s => do
    let scanned ← runScanner clock s.turns s
    let served ← serve clock scanned.channel.length scanned
    if served.push?.isSome then settleWithin clock fuel served else pure served

/-- Scanner and processors go on until all have to wait. -/
def settle (s : TimerService) (clock : Clock) : StateM ω TimerService :=
  settleWithin clock s.turns s

/-- The places in the order of all waiting that come up by `now`, in that order. -/
def dueOrders (s : TimerService) (now : Nat) : List Nat :=
  let busy := (s.busy.filter (·.wakeAt ≤ now)).map (·.order)
  match s.scanner with
  | .waiting nextLook order =>
    if nextLook ≤ now then (order :: busy).mergeSort (· ≤ ·) else busy.mergeSort (· ≤ ·)
  | _ => busy.mergeSort (· ≤ ·)

/-- What began to wait at a place in the order goes on. A processor that is done with its timer
    takes the next one unless others have waited for that before it. -/
def wake (clock : Clock) (s : TimerService) (order : Nat) : StateM ω TimerService :=
  match s.takeUp? order with
  | some (f, s) => do
    let done := s.putDown (← f.run s.settings clock)
    if s.idle = 0 then serve clock done.channel.length done else pure done
  | none =>
    match s.scanner with
    | .waiting .. => runScanner clock s.turns s
    | _ => pure s

/-- Everything goes on whose time has come. -/
def runDue (s : TimerService) (clock : Clock) : StateM ω TimerService := do
  let s ← (s.dueOrders clock.elapsed).foldlM (wake clock) s
  s.settle clock

/-- The millisecond in which something is next to go on. -/
def nextWake? (s : TimerService) : Option Nat :=
  let busy := s.busy.map (·.wakeAt)
  match s.scanner with
  | .waiting nextLook _ => (nextLook :: busy).min?
  | _ => busy.min?

/-! ### Starting and stopping -/

/-- Starts scanner and processors. A running service stays as it is, a stopped one stays stopped. -/
def start (s : TimerService) (clock : Clock) : Except Error TimerService :=
  match s.lifecycle with
  | .running => .ok s
  | .stopped => .error (.serviceNotRunning "timer service (stopped)")
  | .idle =>
    .ok
      { s with
        lifecycle := .running
        scanner :=
          if s.settings.scanIntervalMs = 0 then .stopped else .waiting clock.elapsed s.waits
        waits := s.waits + 1
        idle := s.processors }

/-- Stops the scanner. The processors still fire what is in the channel. -/
def stop (s : TimerService) : Except Error TimerService :=
  if s.lifecycle = .running then
    let s := { s with lifecycle := .stopped }
    match s.scanner with
    | .sending t _ _ => .ok { s with scanner := .stopped, inflight := s.inflight.erase t.key }
    | _ => .ok { s with scanner := .stopped }
  else .error (.serviceNotRunning "timer service")

/-- Whether nothing is left to fire. -/
def isDrained (s : TimerService) : Bool := s.channel.isEmpty && s.busy.isEmpty

end TimerService

end Durable
