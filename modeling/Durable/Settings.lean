import Durable.Event.Encoding
import Durable.Text.Blank

/-!
# Settings

How a node is set up, and how the settings are read from named variables. A variable that is not
set leaves the default.
-/

namespace Durable

/-- How tasks are matched with workers. -/
structure MatchingSettings where
  partitions : Nat := 8
  replicas : Nat := 64
  priorityLevels : Nat := 10
  defaultPriority : Nat := 5
  /-- How long a polled task may stay in flight, in milliseconds. -/
  taskTimeoutMs : Nat := 300000
  deriving DecidableEq, Repr

/-- How timers are scanned for and fired. -/
structure TimerSettings where
  shards : Nat := 16
  scanIntervalMs : Nat := 1000
  batchSize : Nat := 100
  concurrency : Nat := 4
  queueCapacity : Nat := 256
  claimLockMs : Nat := 30000
  maxFireDelayMs : Nat := 5000
  maxAttempts : Nat := 3
  backoffMs : Nat := 100
  /-- The shards scanned, all if none is given. -/
  ownedShards : List Nat := []
  deriving DecidableEq, Repr

/-- How a node is set up. -/
structure Settings where
  /-- Where the database is; in memory if not given. -/
  databaseUrl : Option String := none
  encoding : Encoding := .json
  matching : MatchingSettings := {}
  timer : TimerSettings := {}
  deriving DecidableEq, Repr

/-- Why settings are refused: a variable and what its value must be. -/
structure SettingsError where
  name : String
  demand : String
  deriving DecidableEq, Repr

namespace SettingsError

/-- The wording of a refusal. -/
def message (e : SettingsError) : String :=
  "invalid value for " ++ e.name ++ ": " ++ e.demand

end SettingsError

namespace Settings

/-- What a word of thirty-two bits is below. -/
def wordBound32 : Nat := 0x100000000

/-- What a word of sixty-four bits is below. -/
def wordBound64 : Nat := 0x10000000000000000

/-- A number below `bound` under a name, or its default. -/
def number (env : String → Option String) (name : String) (bound fallback : Nat) :
    Except SettingsError Nat :=
  match env name with
  | none => .ok fallback
  | some value =>
    match Text.boundedNat? bound (Text.utf8 (Text.trimmed value)) with
    | some n => .ok n
    | none => .error ⟨name, "must be a non-negative integer"⟩

/-- A number that must not be zero. -/
def positive (env : String → Option String) (name : String) (bound fallback : Nat) :
    Except SettingsError Nat := do
  let n ← number env name bound fallback
  if n = 0 then .error ⟨name, "must be a positive integer"⟩ else .ok n

/-- The settings that variables ask for. The first bad value, in the order of the settings, is
    reported. -/
def read (env : String → Option String) : Except SettingsError Settings := do
  let databaseUrl := (env "KESTREL_DATABASE_URL").filter fun url =>
    !(Text.trimBlank url.toList).isEmpty
  let encoding ← match Encoding.parse ((env "KESTREL_EVENT_ENCODING").getD "json") with
    | .ok encoding => .ok encoding
    | .error _ => .error ⟨"KESTREL_EVENT_ENCODING", "must be 'json' or 'proto'"⟩
  let partitions ← positive env "KESTREL_NUM_PARTITIONS" wordBound32 8
  let replicas ← positive env "KESTREL_RING_REPLICAS" wordBound32 64
  let priorityLevels ← positive env "KESTREL_PRIORITY_LEVELS" wordBound32 10
  let shards ← positive env "KESTREL_TIMER_SHARDS" wordBound32 16
  let scanIntervalMs ← positive env "KESTREL_TIMER_SCAN_INTERVAL_MS" wordBound64 1000
  let batchSize ← positive env "KESTREL_TIMER_BATCH_SIZE" wordBound64 100
  let concurrency ← positive env "KESTREL_TIMER_CONCURRENCY" wordBound64 4
  let maxFireDelayMs ← number env "KESTREL_TIMER_MAX_FIRE_DELAY_MS" wordBound64 5000
  let taskTimeoutSecs ← positive env "KESTREL_TASK_DEFAULT_TIMEOUT_SECS" wordBound64 300
  pure
    { databaseUrl
      encoding
      matching :=
        { partitions, replicas, priorityLevels
          defaultPriority := priorityLevels / 2
          taskTimeoutMs := taskTimeoutSecs * 1000 }
      timer := { shards, scanIntervalMs, batchSize, concurrency, maxFireDelayMs } }

end Settings

end Durable
