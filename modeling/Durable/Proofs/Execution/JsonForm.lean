import Durable.Execution.JsonForm
import Durable.Proofs.Event.JsonForm

/-!
# States read back from JSON

A state that a machine can hold, with its times on the calendar, is read back from its JSON text.
-/

namespace Durable

open Json

variable {κ ν α : Type}

/-! ### Maps and records -/

/-- A record is read from the values of its fields. -/
theorem Json.readRecord?_record {names : List String} {members : List (String × Json)}
    (hnames : members.map (·.1) = names) (hnodup : names.Nodup) (read : Slots → Option α) :
    readRecord? names read (record members) = read ⟨false, members.map fun m => some m.2⟩ := by
  rw [readRecord?, ← hnames, strictSlots?_record (hnames ▸ hnodup), Option.bind_some]

/-- The digits of a number stand for themselves between quotes. -/
theorem Json.escape_intDigits (n : Int) : escape (Text.intDigits n) = Text.intDigits n := by
  have hplain : ∀ b, BeginsNumber b → escapeByte b = [b] := by
    intro b hb
    rcases hb with rfl | hb
    · rfl
    · have hall : ∀ n < 256, Text.isDigit (UInt8.ofNat n) →
          escapeByte (UInt8.ofNat n) = [UInt8.ofNat n] := by
        decide +kernel
      have hdigit := hall b.toNat b.toNat_lt
      rw [UInt8.ofNat_toNat] at hdigit
      exact hdigit hb
  have hall := intDigits_all n
  generalize Text.intDigits n = bytes at hall ⊢
  induction bytes with
  | nil => rfl
  | cons b bytes ih =>
    rw [escape, List.flatMap_cons, hplain b (hall b List.mem_cons_self), ← escape,
      ih fun c hc => hall c (List.mem_cons_of_mem b hc)]
    rfl

theorem Json.rawInt64?_intDigits {n : Int} (h : fitsInt64 n) :
    rawInt64? (Text.intDigits n) = some n := by
  have hvalue : (literalInt? (Text.intDigits n)).filter fitsInt64 = some n := by
    rw [literalInt?_intDigits, Option.filter_some, if_pos h]
  by_cases hneg : n < 0
  · have hdigits : Text.intDigits n = 0x2D :: Text.natDigits n.natAbs := if_pos hneg
    rcases Text.natDigits_cases n.natAbs with ⟨hzero, -⟩ | ⟨-, b, more, hnat, -, hb⟩
    · omega
    · rw [hdigits, hnat] at hvalue ⊢
      unfold rawInt64?
      split
      · exact absurd (List.cons.inj ‹_ :: _ = _›).1 (by decide)
      · exact absurd (List.cons.inj (List.cons.inj ‹_ :: _ = _›).2).1 hb
      · exact hvalue
  · have hdigits : Text.intDigits n = Text.natDigits n.natAbs := if_neg hneg
    rcases Text.natDigits_cases n.natAbs with ⟨-, hnat⟩ | ⟨-, b, more, hnat, hdigit, hb⟩
    · rw [hdigits, hnat] at hvalue ⊢
      exact hvalue
    · have hminus : b ≠ 0x2D := fun heq => absurd (heq ▸ hdigit) (by decide)
      rw [hdigits, hnat] at hvalue ⊢
      unfold rawInt64?
      split
      · exact absurd (List.cons.inj ‹_ :: _ = _›).1 hb
      · exact absurd (List.cons.inj ‹_ :: _ = _›).1 hminus
      · exact hvalue

theorem Json.entries?_map {name : κ → List UInt8} {readName : List UInt8 → Option κ}
    {write : ν → Json} {read : Json → Option ν} {entries : List (κ × ν)}
    (hname : ∀ e ∈ entries, readName (name e.1) = some e.1)
    (hread : ∀ e ∈ entries, read (write e.2) = some e.2) :
    (Json.map name write entries).entries? readName read = some entries := by
  refine (mapM_map_eq_pure id fun e he => ?_).trans (congrArg some entries.map_id)
  show (do
    let k ← readName (name e.1)
    let v ← read (write e.2)
    pure (k, v)) = some e
  rw [hname e he, hread e he]
  rfl

@[simp] theorem Json.Written.map {name : κ → List UInt8} {write : ν → Json}
    (hname : ∀ k, ∃ bytes, name k = escape bytes) (hwrite : ∀ v, Written (write v))
    (entries : List (κ × ν)) : Written (Json.map name write entries) := by
  refine .obj (fun m hm => ?_) (fun m hm => ?_)
  · obtain ⟨e, -, rfl⟩ := List.mem_map.mp hm
    exact hname e.1
  · obtain ⟨e, -, rfl⟩ := List.mem_map.mp hm
    exact hwrite e.2

/-! ### Parts of a state -/

@[simp] theorem ExecutionKey.written_toJson (key : ExecutionKey) : Written key.toJson :=
  .record (by simp)

theorem ExecutionKey.ofJson?_toJson (key : ExecutionKey) :
    ExecutionKey.ofJson? key.toJson = some key := by
  rw [ofJson?, toJson, readRecord?_record]
  · simp only [List.map_cons, List.map_nil, required, text?_text, Option.bind_eq_bind,
      Option.bind_some, Option.pure_def]
  · rfl
  · decide

theorem Status.ofName?_name (status : Status) : Status.ofName? status.name = some status := by
  cases status <;> decide

theorem Instant.opt?_toJson {t : Option Instant} (h : ∀ s ∈ t, s.IsValid) :
    (Json.opt Instant.toJson t).opt? Instant.ofJson? = some t :=
  opt?_opt (fun _ => text_ne_null _) fun s hs => (h s hs).ofJson?_toJson

theorem Json.opt?_int {n : Option Int} (h : ∀ m ∈ n, fitsInt64 m) :
    (Json.opt Json.int n).opt? Json.int64? = some n :=
  opt?_opt int_ne_null fun m hm => int64?_int (h m hm)

theorem Json.opt?_text (s : Option String) : (Json.opt Json.text s).opt? Json.text? = some s :=
  opt?_opt text_ne_null fun s _ => text?_text s

theorem Json.opt?_nat {n : Option Nat} (h : ∀ m ∈ n, fitsUInt32 m) :
    (Json.opt Json.nat n).opt? Json.uint32? = some n :=
  opt?_opt nat_ne_null fun m hm => uint32?_nat (h m hm)

namespace ExecutionInfo

/-- Whether a machine can hold the general part of a state. -/
structure Fits (info : ExecutionInfo) : Prop where
  executionTimeoutMs : fitsInt64 info.executionTimeoutMs
  startTime : ∀ t ∈ info.startTime, t.IsValid
  closeTime : ∀ t ∈ info.closeTime, t.IsValid
  lastUpdateTime : ∀ t ∈ info.lastUpdateTime, t.IsValid
  lastEventTaskId : fitsInt64 info.lastEventTaskId
  signalCount : fitsInt64 info.signalCount

@[simp] theorem written_toJson (info : ExecutionInfo) : Written info.toJson :=
  .record (by simp)

theorem Fits.ofJson?_toJson {info : ExecutionInfo} (h : info.Fits) :
    ofJson? info.toJson = some info := by
  have hstatus : (Json.text info.status.name).variant?.bind Status.ofName?
      = some info.status := by
    rw [show (Json.text info.status.name).variant? = some info.status.name from
      rawText?_escape _, Option.bind_some, Status.ofName?_name]
  rw [ofJson?, toJson, readRecord?_record]
  · simp only [List.map_cons, List.map_nil, required, Json.optional, hstatus, text?_text,
      int64?_int h.executionTimeoutMs, Json.opt?_text, Instant.opt?_toJson h.startTime,
      Instant.opt?_toJson h.closeTime, Instant.opt?_toJson h.lastUpdateTime,
      int64?_int h.lastEventTaskId, int64?_int h.signalCount, Option.bind_eq_bind,
      Option.bind_some, Option.pure_def]
  · rfl
  · decide

end ExecutionInfo

namespace PendingActivity

/-- Whether a machine can hold a pending node. -/
structure Fits (a : PendingActivity) : Prop where
  scheduledEventId : fitsInt64 a.scheduledEventId
  priority : ∀ n ∈ a.priority, fitsUInt32 n
  startToCloseTimeoutMs : fitsInt64 a.startToCloseTimeoutMs
  scheduledTime : a.scheduledTime.IsValid
  startedEventId : ∀ n ∈ a.startedEventId, fitsInt64 n
  attempt : fitsInt32 a.attempt

@[simp] theorem written_toJson (a : PendingActivity) : Written a.toJson :=
  .record (by simp)

theorem Fits.ofJson?_toJson {a : PendingActivity} (h : a.Fits) : ofJson? a.toJson = some a := by
  rw [ofJson?, toJson, readRecord?_record]
  · simp only [List.map_cons, List.map_nil, required, Json.optional, text?_text,
      int64?_int h.scheduledEventId, Json.opt?_nat h.priority,
      int64?_int h.startToCloseTimeoutMs, h.scheduledTime.ofJson?_toJson,
      Json.opt?_int h.startedEventId, Json.opt?_text, int32?_int h.attempt, Option.bind_eq_bind,
      Option.bind_some, Option.pure_def]
  · rfl
  · decide

end PendingActivity

namespace PendingTimer

/-- Whether a machine can hold a pending timer. -/
structure Fits (t : PendingTimer) : Prop where
  startedEventId : fitsInt64 t.startedEventId
  fireTime : t.fireTime.IsValid

@[simp] theorem written_toJson (t : PendingTimer) : Written t.toJson :=
  .record (by simp)

theorem Fits.ofJson?_toJson {t : PendingTimer} (h : t.Fits) : ofJson? t.toJson = some t := by
  rw [ofJson?, toJson, readRecord?_record]
  · simp only [List.map_cons, List.map_nil, required, text?_text, int64?_int h.startedEventId,
      h.fireTime.ofJson?_toJson, Option.bind_eq_bind, Option.bind_some, Option.pure_def]
  · rfl
  · decide

end PendingTimer

namespace PendingChild

/-- Whether a machine can hold a pending child. -/
def Fits (c : PendingChild) : Prop :=
  fitsInt64 c.initiatedEventId

@[simp] theorem written_toJson (c : PendingChild) : Written c.toJson :=
  .record (by simp)

theorem Fits.ofJson?_toJson {c : PendingChild} (h : c.Fits) : ofJson? c.toJson = some c := by
  rw [ofJson?, toJson, readRecord?_record]
  · simp only [List.map_cons, List.map_nil, required, text?_text, int64?_int h,
      ExecutionKey.ofJson?_toJson, Option.bind_eq_bind, Option.bind_some, Option.pure_def]
  · rfl
  · decide

end PendingChild

namespace PendingWorkflowTask

/-- Whether a machine can hold a pending workflow task. -/
structure Fits (t : PendingWorkflowTask) : Prop where
  scheduledEventId : fitsInt64 t.scheduledEventId
  startedEventId : ∀ n ∈ t.startedEventId, fitsInt64 n

@[simp] theorem written_toJson (t : PendingWorkflowTask) : Written t.toJson :=
  .record (by simp)

theorem Fits.ofJson?_toJson {t : PendingWorkflowTask} (h : t.Fits) :
    ofJson? t.toJson = some t := by
  rw [ofJson?, toJson, readRecord?_record]
  · simp only [List.map_cons, List.map_nil, required, Json.optional, text?_text,
      int64?_int h.scheduledEventId, Json.opt?_int h.startedEventId, Json.opt?_text,
      Option.bind_eq_bind, Option.bind_some, Option.pure_def]
  · rfl
  · decide

end PendingWorkflowTask

namespace BufferedSignal

/-- Whether a machine can hold a buffered signal. -/
def Fits (s : BufferedSignal) : Prop :=
  s.receivedAt.IsValid

@[simp] theorem written_toJson (s : BufferedSignal) : Written s.toJson :=
  .record (by simp [Json.bytes])

theorem Fits.ofJson?_toJson {s : BufferedSignal} (h : s.Fits) : ofJson? s.toJson = some s := by
  have hbytes : (Json.bytes s.input).list? Json.byte? = some s.input :=
    list?_list fun b _ => byte?_nat b
  rw [ofJson?, toJson, readRecord?_record]
  · simp only [List.map_cons, List.map_nil, required, text?_text, hbytes,
      Instant.IsValid.ofJson?_toJson h, Option.bind_eq_bind, Option.bind_some, Option.pure_def]
  · rfl
  · decide

end BufferedSignal

/-! ### States -/

namespace ExecutionState

/-- Whether a machine can hold a state, its times on the calendar. -/
structure Fits (s : ExecutionState) : Prop where
  info : s.info.Fits
  nextEventId : fitsInt64 s.nextEventId
  version : fitsInt64 s.version
  activities : ∀ entry ∈ s.activities.toList, fitsInt64 entry.1 ∧ entry.2.Fits
  timers : ∀ entry ∈ s.timers.toList, entry.2.Fits
  children : ∀ entry ∈ s.children.toList, fitsInt64 entry.1 ∧ entry.2.Fits
  workflowTask : ∀ task ∈ s.workflowTask, task.Fits
  bufferedSignals : ∀ signal ∈ s.bufferedSignals, signal.Fits

theorem Fits.ofJson?_toJson {s : ExecutionState} (h : s.Fits) : ofJson? s.toJson = some s := by
  have hactivities := entries?_map (fun e he => rawInt64?_intDigits (h.activities e he).1)
    fun e he => (h.activities e he).2.ofJson?_toJson
  have htimers : (Json.map (fun id => escape (Text.utf8 id)) PendingTimer.toJson
      s.timers.toList).entries? rawText? PendingTimer.ofJson? = some s.timers.toList :=
    entries?_map (fun e _ => rawText?_escape e.1) fun e he => (h.timers e he).ofJson?_toJson
  have hchildren := entries?_map (fun e he => rawInt64?_intDigits (h.children e he).1)
    fun e he => (h.children e he).2.ofJson?_toJson
  have htask : (Json.opt PendingWorkflowTask.toJson s.workflowTask).opt?
      PendingWorkflowTask.ofJson? = some s.workflowTask :=
    opt?_opt (fun _ => record_ne_null _) fun task hmem => (h.workflowTask task hmem).ofJson?_toJson
  have hsignals : (Json.list BufferedSignal.toJson s.bufferedSignals).list? BufferedSignal.ofJson?
      = some s.bufferedSignals :=
    list?_list fun signal hmem => (h.bufferedSignals signal hmem).ofJson?_toJson
  rw [ofJson?, toJson, readRecord?_record]
  · simp only [List.map_cons, List.map_nil, required, Json.optional, ExecutionKey.ofJson?_toJson,
      h.info.ofJson?_toJson, int64?_int h.nextEventId, int64?_int h.version, hactivities, htimers,
      hchildren, htask, hsignals, ofList_toList, Option.bind_eq_bind, Option.bind_some,
      Option.pure_def]
  · rfl
  · decide

theorem written_toJson (s : ExecutionState) : Written s.toJson := by
  have hids : ∀ n, ∃ bytes, Text.intDigits n = escape bytes := fun n =>
    ⟨_, (escape_intDigits n).symm⟩
  have hnames : ∀ id, ∃ bytes, escape (Text.utf8 id) = escape bytes := fun id => ⟨_, rfl⟩
  exact .record (by simp [hids, hnames])

/-- A state is read back from its text. -/
theorem Fits.ofJsonBytes?_toJsonBytes {s : ExecutionState} (h : s.Fits) :
    ofJsonBytes? s.toJsonBytes = some s := by
  rw [ofJsonBytes?, toJsonBytes, (written_toJson s).parse?_render, Option.bind_some,
    h.ofJson?_toJson]

end ExecutionState

end Durable
