import Mathlib.Data.List.Induction
import Durable.Proofs.History.FamilyTurn
import Durable.Proofs.History.LogShape

/-!
# Children that report back

A child is started with the written form of its parent's key as its link. When it ends, the link is
read back, and the parent drops the first entry that it has for the child. So what a parent can rely
on depends on whether its key can be read back and on who was there when the child was initiated.
-/

namespace Durable

open Relation ExecutionState Transition

/-! ### Who is there -/

/-- Whether everybody who is waited for is there, and under the event that initiated it. -/
structure Folk.Peopled (f : Folk) : Prop where
  keyed : ∀ key v, f key = some v → ∀ (i : Int) (x : PendingChild), v.children[i]? = some x →
    x.initiatedEventId = i
  there : ∀ key v, f key = some v → ∀ (i : Int) (x : PendingChild), v.children[i]? = some x →
    (f x.execution).isSome

theorem Folk.peopled_empty : Folk.Peopled fun _ => none :=
  ⟨fun _ _ h => (nomatch h), fun _ _ h => (nomatch h)⟩

variable {f f' : Folk} {r : Request} {answer : Option Outcome} {parent child : ExecutionKey}
  {i : Int} {v v' w w' : Kin}

theorem Folk.Peopled.turn (hf : f.Peopled) (turn : FamilyTurn f r answer f') : f'.Peopled := by
  refine ⟨fun key v' hv' i x hx => ?_, fun key v' hv' i x hx => ?_⟩
  · rcases turn.entry hv' hx with ⟨v, hv, hold⟩ | ⟨v, init, hid, -⟩
    · exact hf.keyed key v hv i x hold
    · exact hid
  · rcases turn.entry hv' hx with ⟨v, hv, hold⟩ | ⟨v, init, hid, present⟩
    · obtain ⟨u, hu⟩ := Option.isSome_iff_exists.mp (hf.there key v hv i x hold)
      obtain ⟨u', hu', -⟩ := turn.kept hu
      rw [hu']
      rfl
    · exact present

/-! ### Bonds -/

namespace Kin

/-- Whether a parent keeps track of a child that it has started under an event: the entry of that
    event is for the child and the first one for it, and while the parent runs it is there until the
    end of the child is reported. -/
structure Tracks (v : Kin) (child : ExecutionKey) (i : Int) : Prop where
  own : ∀ x, v.children[i]? = some x → x.execution = child
  first : ∀ (j : Int) (x : PendingChild), v.children[j]? = some x → x.execution = child → i ≤ j
  known : v.running → i ∈ v.children ∨ i ∈ v.reports

theorem Tracks.awaiting (h : v.Tracks child i) (running : v.running) {x : PendingChild}
    (fresh : ∀ j, j ∈ v.children ∨ j ∈ v.reports → j < x.initiatedEventId) :
    (v.awaiting x).Tracks child i := by
  have hlt := fresh i (h.known running)
  refine ⟨fun y hy => ?_, fun j y hy hchild => ?_, fun _ => ?_⟩
  · rcases child_of_awaiting hy with ⟨hid, -⟩ | hold
    · omega
    · exact h.own y hold
  · rcases child_of_awaiting hy with ⟨hid, -⟩ | hold
    · omega
    · exact h.first j y hold hchild
  · exact (h.known running).imp (fun hmem => Std.ExtTreeMap.mem_insert.mpr (Or.inr hmem)) id

theorem Tracks.reported (h : v.Tracks child i) (j : Int) : (v.reported j).Tracks child i := by
  refine ⟨fun y hy => ?_, fun k y hy hchild => ?_, fun running => ?_⟩
  · exact h.own y (child_of_reported hy).2
  · exact h.first k y (child_of_reported hy).2 hchild
  · by_cases hj : j = i
    · exact Or.inr (List.mem_append_right _ (List.mem_singleton.mpr hj.symm))
    · refine (h.known running).imp (fun hmem => ?_) (List.mem_append_left _)
      exact Std.ExtTreeMap.mem_erase.mpr ⟨by simpa using hj, hmem⟩

theorem tracks_ended (v : Kin) (child : ExecutionKey) (i : Int) : v.ended.Tracks child i :=
  ⟨fun _ hy => absurd hy no_child_of_ended, fun _ _ hy => absurd hy no_child_of_ended,
    (nomatch ·)⟩

/-- The entry that is dropped at the end of a child is the one under which it was started. -/
theorem Tracks.entryFor? (h : v.Tracks child i) {x : PendingChild}
    (hx : v.children[i]? = some x) : v.entryFor? child = some x := by
  refine find?_values_of_least hx (decide_eq_true (h.own x hx)) fun j y hy hchild => ?_
  have hle := h.first j y hy (of_decide_eq_true hchild)
  exact Std.isGE_compare.mpr hle

end Kin

theorem FolkStep.tracks (step : FolkStep f f') (hv : f parent = some v)
    (h : v.Tracks child i) : ∃ v', f' parent = some v' ∧ v'.Tracks child i := by
  have hsame {k : ExecutionKey} {u : Option Kin} (apart : parent ≠ k) :
      ∃ v', Function.update f k u parent = some v' ∧ v'.Tracks child i :=
    ⟨v, by rw [Function.update_of_ne apart, hv], h⟩
  cases step with
  | @born k _ absent =>
    refine hsame ?_
    rintro rfl
    rw [hv] at absent
    cases absent
  | @awaiting k u x found running fresh =>
    by_cases hk : parent = k
    · subst hk
      obtain rfl := Option.some.inj (hv.symm.trans found)
      exact ⟨_, Function.update_self .., h.awaiting running fresh⟩
    · exact hsame hk
  | @reported k u found j =>
    by_cases hk : parent = k
    · subst hk
      obtain rfl := Option.some.inj (hv.symm.trans found)
      exact ⟨_, Function.update_self .., h.reported j⟩
    · exact hsame hk
  | @ended k u found =>
    by_cases hk : parent = k
    · subst hk
      obtain rfl := Option.some.inj (hv.symm.trans found)
      exact ⟨_, Function.update_self .., v.tracks_ended child i⟩
    · exact hsame hk

theorem FamilyTurn.tracks (turn : FamilyTurn f r answer f') (hv : f parent = some v)
    (h : v.Tracks child i) : ∃ v', f' parent = some v' ∧ v'.Tracks child i := by
  have steps := turn.steps
  clear turn
  induction steps with
  | refl => exact ⟨v, hv, h⟩
  | tail _ step ih =>
    obtain ⟨u, hu, tracks⟩ := ih
    exact step.tracks hu tracks

/-- How a parent and a child that it has started under an event see each other from then on. -/
structure Bond (f : Folk) (parent child : ExecutionKey) (i : Int) (v w : Kin) : Prop where
  waits : f parent = some v
  started : f child = some w
  apart : parent ≠ child
  link : w.link = some parent.display
  tracks : v.Tracks child i
  /-- A child that has ended is not waited for, if it could tell. -/
  answers : parent.IsReadable → i ∈ v.children → w.running

/-- A bond lasts. As long as the end of the child is not reported by hand, it is reported at the end
    of the child and not before. -/
theorem Bond.turn (hf : f.Peopled) (hb : Bond f parent child i v w)
    (turn : FamilyTurn f r answer f') :
    ∃ v' w', Bond f' parent child i v' w'
      ∧ ((∀ status result, r ≠ .record parent (.closeChild i status result)) →
        (w.running → i ∉ v.reports) → (w'.running → i ∉ v'.reports)) := by
  obtain ⟨v', hv', tracks⟩ := turn.tracks hb.waits hb.tracks
  obtain ⟨w', hw', hlink, hback⟩ := turn.kept hb.started
  refine ⟨v', w', ⟨hv', hw', hb.apart, hlink.trans hb.link, tracks, ?_⟩, ?_⟩
  · intro readable pending
    obtain ⟨x, hx⟩ := Option.isSome_iff_exists.mp
      (Std.ExtTreeMap.mem_iff_isSome_getElem?.mp pending)
    rcases turn.entry hv' hx with ⟨u, hu, hold⟩ | ⟨u, init, hid, -⟩
    · obtain rfl := Option.some.inj (hb.waits.symm.trans hu)
      have running := hb.answers readable (Std.ExtTreeMap.mem_iff_isSome_getElem?.mpr
        (by rw [hold]; rfl))
      cases hstopped : w'.running with
      | true => rfl
      | false =>
        -- The child has just ended, so the entry was dropped.
        obtain ⟨-, -, htold⟩ := turn.stops hb.started running hw' hstopped
        have named : w.parent? = some parent :=
          ExecutionKey.bind_parse?_eq_some_iff.mpr ⟨hb.link, readable⟩
        have hentry := hb.tracks.entryFor? hold
        rcases htold parent v named hb.apart hb.waits with ⟨hnone, -⟩ | ⟨y, hy, hdropped⟩
        · rw [hentry] at hnone
          cases hnone
        · obtain rfl := Option.some.inj (hentry.symm.trans hy)
          obtain rfl := Option.some.inj (hv'.symm.trans hdropped)
          exact absurd (hf.keyed parent v hb.waits i x hold) (Kin.child_of_reported hx).1
    · obtain rfl := Option.some.inj (hb.waits.symm.trans init.found)
      have hlt := init.fresh i (hb.tracks.known init.running)
      omega
  · intro indirect unreported running reported
    rcases turn.report hb.waits hv' reported with
      hold | ⟨status, result, asked⟩ | ⟨x, hx, hid, u, hu, stopped⟩
    · exact unreported (hback running) hold
    · exact indirect status result asked
    · -- Who has ended is the child, since the entry was its own.
      obtain ⟨j, hj⟩ := mem_values.mp (List.mem_of_find?_eq_some hx)
      obtain rfl : j = i := (hf.keyed parent v hb.waits j x hj).symm.trans hid
      have hkey : x.execution = r.key := by simpa using List.find?_some hx
      rw [← hkey, hb.tracks.own x hj, hw'] at hu
      obtain rfl := Option.some.inj hu
      rw [running] at stopped
      cases stopped

/-- A bond begins where a child is initiated that is not there. -/
theorem FamilyTurn.bond {request : ChildRequest} {o : Outcome}
    (turn : FamilyTurn f (.record parent (.initiateChild request)) (some o) f')
    (hf : f.Peopled) (absent : f (request.key parent) = none) :
    ∃ e v w, o.events = [e] ∧ Bond f' parent (request.key parent) e.eventId v w
      ∧ w.running ∧ e.eventId ∉ v.reports := by
  -- An execution that is there and is asked to initiate a child does nothing else.
  have hinitiates {p : ExecutionKey} {v : Kin} {x : PendingChild}
      (init : Initiates f (.record parent (.initiateChild request)) (some o) p v x) :
      p = parent ∧ x.execution = request.key parent
        ∧ ∃ e, o.events = [e] ∧ e.eventId = x.initiatedEventId := by
    obtain ⟨request', heq, hx⟩ := init.asked
    cases heq
    obtain ⟨o', e, ho, hevents, hid⟩ := init.answered
    cases ho
    exact ⟨rfl, hx, e, hevents, hid⟩
  cases turn with
  | still uninitiated => exact absurd (uninitiated parent request rfl) (by simp)
  | starts asked _ => cases asked
  | closes asked _ _ _ => cases asked
  | ends closing _ _ _ => cases closing
  | reports closing _ _ _ _ _ _ _ => cases closing
  | initiates init present =>
    obtain ⟨rfl, hx, -⟩ := hinitiates init
    rw [hx, absent] at present
    cases present
  | @begets p v x init _ =>
    obtain ⟨rfl, hx, e, hevents, hid⟩ := hinitiates init
    have apart : p ≠ request.key p := by
      intro heq
      rw [← heq, init.found] at absent
      cases absent
    -- Nobody waits for who is not there.
    have hnone {j : Int} {y : PendingChild} (hy : v.children[j]? = some y) :
        y.execution ≠ request.key p := by
      intro heq
      have hthere := hf.there p v init.found j y hy
      rw [heq, absent] at hthere
      cases hthere
    have hself : (v.awaiting x).children[e.eventId]? = some x := by
      simp [Kin.awaiting, hid]
    refine ⟨e, v.awaiting x, .born (some p), hevents, ⟨?_, ?_, apart, rfl, ⟨?_, ?_, ?_⟩, ?_⟩, rfl, ?_⟩
    · rw [hx, Function.update_of_ne apart, Function.update_self]
    · rw [hx, Function.update_self]
    · intro y hy
      obtain rfl := Option.some.inj (hself.symm.trans hy)
      exact hx
    · intro j y hy hchild
      rcases Kin.child_of_awaiting hy with ⟨hj, -⟩ | hold
      · omega
      · exact absurd hchild (hnone hold)
    · intro _
      left
      rw [Std.ExtTreeMap.mem_iff_isSome_getElem?, hself]
      rfl
    · exact fun _ _ => rfl
    · intro hreported
      have hlt := init.fresh _ (Or.inr hreported)
      omega

/-! ### Runs -/

namespace History

theorem run_nil (h : History Memory) : h.run [] = h := rfl

theorem run_append (h : History Memory) (first second : List (Instant × Request)) :
    h.run (first ++ second) = (h.run first).run second :=
  List.foldl_append

theorem orderly_run (h : History Memory) (requests : List (Instant × Request)) :
    (h.emptied.run requests).store.Orderly fun _ => True :=
  run_preserves (P := fun h => h.store.Orderly fun _ => True) (fun _ _ => trivial)
    (fun _ _ _ ho step => step.orderly ho) requests (fun x _ => by cases x.2 <;> trivial)
    h.emptied Memory.orderly_empty

theorem folk_emptied (h : History Memory) : h.emptied.store.folk = fun _ => none := by
  funext key
  rw [Memory.folk_eq_none_iff]
  exact congrArg (·.state) (Memory.record_empty key)

/-- What holds where nothing is there and is kept by every turn, holds behind every run. -/
theorem folk_invariant {P : Folk → Prop} (initial : P fun _ => none)
    (kept : ∀ f f' r answer, P f → FamilyTurn f r answer f' → P f') (h : History Memory)
    (requests : List (Instant × Request)) : P (h.emptied.run requests).store.folk := by
  induction requests using List.reverseRecOn with
  | nil => exact (folk_emptied h).symm ▸ initial
  | append_singleton before x ih =>
    rw [run_append]
    exact kept _ _ _ _ ih (turn_perform (orderly_run h before) x.1 x.2)

theorem peopled_run (h : History Memory) (requests : List (Instant × Request)) :
    (h.emptied.run requests).store.folk.Peopled :=
  folk_invariant Folk.peopled_empty (fun _ _ _ _ hf turn => hf.turn turn) h requests

/-! ### Ends -/

variable {h : History Memory} {now : Instant} {q : Request} {s : ExecutionState} {status : Status}
  {result : List UInt8}

theorem exists_close {tx : Transition} (running : tx.state.isRunning) (a : Attributes) :
    ∃ tx', tx.close a = .ok tx' ∧ tx'.isDirty := by
  have hrequired : tx.requireRunning = .ok () := if_pos running
  unfold Transition.close
  rw [hrequired]
  dsimp only [bind, Except.bind]
  cases tx.state.info.parentExecution.bind ExecutionKey.parse? <;> exact ⟨_, rfl, rfl⟩

/-- What ends an execution that runs is built on its state and committed. -/
theorem exists_builds_of_ends (hs : h.store.state? q.key = some s) (running : s.isRunning)
    (closing : q.ends? = some (status, result)) (now : Instant) :
    ∃ tx, q.Builds (h.store.state? q.key) tx ∧ tx.isDirty
      ∧ perform now q h = (discard (commit now tx) : HistoryM Memory Unit)
        { h with nextTaskId := h.nextTaskId + 1 } := by
  rw [hs]
  have hclose := @exists_close (begun s now h.nextTaskId h.workflowTaskTimeoutMs) running
  cases q with
  | start | rebuild => cases closing
  | record key op =>
    obtain ⟨a, hop⟩ : ∃ a, op.buildRunning key (begun s now h.nextTaskId h.workflowTaskTimeoutMs)
        = (begun s now h.nextTaskId h.workflowTaskTimeoutMs).close a := by
      cases op with
      | complete | fail | terminate | timeOut => exact ⟨_, rfl⟩
      | _ => cases closing
    obtain ⟨tx, built, dirty⟩ := hclose a
    rw [← hop] at built
    have hbuild := buildRunning_eq_ok_iff.mpr ⟨running, built⟩
    have hrecord : History.record now key op h =
        commit now tx { h with nextTaskId := h.nextTaskId + 1 } := by
      unfold History.record
      rw [updateWith_run (by exact hs), hbuild]
    refine ⟨tx, .record hbuild, dirty, ?_⟩
    unfold perform
    dsimp only
    rw [discard_run, discard_run, hrecord]
  | fireTimer key timerId =>
    have htimer : timerId = executionTimeoutTimer := by
      by_contra hne
      rw [show (Request.fireTimer key timerId).ends? = none from if_neg hne] at closing
      cases closing
    obtain ⟨tx, built, dirty⟩ := hclose (.executionTimedOut ⟨s.info.executionTimeoutMs⟩)
    have hbuild : (begun s now h.nextTaskId h.workflowTaskTimeoutMs).fireTimer timerId = .ok tx :=
      (if_pos htimer).trans built
    refine ⟨tx, .fireTimer running hbuild, dirty, ?_⟩
    have hfire : History.fireTimer now key timerId h =
        commit now tx { h with nextTaskId := h.nextTaskId + 1 } := by
      unfold History.fireTimer
      have hstate : h.store.state? key = some s := hs
      rw [StoreM.bind_ok (attempt_state key h), Memory.state, hstate]
      simp only [running, Bool.not_true, Bool.false_eq_true, ↓reduceIte]
      rw [beginOn_run s now (·.fireTimer timerId) (commit now), hbuild]
    unfold perform
    dsimp only
    rw [discard_run, discard_run, hfire]

/-- What ends an execution that runs is not refused. -/
theorem exists_done_of_ends (hc : h.store.Coherent) (hs : h.store.state? q.key = some s)
    (running : s.isRunning) (closing : q.ends? = some (status, result)) (now : Instant) :
    ∃ tx o h', Done now h q tx o h' ∧ after (perform now q) h = tell now h' tx.followUps := by
  obtain ⟨tx, builds, dirty, hperform⟩ := exists_builds_of_ends hs running closing now
  obtain ⟨o, h', done, hdone⟩ := done_of_builds hc builds dirty now (h.nextTaskId + 1)
  refine ⟨tx, o, h', hdone, ?_⟩
  unfold after StoreM.outcome
  rw [hperform, discard_run, commit_run dirty done]

/-- What is left behind where the end of a child is reported to its parent. -/
structure EndReported (h : History Memory) (parent child : ExecutionKey) (i : Int)
    (status : Status) (result : List UInt8) (h' : History Memory) : Prop where
  ended : ∃ s, h'.store.state? child = some s ∧ s.status = status
  /-- One report is recorded, -/
  report : ∃ e rest, h'.store.log parent = h.store.log parent ++ e :: rest
    ∧ e.attributes = .childExecutionClosed ⟨i, status.name, result⟩
    ∧ ∀ d ∈ rest, d.attributes.endsChild? ≠ some i
  /-- the child is not waited for any more, and a worker is asked to look at it. -/
  heard : ∃ s, h'.store.state? parent = some s ∧ s.isRunning ∧ i ∉ s.children
    ∧ s.workflowTask.isSome

/-- Whoever has an entry for a child that ends and names it as its parent is told. -/
theorem endReported (hc : h.store.Coherent) (hs : h.store.state? q.key = some s)
    (running : s.isRunning) (closing : q.ends? = some (status, result))
    {parent : ExecutionKey} (named : s.parent? = some parent) (apart : parent ≠ q.key)
    {p : ExecutionState} {x : PendingChild} (hp : h.store.state? parent = some p)
    (entry : p.children.values.find? (·.execution = q.key) = some x) (now : Instant) :
    EndReported h parent q.key x.initiatedEventId status result (after (perform now q) h) := by
  obtain ⟨tx, o, h', done, hafter⟩ := exists_done_of_ends hc hs running closing now
  have hc' := done.coherent hc
  have hkey := ((hc.records q.key).of_some hs).1
  have hrecord := done.record hc
  obtain ⟨left, tells⟩ : tx.state.status = status
      ∧ tx.followUps = [.notifyParent parent q.key status.name result] := by
    have hdeals := done.builds.deals (h.store.log q.key)
    rw [hs] at hdeals
    cases hdeals with
    | aside _ _ hidden =>
      rw [Request.ends?_of_isPrivate hidden] at closing
      cases closing
    | initiates | closes => cases closing
    | ends closing' _ left tells =>
      obtain ⟨rfl, rfl⟩ := Prod.mk.inj (Option.some.inj (closing.symm.trans closing'))
      rw [named, hkey] at tells
      exact ⟨left, tells⟩
  have hparent : h'.store.record parent = h.store.record parent :=
    (hrecord parent).trans (if_neg (Ne.symm apart))
  have hp' : h'.store.state? parent = some p := (congrArg (·.state) hparent).trans hp
  obtain ⟨alive, tx', o', told⟩ := follow_notifyParent_of_entry hc' now status.name result hp' entry
  rw [hafter, tells]
  change EndReported _ _ _ _ _ _
    (after (follow now (.notifyParent parent q.key status.name result)) h')
  generalize after (follow now (.notifyParent parent q.key status.name result)) h' = h'' at told
  obtain ⟨-, ⟨t, -, ran, -, hfolk⟩, ⟨e, rest, hlog, report⟩, u, hu, asks⟩ := told.reported hc'
  refine ⟨?_, ⟨e, rest, ?_, report, ?_⟩, u, hu, ?_⟩
  · have hchild := (told.record hc' q.key).trans (if_neg apart)
    refine ⟨_, (congrArg (·.state) (hchild.trans ((hrecord q.key).trans (if_pos rfl)))), ?_⟩
    exact left
  · rw [hlog]
    exact congrArg (·.events ++ e :: rest) hparent
  · -- No end is reported twice.
    have honce : (h''.store.log parent).countP
        (fun e => e.attributes.endsChild? = some x.initiatedEventId) ≤ 1 :=
      ((told.coherent hc').records parent).follows.1.wellFormed.childEndsOnce _
    intro d hd hends
    have hlater : 0 < rest.countP fun e => e.attributes.endsChild? = some x.initiatedEventId :=
      List.countP_pos_iff.mpr ⟨d, hd, decide_eq_true hends⟩
    rw [hlog, List.countP_append, List.countP_cons_of_pos (by rw [report]; simp; rfl)] at honce
    omega
  · have hshown := Memory.folk_of_some hu
    rw [hfolk, Function.update_self] at hshown
    have hkin := Option.some.inj hshown
    refine ⟨(congrArg Kin.running hkin).symm.trans ran, ?_, asks⟩
    have hchildren : u.children = t.children.erase x.initiatedEventId :=
      (congrArg Kin.children hkin).symm
    rw [hchildren]
    simp

/-- What a parent whose key can be read back can rely on once a child was started for it. -/
structure ReportsOnce (h : History Memory) (parent child : ExecutionKey) (i : Int) : Prop where
  related : ∃ s, h.store.state? child = some s ∧ s.parent? = some parent
  atMostOnce : (h.store.log parent).countP (fun e => e.attributes.endsChild? = some i) ≤ 1
  notEarly : ∀ s, h.store.state? child = some s → s.isRunning →
    ∀ e ∈ h.store.log parent, e.attributes.endsChild? ≠ some i
  /-- Nothing stops the child but what ends it, -/
  lasting : ∀ (now : Instant) (q : Request) (s s' : ExecutionState),
    h.store.state? child = some s → s.isRunning →
    (after (perform now q) h).store.state? child = some s' → s'.isRunning = false →
    q.key = child ∧ q.ends?.isSome
  /-- and whatever ends it while the parent runs is reported. -/
  reported : ∀ (now : Instant) (q : Request) (status : Status) (result : List UInt8)
    (s p : ExecutionState), q.key = child → q.ends? = some (status, result) →
    h.store.state? child = some s → s.isRunning → h.store.state? parent = some p → p.isRunning →
    EndReported h parent child i status result (after (perform now q) h)

/-- A bond under which nothing was reported yet, unless the child has ended. -/
theorem reportsOnce_of_bond (ho : h.store.Orderly fun _ => True) (hf : h.store.folk.Peopled)
    {parent child : ExecutionKey} {i : Int} {v w : Kin} (readable : parent.IsReadable)
    (hb : Bond h.store.folk parent child i v w) (unreported : w.running → i ∉ v.reports) :
    ReportsOnce h parent child i := by
  have hc := ho.coherent
  obtain ⟨p, hp, rfl⟩ := Memory.folk_eq_some_iff.mp hb.waits
  obtain ⟨c, hchild, rfl⟩ := Memory.folk_eq_some_iff.mp hb.started
  have named : c.parent? = some parent :=
    ExecutionKey.bind_parse?_eq_some_iff.mpr ⟨hb.link, readable⟩
  refine ⟨⟨c, hchild, named⟩, (hc.records parent).follows.1.wellFormed.childEndsOnce i, ?_, ?_,
    ?_⟩
  · intro s hs running e he hends
    obtain rfl := Option.some.inj (hchild.symm.trans hs)
    exact unreported running (mem_reports.mpr ⟨e, he, hends⟩)
  · intro now q s s' hs running hs' stopped
    have hstops := (turn_perform ho now q).stops (Memory.folk_of_some hs) running
      (Memory.folk_of_some hs') stopped
    exact ⟨hstops.1, hstops.2.1⟩
  · rintro now q status result s p' rfl closing hs running hp' alive
    obtain rfl := Option.some.inj (hchild.symm.trans hs)
    obtain rfl := Option.some.inj (hp.symm.trans hp')
    have pending : i ∈ p.children := (hb.tracks.known alive).resolve_right (unreported running)
    obtain ⟨x, hx⟩ := Option.isSome_iff_exists.mp
      (Std.ExtTreeMap.mem_iff_isSome_getElem?.mp pending)
    obtain rfl := hf.keyed parent _ hb.waits i x hx
    exact endReported hc hs running closing named hb.apart hp (hb.tracks.entryFor? hx) now

/-- A bond lasts along a run, and so does that nothing was reported unless the child has ended. -/
theorem bond_run (h : History Memory) (before more : List (Instant × Request))
    {parent child : ExecutionKey} {i : Int} {v w : Kin}
    (hb : Bond (h.emptied.run before).store.folk parent child i v w) :
    ∃ v' w', Bond (h.emptied.run (before ++ more)).store.folk parent child i v' w'
      ∧ ((∀ x ∈ more, ∀ status result, x.2 ≠ .record parent (.closeChild i status result)) →
        (w.running → i ∉ v.reports) → (w'.running → i ∉ v'.reports)) := by
  induction more using List.reverseRecOn with
  | nil =>
    rw [List.append_nil]
    exact ⟨v, w, hb, fun _ unreported => unreported⟩
  | append_singleton more x ih =>
    obtain ⟨v₁, w₁, hb₁, hkept₁⟩ := ih
    have turn := turn_perform (orderly_run h (before ++ more)) x.1 x.2
    obtain ⟨v₂, w₂, hb₂, hkept₂⟩ := hb₁.turn (peopled_run h (before ++ more)) turn
    rw [← List.append_assoc, run_append]
    refine ⟨v₂, w₂, hb₂, fun indirect unreported => ?_⟩
    have hearlier := hkept₁ (fun y hy => indirect y (List.mem_append_left _ hy)) unreported
    exact hkept₂ (indirect x (List.mem_append_right _ List.mem_cons_self)) hearlier

/-- A bond begins behind a request that is not refused to initiate a child that is not there. -/
theorem bond_of_initiated (h : History Memory) (before : List (Instant × Request)) {now : Instant}
    {parent : ExecutionKey} {request : ChildRequest} {o : Outcome}
    (answered : answer? now (h.emptied.run before) (.record parent (.initiateChild request))
      = some o)
    (absent : (h.emptied.run before).store.state? (request.key parent) = none) :
    ∃ e v w, o.events = [e]
      ∧ Bond (h.emptied.run (before ++ [(now, .record parent (.initiateChild request))])).store.folk
        parent (request.key parent) e.eventId v w
      ∧ w.running ∧ e.eventId ∉ v.reports := by
  have turn := turn_perform (orderly_run h before) now (.record parent (.initiateChild request))
  rw [answered] at turn
  rw [run_append]
  exact turn.bond (peopled_run h before) (Memory.folk_eq_none_iff.mpr absent)

/-- A child that is initiated under a key under which nothing was is started, with the execution
    that initiates it as its parent. Whatever happens then, unless somebody else reports for it: its
    end is reported to the parent once if that still runs, not before it and not a second time. -/
theorem child_reports_back_once (h : History Memory) (before more : List (Instant × Request))
    {now : Instant} {parent : ExecutionKey} {request : ChildRequest} {o : Outcome}
    (plain : parent.IsPlain)
    (answered : answer? now (h.emptied.run before) (.record parent (.initiateChild request))
      = some o)
    (absent : (h.emptied.run before).store.state? (request.key parent) = none)
    (indirect : ∀ x ∈ more, ∀ i status result,
      x.2 ≠ .record parent (.closeChild i status result)) :
    let child := request.key parent
    let initiated := h.emptied.run (before ++ [(now, .record parent (.initiateChild request))])
    ∃ e, o.events = [e]
      ∧ (∃ s, initiated.store.state? child = some s ∧ s.isRunning ∧ s.parent? = some parent)
      ∧ ReportsOnce (initiated.run more) parent child e.eventId := by
  intro child initiated
  obtain ⟨e, v, w, hevents, hb, running, unreported⟩ := bond_of_initiated h before answered absent
  refine ⟨e, hevents, ?_, ?_⟩
  · obtain ⟨s, hs, rfl⟩ := Memory.folk_eq_some_iff.mp hb.started
    exact ⟨s, hs, running,
      ExecutionKey.bind_parse?_eq_some_iff.mpr ⟨hb.link, plain.isReadable⟩⟩
  · obtain ⟨v', w', hb', hkept⟩ := bond_run h _ more hb
    change ReportsOnce ((h.emptied.run _).run more) _ _ _
    rw [← run_append]
    exact reportsOnce_of_bond (orderly_run h _) (peopled_run h _) plain.isReadable hb'
      (hkept (fun x hx => indirect x hx e.eventId) fun _ => unreported)

/-- An execution that is to initiate a child. -/
def oneParent : List (Instant × Request) :=
  [(⟨0, 0⟩, .start ⟨"acme", "wf-1", "r-1"⟩ ⟨"order", "orders", [], none, none, ""⟩)]

/-- A child that is completed is reported with its result. -/
theorem completed_child_is_reported :
    let parent : ExecutionKey := ⟨"acme", "wf-1", "r-1"⟩
    let child : ExecutionKey := ⟨"acme", "wf-2", "r-2"⟩
    let h := quiet.emptied.run (oneParent ++
      [(⟨0, 0⟩, .record parent (.initiateChild ⟨"wf-2", "r-2", "payment", "", []⟩))])
    EndReported h parent child 3 .completed [1, 2] (after (perform ⟨1, 0⟩
      (.record child (.complete [1, 2]))) h) := by
  intro parent child h
  let request : ChildRequest := ⟨"wf-2", "r-2", "payment", "", []⟩
  have plain : parent.IsPlain := ⟨by decide, by decide, by decide⟩
  have hanswered : ((answer? ⟨0, 0⟩ (quiet.emptied.run oneParent)
      (.record parent (.initiateChild request))).map fun o => o.events.map (·.eventId))
        = some [3] := by
    decide +kernel
  obtain ⟨o, answered, hids⟩ := Option.map_eq_some_iff.mp hanswered
  have absent : (quiet.emptied.run oneParent).store.state? (request.key parent) = none := by
    decide +kernel
  obtain ⟨e, hevents, ⟨s, hs, running, -⟩, once⟩ :=
    child_reports_back_once quiet oneParent [] plain answered absent (fun x hx => nomatch hx)
  have hid : e.eventId = 3 := by
    rw [hevents] at hids
    simpa using hids
  rw [hid, run_nil] at once
  have hparent : ((h.store.state? parent).map (·.isRunning)) = some true := by decide +kernel
  obtain ⟨p, hp, alive⟩ := Option.map_eq_some_iff.mp hparent
  exact once.reported ⟨1, 0⟩ (.record child (.complete [1, 2])) .completed [1, 2] s p rfl rfl hs
    running hp alive

/-! ### Whom parents wait for -/

/-- Whoever is waited for was initiated by a request that was not refused. -/
theorem initiated_of_entry (h : History Memory) (requests : List (Instant × Request)) :
    ∀ {parent : ExecutionKey} {v : Kin} {i : Int} {x : PendingChild},
      (h.emptied.run requests).store.folk parent = some v → v.children[i]? = some x →
      ∃ before now request more o e,
        requests = before ++ (now, .record parent (.initiateChild request)) :: more
        ∧ answer? now (h.emptied.run before) (.record parent (.initiateChild request)) = some o
        ∧ o.events = [e] ∧ e.eventId = i ∧ x.execution = request.key parent := by
  induction requests using List.reverseRecOn with
  | nil =>
    intro parent v i x hv
    change h.emptied.store.folk parent = some v at hv
    rw [folk_emptied] at hv
    cases hv
  | append_singleton requests y ih =>
    intro parent v i x hv hx
    have turn := turn_perform (orderly_run h requests) y.1 y.2
    rw [run_append] at hv
    rcases turn.entry hv hx with ⟨u, hu, hold⟩ | ⟨u, init, hid, -⟩
    · obtain ⟨before, now, request, more, o, e, rfl, hanswer⟩ := ih hu hold
      exact ⟨before, now, request, more ++ [y], o, e, by simp, hanswer⟩
    · obtain ⟨request, hasked, hkey⟩ := init.asked
      obtain ⟨o, e, hanswer, hevents, heid⟩ := init.answered
      obtain ⟨now, q⟩ := y
      dsimp only at hasked hanswer
      subst hasked
      exact ⟨requests, now, request, [], o, e, rfl, hanswer, hevents, heid.trans hid, hkey⟩

/-- Who is there goes on to be there and to name the same parent. -/
theorem kept_run (h : History Memory) (before more : List (Instant × Request))
    {key : ExecutionKey} {v : Kin} (hv : (h.emptied.run before).store.folk key = some v) :
    ∃ v', (h.emptied.run (before ++ more)).store.folk key = some v' ∧ v'.link = v.link := by
  induction more using List.reverseRecOn with
  | nil =>
    rw [List.append_nil]
    exact ⟨v, hv, rfl⟩
  | append_singleton more x ih =>
    obtain ⟨u, hu, hlink⟩ := ih
    obtain ⟨v', hv', hlink', -⟩ :=
      (turn_perform (orderly_run h (before ++ more)) x.1 x.2).kept hu
    rw [← List.append_assoc, run_append]
    exact ⟨v', hv', hlink'.trans hlink⟩

/-- Whoever a parent waits for was initiated by it and is there. It runs and has this parent just if
    the key of the parent can be read back, and if nobody was there when it was initiated or who was
    there has this parent and still runs. -/
theorem awaited_child_can_report_iff (h : History Memory) (requests : List (Instant × Request))
    {parent : ExecutionKey} {p : ExecutionState} {i : Int} {x : PendingChild}
    (hp : (h.emptied.run requests).store.state? parent = some p)
    (pending : p.children[i]? = some x) :
    ∃ before now request more o e c,
      requests = before ++ (now, .record parent (.initiateChild request)) :: more
      ∧ answer? now (h.emptied.run before) (.record parent (.initiateChild request)) = some o
      ∧ o.events = [e] ∧ e.eventId = i ∧ x.execution = request.key parent
      ∧ (h.emptied.run requests).store.state? x.execution = some c
      ∧ ((c.isRunning ∧ c.parent? = some parent) ↔ parent.IsReadable
        ∧ ∀ c₀, (h.emptied.run before).store.state? x.execution = some c₀ →
          c₀.info.parentExecution = some parent.display ∧ c.isRunning) := by
  have hshown := Memory.folk_of_some hp
  obtain ⟨before, now, request, more, o, e, rfl, answered, hevents, rfl, hkey⟩ :=
    initiated_of_entry h requests hshown pending
  obtain ⟨w, hw⟩ := Option.isSome_iff_exists.mp
    ((peopled_run h _).there parent _ hshown e.eventId x pending)
  obtain ⟨c, hc, rfl⟩ := Memory.folk_eq_some_iff.mp hw
  refine ⟨before, now, request, more, o, e, c, rfl, answered, hevents, rfl, hkey, hc, ?_⟩
  have hnamed : c.parent? = some parent ↔
      c.info.parentExecution = some parent.display ∧ parent.IsReadable :=
    ExecutionKey.bind_parse?_eq_some_iff
  rw [hnamed]
  cases hc₀ : (h.emptied.run before).store.state? x.execution with
  | none =>
    rw [hkey] at hc₀ hw
    obtain ⟨e', v₁, w₁, hevents', hb, -, -⟩ := bond_of_initiated h before answered hc₀
    obtain rfl : e = e' := by simpa [hevents] using hevents'
    obtain ⟨v₂, w₂, hb₂, -⟩ := bond_run h _ more hb
    rw [List.append_assoc, List.singleton_append] at hb₂
    obtain rfl := Option.some.inj (hb₂.waits.symm.trans hshown)
    obtain rfl := Option.some.inj (hb₂.started.symm.trans hw)
    have hmem : e.eventId ∈ p.children :=
      Std.ExtTreeMap.mem_iff_isSome_getElem?.mpr (by rw [pending]; rfl)
    constructor
    · exact fun hreports => ⟨hreports.2.2, fun _ hnone => nomatch hnone⟩
    · exact fun hcan => ⟨hb₂.answers hcan.1 hmem, hb₂.link, hcan.1⟩
  | some c₀ =>
    obtain ⟨w', hw', hlink⟩ := kept_run h before
      ((now, .record parent (.initiateChild request)) :: more) (Memory.folk_of_some hc₀)
    obtain rfl := Option.some.inj (hw.symm.trans hw')
    have hsame : c.info.parentExecution = c₀.info.parentExecution := hlink
    rw [hsame]
    constructor
    · rintro ⟨running, named, readable⟩
      refine ⟨readable, fun c₁ hc₁ => ?_⟩
      cases hc₁
      exact ⟨named, running⟩
    · rintro ⟨readable, hcan⟩
      obtain ⟨named, running⟩ := hcan c₀ rfl
      exact ⟨running, named, readable⟩

/-- The request of the parent to start one child. -/
def oneChild : List (Instant × Request) :=
  oneParent ++ [(⟨0, 0⟩, .record ⟨"acme", "wf-1", "r-1"⟩
    (.initiateChild ⟨"wf-2", "r-2", "payment", "", []⟩))]

/-- Its child was not there, so it runs and can report. -/
theorem awaited_child_runs :
    let m := (quiet.emptied.run oneChild).store
    ∃ c, m.state? ⟨"acme", "wf-2", "r-2"⟩ = some c ∧ c.isRunning
      ∧ c.parent? = some ⟨"acme", "wf-1", "r-1"⟩ := by
  intro m
  have hentry : ((m.state? ⟨"acme", "wf-1", "r-1"⟩).bind fun p =>
      p.children[(3 : Int)]?.map (·.execution)) = some ⟨"acme", "wf-2", "r-2"⟩ := by
    decide +kernel
  obtain ⟨p, hp, hpending⟩ := Option.bind_eq_some_iff.mp hentry
  obtain ⟨x, hx, hkey⟩ := Option.map_eq_some_iff.mp hpending
  obtain ⟨before, now, request, more, o, e, c, hrequests, -, -, -, -, hc, hcan⟩ :=
    awaited_child_can_report_iff quiet oneChild hp hx
  rw [hkey] at hc hcan
  -- The only request of the run that initiates a child is the second one.
  have hbefore : before = oneParent := by
    unfold oneChild oneParent at hrequests
    rcases before with _ | ⟨y, _ | ⟨z, rest⟩⟩
    · cases hrequests
    · cases hrequests
      rfl
    · simp at hrequests
  have absent : (quiet.emptied.run before).store.state? ⟨"acme", "wf-2", "r-2"⟩ = none := by
    rw [hbefore]
    decide +kernel
  refine ⟨c, hc, hcan.mpr ⟨by decide, fun c₀ hc₀ => ?_⟩⟩
  rw [absent] at hc₀
  cases hc₀

/-- A parent with a slash in its run, whose child ends. -/
def slashedParent : List (Instant × Request) :=
  [(⟨0, 0⟩, .start ⟨"acme", "wf-1", "r/1"⟩ ⟨"order", "orders", [], none, none, ""⟩),
    (⟨0, 0⟩, .record ⟨"acme", "wf-1", "r/1"⟩
      (.initiateChild ⟨"wf-2", "r-2", "payment", "", []⟩)),
    (⟨0, 0⟩, .record ⟨"acme", "wf-2", "r-2"⟩ (.complete []))]

/-- It goes on waiting, though the child has ended and cannot report. -/
theorem slashed_parent_waits_in_vain :
    ¬ ∀ (requests : List (Instant × Request)) (parent : ExecutionKey) (p : ExecutionState) (i : Int)
      (x : PendingChild), (quiet.emptied.run requests).store.state? parent = some p →
      p.isRunning → p.children[i]? = some x →
      ∃ c, (quiet.emptied.run requests).store.state? x.execution = some c ∧ c.isRunning
        ∧ c.parent? = some parent := by
  intro hall
  let m := (quiet.emptied.run slashedParent).store
  have hentry : ((m.state? ⟨"acme", "wf-1", "r/1"⟩).bind fun p =>
      p.children[(3 : Int)]?.map fun x => (p.isRunning, x.execution))
        = some (true, ⟨"acme", "wf-2", "r-2"⟩) := by
    decide +kernel
  obtain ⟨p, hp, hpending⟩ := Option.bind_eq_some_iff.mp hentry
  obtain ⟨x, hx, hpair⟩ := Option.map_eq_some_iff.mp hpending
  obtain ⟨running, hkey⟩ := Prod.mk.inj hpair
  obtain ⟨c, hc, alive, -⟩ := hall slashedParent _ p 3 x hp running hx
  rw [hkey] at hc
  have hended : ((m.state? ⟨"acme", "wf-2", "r-2"⟩).map (·.isRunning)) = some false := by
    decide +kernel
  rw [show m.state? _ = some c from hc, Option.map_some, alive] at hended
  cases hended

end History

end Durable
