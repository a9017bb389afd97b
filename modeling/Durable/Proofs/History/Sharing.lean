import Durable.Proofs.History.Coherence

/-!
# Shared stores

Clients read executions and commit what they have built on them, in any order and however old what
they have read may be. A commit is done if and only if nothing was committed to its execution since
the read on which it was built; so what was committed is neither lost nor overwritten.
-/

namespace Durable

open Relation ExecutionState Transition

/-! ### Clients of a shared store -/

/-- Something that a client has done, and what came of it. -/
inductive Act where
  | read (client : Nat) (key : ExecutionKey) (found : Option ExecutionState)
  | commit (client : Nat) (key : ExecutionKey) (tx : Transition) (result : Except Error Int)

namespace Act

/-- Whether the act was a commit to the execution under `key` that was done. -/
def lands (key : ExecutionKey) : Act → Bool
  | commit _ k _ (.ok _) => k = key
  | _ => false

/-- The events that the act has put behind the log under `key`. -/
def landed (key : ExecutionKey) : Act → List Event
  | commit _ k tx (.ok _) => if k = key then tx.events else []
  | _ => []

end Act

/-- A store that clients share, and what they have done so far, oldest first. -/
structure Shared where
  store : Memory
  past : List Act := []

namespace Shared

/-- A client reads the state under a key. -/
def read (w : Shared) (client : Nat) (key : ExecutionKey) : Shared :=
  { w with past := w.past ++ [.read client key (w.store.state? key)] }

/-- A client commits what it has built on a state that it found under a key. -/
def commit (w : Shared) (client : Nat) (key : ExecutionKey) (tx : Transition) : Shared :=
  let (result, store) := StoreM.outcome (History.submit tx) w.store
  { store, past := w.past ++ [.commit client key tx result] }

/-- One step of one client. A client may commit whatever it can build on any of its reads. -/
inductive Step (w : Shared) : Shared → Prop
  | read (client : Nat) (key : ExecutionKey) : Step w (w.read client key)
  | commit {client : Nat} {key : ExecutionKey} {found : Option ExecutionState} {tx : Transition}
    (seen : .read client key found ∈ w.past) (built : Built key found tx) (dirty : tx.isDirty) :
    Step w (w.commit client key tx)

/-- How many commits were done to the execution under a key. -/
def commits (past : List Act) (key : ExecutionKey) : Nat :=
  past.countP (Act.lands key)

end Shared

/-- What a commit of a transition does that is done: it was built on what is stored, its events
    come behind the log, the version goes up by one, and no other execution is touched. -/
structure Lands (m : Memory) (key : ExecutionKey) (found : Option ExecutionState)
    (tx : Transition) (v : Int) (m' : Memory) : Prop where
  current : m.state? key = found
  version : v = (m.record key).version + 1
  record : m'.record key = ⟨m.log key ++ tx.events, some { tx.state with version := v }⟩
  others : ∀ k, k ≠ key → m'.record k = m.record k

namespace Memory

/-! ### What a read is worth -/

/-- What holds of a state that was found under a key `n` commits ago. -/
structure Remembers (m : Memory) (key : ExecutionKey) (found : Option ExecutionState) (n : Nat) :
    Prop where
  /-- It was in step with some log. -/
  coherent : ∃ events, (ExecutionRecord.mk events found).Coherent key
  version : (m.record key).version = (ExecutionRecord.mk [] found).version + n
  current : n = 0 → m.state? key = found

variable {m : Memory} {key : ExecutionKey} {found : Option ExecutionState} {n : Nat}
  {tx : Transition}

theorem Coherent.remembers (h : m.Coherent) (key : ExecutionKey) :
    m.Remembers key (m.state? key) 0 where
  coherent := ⟨m.log key, h.records key⟩
  version := by
    unfold ExecutionRecord.version state?
    simp
  current _ := rfl

theorem Remembers.of_record {m' : Memory} (h : m.Remembers key found n)
    (hm : m'.record key = m.record key) : m'.Remembers key found n where
  coherent := h.coherent
  version := by
    rw [hm]
    exact h.version
  current hn := by
    unfold state?
    rw [hm]
    exact h.current hn

theorem Remembers.succ {m' : Memory} (h : m.Remembers key found n)
    (hm : (m'.record key).version = (m.record key).version + 1) :
    m'.Remembers key found (n + 1) where
  coherent := h.coherent
  version := by
    rw [hm, h.version]
    omega
  current hn := absurd hn (Nat.succ_ne_zero n)

theorem outcome_submit (tx : Transition) (m : Memory) :
    StoreM.outcome (History.submit tx) m =
      match m.commit tx.state.key tx.events (History.lastBefore tx) tx.state tx.state.version with
      | .ok (v, m') => (.ok v, m')
      | .error e => (.error e, m) := by
  change StoreM.outcome (StoreM.write fun m =>
    m.commit tx.state.key tx.events (History.lastBefore tx) tx.state tx.state.version) m = _
  unfold StoreM.outcome StoreM.write
  dsimp only
  cases m.commit tx.state.key tx.events (History.lastBefore tx) tx.state tx.state.version <;> rfl

/-- What is built on a state that is in step with a log carries on from both. -/
theorem Coherent.version_built {events : List Event}
    (h : (ExecutionRecord.mk events found).Coherent key) (built : Built key found tx) :
    tx.state.version = (ExecutionRecord.mk [] found).version := by
  rw [(h.built built).1.version]
  cases found <;> rfl

/-- Where nothing was committed since the read, a commit is done. -/
theorem Remembers.submit (hm : m.Coherent) (h : m.Remembers key found 0)
    (built : Built key found tx) :
    StoreM.outcome (History.submit tx) m =
      (.ok ((m.record key).version + 1),
        m.committed key tx.events tx.state (m.record key).version) := by
  obtain rfl := h.current rfl
  obtain ⟨trail, keyed⟩ := (hm.records key).built built
  have hversion : tx.state.version = (m.record key).version := by
    rw [Coherent.version_built (hm.records key) built]
    rfl
  have hnext := (hm.records key).follows.1.nextEventId
  have hlast : (m.record key).lastEventId = History.lastBefore tx := by
    rw [lastBefore_eq trail, lastEventId_of_numbered (hm.records key).numbered]
    unfold ExecutionState.lastEventId
    exact (Int.sub_eq_iff_eq_add.mpr hnext).symm
  rw [outcome_submit, keyed, hversion,
    commit_eq_ok_iff.mpr ⟨hlast, contiguous_of_trail trail key, rfl, rfl, rfl⟩]

/-- Where something was committed since the read, a commit is refused. -/
theorem Remembers.submit_outdated (h : m.Remembers key found n) (hn : n ≠ 0)
    (built : Built key found tx) :
    ∃ entity expected actual, StoreM.outcome (History.submit tx) m =
      (.error (.optimisticLockConflict entity expected actual), m) := by
  obtain ⟨events, hc⟩ := h.coherent
  obtain ⟨trail, keyed⟩ := hc.built built
  have hversion := Coherent.version_built hc built
  rw [outcome_submit]
  cases hcommit : m.commit tx.state.key tx.events (History.lastBefore tx) tx.state
    tx.state.version with
  | ok r =>
    obtain ⟨-, -, hsame, -, -⟩ := commit_eq_ok_iff.mp hcommit
    rw [keyed, hversion, h.version] at hsame
    omega
  | error e =>
    rcases commit_eq_error (contiguous_of_trail trail _) hcommit with rfl | rfl
    · exact ⟨_, _, _, rfl⟩
    · exact ⟨_, _, _, rfl⟩

end Memory

/-! ### Interleavings -/

namespace Shared

/-- What holds of a shared store at any time, if it was `m` when the clients came. -/
structure Serial (m : Memory) (w : Shared) : Prop where
  coherent : w.store.Coherent
  log : ∀ key, w.store.log key = m.log key ++ w.past.flatMap (Act.landed key)
  version : ∀ key, (w.store.record key).version = (m.record key).version + commits w.past key
  reads : ∀ (before after : List Act) (client : Nat) (key : ExecutionKey)
    (found : Option ExecutionState), w.past = before ++ .read client key found :: after →
    w.store.Remembers key found (commits after key)

variable {m : Memory} {w w' : Shared}

theorem serial_begin (h : m.Coherent) : Serial m { store := m } where
  coherent := h
  log key := by simp
  version key := by simp [commits]
  reads before after client key found hpast := by simp at hpast

theorem commits_snoc (past : List Act) (a : Act) (key : ExecutionKey) :
    commits (past ++ [a]) key = commits past key + if a.lands key then 1 else 0 := by
  unfold commits
  rw [List.countP_append, List.countP_singleton]

/-- What has been read is remembered across an act that does not reach the store. -/
theorem Serial.idle (h : Serial m w) {a : Act} (lands : ∀ key, a.lands key = false)
    (landed : ∀ key, a.landed key = [])
    (reads : ∀ client key found, a = .read client key found → w.store.Remembers key found 0) :
    Serial m { w with past := w.past ++ [a] } where
  coherent := h.coherent
  log key := by
    rw [List.flatMap_append, List.flatMap_singleton, landed key, List.append_nil]
    exact h.log key
  version key := by
    rw [commits_snoc, lands key]
    exact h.version key
  reads before after client key found hpast := by
    rcases snoc_eq_split hpast with ⟨rfl, -, hread⟩ | ⟨rest, rfl, hrest⟩
    · exact reads client key found hread
    · rw [commits_snoc, lands key]
      exact h.reads _ _ _ _ _ hrest

/-- A commit that is done makes every read of its execution older, and no other. -/
theorem Serial.land (h : Serial m w) {client : Nat} {key : ExecutionKey} {tx : Transition}
    (built : Built key (w.store.state? key) tx) (v : Int) :
    Serial m
      { store := w.store.committed key tx.events tx.state (w.store.record key).version
        past := w.past ++ [.commit client key tx (.ok v)] } where
  coherent := h.coherent.committed built
  log k := by
    have hlog := h.log k
    unfold Memory.log at hlog ⊢
    rw [List.flatMap_append, List.flatMap_singleton, ← List.append_assoc, ← hlog,
      Memory.record_committed]
    by_cases hk : key = k
    · simp [hk, Act.landed]
    · simp [hk, Act.landed]
  version k := by
    rw [commits_snoc, Memory.record_committed]
    by_cases hk : key = k
    · subst hk
      have hversion := h.version key
      simp only [Act.lands, decide_true, ↓reduceIte, ExecutionRecord.version, Option.map_some,
        Option.getD_some] at hversion ⊢
      omega
    · simp only [hk, Act.lands, decide_false, Bool.false_eq_true, ↓reduceIte]
      exact h.version k
  reads before after c k found hpast := by
    rcases snoc_eq_split hpast with ⟨-, -, hread⟩ | ⟨rest, rfl, hrest⟩
    · cases hread
    · have hread := h.reads _ _ _ _ _ hrest
      rw [commits_snoc]
      -- only what was read of this execution is one commit older now
      by_cases hk : key = k
      · subst hk
        simp only [Act.lands, decide_true, ↓reduceIte]
        apply hread.succ
        rw [Memory.record_committed, if_pos rfl]
        rfl
      · simp only [hk, Act.lands, decide_false, Bool.false_eq_true, ↓reduceIte]
        apply hread.of_record
        rw [Memory.record_committed, if_neg hk]

/-- Every step of a client keeps the account of what has happened right. -/
theorem Serial.step (h : Serial m w) (hstep : w.Step w') : Serial m w' := by
  cases hstep with
  | read client key =>
    refine h.idle (fun _ => rfl) (fun _ => rfl) fun c k found hread => ?_
    cases hread
    exact h.coherent.remembers key
  | @commit client key found tx seen built dirty =>
    obtain ⟨before, after, hpast⟩ := List.append_of_mem seen
    have hread := h.reads _ _ _ _ _ hpast
    unfold Shared.commit
    by_cases hn : commits after key = 0
    · rw [hn] at hread
      rw [hread.submit h.coherent built]
      apply h.land
      rw [hread.current rfl]
      exact built
    · obtain ⟨entity, expected, actual, hrefused⟩ := hread.submit_outdated hn built
      rw [hrefused]
      exact h.idle (fun _ => rfl) (fun _ => rfl) fun _ _ _ hread => by cases hread

theorem serial_of_steps (hm : m.Coherent)
    (reached : ReflTransGen Step { store := m } w) : Serial m w := by
  induction reached with
  | refl => exact serial_begin hm
  | tail _ hstep ih => exact ih.step hstep

/-- Clients come to whatever store a run has left and take steps in any order. Then every log is
    the one they found with the events of the commits that were done behind it, and versions count
    these commits. What is built on any read so far can be committed if and only if no commit was
    done to its execution since that read; a commit that is refused is a conflict and changes
    nothing. -/
theorem commits_are_serial (h : History Memory) (requests : List (Instant × Request))
    {w : Shared} (reached : ReflTransGen Step { store := (h.emptied.run requests).store } w) :
    (∀ key, w.store.log key =
        (h.emptied.run requests).store.log key ++ w.past.flatMap (Act.landed key)
      ∧ (w.store.record key).version =
        ((h.emptied.run requests).store.record key).version + commits w.past key)
    ∧ ∀ (before after : List Act) (client : Nat) (key : ExecutionKey)
        (found : Option ExecutionState) (tx : Transition),
      w.past = before ++ .read client key found :: after → Built key found tx → tx.isDirty →
      let r := StoreM.outcome (History.submit tx) w.store
      ((∃ v, r.1 = .ok v) ↔ ∀ a ∈ after, a.lands key = false)
        ∧ (∀ v, r.1 = .ok v → Lands w.store key found tx v r.2)
        ∧ ∀ e, r.1 = .error e →
          (∃ entity expected actual, e = .optimisticLockConflict entity expected actual)
            ∧ r.2 = w.store := by
  have hw := serial_of_steps (History.coherent_run h requests) reached
  refine ⟨fun key => ⟨hw.log key, hw.version key⟩, ?_⟩
  intro before after client key found tx hpast built dirty r
  have hread := hw.reads _ _ _ _ _ hpast
  have hnone : commits after key = 0 ↔ ∀ a ∈ after, a.lands key = false := by
    unfold commits
    simp only [List.countP_eq_zero, Bool.not_eq_true]
  by_cases hn : commits after key = 0
  · rw [hn] at hread
    have hr : r = _ := hread.submit hw.coherent built
    obtain rfl := hread.current rfl
    rw [hr]
    refine ⟨⟨fun _ => hnone.mp hn, fun _ => ⟨_, rfl⟩⟩, fun v hv => ?_, fun e he => ?_⟩
    · cases hv
      refine ⟨rfl, rfl, ?_, fun k hk => ?_⟩
      · rw [Memory.record_committed, if_pos rfl]
        rfl
      · rw [Memory.record_committed, if_neg hk.symm]
    · cases he
  · obtain ⟨entity, expected, actual, hrefused⟩ := hread.submit_outdated hn built
    have hr : r = _ := hrefused
    rw [hr]
    refine ⟨⟨fun ⟨v, hv⟩ => ?_, fun hall => absurd (hnone.mpr hall) hn⟩, fun v hv => ?_,
      fun e he => ?_⟩
    · cases hv
    · cases hv
    · cases he
      exact ⟨⟨_, _, _, rfl⟩, rfl⟩

/-- Of two clients that start the same execution the later one is refused. -/
theorem second_start_is_refused :
    let key : ExecutionKey := ⟨"acme", "wf-1", "r-1"⟩
    let tx := ((begun { key } ⟨0, 0⟩ 1 10000).record
      (.executionStarted ⟨"order", "orders", [], 0, none, ""⟩)).scheduleWorkflowTask
    let both := (({ store := {} } : Shared).read 1 key).read 2 key
    (∃ v, (StoreM.outcome (History.submit tx) both.store).1 = .ok v)
      ∧ ∃ e, (StoreM.outcome (History.submit tx) (both.commit 1 key tx).store).1 = .error e := by
  intro key tx both
  have hstart : (begun { key } ⟨0, 0⟩ 1 10000).start ⟨"order", "orders", [], none, none, ""⟩
      = .ok tx := rfl
  have built : Built key none tx := .start (by decide) hstart
  have reached : ReflTransGen Step { store := (History.quiet.emptied.run []).store } both :=
    (ReflTransGen.single (.read 1 key)).tail (.read 2 key)
  have hfirst := (commits_are_serial History.quiet [] reached).2 [] [.read 2 key none] 1 key none tx
    rfl built rfl
  obtain ⟨v, hv⟩ := hfirst.1.mpr (by simp [Act.lands])
  refine ⟨⟨v, hv⟩, ?_⟩
  have seen : Act.read 1 key none ∈ both.past := List.mem_cons_self
  have hsecond := (commits_are_serial History.quiet [] (reached.tail (.commit seen built rfl))).2
    [.read 1 key none] [.commit 1 key tx (StoreM.outcome (History.submit tx) both.store).1]
    2 key none tx rfl built rfl
  cases hres : (StoreM.outcome (History.submit tx) (both.commit 1 key tx).store).1 with
  | error e => exact ⟨e, rfl⟩
  | ok v' =>
    have hlands := hsecond.1.mp ⟨v', hres⟩ _ List.mem_cons_self
    rw [hv] at hlands
    simp [Act.lands] at hlands

end Shared

end Durable
