import Durable.Proofs.History.Kinship

/-!
# Turns of families

A request leaves all that kin see alone, or it is one of a few turns: an execution starts, a child
is initiated, an end is reported by hand, or an execution ends and its parent is told. `FamilyTurn`
lists them with everything that is known where they happen.
-/

namespace Durable

open Relation ExecutionState Transition

/-! ### Turns -/

/-- A parent initiates a child: what was asked, how it was answered and what was found. -/
structure Initiates (f : Folk) (r : Request) (answer : Option Outcome) (parent : ExecutionKey)
    (v : Kin) (x : PendingChild) : Prop where
  asked : ∃ request, r = .record parent (.initiateChild request)
    ∧ x.execution = request.key parent
  answered : ∃ o e, answer = some o ∧ o.events = [e] ∧ e.eventId = x.initiatedEventId
  found : f parent = some v
  running : v.running
  /-- No child has the id of the event yet. -/
  fresh : ∀ i, i ∈ v.children ∨ i ∈ v.reports → i < x.initiatedEventId

/-- What a request changes of what kin see. -/
inductive FamilyTurn (f : Folk) (r : Request) (answer : Option Outcome) : Folk → Prop
  | still (uninitiated : ∀ parent request, r = .record parent (.initiateChild request) →
      answer = none) : FamilyTurn f r answer f
  | starts {child : ExecutionKey} {request : StartRequest} (asked : r = .start child request)
    (absent : f child = none) :
    FamilyTurn f r answer (Function.update f child (some (.born request.parent)))
  | initiates {parent : ExecutionKey} {v : Kin} {x : PendingChild}
    (initiates : Initiates f r answer parent v x) (present : (f x.execution).isSome) :
    FamilyTurn f r answer (Function.update f parent (some (v.awaiting x)))
  | begets {parent : ExecutionKey} {v : Kin} {x : PendingChild}
    (initiates : Initiates f r answer parent v x) (absent : f x.execution = none) :
    FamilyTurn f r answer (Function.update (Function.update f parent (some (v.awaiting x)))
      x.execution (some (.born (some parent))))
  | closes {parent : ExecutionKey} {v : Kin} {i : Int} {status : String} {result : List UInt8}
    (asked : r = .record parent (.closeChild i status result)) (found : f parent = some v)
    (running : v.running) (pending : i ∈ v.children) :
    FamilyTurn f r answer (Function.update f parent (some (v.reported i)))
  | ends {v : Kin} {how : Status × List UInt8} (closing : r.ends? = some how)
    (found : f r.key = some v) (running : v.running)
    (unheard : ∀ parent w, v.parent? = some parent → parent ≠ r.key → f parent = some w →
      w.entryFor? r.key = none) :
    FamilyTurn f r answer (Function.update f r.key (some v.ended))
  | reports {parent : ExecutionKey} {v w : Kin} {how : Status × List UInt8} {x : PendingChild}
    (closing : r.ends? = some how) (found : f r.key = some v) (running : v.running)
    (named : v.parent? = some parent) (apart : parent ≠ r.key) (waits : f parent = some w)
    (alive : w.running) (entry : w.entryFor? r.key = some x) :
    FamilyTurn f r answer (Function.update (Function.update f r.key (some v.ended))
      parent (some (w.reported x.initiatedEventId)))

/-! ### What turns are made of -/

/-- One execution changes, seen by kin. -/
inductive FolkStep (f : Folk) : Folk → Prop
  | born {key : ExecutionKey} (parent : Option ExecutionKey) (absent : f key = none) :
    FolkStep f (Function.update f key (some (.born parent)))
  | awaiting {key : ExecutionKey} {v : Kin} {x : PendingChild} (found : f key = some v)
    (running : v.running)
    (fresh : ∀ i, i ∈ v.children ∨ i ∈ v.reports → i < x.initiatedEventId) :
    FolkStep f (Function.update f key (some (v.awaiting x)))
  | reported {key : ExecutionKey} {v : Kin} (found : f key = some v) (i : Int) :
    FolkStep f (Function.update f key (some (v.reported i)))
  | ended {key : ExecutionKey} {v : Kin} (found : f key = some v) :
    FolkStep f (Function.update f key (some v.ended))

section

variable {f f' : Folk} {r : Request} {answer : Option Outcome} {key : ExecutionKey} {v w : Kin}

/-- A turn is a step or two. -/
theorem FamilyTurn.steps (turn : FamilyTurn f r answer f') : ReflTransGen FolkStep f f' := by
  cases turn with
  | still _ => exact .refl
  | starts _ absent => exact .single (.born _ absent)
  | initiates init _ => exact .single (.awaiting init.found init.running init.fresh)
  | @begets parent v x init absent =>
    refine .tail (.single (.awaiting init.found init.running init.fresh)) (.born _ ?_)
    have apart : x.execution ≠ parent := by
      rintro rfl
      rw [init.found] at absent
      cases absent
    rw [Function.update_of_ne apart]
    exact absent
  | closes _ found _ _ => exact .single (.reported found _)
  | ends _ found _ _ => exact .single (.ended found)
  | reports _ found _ _ apart waits _ _ =>
    refine .tail (.single (.ended found)) (.reported ?_ _)
    rw [Function.update_of_ne apart]
    exact waits

/-- An execution that was there is there afterwards, names the same parent and does not run again. -/
theorem FolkStep.kept (step : FolkStep f f') (hv : f key = some v) :
    ∃ v', f' key = some v' ∧ v'.link = v.link ∧ (v'.running → v.running) := by
  cases step with
  | @born k parent absent =>
    have apart : key ≠ k := by
      rintro rfl
      rw [hv] at absent
      cases absent
    exact ⟨v, by rw [Function.update_of_ne apart, hv], rfl, id⟩
  | @awaiting k u x found _ _ | @reported k u found _ | @ended k u found =>
    by_cases hk : key = k
    · subst hk
      obtain rfl := Option.some.inj (hv.symm.trans found)
      refine ⟨_, Function.update_self .., rfl, fun running => ?_⟩
      first
      | exact running
      | cases running
    · exact ⟨v, by rw [Function.update_of_ne hk, hv], rfl, id⟩

theorem FamilyTurn.kept (turn : FamilyTurn f r answer f') (hv : f key = some v) :
    ∃ v', f' key = some v' ∧ v'.link = v.link ∧ (v'.running → v.running) := by
  have steps := turn.steps
  clear turn
  induction steps with
  | refl => exact ⟨v, hv, rfl, id⟩
  | tail _ step ih =>
    obtain ⟨u, hu, hlink, hrunning⟩ := ih
    obtain ⟨v', hv', hlink', hrunning'⟩ := step.kept hu
    exact ⟨v', hv', hlink'.trans hlink, hrunning ∘ hrunning'⟩

namespace Kin

variable {i : Int} {x y : PendingChild}

theorem child_of_awaiting (h : (v.awaiting y).children[i]? = some x) :
    (y.initiatedEventId = i ∧ y = x) ∨ v.children[i]? = some x := by
  simp only [awaiting, Std.ExtTreeMap.getElem?_insert, Std.compare_eq_iff_eq] at h
  split at h
  · rename_i hid
    exact Or.inl ⟨hid, Option.some.inj h⟩
  · exact Or.inr h

theorem child_of_reported {j : Int} (h : (v.reported j).children[i]? = some x) :
    j ≠ i ∧ v.children[i]? = some x := by
  simp only [reported, Std.ExtTreeMap.getElem?_erase, Std.compare_eq_iff_eq] at h
  split at h
  · cases h
  · rename_i hne
    exact ⟨hne, h⟩

theorem no_child_of_born {parent : Option ExecutionKey} :
    (Kin.born parent).children[i]? ≠ some x := by
  simp [born]

theorem no_child_of_ended : v.ended.children[i]? ≠ some x := by
  simp [ended]

end Kin

/-- What is found where one execution was changed. -/
theorem of_update {k : ExecutionKey} {u v' : Kin}
    (h : Function.update f k (some u) key = some v') :
    (key = k ∧ u = v') ∨ (key ≠ k ∧ f key = some v') := by
  by_cases hk : key = k
  · subst hk
    rw [Function.update_self] at h
    exact Or.inl ⟨rfl, Option.some.inj h⟩
  · rw [Function.update_of_ne hk] at h
    exact Or.inr ⟨hk, h⟩

/-- A child that is waited for behind a turn was waited for before, or it was initiated just now. -/
theorem FamilyTurn.entry (turn : FamilyTurn f r answer f') {v' : Kin} (hv' : f' key = some v')
    {i : Int} {x : PendingChild} (hx : v'.children[i]? = some x) :
    (∃ v, f key = some v ∧ v.children[i]? = some x)
      ∨ ∃ v, Initiates f r answer key v x ∧ x.initiatedEventId = i
        ∧ (f' x.execution).isSome := by
  cases turn with
  | still _ => exact Or.inl ⟨v', hv', hx⟩
  | starts _ absent =>
    rcases of_update hv' with ⟨rfl, rfl⟩ | ⟨-, hv⟩
    · exact absurd hx Kin.no_child_of_born
    · exact Or.inl ⟨v', hv, hx⟩
  | @initiates parent v y init present =>
    rcases of_update hv' with ⟨rfl, rfl⟩ | ⟨-, hv⟩
    · rcases Kin.child_of_awaiting hx with ⟨hid, rfl⟩ | hold
      · refine Or.inr ⟨v, init, hid, ?_⟩
        rw [Function.update_apply]
        split
        · rfl
        · exact present
      · exact Or.inl ⟨v, init.found, hold⟩
    · exact Or.inl ⟨v', hv, hx⟩
  | @begets parent v y init absent =>
    rcases of_update hv' with ⟨rfl, rfl⟩ | ⟨-, hv⟩
    · exact absurd hx Kin.no_child_of_born
    rcases of_update hv with ⟨rfl, rfl⟩ | ⟨-, hv⟩
    · rcases Kin.child_of_awaiting hx with ⟨hid, rfl⟩ | hold
      · exact Or.inr ⟨v, init, hid, by rw [Function.update_self]; rfl⟩
      · exact Or.inl ⟨v, init.found, hold⟩
    · exact Or.inl ⟨v', hv, hx⟩
  | closes _ found _ _ =>
    rcases of_update hv' with ⟨rfl, rfl⟩ | ⟨-, hv⟩
    · exact Or.inl ⟨_, found, (Kin.child_of_reported hx).2⟩
    · exact Or.inl ⟨v', hv, hx⟩
  | ends _ found _ _ =>
    rcases of_update hv' with ⟨rfl, rfl⟩ | ⟨-, hv⟩
    · exact absurd hx Kin.no_child_of_ended
    · exact Or.inl ⟨v', hv, hx⟩
  | reports _ found _ _ apart waits _ _ =>
    rcases of_update hv' with ⟨rfl, rfl⟩ | ⟨-, hv⟩
    · exact Or.inl ⟨_, waits, (Kin.child_of_reported hx).2⟩
    rcases of_update hv with ⟨rfl, rfl⟩ | ⟨-, hv⟩
    · exact absurd hx Kin.no_child_of_ended
    · exact Or.inl ⟨v', hv, hx⟩

/-- An execution stops only where it is asked to end, and then its parent has no entry for it, or
    drops the first one. -/
theorem FamilyTurn.stops (turn : FamilyTurn f r answer f') (hw : f key = some w)
    (running : w.running) {w' : Kin} (hw' : f' key = some w') (stopped : w'.running = false) :
    r.key = key ∧ r.ends?.isSome ∧ ∀ parent v, w.parent? = some parent → parent ≠ key →
      f parent = some v → (v.entryFor? key = none ∧ f' parent = some v)
        ∨ ∃ x, v.entryFor? key = some x ∧ f' parent = some (v.reported x.initiatedEventId) := by
  have hsame (h : f key = some w') : False := by
    obtain rfl := Option.some.inj (hw.symm.trans h)
    rw [running] at stopped
    cases stopped
  have hrunning (h : w'.running) : False := by
    rw [h] at stopped
    cases stopped
  cases turn with
  | still _ => exact (hsame hw').elim
  | starts _ absent =>
    rcases of_update hw' with ⟨rfl, rfl⟩ | ⟨-, h⟩
    · exact (hrunning rfl).elim
    · exact (hsame h).elim
  | initiates init _ =>
    rcases of_update hw' with ⟨rfl, rfl⟩ | ⟨-, h⟩
    · exact (hrunning init.running).elim
    · exact (hsame h).elim
  | begets init _ =>
    rcases of_update hw' with ⟨rfl, rfl⟩ | ⟨-, h⟩
    · exact (hrunning rfl).elim
    rcases of_update h with ⟨rfl, rfl⟩ | ⟨-, h⟩
    · exact (hrunning init.running).elim
    · exact (hsame h).elim
  | closes _ _ alive _ =>
    rcases of_update hw' with ⟨rfl, rfl⟩ | ⟨-, h⟩
    · exact (hrunning alive).elim
    · exact (hsame h).elim
  | ends closing found _ unheard =>
    rcases of_update hw' with ⟨rfl, rfl⟩ | ⟨-, h⟩
    · obtain rfl := Option.some.inj (hw.symm.trans found)
      refine ⟨rfl, by rw [closing]; rfl, fun parent v named apart waits => Or.inl ?_⟩
      exact ⟨unheard parent v named apart waits, by rw [Function.update_of_ne apart, waits]⟩
    · exact (hsame h).elim
  | reports closing found _ named apart waits alive entry =>
    rcases of_update hw' with ⟨rfl, rfl⟩ | ⟨-, h⟩
    · exact (hrunning alive).elim
    rcases of_update h with ⟨rfl, rfl⟩ | ⟨-, h⟩
    · obtain rfl := Option.some.inj (hw.symm.trans found)
      refine ⟨rfl, by rw [closing]; rfl, fun parent' v named' _ waits' => Or.inr ?_⟩
      obtain rfl := Option.some.inj (named.symm.trans named')
      obtain rfl := Option.some.inj (waits.symm.trans waits')
      exact ⟨_, entry, Function.update_self ..⟩
    · exact (hsame h).elim

/-- The end of a child is reported by hand, or because the child has ended. -/
theorem FamilyTurn.report (turn : FamilyTurn f r answer f') (hv : f key = some v) {v' : Kin}
    (hv' : f' key = some v') {i : Int} (hi : i ∈ v'.reports) :
    i ∈ v.reports ∨ (∃ status result, r = .record key (.closeChild i status result))
      ∨ ∃ x, v.entryFor? r.key = some x ∧ x.initiatedEventId = i
        ∧ ∃ w', f' r.key = some w' ∧ w'.running = false := by
  have hsame (h : f key = some v') : i ∈ v.reports := by
    obtain rfl := Option.some.inj (hv.symm.trans h)
    exact hi
  cases turn with
  | still _ => exact Or.inl (hsame hv')
  | starts _ absent =>
    rcases of_update hv' with ⟨rfl, rfl⟩ | ⟨-, h⟩
    · cases hi
    · exact Or.inl (hsame h)
  | initiates init _ =>
    rcases of_update hv' with ⟨rfl, rfl⟩ | ⟨-, h⟩
    · obtain rfl := Option.some.inj (hv.symm.trans init.found)
      exact Or.inl hi
    · exact Or.inl (hsame h)
  | begets init _ =>
    rcases of_update hv' with ⟨rfl, rfl⟩ | ⟨-, h⟩
    · cases hi
    rcases of_update h with ⟨rfl, rfl⟩ | ⟨-, h⟩
    · obtain rfl := Option.some.inj (hv.symm.trans init.found)
      exact Or.inl hi
    · exact Or.inl (hsame h)
  | closes asked found _ _ =>
    rcases of_update hv' with ⟨rfl, rfl⟩ | ⟨-, h⟩
    · obtain rfl := Option.some.inj (hv.symm.trans found)
      rcases List.mem_append.mp hi with hold | hnew
      · exact Or.inl hold
      · obtain rfl := List.mem_singleton.mp hnew
        exact Or.inr (Or.inl ⟨_, _, asked⟩)
    · exact Or.inl (hsame h)
  | ends _ found _ _ =>
    rcases of_update hv' with ⟨rfl, rfl⟩ | ⟨-, h⟩
    · obtain rfl := Option.some.inj (hv.symm.trans found)
      exact Or.inl hi
    · exact Or.inl (hsame h)
  | @reports _ u _ _ _ _ found _ _ apart waits _ entry =>
    rcases of_update hv' with ⟨rfl, rfl⟩ | ⟨-, h⟩
    · obtain rfl := Option.some.inj (hv.symm.trans waits)
      rcases List.mem_append.mp hi with hold | hnew
      · exact Or.inl hold
      · obtain rfl := List.mem_singleton.mp hnew
        refine Or.inr (Or.inr ⟨_, entry, rfl, u.ended, ?_, rfl⟩)
        rw [Function.update_of_ne apart.symm, Function.update_self]
    rcases of_update h with ⟨rfl, rfl⟩ | ⟨-, h⟩
    · obtain rfl := Option.some.inj (hv.symm.trans found)
      exact Or.inl hi
    · exact Or.inl (hsame h)

end

/-! ### Stores -/

namespace Memory

variable {m m' : Memory} {key : ExecutionKey} {s : ExecutionState}

theorem folk_of_some (hs : m.state? key = some s) : m.folk key = some (Kin.of (m.log key) s) := by
  unfold folk
  rw [hs]
  rfl

theorem isSome_folk (m : Memory) (key : ExecutionKey) :
    (m.folk key).isSome = (m.state? key).isSome :=
  Option.isSome_map

theorem folk_eq_none_iff : m.folk key = none ↔ m.state? key = none :=
  Option.map_eq_none_iff

theorem folk_eq_some_iff {v : Kin} :
    m.folk key = some v ↔ ∃ s, m.state? key = some s ∧ Kin.of (m.log key) s = v :=
  Option.map_eq_some_iff

theorem folk_of_kept (kept : ∀ k, (m.record k).Kept (m'.record k)) : m'.folk = m.folk := by
  funext k
  have hkept := kept k
  unfold folk log state?
  cases h : m.record k with
  | mk events state =>
    rw [h] at hkept
    generalize m'.record k = r' at hkept
    cases hkept with
    | untouched => rfl
    | rebuilt stored =>
      cases stored
      rfl

end Memory

/-- A child that is not refused leaves something to store. -/
theorem Request.Builds.dirty_of_initiates {parent : ExecutionKey} {request : ChildRequest}
    {found : Option ExecutionState} {tx : Transition}
    (h : (Request.record parent (.initiateChild request)).Builds found tx) : tx.isDirty := by
  cases h with
  | record built =>
    obtain ⟨-, rfl⟩ := initiateChild_eq_ok (buildRunning_eq_ok_iff.mp built).2
    rfl

namespace History

variable {h h' : History Memory} {now : Instant} {r : Request} {tx : Transition} {o : Outcome}

theorem Done.folk (hc : h.store.Coherent) (done : Done now h r tx o h') :
    h'.store.folk = Function.update h.store.folk r.key (some (tx.kin (h.store.log r.key))) := by
  funext k
  have hrecord := done.record hc k
  unfold Memory.folk Memory.log Memory.state?
  rw [hrecord]
  by_cases hk : r.key = k
  · subst hk
    rw [if_pos rfl, Function.update_self]
    rfl
  · rw [if_neg hk, Function.update_of_ne (Ne.symm hk)]

theorem Done.running (hc : h.store.Coherent) (done : Done now h r tx o h') {s : ExecutionState}
    (hs : h.store.state? r.key = some s) : s.isRunning := by
  have built := done.builds.built
  rw [hs] at built
  exact (built.move ((hc.records r.key).of_some hs).2.1.timersKeyed).1

/-- What a start that is not refused shows. -/
theorem Done.folk_start (hc : h.store.Coherent) {key : ExecutionKey} {request : StartRequest}
    (done : Done now h (.start key request) tx o h') :
    tx.followUps = [] ∧ h.store.state? key = none
      ∧ h'.store.folk = Function.update h.store.folk key (some (.born request.parent)) := by
  have hfolk := done.folk hc
  have hdeals := done.builds.deals (h.store.log key)
  have absent : h.store.state? key = none := done.builds.absent
  have hlog : h.store.log key = [] := (hc.records key).of_none absent
  change h'.store.folk = Function.update _ key (some (tx.kin (h.store.log key))) at hfolk
  change Request.Deals _ _ (h.store.state? key) tx at hdeals
  rw [absent] at hdeals
  cases hdeals with
  | starts kin silent =>
    rw [hlog, kin] at hfolk
    exact ⟨silent, absent, hfolk⟩

/-- What is recorded, and shown, where the end of a child is reported. -/
structure Reported (now : Instant) (h : History Memory) (parent : ExecutionKey) (i : Int)
    (status : String) (result : List UInt8) (tx : Transition) (h' : History Memory) : Prop where
  silent : tx.followUps = []
  found : ∃ s, h.store.state? parent = some s ∧ s.isRunning ∧ i ∈ s.children
    ∧ h'.store.folk = Function.update h.store.folk parent
      (some ((Kin.of (h.store.log parent) s).reported i))
  recorded : ∃ e rest, h'.store.log parent = h.store.log parent ++ e :: rest
    ∧ e.attributes = .childExecutionClosed ⟨i, status, result⟩
  asks : ∃ s, h'.store.state? parent = some s ∧ s.workflowTask.isSome

theorem Done.reported (hc : h.store.Coherent) {parent : ExecutionKey} {i : Int}
    {status : String} {result : List UInt8}
    (done : Done now h (.record parent (.closeChild i status result)) tx o h') :
    Reported now h parent i status result tx h' := by
  have hfolk := done.folk hc
  have hrecord := (done.record hc parent).trans (if_pos rfl)
  have hdeals := done.builds.deals (h.store.log parent)
  change Request.Deals _ _ (h.store.state? parent) tx at hdeals
  generalize hfound : h.store.state? parent = found at hdeals
  cases hdeals with
  | aside kin silent hidden => cases hidden
  | ends closing => cases closing
  | @closes _ _ _ _ s e rest _ pending recorded report asks kin silent =>
    refine ⟨silent, ⟨s, hfound, done.running hc hfound, pending, ?_⟩, ⟨e, rest, ?_, report⟩,
      ⟨_, congrArg (·.state) hrecord, by exact asks⟩⟩
    · rw [← kin]
      exact hfolk
    · rw [← recorded]
      exact congrArg (·.events) hrecord

/-! ### Other executions -/

/-- A child that is there already is not started again. -/
theorem follow_startChild_of_present {child : ExecutionKey} (now : Instant)
    (parent : ExecutionKey) (workflowType taskQueue : String) (input : List UInt8)
    (hs : (h.store.state? child).isSome) :
    after (follow now (.startChild child parent workflowType taskQueue input)) h = h := by
  obtain ⟨s, hs⟩ := Option.isSome_iff_exists.mp hs
  unfold follow
  rw [after_discard]
  unfold after StoreM.outcome
  by_cases queue : taskQueue = ""
  · rw [start_of_no_queue now child (by exact queue)]
  · rw [start_of_present now (by exact queue) hs]

/-- A start without a timeout is never refused. -/
theorem exists_start (tx : Transition) {r : StartRequest} (h : r.timeoutMs = none) :
    ∃ tx', tx.start r = .ok tx' := by
  have hzero : wrapInt64 ((r.timeoutMs.getD 0 : Nat) : Int) = 0 := by
    rw [h]
    decide
  unfold Transition.start
  simp only [hzero, Int.lt_irrefl, if_false]
  exact ⟨_, rfl⟩

/-- A child that is not there is started, with the parent that asks for it. -/
theorem follow_startChild_of_absent (hc : h.store.Coherent) {child : ExecutionKey}
    {taskQueue : String} (now : Instant) (parent : ExecutionKey) (workflowType : String)
    (input : List UInt8) (queue : taskQueue ≠ "") (hs : h.store.state? child = none) :
    ∃ request tx o, request.parent = some parent ∧ Done now h (.start child request) tx o
      (after (follow now (.startChild child parent workflowType taskQueue input)) h) := by
  unfold follow
  rw [after_discard]
  let request : StartRequest :=
    { workflowType, taskQueue, input, parent := some parent, identity := parent.display }
  obtain ⟨tx, built⟩ := exists_start
    (begun { key := child } now h.nextTaskId h.workflowTaskTimeoutMs) (r := request) rfl
  obtain ⟨o, h', hdone, hstart⟩ := start_run hc now queue hs built
  refine ⟨request, tx, o, rfl, ?_⟩
  unfold after StoreM.outcome
  rw [hstart]
  exact hdone

/-- Who does not wait for a child is not told of its end. -/
theorem follow_notifyParent_of_unheard (now : Instant) {parent child : ExecutionKey}
    (status : String) (result : List UInt8)
    (unheard : ∀ s, h.store.state? parent = some s →
      s.children.values.find? (·.execution = child) = none) :
    after (follow now (.notifyParent parent child status result)) h = h := by
  unfold follow notifyParent after StoreM.outcome
  simp only [bind, EStateM.bind, state_run, Memory.state]
  cases hs : h.store.state? parent with
  | none => rfl
  | some s =>
    dsimp only
    rw [unheard s hs]
    rfl

/-- Who waits for a child is told of its end, for the first entry. -/
theorem follow_notifyParent_of_entry (hc : h.store.Coherent) (now : Instant)
    {parent child : ExecutionKey} (status : String) (result : List UInt8) {s : ExecutionState}
    {x : PendingChild} (hs : h.store.state? parent = some s)
    (entry : s.children.values.find? (·.execution = child) = some x) :
    s.isRunning ∧ ∃ tx o,
      Done now h (.record parent (.closeChild x.initiatedEventId status result)) tx o
        (after (follow now (.notifyParent parent child status result)) h) := by
  let op := Operation.closeChild x.initiatedEventId status result
  obtain ⟨i, hi⟩ := mem_values.mp (List.mem_of_find?_eq_some entry)
  obtain ⟨running, hid⟩ := ((hc.records parent).of_some hs).2.1.pendingChild hi
  have pending : s.children.contains x.initiatedEventId := by
    rw [Std.ExtTreeMap.contains_eq_isSome_getElem?, hid, hi]
    rfl
  obtain ⟨tx, built⟩ : ∃ tx,
      op.build parent (begun s now h.nextTaskId h.workflowTaskTimeoutMs) = .ok tx :=
    ⟨_, buildRunning_eq_ok_iff.mpr ⟨running, if_pos pending⟩⟩
  have builds : (Request.record parent op).Builds (h.store.state? parent) tx := by
    rw [hs]
    exact .record built
  have dirty : tx.isDirty := by
    obtain ⟨-, rfl⟩ := closeChild_eq_ok (buildRunning_eq_ok_iff.mp built).2
    unfold scheduleWorkflowTask
    split <;> rfl
  obtain ⟨o, h', done, hdone⟩ := done_of_builds hc builds dirty now (h.nextTaskId + 1)
  have hupdate : updateWith (commitAlone now) now parent (op.build parent) h = .ok o h' := by
    rw [updateWith_run hs, built]
    exact done
  refine ⟨running, tx, o, ?_⟩
  have hafter : after (follow now (.notifyParent parent child status result)) h = h' := by
    unfold follow notifyParent after StoreM.outcome
    simp only [bind, EStateM.bind, state_run, Memory.state, hs, entry, discard_run]
    rw [hupdate]
  rw [hafter]
  exact hdone

/-! ### Requests -/

/-- Behind the event that initiates a child the child is started, unless it is there. -/
theorem Done.turn_of_initiates {A : ExecutionKey → Prop} (ho : h.store.Orderly A)
    {key : ExecutionKey} {request : ChildRequest} {s : ExecutionState} {e : Event}
    {taskQueue : String} (done : Done now h (.record key (.initiateChild request)) tx o h')
    (hs : h.store.state? key = some s) (recorded : tx.events = [e])
    (next : e.eventId = s.nextEventId)
    (kin : tx.kin (h.store.log key) = (Kin.of (h.store.log key) s).awaiting
      ⟨e.eventId, request.key key, request.workflowType⟩)
    (queue : s.info.taskQueue ≠ "" → taskQueue ≠ "") :
    FamilyTurn h.store.folk (.record key (.initiateChild request)) (some o)
      (after (follow now (.startChild (request.key key) key request.workflowType taskQueue
        request.input)) h').store.folk := by
  have hc := ho.coherent
  have hc' := done.coherent hc
  have follows := ((hc.records key).of_some hs).2.1
  have hfolk : h'.store.folk = Function.update h.store.folk key (some (tx.kin (h.store.log key))) :=
    done.folk hc
  rw [kin] at hfolk
  have hfound := Memory.folk_of_some hs
  have hinitiates : Initiates h.store.folk (.record key (.initiateChild request)) (some o) key
      (Kin.of (h.store.log key) s) ⟨e.eventId, request.key key, request.workflowType⟩ := by
    refine ⟨⟨request, rfl, rfl⟩, ⟨o, e, rfl, (done.events hc).trans recorded, rfl⟩, hfound,
      done.running hc hs, ?_⟩
    intro i hi
    dsimp only
    rw [next]
    rcases hi with pending | reported
    · exact follows.bounded.children i pending
    · obtain ⟨d, hd, hends⟩ := mem_reports.mp reported
      have hbefore := follows.reference_lt hd (Attributes.reference?_of_endsChild? hends)
      have hlast := follows.eventId_lt hd
      omega
  cases hchild : h.store.folk (request.key key) with
  | some w =>
    have present : (h'.store.state? (request.key key)).isSome := by
      rw [← Memory.isSome_folk, hfolk, Function.update_apply]
      split
      · rfl
      · rw [hchild]
        rfl
    rw [follow_startChild_of_present now _ _ _ _ present, hfolk]
    exact .initiates hinitiates (by rw [hchild]; rfl)
  | none =>
    have apart : request.key key ≠ key := by
      intro heq
      rw [heq, hfound] at hchild
      cases hchild
    have absent : h'.store.state? (request.key key) = none := by
      rw [← Memory.folk_eq_none_iff, hfolk, Function.update_of_ne apart]
      exact hchild
    obtain ⟨start, tx', o', hparent, hstart⟩ := follow_startChild_of_absent hc' now key
      request.workflowType request.input (queue ((ho.named key).state s hs)) absent
    obtain ⟨-, -, hborn⟩ := hstart.folk_start hc'
    rw [hborn, hfolk, hparent]
    exact .begets hinitiates hchild

/-- Behind the end of an execution its parent is told, if it waits for that. -/
theorem Done.turn_of_ends (hc : h.store.Coherent) {s : ExecutionState} {status : Status}
    {result : List UInt8} (done : Done now h r tx o h') (hs : h.store.state? r.key = some s)
    (closing : r.ends? = some (status, result))
    (kin : tx.kin (h.store.log r.key) = (Kin.of (h.store.log r.key) s).ended)
    (tells : tx.followUps =
      s.parent?.toList.map fun parent => .notifyParent parent s.key status.name result) :
    FamilyTurn h.store.folk r (some o) (tell now h' tx.followUps).store.folk := by
  have hfolk := done.folk hc
  rw [kin] at hfolk
  have hfound := Memory.folk_of_some hs
  have running := done.running hc hs
  have hkey := ((hc.records r.key).of_some hs).1
  rw [tells, hkey]
  cases hparent : s.parent? with
  | none =>
    change FamilyTurn _ _ _ h'.store.folk
    rw [hfolk]
    refine .ends closing hfound running fun parent w named => ?_
    have hnone : (Kin.of (h.store.log r.key) s).parent? = none := hparent
    rw [hnone] at named
    cases named
  | some parent =>
    change FamilyTurn _ _ _
      (after (follow now (.notifyParent parent r.key status.name result)) h').store.folk
    have hothers (apart : parent ≠ r.key) : h.store.folk parent = h'.store.folk parent := by
      rw [hfolk, Function.update_of_ne apart]
    by_cases hentry : ∃ p x, h'.store.state? parent = some p
        ∧ p.children.values.find? (·.execution = r.key) = some x
    · obtain ⟨p, x, hp, entry⟩ := hentry
      obtain ⟨alive, tx', o', hclosed⟩ := follow_notifyParent_of_entry (done.coherent hc) now
        status.name result hp entry
      obtain ⟨q, hq, -, -, hreported⟩ := (hclosed.reported (done.coherent hc)).found
      obtain rfl := Option.some.inj (hp.symm.trans hq)
      have hshown := Memory.folk_of_some hp
      -- Who has ended waits for nothing, so nobody tells itself.
      have apart : parent ≠ r.key := by
        rintro rfl
        rw [hfolk, Function.update_self] at hshown
        have hnone : p.children = ∅ := (congrArg Kin.children (Option.some.inj hshown)).symm
        obtain ⟨i, hi⟩ := mem_values.mp (List.mem_of_find?_eq_some entry)
        rw [hnone] at hi
        simp at hi
      rw [hreported, hfolk]
      exact .reports closing hfound running hparent apart ((hothers apart).trans hshown) alive entry
    · have unheard : ∀ p, h'.store.state? parent = some p →
          p.children.values.find? (·.execution = r.key) = none := by
        intro p hp
        by_contra hne
        obtain ⟨x, hx⟩ := Option.ne_none_iff_exists'.mp hne
        exact hentry ⟨p, x, hp, hx⟩
      rw [follow_notifyParent_of_unheard now status.name result unheard, hfolk]
      refine .ends closing hfound running fun parent' w named apart waits => ?_
      obtain rfl := Option.some.inj (hparent.symm.trans named)
      rw [hothers apart] at waits
      obtain ⟨p, hp, rfl⟩ := Memory.folk_eq_some_iff.mp waits
      exact unheard p hp

/-- Whatever is asked, what kin see of it is a turn. -/
theorem turn_perform {A : ExecutionKey → Prop} (ho : h.store.Orderly A) (now : Instant)
    (r : Request) :
    FamilyTurn h.store.folk r (answer? now h r) (after (perform now r) h).store.folk := by
  have hc := ho.coherent
  have hanswered := answered hc now r
  unfold after StoreM.outcome
  generalize answer? now h r = answer at hanswered ⊢
  generalize perform now r h = result at hanswered ⊢
  cases hanswered with
  | refused => exact .still fun _ _ _ => rfl
  | idle timer _ =>
    refine .still fun _ _ asked => ?_
    rw [asked] at timer
    cases timer
  | dropped builds clean =>
    refine .still fun parent request asked => ?_
    subst asked
    rw [builds.dirty_of_initiates] at clean
    cases clean
  | @rebuilt key s h' again done =>
    have step : Step (fun _ => True) h [] h' := .rebuild done
    cases step.effect hc with
    | silent kept =>
      dsimp only
      rw [Memory.folk_of_kept kept]
      exact .still fun _ _ _ => rfl
  | @done tx o h' hdone =>
    have hfolk := hdone.folk hc
    have hdeals := hdone.builds.deals (h.store.log r.key)
    change FamilyTurn _ _ _ (tell now h' tx.followUps).store.folk
    generalize hfound : h.store.state? r.key = found at hdeals
    cases hdeals with
    | starts kin silent =>
      obtain ⟨-, absent, hborn⟩ := hdone.folk_start hc
      rw [silent]
      change FamilyTurn _ _ _ h'.store.folk
      rw [hborn]
      exact .starts rfl (Memory.folk_eq_none_iff.mpr absent)
    | aside kin silent hidden =>
      rw [silent]
      rw [kin, ← Memory.folk_of_some hfound, Function.update_eq_self] at hfolk
      change FamilyTurn _ _ _ h'.store.folk
      rw [hfolk]
      refine .still fun _ _ asked => ?_
      rw [asked] at hidden
      cases hidden
    | initiates recorded next kin starts queue =>
      rw [starts]
      exact hdone.turn_of_initiates ho hfound recorded next kin queue
    | closes pending recorded report asks kin silent =>
      obtain ⟨t, ht, running, -, hreported⟩ := (hdone.reported hc).found
      rw [silent]
      change FamilyTurn _ _ _ h'.store.folk
      rw [hreported]
      obtain rfl := Option.some.inj (ht.symm.trans hfound)
      exact .closes rfl (Memory.folk_of_some ht) running pending
    | ends closing kin left tells => exact hdone.turn_of_ends hc hfound closing kin tells

end History

end Durable
