import Mathlib.Data.List.Nodup
import Durable.Proofs.Maps
import Durable.Proofs.Timer.Arming
import Durable.Proofs.Timer.World

/-!
# Due timers in order

What a service finds when it looks into a store in memory: of each of its shards the timers that are
due, as many as fit into a batch, by fire time and then by key. Every timer that a registry has made
lies in one of its shards, so a service that owns no shards by name passes none over, and no timer
is found twice.
-/

namespace Durable

namespace Instant

instance : Std.LawfulEqOrd Instant where
  eq_of_compare {s t} h := by
    obtain ⟨seconds, nanos⟩ := s
    obtain ⟨seconds', nanos'⟩ := t
    have h : (compare seconds seconds').then (compare nanos nanos') = .eq := h
    obtain ⟨hseconds, hnanos⟩ := Ordering.then_eq_eq.mp h
    rw [Std.LawfulEqOrd.eq_of_compare hseconds, Std.LawfulEqOrd.eq_of_compare hnanos]

end Instant

namespace Timer

/-- Whether a timer comes before another one: by its fire time, or by its key if they are due at one
    instant. -/
def Precedes (s t : Timer) : Prop :=
  compare s.fireTime t.fireTime = .lt ∨ s.fireTime = t.fireTime ∧ compare s.key t.key = .lt

theorem Precedes.ne {s t : Timer} (h : s.Precedes t) : s ≠ t := by
  rintro rfl
  obtain h | ⟨-, h⟩ := h <;> simp at h

theorem isDue_iff {t : Timer} {now : Instant} :
    t.isDue now ↔ t.status = .pending ∧ t.fireTime ≤ now := by
  simp [isDue]

/-- The order in which timers are served. -/
abbrev servingOrder : Timer → Timer → Ordering :=
  compareLex (compareOn Timer.fireTime) (compareOn Timer.key)

theorem servedBefore_iff {s t : Timer} : s.servedBefore t ↔ (servingOrder s t).isLE := by
  rw [Ordering.isLE_iff_ne_gt, servedBefore, decide_eq_true_iff]

theorem servedBefore_trans {s t u : Timer} (hst : s.servedBefore t) (htu : t.servedBefore u) :
    s.servedBefore u := by
  rw [servedBefore_iff] at *
  exact Std.TransCmp.isLE_trans hst htu

theorem servedBefore_total (s t : Timer) : s.servedBefore t || t.servedBefore s := by
  rw [Bool.or_eq_true, servedBefore_iff, servedBefore_iff]
  cases h : servingOrder s t with
  | lt | eq => exact .inl rfl
  | gt =>
    right
    rw [Std.OrientedCmp.lt_of_gt h]
    rfl

/-- Between timers with different keys there is no tie. -/
theorem precedes_of_servedBefore {s t : Timer} (h : s.servedBefore t) (hne : s.key ≠ t.key) :
    s.Precedes t := by
  have h : ((compare s.fireTime t.fireTime).then (compare s.key t.key)).isLE :=
    servedBefore_iff.mp h
  cases htime : compare s.fireTime t.fireTime with
  | lt => exact .inl htime
  | gt =>
    rw [htime] at h
    cases h
  | eq =>
    rw [htime] at h
    refine .inr ⟨Std.LawfulEqOrd.eq_of_compare htime, ?_⟩
    cases hkey : compare s.key t.key with
    | lt => rfl
    | eq => exact absurd (Std.LawfulEqOrd.eq_of_compare hkey) hne
    | gt =>
      rw [hkey] at h
      cases h

end Timer

/-! ### The due timers of a shard -/

namespace Memory

variable {m m' : Memory} {shard limit : Nat} {now : Instant} {t : Timer}

/-- Whether a timer is stored in a shard, waits, and its time has come. -/
structure HasDue (m : Memory) (shard : Nat) (now : Instant) (t : Timer) : Prop where
  stored : m.timers[t.key]? = some t
  placed : t.shard = shard
  waits : t.status = .pending
  due : t.fireTime ≤ now

/-- Whether timers are the first `limit` due ones of a shard, in order: all are due, and where one
    is left out there was no room and all of them come before it. -/
structure IsFirstDue (m : Memory) (shard : Nat) (now : Instant) (limit : Nat)
    (first : List Timer) : Prop where
  due : ∀ t ∈ first, m.HasDue shard now t
  ordered : first.Pairwise Timer.Precedes
  limited : first.length ≤ limit
  leftOut : ∀ t, m.HasDue shard now t → t ∉ first →
    first.length = limit ∧ ∀ s ∈ first, s.Precedes t

/-- The first due timers of a shard, as many as fit. -/
def firstDue (m : Memory) (shard : Nat) (now : Instant) (limit : Nat) : List Timer :=
  (m.allDue shard now).take limit

theorem RowsKeyed.mem_allDue (keyed : m.RowsKeyed) :
    t ∈ m.allDue shard now ↔ m.HasDue shard now t := by
  unfold allDue
  rw [List.mem_mergeSort, List.mem_filter, keyed.mem_values, Bool.and_eq_true, decide_eq_true_iff,
    Timer.isDue_iff]
  exact ⟨fun ⟨stored, placed, waits, due⟩ => ⟨stored, placed, waits, due⟩,
    fun h => ⟨h.stored, h.placed, h.waits, h.due⟩⟩

/-- Due timers are sorted without a tie. -/
theorem RowsKeyed.allDue_ordered (keyed : m.RowsKeyed) (shard : Nat) (now : Instant) :
    (m.allDue shard now).Pairwise Timer.Precedes := by
  have sorted : (m.allDue shard now).Pairwise fun s t => s.servedBefore t := by
    apply List.pairwise_mergeSort
    · exact fun _ _ _ => Timer.servedBefore_trans
    · exact Timer.servedBefore_total
  have distinct : ((m.allDue shard now).map (·.key)).Nodup := by
    refine (((List.mergeSort_perm _ _).map _).nodup_iff).mpr ?_
    exact keyed.nodup_keys.sublist (List.filter_sublist.map _)
  rw [List.Nodup, List.pairwise_map] at distinct
  exact (sorted.and distinct).imp fun h => Timer.precedes_of_servedBefore h.1 h.2

theorem RowsKeyed.isFirstDue (keyed : m.RowsKeyed) (shard : Nat) (now : Instant) (limit : Nat) :
    m.IsFirstDue shard now limit (m.firstDue shard now limit) where
  due t ht := keyed.mem_allDue.mp (List.mem_of_mem_take ht)
  ordered := (keyed.allDue_ordered shard now).sublist (List.take_sublist limit _)
  limited := List.length_take_le limit _
  leftOut t ht hout := by
    have hsplit := List.take_append_drop limit (m.allDue shard now)
    have hlate : t ∈ (m.allDue shard now).drop limit := by
      have hmem := keyed.mem_allDue.mpr ht
      rw [← hsplit] at hmem
      exact (List.mem_append.mp hmem).resolve_left hout
    constructor
    · have hlong : limit < (m.allDue shard now).length := by
        have hpos := List.length_pos_of_mem hlate
        rw [List.length_drop] at hpos
        omega
      exact List.length_take_of_le (Nat.le_of_lt hlong)
    · intro s hs
      have hordered := keyed.allDue_ordered shard now
      rw [← hsplit, List.pairwise_append] at hordered
      exact hordered.2.2 s hs t hlate

end Memory

/-! ### Stores that a registry fills -/

/-- Whether what is asked for is asked of a registry. Who cancels does not need to know one. -/
def TimerRequest.IsOf (r : TimerRegistry) : TimerRequest → Prop
  | .create r' _ _ => r' = r
  | .restore r' _ _ => r' = r
  | .cancel _ => True
  | .cancelAll _ => True

namespace TimerRegistry

open StoreM Memory

variable {r : TimerRegistry} {m m' : Memory} {t : Timer}

/-- Whether a timer lies in the shard that a registry puts it into. -/
def Places (r : TimerRegistry) (t : Timer) : Prop :=
  t.shard = r.shardOf t.key.execution

/-- Stores in memory that come about through a registry: nothing is stored at first, then things are
    asked of the registry, and who fires timers writes those that lie where the registry puts them.
    Nothing else is stored. -/
inductive Builds (r : TimerRegistry) : Memory → Prop
  | nothing : r.Builds {}
  | asked {m : Memory} (now : Instant) (request : TimerRequest) (mine : request.IsOf r) :
    r.Builds m → r.Builds (storeAfter (request.perform now) m)
  | written {m m' : Memory} {t : Timer} {version v : Int} (placed : r.Places t)
    (write : m.updateTimer t version = .ok (v, m')) : r.Builds m → r.Builds m'

/-- What holds of stores that a registry has filled. -/
structure Fills (r : TimerRegistry) (m : Memory) : Prop where
  executions : m.executions = ∅
  keyed : m.RowsKeyed
  placed : ∀ (k : TimerKey) (t : Timer), m.timers[k]? = some t → r.Places t

namespace Fills

theorem rewrite {key : TimerKey} (h : r.Fills m) (hm : m.Rewrites key m')
    (hrow : ∀ t, m'.timers[key]? = some t → t.key = key ∧ r.Places t) : r.Fills m' where
  executions := hm.executions.trans h.executions
  keyed := h.keyed.rewrite hm fun t ht => (hrow t ht).1
  placed k t ht := by
    by_cases hk : k = key
    · subst hk
      exact (hrow t ht).2
    · exact h.placed k t ((hm.others k hk).symm.trans ht)

theorem update (h : r.Fills m) (ht : r.Places t) {version v : Int}
    (hm : m.updateTimer t version = .ok (v, m')) : r.Fills m' := by
  obtain ⟨-, -, -, hrow, hrest⟩ := updateTimer_eq_ok hm
  refine h.rewrite hrest fun u hu => ?_
  rw [hrow] at hu
  unfold rowBehind at hu
  split at hu
  · cases hu
  · cases hu
    exact ⟨rfl, ht⟩

theorem after_update (h : r.Fills m) (ht : r.Places t) (version : Int) :
    r.Fills (outcome (Store.updateTimer t version) m).2 := by
  rw [outcome_updateTimer]
  cases hm : m.updateTimer t version with
  | ok written => exact h.update ht hm
  | error e => exact h

theorem after_create (h : r.Fills m) (ht : r.Places t) :
    r.Fills (outcome (Store.createTimer t) m).2 := by
  rw [outcome_createTimer]
  cases hm : m.createTimer t with
  | error e => exact h
  | ok m' =>
    obtain ⟨-, hrow, hrest⟩ := createTimer_eq_ok hm
    refine h.rewrite hrest fun u hu => ?_
    cases hrow.symm.trans hu
    exact ⟨rfl, ht⟩

theorem places_read (h : r.Fills m) (key : TimerKey) (found : Timer)
    (hfound : (.ok m.timers[key]? : Except Error _) = .ok (some found)) : r.Places found :=
  h.placed key found (Except.ok.inj hfound)

theorem isOpen (h : r.Fills m) (key : ExecutionKey) : m.isClosed key = false := by
  unfold isClosed state? record
  rw [h.executions, Std.ExtTreeMap.getD_empty]
  rfl

end Fills

end TimerRegistry

namespace Errand

open StoreM TimerRegistry Memory

variable {r : TimerRegistry} {m m' : Memory} {e : Errand}

/-- Whether the timer that an errand has in hand lies where a registry puts it. -/
def Places (r : TimerRegistry) : Errand → Prop
  | storing timer => r.Places timer
  | finding timer => r.Places timer
  | restoring timer => r.Places timer
  | rearming found _ => r.Places found
  | canceling found _ => r.Places found
  | seeking .. => True
  | listing _ => True
  | done => True

theorem places_making {timer : Timer} (h : r.Places timer) : (making timer).Places r := by
  unfold making
  split
  · exact h
  · trivial

theorem places_cancelingAll (keys : List TimerKey) : (cancelingAll keys).Places r := by
  cases keys <;> trivial

theorem places_ofRequest (now : Instant) {request : TimerRequest} (mine : request.IsOf r) :
    (ofRequest now request).Places r := by
  cases request with
  | create r' key fireTime =>
    obtain rfl : r' = r := mine
    exact places_making rfl
  | restore r' key fireTime =>
    obtain rfl : r' = r := mine
    exact (rfl : r'.shardOf key.execution = r'.shardOf key.execution)
  | cancel key | cancelAll key => trivial

section

variable {result : Except Error (Option Timer)}
  (read : ∀ found, result = .ok (some found) → r.Places found)
include read

theorem places_ofTaken (timer : Timer) : (ofTaken timer result).Places r := by
  unfold ofTaken
  split
  · split
    · trivial
    · exact read _ rfl
  · trivial

theorem places_ofRestored {timer : Timer} (h : r.Places timer) :
    (ofRestored timer result).Places r := by
  unfold ofRestored
  split
  · split
    · trivial
    · exact read _ rfl
  · exact places_making h
  · trivial

theorem places_ofSought (rest : List TimerKey) : (ofSought rest result).Places r := by
  unfold ofSought
  split
  · split
    · exact read _ rfl
    · exact places_cancelingAll rest
  · trivial

end

/-- A call of an errand fills the store as the registry would, and finds what the registry has put
    there. -/
theorem fills_step (h : r.Fills m) (he : e.Places r) :
    r.Fills (e.step m).2 ∧ (e.step m).1.Places r := by
  cases e with
  | storing timer =>
    have hfills := h.after_create he
    simp only [step, bind, StateT.bind]
    generalize outcome (Store.createTimer timer) m = answer at hfills ⊢
    obtain ⟨result, m'⟩ := answer
    dsimp only
    split
    · exact ⟨hfills, he⟩
    · exact ⟨hfills, trivial⟩
  | finding timer => exact ⟨h, places_ofTaken (h.places_read timer.key) timer⟩
  | rearming found fireTime =>
    exact ⟨h.after_update (t := rearmed found fireTime) he found.version, trivial⟩
  | restoring timer => exact ⟨h, places_ofRestored (h.places_read timer.key) he⟩
  | seeking key rest => exact ⟨h, places_ofSought (h.places_read key) rest⟩
  | canceling found rest =>
    have hfills := h.after_update (t := canceled found) he found.version
    simp only [step, bind, StateT.bind]
    generalize outcome (Store.updateTimer (canceled found) found.version) m = answer at hfills ⊢
    obtain ⟨result, m'⟩ := answer
    dsimp only
    split
    · exact ⟨hfills, places_cancelingAll rest⟩
    · exact ⟨hfills, trivial⟩
  | listing key => exact ⟨h, places_cancelingAll _⟩
  | done => exact ⟨h, trivial⟩

theorem fills_alone (h : r.Fills m) (he : e.Places r) (alone : Alone e m m') : r.Fills m' := by
  induction alone with
  | done m => exact h
  | step rest ih =>
    obtain ⟨hstep, hnext⟩ := fills_step h he
    exact ih hstep hnext

end Errand

theorem TimerRegistry.Builds.fills {r : TimerRegistry} {m : Memory} (h : r.Builds m) :
    r.Fills m := by
  induction h with
  | nothing =>
    refine ⟨rfl, Memory.rowsKeyed_empty, fun k t ht => ?_⟩
    simp at ht
  | asked now request mine _ ih =>
    exact Errand.fills_alone ih (Errand.places_ofRequest now mine)
      (Errand.alone_ofRequest now request _)
  | written placed write _ ih => exact ih.update placed write

/-! ### The shards of a service -/

namespace TimerService

open Memory

variable {s : TimerService} {m : Memory} {now : Instant} {t : Timer} {shard : Nat}

theorem mem_ownedShards : shard ∈ s.ownedShards ↔
    if s.owned.isEmpty then shard < s.registryShards else shard ∈ s.owned := by
  unfold ownedShards
  split
  · exact List.mem_range
  · exact Std.ExtTreeSet.mem_toList

theorem nodup_ownedShards (s : TimerService) : s.ownedShards.Nodup := by
  unfold ownedShards
  split
  · exact List.nodup_range
  · refine Std.ExtTreeSet.distinct_toList.imp fun hne heq => ?_
    exact hne (Std.compare_eq_iff_eq.mpr heq)

/-- A service that owns no shard by name owns the shard of every timer that its registry places. -/
theorem owns_iff {shards : Nat}
    (registry : s.registryShards = (TimerRegistry.ofShards shards).shards)
    (placed : (TimerRegistry.ofShards shards).Places t) :
    t.shard ∈ s.ownedShards ↔ s.owned.isEmpty ∨ t.shard ∈ s.owned := by
  rw [mem_ownedShards]
  by_cases hall : s.owned.isEmpty
  · have hlt : t.shard < s.registryShards := by
      rw [placed, registry]
      exact TimerRegistry.shardOf_lt shards t.key.execution
    simp [hall, hlt]
  · simp [hall]

/-- The timers that a service finds: the first due ones of each of its shards. -/
def found (s : TimerService) (m : Memory) (now : Instant) : List Timer :=
  s.ownedShards.flatMap fun shard => m.firstDue shard now s.settings.batchSize

/-- What is found is due, in a shard of the service. -/
theorem due_of_mem_found (keyed : m.RowsKeyed) {s : TimerService} (ht : t ∈ s.found m now) :
    t.shard ∈ s.ownedShards ∧ m.HasDue t.shard now t := by
  obtain ⟨shard, howned, hfirst⟩ := List.mem_flatMap.mp ht
  have hdue := (keyed.isFirstDue shard now s.settings.batchSize).due t hfirst
  obtain rfl := hdue.placed
  exact ⟨howned, hdue⟩

/-- No timer is found twice. -/
theorem nodup_keys_found (keyed : m.RowsKeyed) (s : TimerService) (now : Instant) :
    ((s.found m now).map (·.key)).Nodup := by
  have hdue (shard : Nat) := (keyed.isFirstDue shard now s.settings.batchSize).due
  have hfound : (s.found m now).Nodup := by
    refine List.nodup_flatMap.mpr ⟨fun shard _ => ?_, ?_⟩
    · exact (keyed.isFirstDue shard now s.settings.batchSize).ordered.imp Timer.Precedes.ne
    · refine s.nodup_ownedShards.imp fun hne t ht ht' => hne ?_
      exact (hdue _ t ht).placed.symm.trans (hdue _ t ht').placed
  refine hfound.map_on fun t ht u hu hkey => ?_
  have hrow := (due_of_mem_found keyed ht).2.stored
  rw [hkey, (due_of_mem_found keyed hu).2.stored] at hrow
  exact (Option.some.inj hrow).symm

/-- If a shard has no more due timers than a batch holds, all of them are found. -/
theorem mem_found_of_due (keyed : m.RowsKeyed) (ht : m.HasDue shard now t)
    (howned : shard ∈ s.ownedShards) (fits : (m.allDue shard now).length ≤ s.settings.batchSize) :
    t ∈ s.found m now := by
  refine List.mem_flatMap.mpr ⟨shard, howned, ?_⟩
  unfold firstDue
  rw [List.take_of_length_le fits]
  exact keyed.mem_allDue.mpr ht

end TimerService

end Durable
