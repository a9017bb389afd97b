import Mathlib.Algebra.BigOperators.Group.Finset.Basic
import Mathlib.Algebra.Order.BigOperators.Group.Finset
import Durable.History.Query
import Durable.Proofs.History.Coherence

/-!
# Logs page by page

A reader asks for one page of a log after another, each from where the last one says that the next
one begins. Sizes up to half the range of sixty-four bits cut a log into pages without a gap. A
larger size is negative where the end of the page is reckoned, so its page is empty and the reader
stops there, whatever is left of the log.
-/

namespace Durable

/-! ### Numbered logs -/

theorem Numbered.drop {first : Int} {log : List Event} (h : Numbered first log) (k : Nat) :
    Numbered (first + k) (log.drop k) := by
  intro i hi
  rw [List.getElem_drop, h]
  omega

/-- The events of a numbered log below an id are its first ones. -/
theorem Numbered.filter_lt {first : Int} {log : List Event} (h : Numbered first log) (c : Nat) :
    log.filter (fun e => e.eventId < first + c) = log.take c := by
  induction log generalizing first c with
  | nil => simp
  | cons e rest ih =>
    obtain ⟨he, hrest⟩ := numbered_cons h
    cases c with
    | zero =>
      rw [List.take_zero, List.filter_eq_nil_iff]
      intro x hx
      obtain ⟨i, hi, rfl⟩ := List.mem_iff_getElem.mp hx
      rw [h i hi, decide_eq_true_eq]
      omega
    | succ c =>
      have hkept : e.eventId < first + (c + 1 : Nat) := by omega
      have hshift : first + (c + 1 : Nat) = first + 1 + c := by omega
      rw [List.filter_cons_of_pos (by simpa using hkept), List.take_succ_cons, ← ih hrest c, hshift]

namespace Memory

variable {m : Memory} {key : ExecutionKey}

/-- What lies behind the first `k` events and in a range. -/
theorem eventsIn_behind (h : Numbered 1 (m.log key)) (k : Nat) (last : Int) :
    m.eventsIn key (k + 1) last =
      ((m.log key).drop k).filter fun e => e.eventId ≤ last || Store.maxEventId ≤ last := by
  have hbefore : ((m.log key).take k).filter
      (fun e => Store.inRange (k + 1) last e.eventId) = [] := by
    rw [List.filter_eq_nil_iff]
    intro e he
    obtain ⟨i, hi, rfl⟩ := List.mem_iff_getElem.mp he
    have hlt : i < k := Nat.lt_of_lt_of_le hi (by simp)
    rw [List.getElem_take, h i]
    unfold Store.inRange
    simp only [Bool.and_eq_true, decide_eq_true_eq]
    omega
  have hcut : (m.log key).filter (fun e => Store.inRange (k + 1) last e.eventId) =
      ((m.log key).take k ++ (m.log key).drop k).filter
        fun e => Store.inRange (k + 1) last e.eventId := by
    rw [List.take_append_drop]
  unfold eventsIn
  rw [hcut, List.filter_append, hbefore, List.nil_append]
  refine List.filter_congr fun e he => ?_
  obtain ⟨i, hi, rfl⟩ := List.mem_iff_getElem.mp he
  have hid := h.drop k i hi
  have hfirst : ((k : Int) + 1 ≤ ((m.log key).drop k)[i].eventId) := by omega
  unfold Store.inRange
  simp only [hfirst, decide_true, Bool.true_and]

end Memory

namespace History

/-! ### One page -/

/-- The largest size of which a page can be. -/
def maxPageSize : Nat := 0x8000000000000000

/-- A page that is not too large ends where its size says, or with the last possible id. -/
theorem lastOnPage_of_le {size : Nat} (hpos : 0 < size) (hsize : size ≤ maxPageSize) (k : Nat) :
    lastOnPage (k + 1) size = min (k + size : Int) Store.maxEventId := by
  unfold maxPageSize at hsize
  unfold lastOnPage clampInt64 wrapInt64 Store.maxEventId
  rw [Int.bmod_eq_emod, Int.bmod_eq_emod]
  split <;> split <;> omega

/-- A page that is too large ends before it begins. -/
theorem lastOnPage_of_lt {size k : Nat} (hsize : maxPageSize < size)
    (hword : size < 0x10000000000000000) (hk : (k : Int) ≤ Store.maxEventId) :
    lastOnPage (k + 1) size ≤ k ∧ lastOnPage (k + 1) size < Store.maxEventId := by
  unfold maxPageSize at hsize
  unfold Store.maxEventId at hk
  unfold lastOnPage clampInt64 wrapInt64 Store.maxEventId
  rw [Int.bmod_eq_emod, Int.bmod_eq_emod]
  split <;> split <;> omega

/-- The page of a log behind its first `k` events. -/
def pageBehind (log : List Event) (k size : Nat) : Page :=
  if maxPageSize < size then ⟨[], none⟩
  else
    ⟨(log.drop k).take size, if k + size < log.length then some ((k + size : Nat) + 1) else none⟩

variable {h : History Memory} {key : ExecutionKey}

theorem eventsIn_page (numbered : Numbered 1 (h.store.log key))
    (fits : ((h.store.log key).length : Int) ≤ Store.maxEventId) {k size : Nat}
    (hk : k ≤ (h.store.log key).length) (hpos : 0 < size) (hword : size < 0x10000000000000000) :
    h.store.eventsIn key (k + 1) (lastOnPage (k + 1) size) =
      (pageBehind (h.store.log key) k size).events := by
  have hbehind := numbered.drop k
  rw [Memory.eventsIn_behind numbered]
  unfold pageBehind
  by_cases hsize : maxPageSize < size
  · obtain ⟨hlast, hmax⟩ := lastOnPage_of_lt hsize hword (k := k) (by omega)
    rw [if_pos hsize, List.filter_eq_nil_iff]
    intro e he
    obtain ⟨i, hi, rfl⟩ := List.mem_iff_getElem.mp he
    have hid := hbehind i hi
    simp only [Bool.or_eq_true, decide_eq_true_eq]
    omega
  · rw [if_neg hsize, lastOnPage_of_le hpos (Nat.le_of_not_lt hsize), ← hbehind.filter_lt size]
    refine List.filter_congr fun e he => ?_
    obtain ⟨i, hi, rfl⟩ := List.mem_iff_getElem.mp he
    have hid := hbehind i hi
    rw [List.length_drop] at hi
    rw [Bool.eq_iff_iff]
    simp only [Bool.or_eq_true, decide_eq_true_eq]
    omega

/-- The last event on a page that is not empty tells where the next page begins. -/
theorem next_page (numbered : Numbered 1 (h.store.log key)) {k size : Nat}
    (hk : k ≤ (h.store.log key).length) (hpos : 0 < size) :
    ((pageBehind (h.store.log key) k size).events.getLast?.map (·.eventId + 1)).filter
        (· ≤ ((h.store.log key).length : Int)) =
      (pageBehind (h.store.log key) k size).next := by
  unfold pageBehind
  by_cases hsize : maxPageSize < size
  · rw [if_pos hsize]
    rfl
  · rw [if_neg hsize]
    dsimp only
    generalize h.store.log key = log at *
    by_cases hend : k = log.length
    · simp [hend]
    · obtain ⟨c, hc, hlength⟩ : ∃ c, c < log.length - k
          ∧ ((log.drop k).take size).length = c + 1 := by
        rw [List.length_take, List.length_drop]
        exact ⟨min size (log.length - k) - 1, by omega, by omega⟩
      have hlast : ((log.drop k).take size).getLast? = some log[k + c] := by
        rw [List.getLast?_eq_getElem?, hlength, Nat.add_sub_cancel, List.getElem?_take,
          List.getElem?_drop, if_pos (by rw [List.length_take] at hlength; omega),
          List.getElem?_eq_getElem]
      rw [List.length_take, List.length_drop] at hlength
      rw [hlast, Option.map_some, numbered (k + c)]
      by_cases hmore : k + size < log.length
      · have hid : (1 : Int) + (k + c : Nat) + 1 = (k + size : Nat) + 1 := by omega
        have hle : ((k + size : Nat) : Int) + 1 ≤ log.length := by omega
        rw [if_pos hmore, hid, Option.filter_some, if_pos (by simpa using hle)]
      · have hgt : ¬(1 : Int) + (k + c : Nat) + 1 ≤ log.length := by omega
        rw [if_neg hmore, Option.filter_some, if_neg (by simpa using hgt)]

/-- A page behind the first `k` events of a log. -/
theorem page_run (numbered : Numbered 1 (h.store.log key))
    (fits : ((h.store.log key).length : Int) ≤ Store.maxEventId) {k size : Nat}
    (hk : k ≤ (h.store.log key).length) (hpos : 0 < size) (hword : size < 0x10000000000000000) :
    page key (k + 1) size h = .ok (pageBehind (h.store.log key) k size) h := by
  have hevents : (Store.events key (k + 1) (lastOnPage (k + 1) size) :
      HistoryM Memory (List Event)) h =
      .ok (h.store.eventsIn key (k + 1) (lastOnPage (k + 1) size)) h := onStore_read _ h
  have htotal : (Store.eventCount key : HistoryM Memory Int) h =
      .ok ((h.store.log key).length : Int) h := onStore_read _ h
  have hvalid : (size = 0 || decide ((k : Int) + 1 < 1)) = false := by
    have hfirst : ¬(k : Int) + 1 < 1 := by omega
    simp [hfirst, Nat.ne_of_gt hpos]
  unfold page
  simp only [hvalid, Bool.false_eq_true, ↓reduceIte, bind, EStateM.bind, hevents, htotal,
    eventsIn_page numbered fits hk hpos hword, next_page numbered hk hpos]
  rfl

/-! ### Page after page -/

section

variable {σ : Type} [Store σ]

/-- Reads at most so many pages, the `i`-th of them of the `i`-th size, each from where the one
    before it says, until there is no next one; the pages, and where the next one would begin. -/
def readPages (key : ExecutionKey) :
    (count : Nat) → (sizes : Nat → Nat) → (first : Int) → HistoryM σ (List Page × Option Int)
  | 0, _, first => pure ([], some first)
  | count + 1, sizes, first => do
    let p ← page key first (sizes 0)
    match p.next with
    | none => pure ([p], none)
    | some next =>
      let (rest, left) ← readPages key count (fun i => sizes (i + 1)) next
      pure (p :: rest, left)

end

/-- Whether a log of `n` events is through before a size is too large, for a reader that has come
    behind the first `k` of them. -/
def Covered (n k : Nat) (sizes : Nat → Nat) : Prop :=
  ∀ i, maxPageSize < sizes i → n ≤ k + ∑ j ∈ Finset.range i, sizes j

section

variable {n k : Nat} {sizes : Nat → Nat}

theorem covered_of_le (hend : n ≤ k) : Covered n k sizes :=
  fun _ _ => Nat.le_add_right_of_le hend

theorem covered_iff_of_large (hlarge : maxPageSize < sizes 0) : Covered n k sizes ↔ n ≤ k := by
  constructor
  · intro hcovered
    simpa using hcovered 0 hlarge
  · exact covered_of_le

/-- A page that is not too large brings the reader on by its size. -/
theorem covered_iff_behind (hsize : ¬maxPageSize < sizes 0) :
    Covered n k sizes ↔ Covered n (k + sizes 0) fun i => sizes (i + 1) := by
  constructor
  · intro hcovered i hi
    have hle := hcovered (i + 1) hi
    rw [Finset.sum_range_succ'] at hle
    dsimp only
    omega
  · intro hcovered i hi
    cases i with
    | zero => exact absurd hi hsize
    | succ i =>
      have hle := hcovered i hi
      dsimp only at hle
      rw [Finset.sum_range_succ']
      omega

end

theorem readPages_last {count : Nat} {sizes : Nat → Nat} {first : Int} {p : Page}
    (hpage : page key first (sizes 0) h = .ok p h) (hnext : p.next = none) :
    readPages key (count + 1) sizes first h = .ok ([p], none) h := by
  simp only [readPages, bind, EStateM.bind, hpage, hnext]
  rfl

theorem readPages_cons {count : Nat} {sizes : Nat → Nat} {first next : Int} {p : Page}
    {rest : List Page} {left : Option Int} (hpage : page key first (sizes 0) h = .ok p h)
    (hnext : p.next = some next)
    (hrest : readPages key count (fun i => sizes (i + 1)) next h = .ok (rest, left) h) :
    readPages key (count + 1) sizes first h = .ok (p :: rest, left) h := by
  simp only [readPages, bind, EStateM.bind, hpage, hnext, hrest]
  rfl

/-- A reader that has come behind the first `k` events comes to an end, and has got all that is left
    of the log if and only if it was through before a size was too large. -/
theorem readPages_run (numbered : Numbered 1 (h.store.log key))
    (fits : ((h.store.log key).length : Int) ≤ Store.maxEventId) {count k : Nat}
    {sizes : Nat → Nat} (hk : k ≤ (h.store.log key).length)
    (hcount : 0 < count) (hend : (h.store.log key).length ≤ k + count)
    (hsizes : ∀ i, 0 < sizes i ∧ sizes i < 0x10000000000000000) :
    ∃ pages, readPages key count sizes (k + 1) h = .ok (pages, none) h
      ∧ pages.flatMap (·.events) <+: (h.store.log key).drop k
      ∧ (pages.flatMap (·.events) = (h.store.log key).drop k ↔
        Covered (h.store.log key).length k sizes) := by
  induction count generalizing k sizes with
  | zero => cases hcount
  | succ count ih =>
    obtain ⟨hpos, hword⟩ := hsizes 0
    have hpage := page_run numbered fits hk hpos hword
    by_cases hlarge : maxPageSize < sizes 0
    · have hempty : pageBehind (h.store.log key) k (sizes 0) = ⟨[], none⟩ := if_pos hlarge
      rw [hempty] at hpage
      refine ⟨_, readPages_last hpage rfl, List.nil_prefix, ?_⟩
      rw [covered_iff_of_large hlarge, ← List.drop_eq_nil_iff]
      exact eq_comm
    have hcut : pageBehind (h.store.log key) k (sizes 0) =
        ⟨((h.store.log key).drop k).take (sizes 0), if k + sizes 0 < (h.store.log key).length
          then some ((k + sizes 0 : Nat) + 1) else none⟩ :=
      if_neg hlarge
    have hsplit : (h.store.log key).drop k = ((h.store.log key).drop k).take (sizes 0) ++
        (h.store.log key).drop (k + sizes 0) := by
      rw [← List.drop_drop, List.take_append_drop]
    rw [hcut] at hpage
    rw [covered_iff_behind hlarge]
    by_cases hmore : k + sizes 0 < (h.store.log key).length
    · rw [if_pos hmore] at hpage
      obtain ⟨rest, hread, hbefore, hall⟩ :=
        ih (k := k + sizes 0) (by omega) (by omega) (by omega) fun i => hsizes (i + 1)
      refine ⟨_, readPages_cons hpage rfl hread, ?_, ?_⟩
      all_goals generalize ((h.store.log key).drop k).take (sizes 0) = taken at hsplit
      · rw [List.flatMap_cons, hsplit]
        exact (List.prefix_append_right_inj _).mpr hbefore
      · rw [List.flatMap_cons, hsplit, List.append_cancel_left_eq]
        exact hall
    · rw [if_neg hmore] at hpage
      have hrest : ((h.store.log key).drop k).take (sizes 0) = (h.store.log key).drop k := by
        apply List.take_of_length_le
        rw [List.length_drop]
        omega
      rw [hrest] at hpage
      have hcovered : Covered (h.store.log key).length (k + sizes 0) fun i => sizes (i + 1) :=
        covered_of_le (Nat.le_of_not_lt hmore)
      refine ⟨_, readPages_last hpage rfl, ?_, ?_⟩
      · simp
      · simpa using hcovered

/-- Behind every run: a reader of pages of any sizes but zero, each a number of sixty-four bits,
    always comes to an end and never gets anything but the first events of the log, in their order.
    He gets the whole log if and only if he is through before he asks for a page of more than half
    the range of such numbers. -/
theorem pages_are_whole_iff (h : History Memory) (requests : List (Instant × Request))
    (key : ExecutionKey) (sizes : Nat → UInt64) (positive : ∀ i, 0 < sizes i)
    (fits : (((h.emptied.run requests).store.log key).length : Int) ≤ Store.maxEventId) :
    let h' := h.emptied.run requests
    let log := h'.store.log key
    ∃ pages, readPages key (max log.length 1) (fun i => (sizes i).toNat) 1 h' = .ok (pages, none) h'
      ∧ pages.flatMap (·.events) <+: log
      ∧ (pages.flatMap (·.events) = log ↔
        ∀ i, maxPageSize < (sizes i).toNat →
          log.length ≤ ∑ j ∈ Finset.range i, (sizes j).toNat) := by
  intro h' log
  have numbered : Numbered 1 (h'.store.log key) := ((coherent_run h requests).records key).numbered
  have hsizes : ∀ i, 0 < (sizes i).toNat ∧ (sizes i).toNat < 0x10000000000000000 := fun i =>
    ⟨UInt64.lt_iff_toNat_lt.mp (positive i), (sizes i).toNat_lt⟩
  obtain ⟨pages, hread, hbefore, hall⟩ := readPages_run numbered fits (Nat.zero_le _)
    (Nat.le_max_right log.length 1)
    (Nat.le_trans (Nat.le_max_left log.length 1) (Nat.le_add_left _ _)) hsizes
  refine ⟨pages, hread, hbefore, hall.trans ?_⟩
  unfold Covered
  simp only [Nat.zero_add]
  rfl

/-- An execution is started and something is noted in it. -/
def notedOrder : List (Instant × Request) :=
  let key : ExecutionKey := ⟨"acme", "wf-1", "r-1"⟩
  [(⟨0, 0⟩, .start key ⟨"order", "orders", [], none, none, ""⟩),
    (⟨0, 0⟩, .record key (.marker "paid" []))]

/-- Its three events are on two pages of two events each. -/
theorem noted_order_is_read_in_twos :
    let h := quiet.emptied.run notedOrder
    let key : ExecutionKey := ⟨"acme", "wf-1", "r-1"⟩
    (h.store.log key).length = 3
      ∧ ∃ pages, readPages key 3 (fun _ => 2) 1 h = .ok (pages, none) h
        ∧ pages.flatMap (·.events) = h.store.log key := by
  intro h key
  have hlength : (h.store.log key).length = 3 := by decide +kernel
  have hfits : ((h.store.log key).length : Int) ≤ Store.maxEventId := by
    rw [hlength]
    decide
  obtain ⟨pages, hread, -, hall⟩ :=
    pages_are_whole_iff quiet notedOrder key (fun _ => 2) (fun _ => by decide) hfits
  change readPages key (max (h.store.log key).length 1) (fun _ => 2) 1 h = _ at hread
  rw [hlength] at hread
  exact ⟨hlength, pages, hread, hall.mpr fun _ hlarge => absurd hlarge (by decide)⟩

/-- Whoever asks for as large a page as possible is told that the log is at its end, and gets none
    of its events. -/
theorem largest_page_is_empty :
    let h := quiet.emptied.run notedOrder
    let key : ExecutionKey := ⟨"acme", "wf-1", "r-1"⟩
    (h.store.log key).length = 3
      ∧ readPages key 3 (fun _ => 0xffffffffffffffff) 1 h = .ok ([⟨[], none⟩], none) h := by
  intro h key
  have hlength : (h.store.log key).length = 3 := by decide +kernel
  have hfits : ((h.store.log key).length : Int) ≤ Store.maxEventId := by
    rw [hlength]
    decide
  have numbered := ((coherent_run quiet notedOrder).records key).numbered
  have hpage : page key 1 0xffffffffffffffff h = .ok ⟨[], none⟩ h :=
    page_run numbered hfits (Nat.zero_le _) (by decide) (by decide)
  exact ⟨hlength, readPages_last hpage rfl⟩

end History

end Durable
