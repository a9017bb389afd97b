import Mathlib.Data.List.Forall2
import Mathlib.Data.List.Perm.Basic
import Durable.Store.Memory
import Durable.Timer.Registry
import Durable.Timer.Service

/-!
# From the scanner to the processors

Scanner, channel and processors of a service, with their steps in any order and everybody else free
to change the store between any two of them. Timers are numbered as they enter the channel. Each is
fired once, none is in flight twice, and when scanner and processors have come to their ends nothing
is left in flight.
-/

namespace Durable

/-! ### Keys in flight -/

/-- Whether a set holds the given keys, none of them given twice. -/
def HoldsEach (set : Std.ExtTreeSet TimerKey) (keys : List TimerKey) : Prop :=
  keys.Nodup ∧ ∀ key, key ∈ set ↔ key ∈ keys

namespace HoldsEach

variable {set : Std.ExtTreeSet TimerKey} {keys others : List TimerKey} {key : TimerKey}

theorem perm (h : HoldsEach set keys) (hperm : keys.Perm others) : HoldsEach set others :=
  ⟨hperm.nodup_iff.mp h.1, fun key => (h.2 key).trans hperm.mem_iff⟩

theorem insert (h : HoldsEach set keys) (hnew : key ∉ set) :
    HoldsEach (set.insert key) (key :: keys) := by
  refine ⟨List.nodup_cons.mpr ⟨fun hmem => hnew ((h.2 key).mpr hmem), h.1⟩, fun k => ?_⟩
  rw [Std.ExtTreeSet.mem_insert, Std.compare_eq_iff_eq, h.2 k, List.mem_cons]
  exact or_congr eq_comm Iff.rfl

theorem erase (h : HoldsEach set (key :: keys)) : HoldsEach (set.erase key) keys := by
  obtain ⟨hfirst, hrest⟩ := List.nodup_cons.mp h.1
  refine ⟨hrest, fun k => ?_⟩
  rw [Std.ExtTreeSet.mem_erase, ne_eq, Std.compare_eq_iff_eq, h.2 k, List.mem_cons]
  constructor
  · rintro ⟨hne, rfl | hmem⟩
    · exact absurd rfl hne
    · exact hmem
  · intro hmem
    exact ⟨fun heq => hfirst (heq ▸ hmem), .inr hmem⟩

theorem eq_empty (h : HoldsEach set []) : set = ∅ :=
  Std.ExtTreeSet.ext_mem fun key => by simp [h.2 key]

end HoldsEach

/-! ### Firings -/

/-- What a step of a firing meets: the time, what comes of a report, and the store. -/
structure Moment (σ : Type) where
  now : Instant
  result : CallResult
  store : σ

namespace FiringPhase

variable {σ : Type} [Store σ]

/-- The phase behind some steps, each of them at a moment of its own. -/
def through (s : TimerSettings) (key : TimerKey) (moments : List (Moment σ))
    (phase : FiringPhase) : FiringPhase :=
  moments.foldl (fun phase m => (step s m.now key m.result phase m.store).1) phase

/-- Whether the firing of a timer comes to a phase. -/
def Comes (σ : Type) [Store σ] (s : TimerSettings) (key : TimerKey) (phase : FiringPhase) : Prop :=
  ∃ moments : List (Moment σ), through s key moments .reading = phase

theorem Comes.through {s : TimerSettings} {key : TimerKey} {phase : FiringPhase}
    (h : Comes σ s key phase) (moments : List (Moment σ)) :
    Comes σ s key (phase.through s key moments) := by
  obtain ⟨before, rfl⟩ := h
  exact ⟨before ++ moments, List.foldl_append⟩

end FiringPhase

/-- A firing behind some steps. -/
def Firing.advanced {σ : Type} [Store σ] (s : TimerSettings) (f : Firing)
    (moments : List (Moment σ)) (wakeAt : Nat) : Firing :=
  { f with phase := f.phase.through s f.key moments, wakeAt }

/-! ### Calls of a service -/

/-- The timer that the scanner offers to the channel. -/
def ScannerPhase.offered : ScannerPhase → List Timer
  | sending t _ _ => [t]
  | _ => []

namespace TimerService

/-- The keys of the timer that is offered, of those in the channel and of those that processors are
    at. -/
def held (s : TimerService) : List TimerKey :=
  s.scanner.offered.map (·.key) ++ (s.channel.map (·.key) ++ s.busy.map (·.key))

/-- The scanner comes to its end and withdraws the timer that it offers. -/
def halt (s : TimerService) : TimerService :=
  match s.scanner with
  | .sending t _ _ => { s with scanner := .stopped, inflight := s.inflight.erase t.key }
  | _ => { s with scanner := .stopped }

theorem held_perm_eraseIdx (s : TimerService) {place : Nat} (h : place < s.busy.length) :
    s.held.Perm (s.busy[place].key :: held { s with busy := s.busy.eraseIdx place }) := by
  unfold held
  rw [← List.append_assoc, ← List.append_assoc]
  refine List.Perm.trans ?_ List.perm_middle
  exact ((List.getElem_cons_eraseIdx_perm h).map (·.key)).symm.append_left _

variable {s s' : TimerService}

/-- Whoever stops a service says so, and the scanner halts. -/
theorem stop_eq_ok (h : s.stop = .ok s') :
    s.lifecycle = .running ∧ s' = halt { s with lifecycle := .stopped } := by
  unfold stop at h
  split at h
  · rename_i hrunning
    refine ⟨hrunning, ?_⟩
    unfold halt
    dsimp only at h ⊢
    cases hscanner : s.scanner with
    | sending t rest nextLook =>
      rw [hscanner] at h
      cases h
      rfl
    | waiting | stopped =>
      rw [hscanner] at h
      cases h
      rfl
  · cases h

/-- The scanner passes over timers in flight: it comes to offer one that is not, or to wait. -/
theorem offerNext_spec (s : TimerService) (nextLook : Nat) (due : List Timer)
    {keys : List TimerKey} (h : HoldsEach s.inflight keys) :
    ∃ scanner inflight waits, s.offerNext nextLook due = { s with scanner, inflight, waits }
      ∧ s.waits ≤ waits ∧ HoldsEach inflight (scanner.offered.map (·.key) ++ keys) := by
  induction due with
  | nil => exact ⟨_, s.inflight, s.waits + 1, rfl, Nat.le_succ _, h⟩
  | cons t rest ih =>
    unfold offerNext
    by_cases ht : t.key ∈ s.inflight
    · rw [if_pos ht]
      exact ih
    · rw [if_neg ht]
      exact ⟨.sending t rest nextLook, s.inflight.insert t.key, s.waits, rfl, Nat.le_refl _,
        h.insert ht⟩

theorem receive?_eq_some {f : Firing} (h : s.receive? = some (f, s')) :
    ∃ timer rest, s.channel = timer :: rest ∧ 0 < s.idle ∧ f = { key := timer.key }
      ∧ s' = { s with channel := rest, idle := s.idle - 1 } := by
  unfold receive? at h
  split at h
  · cases h
  · rename_i timer rest hchannel
    split at h
    · cases h
    · rename_i hidle
      cases h
      exact ⟨timer, rest, hchannel, Nat.pos_of_ne_zero hidle, rfl, rfl⟩

theorem push?_eq_some (h : s.push? = some s') :
    ∃ t rest nextLook, s.scanner = .sending t rest nextLook ∧ s.channel.length < s.capacity
      ∧ s' = { s with channel := s.channel ++ [t] }.offerNext nextLook rest := by
  unfold push? at h
  split at h
  · rename_i t rest nextLook hscanner
    split at h
    · rename_i hroom
      cases h
      exact ⟨t, rest, nextLook, hscanner, hroom, rfl⟩
    · cases h
  · cases h

end TimerService

/-! ### Steps in any order -/

/-- A service with what has gone through it. Timers are numbered in the order in which they have
    entered the channel. -/
structure Pipeline where
  service : TimerService
  /-- The timers that have entered the channel, oldest first. -/
  entered : List Timer := []
  /-- How many of them have been taken out. -/
  taken : Nat := 0
  /-- The numbers of those that processors are at, in the order of their firings. -/
  working : List Nat := []
  /-- The numbers of those whose firings are over, and how these have ended. -/
  finished : List (Nat × FiringPhase) := []
  /-- How many processors have come to their end. -/
  gone : Nat := 0

/-- Something that scanner, processors or whoever stops them can do next. -/
inductive PipelineMove (σ : Type) where
  /-- The scanner comes back from a look with the timers that it has found due. -/
  | look (nextLook : Nat) (due : List Timer)
  /-- The offered timer enters the channel. -/
  | push
  /-- A processor takes a timer out of the channel, and some steps of its firing are taken. -/
  | receive (moments : List (Moment σ)) (wakeAt : Nat)
  /-- Some steps are taken of the firing at a place. -/
  | goOn (place : Nat) (moments : List (Moment σ)) (wakeAt : Nat)
  /-- Somebody asks the service to stop. -/
  | cancel
  /-- The scanner has noticed that it is to stop. -/
  | halt
  /-- A processor finds that nothing comes any more. -/
  | leave

namespace Pipeline

/-- A processor puts down its firing of the timer with a number. -/
def putDown (p : Pipeline) (n : Nat) (f : Firing) : Pipeline :=
  let service := p.service.putDown f
  if f.phase.isOver then { p with service, finished := p.finished ++ [(n, f.phase)] }
  else { p with service, working := p.working ++ [n] }

variable {σ : Type} [Store σ]

/-- What happens in a move; one that is not possible does nothing. -/
def move (p : Pipeline) : PipelineMove σ → Pipeline
  | .look nextLook due =>
    match p.service.scanner with
    | .waiting .. => { p with service := p.service.offerNext nextLook due }
    | _ => p
  | .push =>
    match p.service.push? with
    | some service => { p with service, entered := p.entered ++ p.service.scanner.offered }
    | none => p
  | .receive moments wakeAt =>
    match p.service.receive? with
    | some (f, service) =>
      { p with service, taken := p.taken + 1 }.putDown p.taken
        (f.advanced p.service.settings moments wakeAt)
    | none => p
  | .goOn place moments wakeAt =>
    match p.service.busy[place]?, p.working[place]? with
    | some f, some n =>
      let service := { p.service with busy := p.service.busy.eraseIdx place }
      { p with service, working := p.working.eraseIdx place }.putDown n
        (f.advanced p.service.settings moments wakeAt)
    | _, _ => p
  | .cancel =>
    if p.service.lifecycle = .running then
      { p with service := { p.service with lifecycle := .stopped } }
    else p
  | .halt =>
    if p.service.lifecycle = .stopped then { p with service := p.service.halt } else p
  | .leave =>
    if p.service.scanner = .stopped ∧ p.service.channel = [] ∧ 0 < p.service.idle then
      { p with service := { p.service with idle := p.service.idle - 1 }, gone := p.gone + 1 }
    else p

/-- What happens in some moves one after another. -/
def run (p : Pipeline) (moves : List (PipelineMove σ)) : Pipeline :=
  moves.foldl move p

/-- Whether whoever has stopped the service has waited for scanner and processors. -/
def HasStopped (p : Pipeline) : Prop :=
  p.service.lifecycle = .stopped ∧ p.service.scanner = .stopped
    ∧ p.gone = p.service.processors

/-- Whether a firing is that of the timer with a number, and comes to where it is. -/
def IsFiringOf (σ : Type) [Store σ] (settings : TimerSettings) (entered : List Timer) (n : Nat)
    (f : Firing) : Prop :=
  ∃ t, entered[n]? = some t ∧ t.key = f.key ∧ f.phase.Comes σ settings f.key

/-- What holds while processors have the firings `hand` in their hands, with the numbers of their
    timers. -/
structure Sound (σ : Type) [Store σ] (settings : TimerSettings) (hand : List (Nat × Firing))
    (p : Pipeline) : Prop where
  configured : p.service.settings = settings
  inflight : HoldsEach p.service.inflight (hand.map (·.2.key) ++ p.service.held)
  room : p.service.channel.length ≤ p.service.capacity
  hands : hand.length + p.service.idle + p.service.busy.length + p.gone = p.service.processors
  inOrder : p.service.channel = p.entered.drop p.taken
  taken : p.taken ≤ p.entered.length
  once : (hand.map (·.1) ++ p.working ++ p.finished.map (·.1)).Perm (List.range p.taken)
  atHand : ∀ n f, (n, f) ∈ hand → IsFiringOf σ settings p.entered n f
  atWork : List.Forall₂ (IsFiringOf σ settings p.entered) p.working p.service.busy
  ended : ∀ n phase, (n, phase) ∈ p.finished → phase.isOver
    ∧ ∃ t, p.entered[n]? = some t ∧ phase.Comes σ settings t.key
  drained : 0 < p.gone → p.service.scanner = .stopped ∧ p.service.channel = []
  orders : (p.service.busy.map (·.order)).Pairwise (· < ·)
  below : ∀ f ∈ p.service.busy, f.order < p.service.waits

section Steps

variable {settings : TimerSettings} {hand : List (Nat × Firing)} {p : Pipeline}
  {s : TimerService} {n : Nat} {f : Firing}

theorem IsFiringOf.append {entered : List Timer} (h : IsFiringOf σ settings entered n f)
    (more : List Timer) : IsFiringOf σ settings (entered ++ more) n f := by
  obtain ⟨t, ht, hkey, hcomes⟩ := h
  obtain ⟨hn, -⟩ := List.getElem?_eq_some_iff.mp ht
  exact ⟨t, (List.getElem?_append_left hn).trans ht, hkey, hcomes⟩

/-- The steps of a firing in a hand. -/
theorem Sound.advanced (h : Sound σ settings [(n, f)] p) (moments : List (Moment σ))
    (wakeAt : Nat) : Sound σ settings [(n, f.advanced settings moments wakeAt)] p := by
  refine { h with atHand := fun m g hg => ?_ }
  obtain ⟨rfl, rfl⟩ := Prod.mk.inj (List.mem_singleton.mp hg)
  obtain ⟨t, ht, hkey, hcomes⟩ := h.atHand m f List.mem_cons_self
  exact ⟨t, ht, hkey, hcomes.through moments⟩

/-- A processor puts down the firing in its hand. -/
theorem Sound.putDown (h : Sound σ settings [(n, f)] p) : Sound σ settings [] (p.putDown n f) := by
  obtain ⟨t, ht, hkey, hcomes⟩ := h.atHand n f List.mem_cons_self
  have hands := h.hands
  have honce : (n :: (p.working ++ p.finished.map (·.1))).Perm (List.range p.taken) := h.once
  unfold Pipeline.putDown TimerService.putDown
  by_cases hover : f.phase.isOver
  · simp only [hover, ↓reduceIte]
    refine ⟨h.configured, h.inflight.erase, h.room, ?_, h.inOrder, h.taken, ?_, ?_, h.atWork, ?_,
      h.drained, h.orders, h.below⟩
    · change 0 + (p.service.idle + 1) + p.service.busy.length + p.gone = p.service.processors
      rw [List.length_singleton] at hands
      omega
    · rw [List.map_append, List.map_nil, List.nil_append, ← List.append_assoc]
      exact (List.perm_append_singleton n _).trans honce
    · intro m g hg
      cases hg
    · intro m phase hmem
      rcases List.mem_append.mp hmem with hmem | hmem
      · exact h.ended m phase hmem
      · obtain ⟨rfl, rfl⟩ := Prod.mk.inj (List.mem_singleton.mp hmem)
        exact ⟨hover, t, ht, hkey ▸ hcomes⟩
  · simp only [hover, Bool.false_eq_true, ↓reduceIte]
    refine ⟨h.configured, h.inflight.perm ?_, h.room, ?_, h.inOrder, h.taken, ?_, ?_, ?_, h.ended,
      h.drained, ?_, ?_⟩
    · change (f.key :: p.service.held).Perm _
      unfold TimerService.held
      dsimp only
      rw [List.map_nil, List.nil_append, List.map_append, ← List.append_assoc,
        ← List.append_assoc, ← List.append_assoc]
      exact (List.perm_append_singleton f.key _).symm
    · rw [List.length_append]
      rw [List.length_singleton] at hands ⊢
      change 0 + p.service.idle + (p.service.busy.length + 1) + p.gone = p.service.processors
      omega
    · rw [List.map_nil, List.nil_append]
      refine List.Perm.trans ?_ honce
      rw [← List.cons_append]
      exact (List.perm_append_singleton n p.working).append_right _
    · intro m g hg
      cases hg
    · refine List.rel_append h.atWork (.cons ⟨t, ht, hkey, hcomes⟩ .nil)
    · rw [List.map_append, List.map_singleton, List.pairwise_append]
      refine ⟨h.orders, List.pairwise_singleton _ _, fun a ha b hb => ?_⟩
      obtain ⟨g, hg, rfl⟩ := List.mem_map.mp ha
      obtain rfl := List.mem_singleton.mp hb
      exact h.below g hg
    · intro g hg
      rcases List.mem_append.mp hg with hg | hg
      · exact Nat.lt_succ_of_lt (h.below g hg)
      · obtain rfl := List.mem_singleton.mp hg
        exact Nat.lt_succ_self _

/-- A processor takes a timer out of the channel into its hand. -/
theorem Sound.receive (h : Sound σ settings [] p) (hs : p.service.receive? = some (f, s)) :
    Sound σ settings [(p.taken, f)] { p with service := s, taken := p.taken + 1 } := by
  obtain ⟨timer, rest, hchannel, hidle, rfl, rfl⟩ := TimerService.receive?_eq_some hs
  have hdrop : p.entered.drop p.taken = timer :: rest := h.inOrder.symm.trans hchannel
  have hlt : p.taken < p.entered.length := by
    have hlength := congrArg List.length hdrop
    rw [List.length_drop, List.length_cons] at hlength
    omega
  have htimer : p.entered[p.taken]? = some timer := by
    rw [← List.head?_drop, hdrop]
    rfl
  have hands := h.hands
  have hroom := h.room
  rw [hchannel, List.length_cons] at hroom
  refine ⟨h.configured, h.inflight.perm ?_, Nat.le_of_succ_le hroom, ?_, ?_, hlt, ?_, ?_, h.atWork,
    h.ended, ?_, h.orders, h.below⟩
  · change p.service.held.Perm (timer.key :: _)
    unfold TimerService.held
    rw [hchannel]
    exact List.perm_middle
  · rw [List.length_nil] at hands
    change 1 + (p.service.idle - 1) + p.service.busy.length + p.gone = p.service.processors
    omega
  · rw [← List.tail_drop, hdrop]
    rfl
  · rw [List.range_succ]
    exact (h.once.cons p.taken).trans (List.perm_append_singleton _ _).symm
  · intro m g hg
    obtain ⟨rfl, rfl⟩ := Prod.mk.inj (List.mem_singleton.mp hg)
    exact ⟨timer, htimer, rfl, [], rfl⟩
  · intro hgone
    rw [(h.drained hgone).2] at hchannel
    cases hchannel

/-- A processor takes its firing into its hand again. -/
theorem Sound.lift (h : Sound σ settings [] p) {place : Nat}
    (hf : p.service.busy[place]? = some f) (hn : p.working[place]? = some n) :
    Sound σ settings [(n, f)]
      { p with
        service := { p.service with busy := p.service.busy.eraseIdx place }
        working := p.working.eraseIdx place } := by
  obtain ⟨hlt, rfl⟩ := List.getElem?_eq_some_iff.mp hf
  obtain ⟨hlt', rfl⟩ := List.getElem?_eq_some_iff.mp hn
  have hbusy := List.getElem_cons_eraseIdx_perm hlt
  have hands := h.hands
  refine ⟨h.configured, h.inflight.perm ?_, h.room, ?_, h.inOrder, h.taken, ?_, ?_, ?_, h.ended,
    h.drained, ?_, ?_⟩
  · exact p.service.held_perm_eraseIdx hlt
  · have hlength := hbusy.length_eq
    rw [List.length_cons] at hlength
    rw [List.length_nil] at hands
    change 1 + p.service.idle + (p.service.busy.eraseIdx place).length + p.gone
      = p.service.processors
    omega
  · have hworking := List.getElem_cons_eraseIdx_perm hlt'
    exact (hworking.append_right _).trans h.once
  · intro m g hg
    obtain ⟨rfl, rfl⟩ := Prod.mk.inj (List.mem_singleton.mp hg)
    exact (List.forall₂_iff_get.mp h.atWork).2 place hlt' hlt
  · rw [List.eraseIdx_eq_take_drop_succ, List.eraseIdx_eq_take_drop_succ]
    exact List.rel_append (List.forall₂_take place h.atWork)
      (List.forall₂_drop (place + 1) h.atWork)
  · exact h.orders.sublist ((List.eraseIdx_sublist _ place).map _)
  · intro g hg
    exact h.below g (List.mem_of_mem_eraseIdx hg)

/-- The scanner offers what it has found to whatever it has not yet handed over. -/
theorem Sound.offerNext (h : Sound σ settings [] p) {channel entered : List Timer}
    (hinflight : HoldsEach p.service.inflight (channel.map (·.key) ++ p.service.busy.map (·.key)))
    (hroom : channel.length ≤ p.service.capacity) (hinOrder : channel = entered.drop p.taken)
    (hentered : p.entered <+: entered) (hgone : p.gone = 0) (nextLook : Nat) (due : List Timer) :
    Sound σ settings []
      { p with
        service := { p.service with channel }.offerNext nextLook due
        entered } := by
  obtain ⟨more, rfl⟩ := hentered
  obtain ⟨scanner, inflight, waits, heq, hwaits, hholds⟩ :=
    TimerService.offerNext_spec { p.service with channel } nextLook due hinflight
  rw [heq]
  refine ⟨h.configured, hholds, hroom, h.hands, hinOrder, ?_, h.once, ?_, ?_, ?_, ?_, h.orders, ?_⟩
  · rw [List.length_append]
    exact Nat.le_add_right_of_le h.taken
  · intro m g hg
    cases hg
  · exact h.atWork.imp fun m g hg => hg.append more
  · intro m phase hmem
    obtain ⟨hover, t, ht, hcomes⟩ := h.ended m phase hmem
    obtain ⟨hm, -⟩ := List.getElem?_eq_some_iff.mp ht
    exact ⟨hover, t, (List.getElem?_append_left hm).trans ht, hcomes⟩
  · intro hpos
    rw [hgone] at hpos
    cases hpos
  · intro g hg
    exact Nat.lt_of_lt_of_le (h.below g hg) hwaits

theorem Sound.holdsEach (h : Sound σ settings [] p) {offered : List Timer}
    (hoffered : p.service.scanner.offered = offered) :
    HoldsEach p.service.inflight
      (offered.map (·.key) ++ (p.service.channel.map (·.key) ++ p.service.busy.map (·.key))) :=
  hoffered ▸ h.inflight

/-- While the scanner goes on no processor has come to its end. -/
theorem Sound.gone_eq_zero (h : Sound σ settings hand p) (hne : p.service.scanner ≠ .stopped) :
    p.gone = 0 :=
  Nat.eq_zero_of_not_pos fun hpos => hne (h.drained hpos).1

/-- Every move leaves everything as it should be. -/
theorem Sound.move (h : Sound σ settings [] p) (move : PipelineMove σ) :
    Sound σ settings [] (p.move move) := by
  cases move with
  | look nextLook due =>
    unfold Pipeline.move
    dsimp only
    split
    · rename_i planned order hscanner
      have hoffered : p.service.scanner.offered = [] := by rw [hscanner]; rfl
      exact h.offerNext (h.holdsEach hoffered) h.room h.inOrder List.prefix_rfl
        (h.gone_eq_zero (by simp [hscanner])) nextLook due
    · exact h
  | push =>
    unfold Pipeline.move
    dsimp only
    split
    · rename_i service hpush
      obtain ⟨t, rest, nextLook, hscanner, hroom, rfl⟩ := TimerService.push?_eq_some hpush
      have hoffered : p.service.scanner.offered = [t] := by rw [hscanner]; rfl
      rw [hoffered]
      refine h.offerNext ((h.holdsEach hoffered).perm ?_) ?_ ?_ (List.prefix_append _ _)
        (h.gone_eq_zero (by simp [hscanner])) nextLook rest
      · change (t.key :: (p.service.channel.map (·.key) ++ p.service.busy.map (·.key))).Perm _
        rw [List.map_append, List.append_assoc]
        exact List.perm_middle.symm
      · rw [List.length_append]
        exact hroom
      · rw [List.drop_append_of_le_length h.taken, ← h.inOrder]
    · exact h
  | receive moments wakeAt =>
    unfold Pipeline.move
    dsimp only
    split
    · rename_i f service hreceive
      rw [h.configured]
      exact ((h.receive hreceive).advanced moments wakeAt).putDown
    · exact h
  | goOn place moments wakeAt =>
    unfold Pipeline.move
    dsimp only
    split
    · rename_i f n hf hn
      have hadvanced : f.advanced p.service.settings moments wakeAt
          = f.advanced settings moments wakeAt := by rw [h.configured]
      rw [hadvanced]
      exact ((h.lift hf hn).advanced moments wakeAt).putDown
    · exact h
  | cancel =>
    unfold Pipeline.move
    dsimp only
    split
    · exact { h with }
    · exact h
  | halt =>
    unfold Pipeline.move
    dsimp only
    split
    · unfold TimerService.halt
      split
      · rename_i t rest nextLook hscanner
        have hoffered : p.service.scanner.offered = [t] := by rw [hscanner]; rfl
        exact { h with
          inflight := (h.holdsEach hoffered).erase
          drained := fun hpos => absurd (h.drained hpos).1 (by simp [hscanner]) }
      · rename_i hother
        have hoffered : p.service.scanner.offered = [] := by
          cases hscanner : p.service.scanner with
          | sending t rest nextLook => exact absurd hscanner (hother t rest nextLook)
          | waiting | stopped => rfl
        exact { h with
          inflight := h.holdsEach hoffered
          drained := fun hpos => ⟨rfl, (h.drained hpos).2⟩ }
    · exact h
  | leave =>
    unfold Pipeline.move
    dsimp only
    split
    · rename_i hall
      obtain ⟨hscanner, hchannel, hidle⟩ := hall
      have hands := h.hands
      refine { h with hands := ?_, drained := fun _ => ⟨hscanner, hchannel⟩ }
      change 0 + (p.service.idle - 1) + p.service.busy.length + (p.gone + 1)
        = p.service.processors
      rw [List.length_nil] at hands
      omega
    · exact h

theorem Sound.run (h : Sound σ settings [] p) (moves : List (PipelineMove σ)) :
    Sound σ settings [] (p.run moves) := by
  unfold Pipeline.run
  induction moves generalizing p with
  | nil => exact h
  | cons move rest ih => exact ih (h.move move)

/-- A service that was just started. -/
theorem sound_of_start {clock : Clock}
    (h : (TimerService.ofSettings settings).start clock = .ok s) :
    Sound σ settings [] { service := s } := by
  cases h
  let scanner : ScannerPhase :=
    if settings.scanIntervalMs = 0 then .stopped else .waiting clock.elapsed 0
  have hoffered : scanner.offered = [] := by
    unfold scanner
    split <;> rfl
  refine ⟨rfl, ?_, Nat.zero_le _, ?_, rfl, Nat.le_refl 0, .refl _, ?_, .nil, ?_, ?_,
    List.Pairwise.nil, ?_⟩
  · change HoldsEach ∅ (scanner.offered.map (·.key) ++ [])
    rw [hoffered]
    exact ⟨List.nodup_nil, fun key => by simp⟩
  · exact Nat.zero_add (TimerService.ofSettings settings).processors
  · intro n f hmem
    cases hmem
  · intro n phase hmem
    cases hmem
  · intro hpos
    cases hpos
  · intro f hf
    cases hf

/-- Whoever has stopped the service and waited finds everything fired and nothing in flight. -/
theorem Sound.all_fired (h : Sound σ settings [] p) (hstopped : p.HasStopped) :
    p.service.channel = [] ∧ p.service.inflight = ∅ ∧ p.service.busy = []
      ∧ (p.finished.map (·.1)).Perm (List.range p.entered.length) := by
  obtain ⟨-, hscanner, hgone⟩ := hstopped
  have hpos : 0 < p.service.processors := Nat.lt_of_lt_of_le Nat.zero_lt_one (Nat.le_max_right _ _)
  have hchannel : p.service.channel = [] := (h.drained (hgone ▸ hpos)).2
  have hbusy : p.service.busy = [] := by
    have hands := h.hands
    rw [List.length_nil] at hands
    apply List.eq_nil_of_length_eq_zero
    omega
  have hall : p.taken = p.entered.length := by
    have hnone := h.inOrder.symm.trans hchannel
    exact Nat.le_antisymm h.taken (List.drop_eq_nil_iff.mp hnone)
  have hworking : p.working = [] := by
    have hlength := h.atWork.length_eq
    rw [hbusy] at hlength
    exact List.eq_nil_of_length_eq_zero hlength
  have hoffered : p.service.scanner.offered = [] := by rw [hscanner]; rfl
  have hinflight := h.holdsEach hoffered
  rw [hchannel, hbusy] at hinflight
  have honce := h.once
  rw [hworking, hall] at honce
  exact ⟨hchannel, hinflight.eq_empty, hbusy, honce⟩

end Steps

/-- A service that is started runs with the steps of its scanner and its processors in any order,
    and may be asked to stop at any time. The keys in flight are at any time those of the timer that
    is offered, of the timers in the channel and of those that processors are at, none of them
    twice. Of the timers that have entered the channel those taken out are the oldest, and each of
    these is either at one processor or was fired to the end, once. When the service has stopped all
    that have entered were fired, and nothing is left. -/
theorem entered_timers_are_fired_once (settings : TimerSettings) (clock : Clock) :
    ∃ s, (TimerService.ofSettings settings).start clock = .ok s
      ∧ ∀ moves : List (PipelineMove σ),
        let p := ({ service := s } : Pipeline).run moves
        (p.service.held.Nodup ∧ ∀ key, key ∈ p.service.inflight ↔ key ∈ p.service.held)
          ∧ p.service.channel.length ≤ max settings.queueCapacity 1
          ∧ p.service.idle + p.service.busy.length + p.gone = max settings.concurrency 1
          ∧ p.service.channel = p.entered.drop p.taken
          ∧ (p.working ++ p.finished.map (·.1)).Perm (List.range p.taken)
          ∧ List.Forall₂ (IsFiringOf σ settings p.entered) p.working p.service.busy
          ∧ (∀ n phase, (n, phase) ∈ p.finished → phase.isOver
            ∧ ∃ t, p.entered[n]? = some t ∧ phase.Comes σ settings t.key)
          ∧ (p.HasStopped → p.service.channel = [] ∧ p.service.inflight = ∅ ∧ p.service.busy = []
            ∧ (p.finished.map (·.1)).Perm (List.range p.entered.length)) := by
  refine ⟨_, rfl, fun moves => ?_⟩
  intro p
  have h : Sound σ settings [] p := (sound_of_start rfl).run moves
  have hroom := h.room
  have hands := h.hands
  unfold TimerService.capacity at hroom
  unfold TimerService.processors at hands
  rw [h.configured] at hroom hands
  rw [List.length_nil, Nat.zero_add] at hands
  exact ⟨h.inflight, hroom, hands, h.inOrder, h.once, h.atWork, h.ended, h.all_fired⟩

/-- Of three due timers one is at the only processor, one is in the channel of one place and one is
    offered when somebody stops the service. The third is withdrawn, the others are brought to their
    ends. -/
example :
    let settings : TimerSettings := { queueCapacity := 1, concurrency := 1 }
    let due := ["a", "b", "c"].map fun id =>
      TimerRegistry.freshTimer (.ofShards 1) ⟨0, 0⟩ ⟨⟨"acme", "wf-1", "r-1"⟩, id⟩ ⟨0, 0⟩
    let gone : List (Moment Memory) := [⟨⟨0, 0⟩, .ok, {}⟩]
    (((TimerService.ofSettings settings).start ⟨⟨0, 0⟩, 0⟩).toOption.map fun service =>
      let p := ({ service } : Pipeline).run [.look 1000 due, .push, .receive [] 0, .push, .cancel,
        .halt, .goOn 0 gone 0, .receive gone 0, .leave]
      (p.entered.map (·.key.timerId), p.finished, p.gone, p.service.held.length)) =
      some (["a", "b"], [(0, .done .skipped), (1, .done .skipped)], 1, 0) := by
  decide +kernel

/-! ### The order that a service takes -/

theorem service_putDown (p : Pipeline) (n : Nat) (f : Firing) :
    (p.putDown n f).service = p.service.putDown f := by
  unfold Pipeline.putDown
  dsimp only
  split <;> rfl

/-- Whether some moves bring the service to a state. -/
def Reaches (σ : Type) [Store σ] (p : Pipeline) (s : TimerService) : Prop :=
  ∃ moves : List (PipelineMove σ), (p.run moves).service = s

section Reaching

variable {settings : TimerSettings} {p : Pipeline} {s s' : TimerService}

theorem Reaches.refl (p : Pipeline) : Reaches σ p p.service := ⟨[], rfl⟩

theorem Reaches.of_move (move : PipelineMove σ) (h : Reaches σ (p.move move) s) :
    Reaches σ p s := by
  obtain ⟨moves, hmoves⟩ := h
  exact ⟨move :: moves, hmoves⟩

/-- What is reached from where a run has come to is reached. -/
theorem Reaches.andThen (hs : Sound σ settings [] p) (h : Reaches σ p s)
    (hnext : ∀ q : Pipeline, Sound σ settings [] q → q.service = s → Reaches σ q s') :
    Reaches σ p s' := by
  obtain ⟨moves, hmoves⟩ := h
  obtain ⟨more, hmore⟩ := hnext (p.run moves) (hs.run moves) hmoves
  refine ⟨moves ++ more, ?_⟩
  rw [← hmore]
  exact congrArg Pipeline.service List.foldl_append

/-- Without the one that has a place in the order of all waiting. -/
theorem filter_ne_eq_eraseIdx {busy : List Firing} {place : Nat} {f : Firing}
    (horders : (busy.map (·.order)).Pairwise (· < ·)) (hf : busy[place]? = some f) :
    busy.filter (·.order ≠ f.order) = busy.eraseIdx place := by
  induction busy generalizing place with
  | nil => cases hf
  | cons g rest ih =>
    obtain ⟨hfirst, hrest⟩ := List.pairwise_cons.mp horders
    cases place with
    | zero =>
      obtain rfl := Option.some.inj hf
      rw [List.filter_cons_of_neg (by simp), List.eraseIdx_zero, List.tail_cons,
        List.filter_eq_self]
      intro e he
      have hlt : g.order < e.order := hfirst e.order (List.mem_map_of_mem he)
      simp [Nat.ne_of_gt hlt]
    | succ place =>
      have hlt : g.order < f.order := hfirst f.order (List.mem_map_of_mem (List.mem_of_getElem? hf))
      rw [List.filter_cons_of_pos (by simp [Nat.ne_of_lt hlt]), List.eraseIdx_cons_succ,
        ih hrest hf]

theorem takeUp?_eq_some (horders : (s.busy.map (·.order)).Pairwise (· < ·)) {order : Nat}
    {f : Firing} (h : s.takeUp? order = some (f, s')) :
    ∃ place, s.busy[place]? = some f ∧ s' = { s with busy := s.busy.eraseIdx place } := by
  obtain ⟨g, hfind, heq⟩ := Option.map_eq_some_iff.mp h
  cases heq
  have horder : f.order = order := by simpa using List.find?_some hfind
  obtain ⟨place, hplace, rfl⟩ := List.mem_iff_getElem.mp (List.mem_of_find?_eq_some hfind)
  have hf := List.getElem?_eq_getElem hplace
  refine ⟨place, hf, ?_⟩
  rw [← horder, filter_ne_eq_eraseIdx horders hf]

theorem reaches_runScanner (clock : Clock) (fuel : Nat) (p : Pipeline) (w : σ) :
    Reaches σ p (p.service.runScanner clock fuel w).1 := by
  induction fuel generalizing p w with
  | zero => exact .refl p
  | succ fuel ih =>
    unfold TimerService.runScanner
    cases hscanner : p.service.scanner with
    | waiting nextLook order =>
      dsimp only
      by_cases hdue : nextLook ≤ clock.elapsed
      · rw [if_pos hdue]
        obtain ⟨due, w', hlook⟩ : ∃ due w', p.service.look clock nextLook w =
            (p.service.offerNext (p.service.lookAfter nextLook clock.elapsed) due, w') := by
          simp only [TimerService.look, bind, StateT.bind]
          cases StoreM.outcome (p.service.scan clock.now) w with
          | mk found w' =>
            cases found with
            | ok due => exact ⟨due, w', rfl⟩
            | error e => exact ⟨[], w', rfl⟩
        have hmove : (p.move (.look (p.service.lookAfter nextLook clock.elapsed) due :
            PipelineMove σ)).service =
              p.service.offerNext (p.service.lookAfter nextLook clock.elapsed) due := by
          simp only [Pipeline.move, hscanner]
        refine Reaches.of_move (.look (p.service.lookAfter nextLook clock.elapsed) due) ?_
        simp only [bind, StateT.bind, hlook]
        rw [← hmove]
        exact ih _ w'
      · rw [if_neg hdue]
        exact .refl p
    | sending t rest nextLook =>
      dsimp only
      cases hpush : p.service.push? with
      | some s =>
        have hmove : (p.move (.push : PipelineMove σ)).service = s := by
          simp only [Pipeline.move, hpush]
        refine Reaches.of_move .push ?_
        dsimp only
        rw [← hmove]
        exact ih _ w
      | none => exact .refl p
    | stopped => exact .refl p

end Reaching

section Schedule

variable {ω : Type} [Store ω] [TimerHandler ω] {settings : TimerSettings} {p : Pipeline}

theorem firing_step_eq (s : TimerSettings) (now : Instant) (f : Firing) (w : ω) :
    ∃ (m : Moment ω) (w' : ω), f.step s now w = (f.advanced s [m] f.wakeAt, w') := by
  obtain ⟨key, phase, wakeAt, order⟩ := f
  cases phase with
  | calling claimed attempt =>
    exact ⟨⟨now, (TimerHandler.timerFired now key w).1, (TimerHandler.timerFired now key w).2⟩, _,
      rfl⟩
  | _ => exact ⟨⟨now, .ok, w⟩, _, rfl⟩

/-- A firing that goes on takes some steps. -/
theorem runWithin_eq (s : TimerSettings) (clock : Clock) (fuel : Nat) (f : Firing) (w : ω) :
    ∃ (moments : List (Moment ω)) (wakeAt : Nat) (w' : ω),
      Firing.runWithin s clock fuel f w = (f.advanced s moments wakeAt, w') := by
  induction fuel generalizing f w with
  | zero => exact ⟨[], f.wakeAt, w, rfl⟩
  | succ fuel ih =>
    obtain ⟨m, w', hstep⟩ := firing_step_eq s clock.now f w
    simp only [Firing.runWithin, bind, StateT.bind, hstep]
    split
    · exact ⟨[m], f.wakeAt, w', rfl⟩
    · split
      · exact ⟨[m], _, w', rfl⟩
      · obtain ⟨moments, wakeAt, w'', hrest⟩ := ih (f.advanced s [m] f.wakeAt) w'
        exact ⟨m :: moments, wakeAt, w'', hrest⟩

theorem reaches_serve (clock : Clock) (fuel : Nat) (p : Pipeline) (w : ω) :
    Reaches ω p (p.service.serve clock fuel w).1 := by
  induction fuel generalizing p w with
  | zero => exact .refl p
  | succ fuel ih =>
    unfold TimerService.serve
    cases hreceive : p.service.receive? with
    | none => exact .refl p
    | some taken =>
      obtain ⟨f, s⟩ := taken
      obtain ⟨timer, rest, -, -, -, hs⟩ := TimerService.receive?_eq_some hreceive
      have hsettings : s.settings = p.service.settings := by rw [hs]
      obtain ⟨moments, wakeAt, w', hrun⟩ := runWithin_eq s.settings clock
        (3 * FiringPhase.attempts s.settings + 3) f w
      have hmove : (p.move (.receive moments wakeAt)).service =
          s.putDown (f.advanced s.settings moments wakeAt) := by
        simp only [Pipeline.move, hreceive, service_putDown, hsettings]
      refine Reaches.of_move (.receive moments wakeAt) ?_
      simp only [bind, StateT.bind, Firing.run, hrun]
      rw [← hmove]
      exact ih _ w'

theorem reaches_wake (h : Sound ω settings [] p) (clock : Clock) (order : Nat) (w : ω) :
    Reaches ω p (p.service.wake clock order w).1 := by
  unfold TimerService.wake
  cases htake : p.service.takeUp? order with
  | none =>
    cases hscanner : p.service.scanner with
    | waiting => exact reaches_runScanner clock p.service.turns p w
    | sending | stopped => exact .refl p
  | some taken =>
    obtain ⟨f, s⟩ := taken
    obtain ⟨place, hf, rfl⟩ := takeUp?_eq_some h.orders htake
    obtain ⟨n, hn⟩ : ∃ n, p.working[place]? = some n := by
      obtain ⟨hlt, -⟩ := List.getElem?_eq_some_iff.mp hf
      exact ⟨_, List.getElem?_eq_getElem (h.atWork.length_eq ▸ hlt)⟩
    obtain ⟨moments, wakeAt, w', hrun⟩ := runWithin_eq p.service.settings clock
      (3 * FiringPhase.attempts p.service.settings + 3) f w
    have hmove : (p.move (.goOn place moments wakeAt)).service =
        TimerService.putDown { p.service with busy := p.service.busy.eraseIdx place }
          (f.advanced p.service.settings moments wakeAt) := by
      simp only [Pipeline.move, hf, hn, service_putDown]
    refine Reaches.of_move (.goOn place moments wakeAt) ?_
    simp only [bind, StateT.bind, Firing.run, hrun]
    rw [← hmove]
    split
    · exact reaches_serve clock _ _ w'
    · exact .refl _

theorem reaches_settleWithin (h : Sound ω settings [] p) (clock : Clock) (fuel : Nat) (w : ω) :
    Reaches ω p (p.service.settleWithin clock fuel w).1 := by
  induction fuel generalizing p w with
  | zero => exact .refl p
  | succ fuel ih =>
    have hscan := reaches_runScanner clock p.service.turns p w
    simp only [TimerService.settleWithin, bind, StateT.bind]
    cases hrun : p.service.runScanner clock p.service.turns w with
    | mk scanned w₁ =>
      rw [hrun] at hscan
      refine Reaches.andThen h hscan fun q hq hscanned => ?_
      obtain rfl : q.service = scanned := hscanned
      have hserve := reaches_serve clock q.service.channel.length q w₁
      dsimp only
      cases hrun : q.service.serve clock q.service.channel.length w₁ with
      | mk served w₂ =>
        rw [hrun] at hserve
        refine Reaches.andThen hq hserve fun r hr hserved => ?_
        obtain rfl : r.service = served := hserved
        dsimp only
        split
        · exact ih hr w₂
        · exact .refl r

theorem reaches_wakes (h : Sound ω settings [] p) (clock : Clock) (orders : List Nat) (w : ω) :
    Reaches ω p (orders.foldlM (TimerService.wake clock) p.service w).1 := by
  induction orders generalizing p w with
  | nil => exact .refl p
  | cons order rest ih =>
    have hwake := reaches_wake h clock order w
    simp only [List.foldlM_cons, bind, StateT.bind]
    cases hrun : p.service.wake clock order w with
    | mk woken w₁ =>
      rw [hrun] at hwake
      refine Reaches.andThen h hwake fun q hq hwoken => ?_
      obtain rfl : q.service = woken := hwoken
      exact ih hq w₁

/-- What a service does when its time has come, and when it is stopped, are steps in one of the
    orders that are possible. -/
theorem schedule_is_a_run (h : Sound ω settings [] p) :
    (∀ (clock : Clock) (w : ω), Reaches ω p (p.service.settle clock w).1)
      ∧ (∀ (clock : Clock) (w : ω), Reaches ω p (p.service.runDue clock w).1)
      ∧ ∀ s, p.service.stop = .ok s → Reaches ω p s := by
  refine ⟨fun clock w => reaches_settleWithin h clock _ w, fun clock w => ?_, fun s hstop => ?_⟩
  · have hwakes := reaches_wakes h clock (p.service.dueOrders clock.elapsed) w
    simp only [TimerService.runDue, bind, StateT.bind]
    cases hrun :
      (p.service.dueOrders clock.elapsed).foldlM (TimerService.wake clock) p.service w with
    | mk woken w₁ =>
      rw [hrun] at hwakes
      refine Reaches.andThen h hwakes fun q hq hwoken => ?_
      obtain rfl : q.service = woken := hwoken
      exact reaches_settleWithin hq clock _ w₁
  · obtain ⟨hrunning, rfl⟩ := TimerService.stop_eq_ok hstop
    exact ⟨[.cancel, .halt], by simp [Pipeline.run, Pipeline.move, hrunning]⟩

end Schedule

end Pipeline

end Durable
