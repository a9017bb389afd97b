import Durable.Json.Printer
import Durable.Json.Fields
import Durable.Proofs.Json.Scalars

/-!
# JSON values read back

A value whose numbers are integers and whose texts and names are escaped is read back from its
bytes.
-/

namespace Durable.Json

open Durable.Text

variable {j : Json} {rest : List UInt8} {fuel : Nat}

/-- Whether the numbers in a value are integers and its texts and names are escaped. -/
inductive Written : Json → Prop where
  | null : Written .null
  | bool (b : Bool) : Written (.bool b)
  | int (n : Int) : Written (.int n)
  | textBytes (bytes : List UInt8) : Written (.textBytes bytes)
  | arr {items : List Json} (h : ∀ j ∈ items, Written j) : Written (.arr items)
  | obj {members : List (List UInt8 × Json)} (hnames : ∀ m ∈ members, ∃ bytes, m.1 = escape bytes)
    (h : ∀ m ∈ members, Written m.2) : Written (.obj members)

/-! ### Where a value begins -/

/-- Whether a number can begin with a byte. -/
def BeginsNumber (b : UInt8) : Prop :=
  b = 0x2D ∨ isDigit b

theorem BeginsNumber.ne {b c : UInt8} (h : BeginsNumber b) (hminus : c ≠ 0x2D)
    (hdigit : isDigit c = false) : b ≠ c := by
  rintro rfl
  rcases h with h | h
  · exact hminus h
  · rw [hdigit] at h
    cases h

theorem intDigits_all (n : Int) : ∀ b ∈ intDigits n, BeginsNumber b := by
  intro b hb
  unfold intDigits at hb
  split at hb
  · rcases List.mem_cons.mp hb with rfl | hb
    · exact .inl rfl
    · exact .inr (natDigits_all _ b hb)
  · exact .inr (natDigits_all _ b hb)

theorem intDigits_cons (n : Int) : ∃ b more, intDigits n = b :: more ∧ BeginsNumber b := by
  unfold intDigits
  split
  · exact ⟨0x2D, _, rfl, .inl rfl⟩
  · rcases natDigits_cases n.natAbs with ⟨-, hdigits⟩ | ⟨-, b, more, hdigits, hdigit, -⟩
    · exact ⟨0x30, [], hdigits, .inr rfl⟩
    · exact ⟨b, more, hdigits, .inr hdigit⟩

/-- A value begins with neither a blank nor a closing bracket. -/
theorem Written.render_cons (h : Written j) :
    ∃ b more, render j = b :: more ∧ isSpace b = false ∧ b ≠ 0x5D ∧ b ≠ 0x7D := by
  cases h with
  | null => exact ⟨_, _, by rw [render], rfl, by decide, by decide⟩
  | bool b => cases b <;> exact ⟨_, _, by rw [render], rfl, by decide, by decide⟩
  | int n =>
    obtain ⟨b, more, hdigits, hb⟩ := intDigits_cons n
    refine ⟨b, more, by rw [Json.int, render, hdigits], ?_, hb.ne (by decide) rfl,
      hb.ne (by decide) rfl⟩
    simp [isSpace, hb.ne (c := 0x20) (by decide) rfl, hb.ne (c := 0x0A) (by decide) rfl,
      hb.ne (c := 0x0D) (by decide) rfl, hb.ne (c := 0x09) (by decide) rfl]
  | textBytes bytes => exact ⟨_, _, by rw [Json.textBytes, render]; rfl, rfl, by decide, by decide⟩
  | arr h => exact ⟨_, _, by rw [render]; rfl, rfl, by decide, by decide⟩
  | obj hnames h => exact ⟨_, _, by rw [render]; rfl, rfl, by decide, by decide⟩

theorem skipSpace_cons {b : UInt8} (h : isSpace b = false) (rest : List UInt8) :
    skipSpace (b :: rest) = b :: rest := by
  rw [skipSpace, List.dropWhile_cons, h]
  rfl

theorem Written.skipSpace_render (h : Written j) (rest : List UInt8) :
    skipSpace (render j ++ rest) = render j ++ rest := by
  obtain ⟨b, more, hrender, hb, -⟩ := h.render_cons
  rw [hrender]
  exact skipSpace_cons hb _

/-! ### Values -/

theorem scanValue?_int (n : Int) (hend : Ended rest) (fuel : Nat) :
    scanValue? (fuel + 1) (intDigits n ++ rest) = some (.int n, rest) := by
  obtain ⟨b, more, hdigits, hb⟩ := intDigits_cons n
  have hhead : ∀ {c : UInt8} {behind : List UInt8}, c ≠ 0x2D → isDigit c = false →
      intDigits n ++ rest ≠ c :: behind := by
    intro c behind hminus hdigit heq
    rw [hdigits] at heq
    exact hb.ne hminus hdigit (List.cons.inj heq).1
  rw [scanValue?.eq_8 _ fuel (fun _ => hhead (by decide) rfl) (fun _ => hhead (by decide) rfl)
    (fun _ => hhead (by decide) rfl) (fun _ => hhead (by decide) rfl)
    (fun _ => hhead (by decide) rfl) (fun _ => hhead (by decide) rfl),
    scanNumber?_intDigits n hend, Option.map_some]
  rfl

/-- Whether a value is read back from its bytes, whatever it ends in front of. -/
def ReadsBack (j : Json) : Prop :=
  ∀ fuel rest, (render j).length ≤ fuel → Ended rest →
    scanValue? fuel (render j ++ rest) = some (j, rest)

theorem skipSpace_renderItems {items : List Json} (hwritten : ∀ j ∈ items, Written j)
    (rest : List UInt8) :
    skipSpace (renderItems items ++ 0x5D :: rest) = renderItems items ++ 0x5D :: rest := by
  cases items with
  | nil => exact skipSpace_cons rfl rest
  | cons j items =>
    have hj : Written j := hwritten j List.mem_cons_self
    cases items with
    | nil => exact hj.skipSpace_render _
    | cons k items =>
      rw [renderItems, List.append_assoc]
      exact hj.skipSpace_render _

theorem renderItems_ne_bracket {items : List Json} (hwritten : ∀ j ∈ items, Written j)
    (hsome : items ≠ []) (rest after : List UInt8) :
    renderItems items ++ rest ≠ 0x5D :: after := by
  cases items with
  | nil => exact absurd rfl hsome
  | cons j items =>
    obtain ⟨b, more, hrender, -, hb, -⟩ := (hwritten j List.mem_cons_self).render_cons
    intro heq
    cases items with
    | nil =>
      rw [renderItems, hrender] at heq
      exact hb (List.cons.inj heq).1
    | cons k items =>
      rw [renderItems, hrender] at heq
      exact hb (List.cons.inj heq).1

/-- Items are read back when each is. -/
theorem scanItems?_renderItems {items : List Json} (hsome : items ≠ [])
    (hread : ∀ j ∈ items, ReadsBack j) (hwritten : ∀ j ∈ items, Written j)
    (hfuel : (renderItems items).length < fuel) (rest : List UInt8) :
    scanItems? fuel (renderItems items ++ 0x5D :: rest) = some (items, rest) := by
  induction items generalizing fuel with
  | nil => exact absurd rfl hsome
  | cons j items ih =>
    cases fuel with
    | zero => exact absurd hfuel (Nat.not_lt_zero _)
    | succ fuel =>
      have hj : ReadsBack j := hread j List.mem_cons_self
      cases items with
      | nil =>
        rw [renderItems] at hfuel ⊢
        rw [scanItems?, hj fuel _ (Nat.le_of_lt_succ hfuel) (.bracket rest)]
        simp only [skipSpace_cons (show isSpace 0x5D = false from rfl)]
      | cons k items =>
        have hothers : ∀ i ∈ k :: items, Written i := fun i hi =>
          hwritten i (List.mem_cons_of_mem j hi)
        rw [renderItems, List.length_append, List.length_cons] at hfuel
        have hrest := @ih fuel (List.cons_ne_nil k items)
          (fun i hi => hread i (List.mem_cons_of_mem j hi)) hothers (by omega)
        rw [renderItems, List.append_assoc, List.cons_append, scanItems?,
          hj fuel _ (by omega) (.comma _)]
        simp only [skipSpace_cons (show isSpace 0x2C = false from rfl),
          skipSpace_renderItems hothers, hrest, Option.map_some]

theorem renderMembers_ne_brace {members : List (List UInt8 × Json)} (hsome : members ≠ [])
    (rest after : List UInt8) : renderMembers members ++ rest ≠ 0x7D :: after := by
  intro heq
  match members with
  | [] => exact hsome rfl
  | [m] =>
    rw [renderMembers] at heq
    exact absurd (List.cons.inj heq).1 (by decide)
  | m :: m' :: members =>
    rw [renderMembers] at heq
    exact absurd (List.cons.inj heq).1 (by decide)

theorem skipSpace_renderMembers (members : List (List UInt8 × Json)) (rest : List UInt8) :
    skipSpace (renderMembers members ++ 0x7D :: rest) = renderMembers members ++ 0x7D :: rest := by
  match members with
  | [] => exact skipSpace_cons rfl rest
  | [m] =>
    rw [renderMembers]
    exact skipSpace_cons rfl _
  | m :: m' :: members =>
    rw [renderMembers]
    exact skipSpace_cons rfl _

/-- Members are read back when their values are and their names are escaped. -/
theorem scanMembers?_renderMembers {members : List (List UInt8 × Json)} (hsome : members ≠ [])
    (hnames : ∀ m ∈ members, ∃ bytes, m.1 = escape bytes)
    (hread : ∀ m ∈ members, ReadsBack m.2) (hwritten : ∀ m ∈ members, Written m.2)
    (hfuel : (renderMembers members).length < fuel) (rest : List UInt8) :
    scanMembers? fuel (renderMembers members ++ 0x7D :: rest) = some (members, rest) := by
  induction members generalizing fuel with
  | nil => exact absurd rfl hsome
  | cons m members ih =>
    cases fuel with
    | zero => exact absurd hfuel (Nat.not_lt_zero _)
    | succ fuel =>
      obtain ⟨raw, j⟩ := m
      obtain ⟨bytes, rfl⟩ : ∃ bytes, raw = escape bytes := hnames (raw, j) List.mem_cons_self
      have hj : ReadsBack j := hread (escape bytes, j) List.mem_cons_self
      have hstart : Written j := hwritten (escape bytes, j) List.mem_cons_self
      cases members with
      | nil =>
        rw [renderMembers] at hfuel ⊢
        simp only [List.length_append, List.length_cons] at hfuel
        simp only [List.cons_append, List.append_assoc, scanMembers?, scanString?_escape,
          skipSpace_cons (show isSpace 0x3A = false from rfl), hstart.skipSpace_render,
          hj fuel _ (by omega) (.brace rest), skipSpace_cons (show isSpace 0x7D = false from rfl)]
      | cons m' members =>
        rw [renderMembers] at hfuel ⊢
        simp only [List.length_append, List.length_cons] at hfuel
        have hrest := @ih fuel (List.cons_ne_nil m' members)
          (fun i hi => hnames i (List.mem_cons_of_mem _ hi))
          (fun i hi => hread i (List.mem_cons_of_mem _ hi))
          (fun i hi => hwritten i (List.mem_cons_of_mem _ hi)) (by omega)
        simp only [List.cons_append, List.append_assoc, scanMembers?, scanString?_escape,
          skipSpace_cons (show isSpace 0x3A = false from rfl), hstart.skipSpace_render,
          hj fuel _ (by omega) (.comma _), skipSpace_cons (show isSpace 0x2C = false from rfl),
          skipSpace_renderMembers, hrest, Option.map_some]

/-- A written value is read back from its bytes. -/
theorem Written.readsBack (h : Written j) : ReadsBack j := by
  induction h with
  | null =>
    intro fuel rest hfuel hend
    cases fuel with
    | zero => exact absurd hfuel (by rw [render]; decide)
    | succ fuel => rw [render]; rfl
  | bool b =>
    intro fuel rest hfuel hend
    cases fuel with
    | zero => exact absurd hfuel (by cases b <;> rw [render] <;> decide)
    | succ fuel => cases b <;> rw [render] <;> rfl
  | int n =>
    intro fuel rest hfuel hend
    obtain ⟨b, more, hdigits, -⟩ := intDigits_cons n
    cases fuel with
    | zero =>
      rw [Json.int, render, hdigits] at hfuel
      exact absurd hfuel (Nat.not_succ_le_zero _)
    | succ fuel =>
      rw [Json.int, render]
      exact scanValue?_int n hend fuel
  | textBytes bytes =>
    intro fuel rest hfuel hend
    rw [Json.textBytes, render] at hfuel ⊢
    cases fuel with
    | zero => exact absurd hfuel (Nat.not_succ_le_zero _)
    | succ fuel =>
      simp only [List.cons_append, List.append_assoc, List.nil_append, scanValue?,
        scanString?_escape, Option.map_some]
  | @arr items h ih =>
    intro fuel rest hfuel hend
    rw [render] at hfuel ⊢
    simp only [List.length_append, List.length_cons, List.length_nil] at hfuel
    cases fuel with
    | zero => omega
    | succ fuel =>
      simp only [List.cons_append, List.append_assoc, List.nil_append, scanValue?,
        skipSpace_renderItems h]
      by_cases hsome : items = []
      · subst hsome
        rfl
      split
      · exact absurd ‹_› (renderItems_ne_bracket h hsome _ _)
      · rw [scanItems?_renderItems hsome ih h (by omega), Option.map_some]
  | @obj members hnames h ih =>
    intro fuel rest hfuel hend
    rw [render] at hfuel ⊢
    simp only [List.length_append, List.length_cons, List.length_nil] at hfuel
    cases fuel with
    | zero => omega
    | succ fuel =>
      simp only [List.cons_append, List.append_assoc, List.nil_append, scanValue?,
        skipSpace_renderMembers]
      by_cases hsome : members = []
      · subst hsome
        rfl
      split
      · exact absurd ‹_› (renderMembers_ne_brace hsome _ _)
      · rw [scanMembers?_renderMembers hsome hnames ih h (by omega), Option.map_some]

theorem Written.parse?_render (h : Written j) : parse? (render j) = some j := by
  have hscan := h.readsBack ((render j).length + 1) [] (Nat.le_succ _) .nil
  have hspace := h.skipSpace_render []
  rw [List.append_nil] at hscan hspace
  unfold parse?
  rw [hspace, hscan]
  rfl

end Durable.Json
