import Std.Data.String.ToInt
import Durable.History.Transition

/-!
# Keys in writing

The written form of a key can be read back if and only if namespace and run have no slash and no
part is empty. Keys that can be read back are told apart by their written forms, and so are their
tasks.
-/

namespace Durable

namespace ExecutionKey

/-- Whether a key can be read back from its written form. -/
def IsReadable (key : ExecutionKey) : Prop :=
  parse? key.display = some key

instance (key : ExecutionKey) : Decidable key.IsReadable :=
  inferInstanceAs (Decidable (_ = _))

/-- Whether no part of a key is empty and only the workflow may have slashes in it. -/
structure IsPlain (key : ExecutionKey) : Prop where
  namespaceId : key.namespaceId ≠ "" ∧ '/' ∉ key.namespaceId.toList
  workflowId : key.workflowId ≠ ""
  runId : key.runId ≠ "" ∧ '/' ∉ key.runId.toList

theorem splitFirst?_append {before after : List Char} (h : '/' ∉ before) :
    splitFirst? (before ++ '/' :: after) = some (before, after) := by
  have hall : ∀ c ∈ before, decide (c ≠ '/') = true := by
    intro c hc
    simpa using fun (heq : c = '/') => h (heq ▸ hc)
  unfold splitFirst?
  rw [List.dropWhile_append_of_pos hall, List.takeWhile_append_of_pos hall]
  simp

theorem splitLast?_append {before after : List Char} (h : '/' ∉ after) :
    splitLast? (before ++ '/' :: after) = some (before, after) := by
  have hreverse : (before ++ '/' :: after).reverse = after.reverse ++ '/' :: before.reverse := by
    simp
  unfold splitLast?
  rw [hreverse, splitFirst?_append (by simpa using h)]
  simp

theorem IsPlain.isReadable {key : ExecutionKey} (h : key.IsPlain) : key.IsReadable := by
  obtain ⟨hn, hnslash⟩ := h.namespaceId
  obtain ⟨hr, hrslash⟩ := h.runId
  have hw := h.workflowId
  have htext : key.display.toList =
      key.namespaceId.toList ++ '/' :: (key.workflowId.toList ++ '/' :: key.runId.toList) := by
    simp [display]
  unfold IsReadable parse?
  rw [htext, splitFirst?_append hnslash]
  simp only [bind, Option.bind]
  rw [splitLast?_append hrslash]
  simp [hn, hw, hr]

theorem IsReadable.display_inj {k k' : ExecutionKey} (h : k.IsReadable) (h' : k'.IsReadable)
    (heq : k.display = k'.display) : k = k' := by
  unfold IsReadable at h h'
  rw [heq, h'] at h
  exact (Option.some.inj h).symm

theorem eq_of_splitFirst? {cs before after : List Char}
    (h : splitFirst? cs = some (before, after)) : cs = before ++ '/' :: after := by
  unfold splitFirst? at h
  split at h
  · rename_i c rest hdrop
    cases h
    have hhead := List.head?_dropWhile_not (fun c => decide (c ≠ '/')) cs
    rw [hdrop] at hhead
    obtain rfl : c = '/' := by simpa using hhead
    rw [← hdrop, List.takeWhile_append_dropWhile]
  · cases h

theorem eq_of_splitLast? {cs before after : List Char}
    (h : splitLast? cs = some (before, after)) : cs = before ++ '/' :: after := by
  unfold splitLast? at h
  obtain ⟨⟨after', before'⟩, hsplit, heq⟩ := Option.map_eq_some_iff.mp h
  cases heq
  have hreverse := congrArg List.reverse (eq_of_splitFirst? hsplit)
  simpa using hreverse

theorem notMem_of_splitFirst? {cs before after : List Char}
    (h : splitFirst? cs = some (before, after)) : '/' ∉ before := by
  unfold splitFirst? at h
  split at h
  · cases h
    intro hmem
    simpa using List.all_eq_true.mp List.all_takeWhile '/' hmem
  · cases h

theorem notMem_of_splitLast? {cs before after : List Char}
    (h : splitLast? cs = some (before, after)) : '/' ∉ after := by
  unfold splitLast? at h
  obtain ⟨⟨after', before'⟩, hsplit, heq⟩ := Option.map_eq_some_iff.mp h
  cases heq
  simpa using notMem_of_splitFirst? hsplit

/-- What can be read back is the written form of what is read. -/
theorem display_of_parse? {text : String} {key : ExecutionKey} (h : parse? text = some key) :
    key.display = text := by
  unfold parse? at h
  obtain ⟨⟨namespaceId, rest⟩, hfirst, h⟩ := Option.bind_eq_some_iff.mp h
  obtain ⟨⟨workflowId, runId⟩, hlast, h⟩ := Option.bind_eq_some_iff.mp h
  dsimp only at h hlast
  split at h
  · cases h
  · cases h
    apply String.toList_inj.mp
    rw [eq_of_splitFirst? hfirst, eq_of_splitLast? hlast]
    simp [display]

/-- Only keys are read whose namespace and run have no slash and of which no part is empty. -/
theorem isPlain_of_parse? {text : String} {key : ExecutionKey} (h : parse? text = some key) :
    key.IsPlain := by
  unfold parse? at h
  obtain ⟨⟨namespaceId, rest⟩, hfirst, h⟩ := Option.bind_eq_some_iff.mp h
  obtain ⟨⟨workflowId, runId⟩, hlast, h⟩ := Option.bind_eq_some_iff.mp h
  have hnamespace := notMem_of_splitFirst? hfirst
  have hrun := notMem_of_splitLast? hlast
  dsimp only at h
  split at h
  · cases h
  · rename_i hparts
    simp only [Bool.or_eq_true, List.isEmpty_iff, not_or] at hparts
    obtain ⟨⟨hn, hw⟩, hr⟩ := hparts
    cases h
    refine ⟨⟨?_, ?_⟩, ?_, ?_, ?_⟩
    · simpa using hn
    · simpa using hnamespace
    · simpa using hw
    · simpa using hr
    · simpa using hrun

/-- A text is read as the key whose written form it is, and as none if that key could not be told
    from its written form. -/
theorem parse?_eq_some_iff {text : String} {key : ExecutionKey} :
    parse? text = some key ↔ key.display = text ∧ key.IsPlain := by
  constructor
  · intro h
    exact ⟨display_of_parse? h, isPlain_of_parse? h⟩
  · rintro ⟨rfl, hplain⟩
    exact hplain.isReadable

/-- A key is read back from its written form if and only if namespace and run have no slash in them
    and no part is empty. Whatever is read is such a key, and the text that it is read from is its
    written form. -/
theorem plain_keys_are_read_back :
    (∀ key : ExecutionKey, parse? key.display = some key ↔
        (key.namespaceId ≠ "" ∧ '/' ∉ key.namespaceId.toList)
          ∧ (key.runId ≠ "" ∧ '/' ∉ key.runId.toList) ∧ key.workflowId ≠ "")
      ∧ ∀ (text : String) (key : ExecutionKey), parse? text = some key ↔
        key.display = text ∧ key.IsPlain := by
  refine ⟨fun key => ?_, fun text key => parse?_eq_some_iff⟩
  rw [parse?_eq_some_iff, and_iff_right rfl]
  constructor
  · intro hplain
    exact ⟨hplain.namespaceId, hplain.runId, hplain.workflowId⟩
  · rintro ⟨hnamespace, hrun, hworkflow⟩
    exact ⟨hnamespace, hworkflow, hrun⟩

/-- A slash in the namespace moves the border between namespace and workflow. -/
example : parse? (display ⟨"acme/orders", "42", "r-1"⟩) = some ⟨"acme", "orders/42", "r-1"⟩ := by
  decide +kernel

/-- A link to a key reads back as that key if it is its written form and can be read back. -/
theorem bind_parse?_eq_some_iff {link : Option String} {key : ExecutionKey} :
    link.bind parse? = some key ↔ link = some key.display ∧ key.IsReadable := by
  rw [Option.bind_eq_some_iff]
  constructor
  · rintro ⟨text, rfl, h⟩
    obtain rfl := display_of_parse? h
    exact ⟨rfl, h⟩
  · rintro ⟨rfl, h⟩
    exact ⟨_, rfl, h⟩

/-- Whether no part of a key is empty. -/
structure HasParts (key : ExecutionKey) : Prop where
  namespaceId : key.namespaceId ≠ ""
  workflowId : key.workflowId ≠ ""
  runId : key.runId ≠ ""

instance (key : ExecutionKey) : Decidable key.HasParts :=
  decidable_of_iff (key.namespaceId ≠ "" ∧ key.workflowId ≠ "" ∧ key.runId ≠ "")
    ⟨fun h => ⟨h.1, h.2.1, h.2.2⟩, fun h => ⟨h.1, h.2, h.3⟩⟩

/-- A key with an empty part cannot be read back. -/
theorem IsReadable.hasParts {key : ExecutionKey} (h : key.IsReadable) : key.HasParts := by
  have hplain := isPlain_of_parse? h
  exact ⟨hplain.namespaceId.1, hplain.workflowId, hplain.runId.1⟩

end ExecutionKey

theorem colon_notMem_toString (n : Int) : ':' ∉ (toString n).toList := by
  have hdigits : ∀ m : Nat, ':' ∉ (toString m).toList := by
    intro m hmem
    rw [Nat.toString_eq_ofList_toDigits, String.toList_ofList] at hmem
    have hdigit := Nat.isDigit_of_mem_toDigits (by decide) (by decide) hmem
    revert hdigit
    decide
  cases n with
  | ofNat m => exact hdigits m
  | negSucc m =>
    have htext : toString (Int.negSucc m) = "-" ++ toString (m + 1) := rfl
    rw [htext, String.toList_append]
    intro hmem
    rcases List.mem_append.mp hmem with hsign | hdigit
    · revert hsign
      decide
    · exact hdigits _ hdigit

/-- What stands before and behind the last colon is the same if the whole is. -/
theorem append_colon_inj {a b x y : List Char} (hx : ':' ∉ x) (hy : ':' ∉ y)
    (h : a ++ ':' :: x = b ++ ':' :: y) : a = b ∧ x = y := by
  have hbehind : ∀ {c z : List Char}, ':' ∉ z →
      (c ++ ':' :: z).reverse.takeWhile (· ≠ ':') = z.reverse := by
    intro c z hz
    have hall : ∀ d ∈ z.reverse, decide (d ≠ ':') = true := by
      intro d hd
      simpa using fun (heq : d = ':') => hz (heq ▸ List.mem_reverse.mp hd)
    have hreverse : (c ++ ':' :: z).reverse = z.reverse ++ ':' :: c.reverse := by simp
    rw [hreverse, List.takeWhile_append_of_pos hall]
    simp
  have hxy : x = y := by
    have hrev : x.reverse = y.reverse := by rw [← hbehind hx, ← hbehind hy, h]
    exact List.reverse_inj.mp hrev
  subst hxy
  exact ⟨List.append_cancel_right h, rfl⟩

/-- Tasks have one id if their keys are written the same and their events have one number. -/
theorem taskIdFor_eq_iff {k k' : ExecutionKey} {n n' : Int} :
    taskIdFor k n = taskIdFor k' n' ↔ k.display = k'.display ∧ n = n' := by
  have htext : ∀ (k : ExecutionKey) (n : Int),
      (taskIdFor k n).toList = k.display.toList ++ ':' :: (toString n).toList := by
    intro k n
    simp [taskIdFor]
  constructor
  · intro heq
    have hlists := congrArg String.toList heq
    rw [htext, htext] at hlists
    obtain ⟨hdisplay, hnumber⟩ :=
      append_colon_inj (colon_notMem_toString n) (colon_notMem_toString n') hlists
    exact ⟨String.toList_inj.mp hdisplay, Int.repr_inj.mp (String.toList_inj.mp hnumber)⟩
  · rintro ⟨hdisplay, rfl⟩
    simp [taskIdFor, hdisplay]

/-- Tasks of readable keys are told apart by their ids. -/
theorem taskIdFor_inj {k k' : ExecutionKey} {n n' : Int} (h : k.IsReadable) (h' : k'.IsReadable)
    (heq : taskIdFor k n = taskIdFor k' n') : k = k' ∧ n = n' := by
  obtain ⟨hdisplay, hnumber⟩ := taskIdFor_eq_iff.mp heq
  exact ⟨h.display_inj h' hdisplay, hnumber⟩

end Durable
