import Std.Data.ExtTreeMap

/-!
# Keys

An execution is named by its namespace, its workflow and its run; a timer by its execution and an
id. Keys are ordered part by part, and an execution's key can be read back from its written form
where the parts allow it.
-/

namespace Durable

/-- The name of an execution. -/
structure ExecutionKey where
  namespaceId : String
  workflowId : String
  runId : String
  deriving DecidableEq, Repr, Inhabited

namespace ExecutionKey

/-- Keys are compared part by part. -/
def cmp : ExecutionKey → ExecutionKey → Ordering :=
  compareLex (compareOn namespaceId) (compareLex (compareOn workflowId) (compareOn runId))

instance : Ord ExecutionKey := ⟨cmp⟩

instance : Std.TransOrd ExecutionKey :=
  inferInstanceAs (Std.TransCmp
    (compareLex (compareOn namespaceId) (compareLex (compareOn workflowId) (compareOn runId))))

instance : Std.LawfulEqOrd ExecutionKey where
  eq_of_compare {a b} h := by
    obtain ⟨n, w, r⟩ := a
    obtain ⟨n', w', r'⟩ := b
    have h : (compare n n').then ((compare w w').then (compare r r')) = .eq := h
    obtain ⟨hn, hwr⟩ := Ordering.then_eq_eq.mp h
    obtain ⟨hw, hr⟩ := Ordering.then_eq_eq.mp hwr
    rw [Std.LawfulEqOrd.eq_of_compare hn, Std.LawfulEqOrd.eq_of_compare hw,
      Std.LawfulEqOrd.eq_of_compare hr]

/-- The written form of a key. -/
def display (key : ExecutionKey) : String :=
  key.namespaceId ++ "/" ++ key.workflowId ++ "/" ++ key.runId

/-- What stands before and behind the first slash. -/
def splitFirst? (cs : List Char) : Option (List Char × List Char) :=
  match cs.dropWhile (· ≠ '/') with
  | _ :: after => some (cs.takeWhile (· ≠ '/'), after)
  | [] => none

/-- What stands before and behind the last slash. -/
def splitLast? (cs : List Char) : Option (List Char × List Char) :=
  (splitFirst? cs.reverse).map fun (after, before) => (before.reverse, after.reverse)

/-- The key with a written form: the namespace stands before the first slash, the run behind the
    last, and no part is empty. -/
def parse? (text : String) : Option ExecutionKey := do
  let (namespaceId, rest) ← splitFirst? text.toList
  let (workflowId, runId) ← splitLast? rest
  if namespaceId.isEmpty || workflowId.isEmpty || runId.isEmpty then none
  else some ⟨String.ofList namespaceId, String.ofList workflowId, String.ofList runId⟩

end ExecutionKey

/-- The name of a timer. -/
structure TimerKey where
  execution : ExecutionKey
  timerId : String
  deriving DecidableEq, Repr, Inhabited

namespace TimerKey

/-- Keys are compared by execution, then by id. -/
def cmp : TimerKey → TimerKey → Ordering :=
  compareLex (compareOn execution) (compareOn timerId)

instance : Ord TimerKey := ⟨cmp⟩

instance : Std.TransOrd TimerKey :=
  inferInstanceAs (Std.TransCmp (compareLex (compareOn execution) (compareOn timerId)))

instance : Std.LawfulEqOrd TimerKey where
  eq_of_compare {a b} h := by
    obtain ⟨e, t⟩ := a
    obtain ⟨e', t'⟩ := b
    have h : (compare e e').then (compare t t') = .eq := h
    obtain ⟨he, ht⟩ := Ordering.then_eq_eq.mp h
    rw [Std.LawfulEqOrd.eq_of_compare he, Std.LawfulEqOrd.eq_of_compare ht]

/-- The written form of a key. -/
def display (key : TimerKey) : String :=
  key.execution.display ++ "#" ++ key.timerId

end TimerKey

end Durable
