import StartTech.JsonPatch.Rewriting

/-!
# Revisions and their scoped views

A revision carries a patch made of the operations that a difference can contain.
Its view below a pointer keeps the operations at or below the pointer, with the
rest of their path, and turns one above it into an operation on the whole
subtree.
-/

namespace StartTech.PatchDb

open Foundation ImblValue JsonPatch

def isDiffOperation : PatchOperation → Bool
  | .add _ _ | .remove _ | .replace _ _ => true
  | _ => false

/-- A patch of additions, removals and replacements, whose values have distinct keys. -/
structure DiffPatch where
  ops : Patch
  diffs : ∀ op ∈ ops, isDiffOperation op = true
  wellFormed : ops.WellFormed

instance : Inhabited DiffPatch where
  default := { ops := [], diffs := by simp, wellFormed := by simp [Patch.WellFormed] }

def DiffPatch.isEmpty (p : DiffPatch) : Bool := p.ops.isEmpty

/-- The rest of a pointer behind the segments of another. -/
def stripPrefix : List Text → List Text → Option (List Text)
  | path, [] => some path
  | [], _ :: _ => none
  | seg :: path, other :: rest => if seg = other then stripPrefix path rest else none

@[simp] theorem stripPrefix_nil (path : List Text) : stripPrefix path [] = some path := by
  cases path <;> rfl

theorem stripPrefix_eq_some {path other tail : List Text} :
    stripPrefix path other = some tail ↔ path = other ++ tail := by
  induction other generalizing path with
  | nil => simp
  | cons seg other ih =>
    cases path with
    | nil => simp [stripPrefix]
    | cons head path =>
      rw [stripPrefix]
      split
      · rename_i heq
        simp [ih, heq]
      · rename_i hne
        simp [hne]

theorem startsWith_iff {path other : List Text} :
    startsWith path other = true ↔ ∃ tail, path = other ++ tail := by
  rw [startsWith, List.isPrefixOf_iff_prefix]
  constructor
  · rintro ⟨tail, h⟩
    exact ⟨tail, h.symm⟩
  · rintro ⟨tail, h⟩
    exact ⟨tail, h.symm⟩

/-- What is left at the pointer of a value that is put above it. -/
def valueBelow (tail : List Text) (value : Value) : Value :=
  (JsonPtr.get tail value).getD .null

theorem valueBelow_wellFormed {value : Value} (h : value.WellFormed) (tail : List Text) :
    (valueBelow tail value).WellFormed := by
  unfold valueBelow
  cases hget : JsonPtr.get tail value with
  | none => exact .null
  | some x => exact JsonPtr.get_wellFormed h hget

/-- The view of one operation below a pointer. -/
def forPathOperation (ptr : List Text) : PatchOperation → Option PatchOperation
  | .add path value =>
    match stripPrefix path ptr with
    | some tail => some (.add tail value)
    | none => (stripPrefix ptr path).map fun tail => .add [] (valueBelow tail value)
  | .replace path value =>
    match stripPrefix path ptr with
    | some tail => some (.replace tail value)
    | none => (stripPrefix ptr path).map fun tail => .replace [] (valueBelow tail value)
  | .remove path =>
    if startsWith ptr path then some (.replace [] .null)
    else (stripPrefix path ptr).map .remove
  | _ => none

theorem forPathOperation_diff {ptr : List Text} {op op' : PatchOperation} (hop : op.WellFormed)
    (h : forPathOperation ptr op = some op') :
    isDiffOperation op' = true ∧ op'.WellFormed := by
  cases op with
  | add path value | replace path value =>
    rw [forPathOperation] at h
    split at h
    · cases h
      exact ⟨rfl, hop⟩
    · obtain ⟨tail, -, rfl⟩ := Option.map_eq_some_iff.mp h
      exact ⟨rfl, valueBelow_wellFormed hop tail⟩
  | remove path =>
    rw [forPathOperation] at h
    split at h
    · cases h
      exact ⟨rfl, .null⟩
    · obtain ⟨tail, -, rfl⟩ := Option.map_eq_some_iff.mp h
      exact ⟨rfl, trivial⟩
  | _ => simp [forPathOperation] at h

def DiffPatch.forPath (p : DiffPatch) (ptr : List Text) : DiffPatch where
  ops := p.ops.filterMap (forPathOperation ptr)
  diffs op' h := by
    obtain ⟨op, hmem, hop⟩ := List.mem_filterMap.mp h
    exact (forPathOperation_diff (p.wellFormed op hmem) hop).1
  wellFormed op' h := by
    obtain ⟨op, hmem, hop⟩ := List.mem_filterMap.mp h
    exact (forPathOperation_diff (p.wellFormed op hmem) hop).2

structure Revision where
  id : Nat
  patch : DiffPatch

def Revision.forPath (r : Revision) (ptr : List Text) : Revision where
  id := r.id
  patch := r.patch.forPath ptr

structure Dump where
  id : Nat
  value : Value

end StartTech.PatchDb
