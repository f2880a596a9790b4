import StartTech.JsonPtr.Standing
import StartTech.PatchDb.Scope

/-!
# Views of a patch through objects

Where the way to a pointer leads through objects only, no operation moves what the pointer leads
to, so the view of every patch does there what the patch does to the document. This needs that no
slice of a longer pointer is cut on the way.

## Implementation notes

The path of an operation of the view is read as soon as it is made.
-/

namespace StartTech.PatchDb

open Foundation ImblValue JsonPatch JsonPtr

/-- What an operation does at its path. -/
inductive Change
  | add (value : Value)
  | remove
  | replace (value : Value)

def Change.operation (path : List Text) : Change → PatchOperation
  | .add value => .add path value
  | .remove => .remove path
  | .replace value => .replace path value

variable {α : Type} (cut : JsonPointer → Nat)

/-- Go on with what is left of a pointer behind another, if it starts with it. The segments of each
pointer are cut somewhere into two slices. -/
def ifStripped (p other : JsonPointer) (use : JsonPointer → Option α) (otherwise : Option α) :
    Option α :=
  (p.stripPrefix (cut p) other).bind fun
    | some tail => use tail
    | none => otherwise

/-- The view of a new value. -/
def viewValue (ptr path : JsonPointer) (value : Value) (op : List Text → Value → PatchOperation) :
    Option (Option PatchOperation) :=
  ifStripped cut path ptr (fun tail => tail.iter.map fun tail => some (op tail value)) <|
    ifStripped cut ptr path
      (fun tail => (tail.get value).map fun found => some (op [] (found.getD .null))) (some none)

/-- The view of an operation; no result is a panic. -/
def view (ptr path : JsonPointer) : Change → Option (Option PatchOperation)
  | .add value => viewValue cut ptr path value .add
  | .replace value => viewValue cut ptr path value .replace
  | .remove => (ptr.startsWithLoop path 0 path.segments).bind fun above =>
    if above then some (some (.replace [] .null))
    else ifStripped cut path ptr (fun tail => tail.iter.map fun tail => some (.remove tail))
      (some none)

def forPath (ptr : JsonPointer) (ops : List (JsonPointer × Change)) : Option Patch :=
  (ops.mapM fun op => view cut ptr op.1 op.2).map List.reduceOption

/-- Whether no slice is cut for the view of an operation. -/
def inScope (ptr : Standing) (op : Standing × Change) : Bool :=
  op.1.cutsWell ptr &&
    match op.2 with
    | .remove => true
    | .add _ | .replace _ => ptr.cutsWell op.1

section Stripping

variable {p q : Standing} {use : JsonPointer → Option α} {otherwise : Option α}

theorem ifStripped_none (h : q.list.isPrefixOf p.list = false) :
    ifStripped cut p.pointer q.pointer use otherwise = otherwise := by
  rw [ifStripped, JsonPointer.stripPrefix_none p.stands.reads _ q.stands.reads h]
  rfl

/-- Where no slice is cut, a pointer is stripped as its list is. -/
theorem ifStripped_cutsWell (h : p.cutsWell q = true) {f : List Text → α}
    (huse : ∀ {rest tail}, rest.iter = some tail → use rest = some (f tail)) :
    ifStripped cut p.pointer q.pointer use otherwise =
      ((stripPrefix p.list q.list).map f).elim otherwise some := by
  cases hlist : stripPrefix p.list q.list with
  | none =>
    refine ifStripped_none cut ?_
    rw [Bool.eq_false_iff, ne_eq, List.isPrefixOf_iff_prefix]
    rintro ⟨tail, htail⟩
    exact stripPrefix_eq_none hlist tail htail.symm
  | some tail =>
    have htail := stripPrefix_eq_some.mp hlist
    have hrest : ∃ rest, p.pointer.stripPrefix (cut p.pointer) q.pointer = some (some rest) ∧
        rest.iter = some tail := by
      rw [Standing.cutsWell, Bool.or_eq_true, beq_iff_eq] at h
      rcases h with hoffset | hbelow
      · exact p.stands.stripPrefix_reads hoffset _ q.stands.reads htail
      · have hself : q.list = p.list := by
          have hprefix : q.list.isPrefixOf p.list = true :=
            List.isPrefixOf_iff_prefix.mpr ⟨tail, htail.symm⟩
          simpa [Standing.below, hprefix] using hbelow
        rw [← hself] at htail
        obtain rfl := List.self_eq_append_right.mp htail
        exact ⟨.root, JsonPointer.stripPrefix_self p.stands.reads _ (hself ▸ q.stands.reads), rfl⟩
    obtain ⟨rest, hrest, hiter⟩ := hrest
    rw [ifStripped, hrest]
    exact huse hiter

theorem ifStripped_iter (h : p.cutsWell q = true) (make : List Text → α) :
    ifStripped cut p.pointer q.pointer (fun tail => tail.iter.map make) otherwise =
      ((stripPrefix p.list q.list).map make).elim otherwise some := by
  refine ifStripped_cutsWell cut h fun hiter => ?_
  rw [hiter, Option.map_some]

theorem ifStripped_get (h : p.cutsWell q = true) (value : Value) (make : Option Value → α) :
    ifStripped cut p.pointer q.pointer (fun tail => (tail.get value).map make) otherwise =
      ((stripPrefix p.list q.list).map fun tail => make (get tail value)).elim otherwise some := by
  refine ifStripped_cutsWell cut h fun hiter => ?_
  rw [JsonPointer.get_of_iter hiter, Option.map_some]

end Stripping

variable {ptr path : Standing} {change : Change} {op : Standing × Change}
  {ops : List (Standing × Change)}

/-- Where no slice is cut, the view of an operation is that of its list. -/
theorem view_inScope (h : inScope ptr (path, change) = true) :
    view cut ptr.pointer path.pointer change =
      some (forPathOperation ptr.list (change.operation path.list)) := by
  obtain ⟨hpath, habove⟩ := Bool.and_eq_true_iff.mp h
  cases change with
  | add value | replace value =>
    rw [view, viewValue, ifStripped_iter cut hpath, ifStripped_get cut habove, Change.operation,
      forPathOperation]
    cases stripPrefix path.list ptr.list with
    | some tail => rfl
    | none => cases stripPrefix ptr.list path.list <;> rfl
  | remove =>
    rw [view, JsonPointer.startsWith_eq ptr.stands.reads path.stands.reads,
      ifStripped_iter cut hpath, Option.bind_some]
    change _ = some (if startsWith ptr.list path.list then _ else _)
    rw [startsWith]
    split
    · rfl
    · cases stripPrefix path.list ptr.list <;> rfl

theorem forPath_inScope (h : ∀ op ∈ ops, inScope ptr op = true) :
    forPath cut ptr.pointer (ops.map fun op => (op.1.pointer, op.2)) =
      some ((ops.map fun op => op.2.operation op.1.list).filterMap
        (forPathOperation ptr.list)) := by
  have hviews : ∀ op ∈ ops, ((fun op : JsonPointer × Change => view cut ptr.pointer op.1 op.2) ∘
      fun op : Standing × Change => (op.1.pointer, op.2)) op =
        pure (forPathOperation ptr.list (op.2.operation op.1.list)) :=
    fun op hop => view_inScope cut (h op hop)
  rw [forPath, List.mapM_map, Fallible.mapM_eq_pure hviews]
  change some ((ops.map _).filterMap id) = _
  rw [List.filterMap_map, List.filterMap_map]
  rfl

/-- An operation of a difference, at the pointer that is pushed together from its path. -/
def changeOf : PatchOperation → Option (Standing × Change)
  | .add path value => some (.ofList path, .add value)
  | .remove path => some (.ofList path, .remove)
  | .replace path value => some (.ofList path, .replace value)
  | _ => none

def DiffPatch.changes (p : DiffPatch) : List (Standing × Change) := p.ops.filterMap changeOf

theorem DiffPatch.changes_operations (p : DiffPatch) :
    (p.changes.map fun op => op.2.operation op.1.list) = p.ops := by
  have hback : ∀ op ∈ p.ops,
      (changeOf op).map (fun op => op.2.operation op.1.list) = some op := by
    intro op hop
    have hdiff := p.diffs op hop
    cases op with
    | add path value | remove path | replace path value => rfl
    | _ => cases hdiff
  rw [DiffPatch.changes, List.map_filterMap, List.filterMap_congr hback, List.filterMap_some]

end StartTech.PatchDb
