import StartTech.JsonPtr.Path

/-!
# Editing values edits the documents they denote

Each walk over a value does to the denoted document what the walk over documents
does, a failed walk leaves the value as it was, and edits keep keys distinct.
-/

namespace StartTech.JsonPtr

open Foundation ImblValue
open Json (follow descend removeHere insertHere setChild)
open InOMap (get_set set)
open Value (object array denote_object)

variable {ptr n : Nat} {o : List (Text × Value)} {x doc value : Value} {l : List Value} {seg : Text}
  {allowLast : Bool}

/-- The value of a step of the walk and its child, at a well-formed value. -/
theorem WellFormed.get_member {k : Text} (h : (object ptr o).WellFormed)
    (hx : InOMap.get o k = some x) : x.WellFormed :=
  h.members _ (InOMap.mem_of_get hx)

theorem WellFormed.set_member (k : Text) (h : (object ptr o).WellFormed) (hx : x.WellFormed) :
    (object ptr (set o k x)).WellFormed := by
  refine .object (h.unique.set k x) fun e he => ?_
  rcases InOMap.mem_set he with heq | he
  · exact heq ▸ hx
  · exact h.members e he

theorem WellFormed.insert_member (k : Text) (h : (object ptr o).WellFormed)
    (hx : x.WellFormed) : (object ptr (InOMap.insert o k x).2).WellFormed := by
  refine .object (h.unique.insert k x) fun e he => ?_
  rcases InOMap.mem_insert he with heq | he
  · exact heq ▸ hx
  · exact h.members e he

open WellFormed (get_member set_member)

/-- Looking up a position together with what stands there. -/
theorem select_eq_some {idx : Option Nat} :
    (idx.bind fun num => l[num]?.map fun x => (num, x)) = some (n, x) ↔
      idx = some n ∧ l[n]? = some x := by
  simp only [Option.bind_eq_some_iff, Option.map_eq_some_iff, Prod.mk.injEq]
  constructor
  · rintro ⟨m, hm, y, hy, rfl, rfl⟩
    exact ⟨hm, hy⟩
  · rintro ⟨hn, hx⟩
    exact ⟨n, hn, x, hx, rfl, rfl⟩

theorem follow_array (allowLast : Bool) (seg : Text) (ptr : Nat) (l : List Value) :
    follow allowLast seg (array ptr l).denote =
      ((removeIdx allowLast seg l.length).bind fun num => l[num]?.map fun x => (num, x)).map
        fun p => (Step.index p.1, p.2.denote) := by
  simp only [Value.denote_array, follow, Json.resolve, List.length_map]
  cases removeIdx allowLast seg l.length with
  | none => rfl
  | some n => cases hx : l[n]? <;> simp [Json.child, hx]

theorem follow_object (allowLast : Bool) (seg : Text) (ptr : Nat) (o : List (Text × Value)) :
    follow allowLast seg (object ptr o).denote =
      (InOMap.get o seg).map fun x => (Step.key seg, x.denote) := by
  simp only [denote_object, follow, Json.resolve, Json.child, Option.bind_some, Option.map_map]
  rfl

theorem setChild_array (n ptr : Nat) (l : List Value) (y : Value) :
    setChild (.index n) y.denote (array ptr l).denote = (array ptr (l.set n y)).denote := by
  simp [setChild]

theorem setChild_object (hx : InOMap.get o seg = some x) (y : Value) :
    setChild (.key seg) y.denote (object ptr o).denote = (object ptr (set o seg y)).denote := by
  simp only [denote_object, setChild, get_set hx, Json.object.injEq]
  funext k
  by_cases hk : k = seg <;> simp [hk]

theorem get_denote (path : List Text) (doc : Value) :
    (get path doc).map Value.denote = Json.get path doc.denote := by
  induction path generalizing doc with
  | nil => rfl
  | cons seg rest ih =>
    cases doc with
    | array ptr l =>
      rw [Json.get, follow_array]
      simp only [get, Json.removeIdx_false]
      cases (parseIdx seg).toOption with
      | none => rfl
      | some n => cases hx : l[n]? <;> simp [hx, ih]
    | object ptr o =>
      rw [Json.get, follow_object]
      cases hx : InOMap.get o seg <;> simp [get, hx, ih]
    | _ => rfl

theorem get_wellFormed {path : List Text} (hdoc : doc.WellFormed) (h : get path doc = some x) :
    x.WellFormed := by
  induction path generalizing doc with
  | nil =>
    cases h
    exact hdoc
  | cons seg rest ih =>
    cases doc with
    | array ptr l =>
      obtain ⟨n, -, h⟩ := Option.bind_eq_some_iff.mp h
      obtain ⟨y, hy, h⟩ := Option.bind_eq_some_iff.mp h
      exact ih (hdoc.elements y (List.mem_of_getElem? hy)) h
    | object ptr o =>
      obtain ⟨y, hy, h⟩ := Option.bind_eq_some_iff.mp h
      exact ih (get_member hdoc hy) h
    | _ => simp [get] at h

/-- A result of an edit, as values give it and as documents do. -/
class Denotes (α : Type) (β : outParam Type) where
  denote : α → β
  wellFormed : α → Prop

instance : Denotes Value Json := ⟨Value.denote, Value.WellFormed⟩

instance : Denotes (Option Value) (Option Json) :=
  ⟨Option.map Value.denote, fun prev => ∀ x ∈ prev, x.WellFormed⟩

/-- What an edit that may fail owes its caller. -/
structure Edits {α β : Type} [Denotes α β] (spec : Option (β × Json)) (res : Option α)
    (doc doc' : Value) : Prop where
  denote : spec = res.map fun r => (Denotes.denote r, doc'.denote)
  failed : res = none → doc' = doc
  result : ∀ r ∈ res, Denotes.wellFormed r
  wellFormed : doc'.WellFormed

namespace Edits

variable {α β : Type} [Denotes α β] {f : Json → Option (β × Json)} {res : Option α} {y doc' : Value}
  {spec : Option (β × Json)}

/-- An edit below an array element is an edit of the array. -/
theorem element {n : Nat} {l : List Value} (hdoc : (array ptr l).WellFormed)
    (hn : removeIdx allowLast seg l.length = some n) (hx : l[n]? = some x)
    (h : Edits (f x.denote) res x y) :
    Edits (descend allowLast seg f (array ptr l).denote) res (.array ptr l)
      (.array ptr (l.set n y)) := by
  refine ⟨?_, ?_, h.result, .array fun z hz => ?_⟩
  · simp only [descend, follow_array, hn, hx, Option.bind_some, Option.map_some, h.denote,
      Option.map_map, Function.comp_def, setChild_array]
  · intro hres
    obtain ⟨hlt, rfl⟩ := List.getElem?_eq_some_iff.mp hx
    rw [h.failed hres, List.set_getElem_self]
  · rcases List.mem_or_eq_of_mem_set hz with hz | rfl
    · exact hdoc.elements z hz
    · exact h.wellFormed

/-- An edit below a member is an edit of the object. -/
theorem member {o : List (Text × Value)} (hdoc : (object ptr o).WellFormed)
    (hx : InOMap.get o seg = some x) (h : Edits (f x.denote) res x y) :
    Edits (descend allowLast seg f (object ptr o).denote) res (.object ptr o)
      (.object ptr (set o seg y)) := by
  refine ⟨?_, ?_, h.result, set_member seg hdoc h.wellFormed⟩
  · simp only [descend, follow_object, hx, Option.bind_some, Option.map_some, h.denote,
      Option.map_map, Function.comp_def, setChild_object hx]
  · intro hres
    rw [h.failed hres, InOMap.set_self hx]

theorem none (hdoc : doc.WellFormed) (h : spec = Option.none) :
    Edits spec (Option.none : Option α) doc doc :=
  ⟨h, fun _ => rfl, by simp, hdoc⟩

/-- Without a child to go to, the edit is refused. -/
theorem refused (hdoc : doc.WellFormed) (h : follow allowLast seg doc.denote = Option.none) :
    Edits (descend allowLast seg f doc.denote) (Option.none : Option α) doc doc :=
  Edits.none hdoc (by simp [descend, h])

theorem of_some {b : β} {d' : Json} (h : Edits spec res doc doc') (hspec : spec = some (b, d')) :
    ∃ r, res = some r ∧ Denotes.denote r = b ∧ doc'.denote = d' ∧ Denotes.wellFormed r := by
  rw [h.denote] at hspec
  obtain ⟨r, hr, heq⟩ := Option.map_eq_some_iff.mp hspec
  cases heq
  exact ⟨r, hr, rfl, rfl, h.result r hr⟩

theorem of_none (h : Edits spec res doc doc') (hspec : spec = Option.none) :
    res = Option.none ∧ doc' = doc := by
  rw [h.denote] at hspec
  have hres := Option.map_eq_none_iff.mp hspec
  exact ⟨hres, h.failed hres⟩

end Edits

open Edits (refused element member)

theorem getMutReplace_edits (path : List Text) (hdoc : doc.WellFormed) (hval : value.WellFormed) :
    Edits (Json.replace path value.denote doc.denote) (getMutReplace path doc value).1 doc
      (getMutReplace path doc value).2 := by
  induction path generalizing doc with
  | nil =>
    refine ⟨rfl, by simp [getMutReplace], ?_, hval⟩
    rintro r ⟨⟩
    exact hdoc
  | cons seg rest ih =>
    cases doc with
    | array ptr l =>
      simp only [getMutReplace, ← Json.removeIdx_false seg l.length]
      split
      · rename_i hnone
        exact refused hdoc (by rw [follow_array, hnone]; rfl)
      · rename_i n x hsome
        obtain ⟨hn, hx⟩ := select_eq_some.mp hsome
        exact element hdoc hn hx (ih (hdoc.elements x (List.mem_of_getElem? hx)))
    | object ptr o =>
      simp only [getMutReplace, Json.replace]
      cases hx : InOMap.get o seg with
      | none => exact refused hdoc (by rw [follow_object, hx]; rfl)
      | some x => exact member hdoc hx (ih (get_member hdoc hx))
    | _ => exact refused hdoc rfl

private theorem removeHere_member (hdoc : (object ptr o).WellFormed) :
    Edits (removeHere allowLast seg (object ptr o).denote) (InOMap.get o seg)
      (.object ptr o) (.object ptr (InOMap.without o seg)) := by
  refine ⟨?_, ?_, fun r hr => get_member hdoc hr,
    .object (hdoc.unique.without seg) fun e he => hdoc.members e (InOMap.mem_without he)⟩
  · simp only [removeHere, follow_object]
    cases hx : InOMap.get o seg with
    | none => rfl
    | some x =>
      simp only [Option.map_some, Denotes.denote, denote_object, Json.eraseChild,
        InOMap.get_without hdoc.unique]
      congr 3
      funext k
      by_cases hk : k = seg <;> simp [hk]
  · intro hnone
    rw [InOMap.without_of_get hnone]

theorem remove_edits (path : List Text) (hdoc : doc.WellFormed) (allowLast : Bool) :
    Edits (Json.remove allowLast path doc.denote) (remove allowLast path doc).1 doc
      (remove allowLast path doc).2 := by
  induction path generalizing doc with
  | nil => exact .none hdoc rfl
  | cons seg rest ih =>
    cases doc with
    | array ptr l =>
      simp only [remove]
      split
      · rename_i hnone
        have hfollow : follow allowLast seg (array ptr l).denote = none := by
          rw [follow_array, hnone]
          rfl
        cases rest with
        | nil => exact Edits.none hdoc (by simp only [Json.remove, removeHere, hfollow]; rfl)
        | cons next rest => exact refused hdoc hfollow
      · rename_i n x hsome
        obtain ⟨hn, hx⟩ := select_eq_some.mp hsome
        cases rest with
        | nil =>
          refine ⟨?_, by simp, ?_, .array fun y hy => hdoc.elements y (List.mem_of_mem_eraseIdx hy)⟩
          · simp only [Json.remove, removeHere, follow_array, hn, hx, Option.bind_some,
              Option.map_some]
            simp [Json.eraseChild, List.eraseIdx_map, Denotes.denote]
          · rintro r ⟨⟩
            exact hdoc.elements x (List.mem_of_getElem? hx)
        | cons next rest =>
          exact element hdoc hn hx (ih (hdoc.elements x (List.mem_of_getElem? hx)))
    | object ptr o =>
      cases rest with
      | nil => exact removeHere_member hdoc
      | cons next rest =>
        simp only [remove, List.isEmpty_cons]
        cases hx : InOMap.get o seg with
        | none => exact refused hdoc (by rw [follow_object, hx]; rfl)
        | some x => exact member hdoc hx (ih (get_member hdoc hx))
    | _ => cases rest <;> exact Edits.none hdoc rfl

/-- Where a new element may go, an edit may only descend into an old one. -/
theorem select_insertIdx (seg : Text) (l : List Value) :
    ((insertIdx seg l.length).toOption.bind fun num => l[num]?.map fun x => (num, x)) =
      (removeIdx false seg l.length).bind fun num => l[num]?.map fun x => (num, x) := by
  rw [Json.removeIdx_false]
  by_cases hdash : seg = dash
  · subst hdash
    rw [Json.parseIdx_dash]
    simp [insertIdx, Except.toOption]
  · rw [Json.insertIdx_eq hdash]

private theorem insertHere_element (hdoc : (array ptr l).WellFormed)
    (hval : value.WellFormed) (hn : (insertIdx seg l.length).toOption = some n)
    (hle : n ≤ l.length) :
    Edits (insertHere seg value.denote (array ptr l).denote)
      (some (none : Option Value)) (.array ptr l) (.array ptr (l.insertIdx n value)) := by
  refine ⟨?_, by simp, ?_, .array fun y hy => ?_⟩
  · rw [Value.denote_array, Option.map_some, Json.insertHere_array]
    exact ⟨n, by simpa using hn, by simpa using hle, rfl, by simp [List.map_insertIdx]⟩
  · rintro r ⟨⟩ x hx
    simp at hx
  · rcases (List.mem_insertIdx hle).mp hy with rfl | hy
    · exact hval
    · exact hdoc.elements y hy

private theorem insertHere_member {o' : List (Text × Value)} {value : Value} {prev : Option Value}
    (hdoc : (object ptr o).WellFormed) (hdoc' : (object ptr o').WellFormed)
    (hprev : InOMap.get o seg = prev)
    (ho' : InOMap.get o' = Function.update (InOMap.get o) seg (some value)) :
    Edits (insertHere seg value.denote (object ptr o).denote)
      (some prev) (.object ptr o) (.object ptr o') := by
  subst hprev
  refine ⟨?_, by simp, ?_, hdoc'⟩
  · simp only [denote_object, insertHere, ho', Denotes.denote]
    congr 3
    funext k
    by_cases hk : k = seg <;> simp [Function.update, hk]
  · rintro r ⟨⟩ x hx
    exact get_member hdoc hx

theorem insert_edits (path : List Text) (hdoc : doc.WellFormed) (hval : value.WellFormed) :
    Edits (Json.insert path value.denote doc.denote) (insert path doc value).1.toOption doc
      (insert path doc value).2 := by
  induction path generalizing doc with
  | nil =>
    refine ⟨rfl, by simp [insert, Except.toOption], ?_, hval⟩
    rintro r ⟨⟩ x ⟨⟩
    exact hdoc
  | cons seg rest ih =>
    cases doc with
    | array ptr l =>
      simp only [insert]
      cases hn : insertIdx seg l.length with
      | error e =>
        have hsel := select_insertIdx seg l
        rw [hn] at hsel
        cases rest with
        | nil =>
          refine .none hdoc ?_
          simp [Json.insert, insertHere, hn, Except.toOption]
        | cons next rest => exact refused hdoc (by rw [follow_array, ← hsel]; rfl)
      | ok n =>
        have hsel := select_insertIdx seg l
        have hn' : (insertIdx seg l.length).toOption = some n := by rw [hn]; rfl
        rw [hn'] at hsel
        cases rest with
        | nil =>
          by_cases hle : n ≤ l.length
          · simp only [List.isEmpty_nil, hle, decide_true, Bool.and_true, if_true]
            exact insertHere_element hdoc hval hn' hle
          · have hx : l[n]? = none := List.getElem?_eq_none (by omega)
            simp only [List.isEmpty_nil, hle, decide_false, Bool.and_false,
              Bool.false_eq_true, if_false, hx]
            refine .none hdoc ?_
            simp [Json.insert, insertHere, hn', hle]
        | cons next rest =>
          simp only [List.isEmpty_cons, Bool.false_and]
          cases hx : l[n]? with
          | none =>
            refine refused hdoc ?_
            rw [follow_array, ← hsel, Option.bind_some, hx]
            rfl
          | some x =>
            rw [Option.bind_some, hx] at hsel
            exact element hdoc (select_eq_some.mp hsel.symm).1 hx
              (ih (hdoc.elements x (List.mem_of_getElem? hx)))
    | object ptr o =>
      simp only [insert]
      cases hx : InOMap.get o seg with
      | none =>
        cases rest with
        | nil =>
          exact insertHere_member hdoc (WellFormed.insert_member seg hdoc hval) hx
            (InOMap.get_insert hdoc.unique seg value)
        | cons next rest => exact refused hdoc (by rw [follow_object, hx]; rfl)
      | some x =>
        cases rest with
        | nil =>
          exact insertHere_member hdoc (set_member seg hdoc hval) hx (get_set hx value)
        | cons next rest => exact member hdoc hx (ih (get_member hdoc hx))
    | _ => cases rest <;> exact .none hdoc rfl

end StartTech.JsonPtr
