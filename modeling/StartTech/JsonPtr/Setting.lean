import StartTech.JsonPtr.Layout
import StartTech.JsonPtr.Refinement

/-!
# Setting a value with its parents

Setting goes down a path and makes what is missing on the way if it is asked to: an array where the
next segment is `0`, and an object elsewhere. What it makes takes the rest of the path, so an error
leaves the document alone. Where it must not make a missing member it panics.
-/

namespace StartTech.JsonPtr

open Foundation ImblValue

/-- The container that is made for the rest of a path. -/
def container (rest : List (Option Text)) : Value :=
  if rest.head? = some (some ['0']) then .array 0 [] else .object 0 []

/-- Set the value at a path, giving the one that was there. A segment that cannot be read makes the
call panic once it comes to it, or looks ahead at it. No result is a panic. -/
def set (recursive : Bool) :
    List (Option Text) → Value → Value → Option (Except IndexError (Option Value)) × Value
  | [], doc, value => (some (.ok (some doc)), value)
  | none :: _, doc, _ => (none, doc)
  | some seg :: rest, doc, value =>
    match doc with
    | .array ptr l =>
      match insertIdx seg l.length with
      | .error e => (some (.error e), doc)
      | .ok num =>
        if num = l.length ∧ rest = [] then (some (.ok none), .array ptr (l ++ [value]))
        else if num = l.length ∧ rest.head? = some none then (none, doc)
        else
          let l := if num = l.length ∧ recursive then l ++ [container rest] else l
          match l[num]? with
          | none => (some (.error (.indexOutOfBounds num)), .array ptr l)
          | some x =>
            let r := set recursive rest x value
            (r.1, .array ptr (l.set num r.2))
    | .object ptr o =>
      match InOMap.get o seg with
      | some x =>
        let r := set recursive rest x value
        (r.1, .object ptr (InOMap.set o seg r.2))
      | none =>
        if rest = [] then (some (.ok none), .object ptr (InOMap.insert o seg value).2)
        else if rest.head? = some none ∨ recursive = false then (none, doc)
        else
          let r := set recursive rest (container rest) value
          (r.1, .object ptr (InOMap.set (InOMap.insert o seg (container rest)).2 seg r.2))
    | .null => (some (.error (.couldNotIndexInto "null")), doc)
    | .bool _ => (some (.error (.couldNotIndexInto "boolean")), doc)
    | .number _ => (some (.error (.couldNotIndexInto "number")), doc)
    | .string _ _ => (some (.error (.couldNotIndexInto "string")), doc)

def JsonPointer.set (p : JsonPointer) (doc value : Value) (recursive : Bool) :
    Option (Except IndexError (Option Value)) × Value :=
  JsonPtr.set recursive p.readings doc value

variable {recursive : Bool} {path rest : List (Option Text)} {seg : Text}
  {doc doc' x y value : Value} {res : Option (Except IndexError (Option Value))}

theorem container_wellFormed (rest : List (Option Text)) : (container rest).WellFormed := by
  rw [container]
  split
  · exact .array nofun
  · exact .object .nil nofun

/-- What was made takes the rest of the path, if that can be read. -/
theorem set_container (rest : List (Option Text)) (value : Value) :
    if none ∈ rest then (set true rest (container rest) value).1 = none
    else ∃ prev, (set true rest (container rest) value).1 = some (.ok prev) := by
  induction rest with
  | nil => exact ⟨_, rfl⟩
  | cons next rest ih =>
    cases next with
    | none => simp [set]
    | some next =>
      by_cases hzero : next = ['0']
      · subst hzero
        rcases rest with - | ⟨- | s, rest⟩
        · exact ⟨_, rfl⟩
        · rfl
        · simp only [List.mem_cons, reduceCtorEq, false_or] at ih ⊢
          exact ih
      · have hmade : container (some next :: rest) = .object 0 [] := if_neg (by simpa using hzero)
        rw [hmade]
        rcases rest with - | ⟨- | s, rest⟩
        · exact ⟨_, rfl⟩
        · rfl
        · simp only [List.mem_cons, reduceCtorEq, false_or] at ih ⊢
          exact ih

/-! ## When setting returns -/

/-- At a node, a segment can be followed or the rest of the path can be made. -/
def Ready (recursive : Bool) (seg : Text) (rest : List (Option Text)) : Value → Prop
  | .object _ o => InOMap.get o seg = none → rest = [] ∨ recursive = true ∧ none ∉ rest
  | .array _ l => insertIdx seg l.length = .ok l.length →
      rest.head? ≠ some none ∧ (recursive = true → none ∉ rest)
  | _ => True

/-- Every segment whose node is there can be read, and its node is ready for it. -/
def Settable (recursive : Bool) (path : List (Option Text)) (doc : Value) : Prop :=
  ∀ pre s rest node, path = pre.map some ++ s :: rest → get pre doc = some node →
    ∃ seg, s = some seg ∧ Ready recursive seg rest node

theorem settable_cons {s : Option Text} : Settable recursive (s :: rest) doc ↔
    ∃ seg, s = some seg ∧ Ready recursive seg rest doc ∧
      ∀ y, get [seg] doc = some y → Settable recursive rest y := by
  constructor
  · intro h
    obtain ⟨seg, rfl, hready⟩ := h [] s rest doc rfl rfl
    refine ⟨seg, rfl, hready, fun y hy pre s' rest' node hpath hget => ?_⟩
    exact h (seg :: pre) s' rest' node (congrArg _ hpath) (by rw [get_cons, hy]; exact hget)
  · rintro ⟨seg, rfl, hready, h⟩ pre s' rest' node hpath hget
    cases pre with
    | nil =>
      cases hpath
      cases hget
      exact ⟨seg, rfl, hready⟩
    | cons seg' pre =>
      obtain ⟨heq, htail⟩ := List.cons.inj hpath
      cases heq
      rw [get_cons] at hget
      obtain ⟨y, hy, hget⟩ := Option.bind_eq_some_iff.mp hget
      exact h y hy pre s' rest' node htail hget

theorem get_array {ptr num : Nat} {l : List Value} (hseg : seg ≠ dash)
    (hnum : insertIdx seg l.length = .ok num) (l' : List Value) (path : List Text) :
    get (seg :: path) (.array ptr l') = l'[num]?.bind (get path) := by
  rw [Json.insertIdx_eq hseg] at hnum
  rw [get, hnum]
  rfl

theorem get_element {ptr num : Nat} {l : List Value} (hnum : insertIdx seg l.length = .ok num) :
    get [seg] (.array ptr l) = l[num]? := by
  by_cases hseg : seg = dash
  · subst hseg
    cases hnum
    simp [get, show parseIdx dash = .error .invalidArrayIndex by decide, Except.toOption]
  · rw [get_array hseg hnum]
    cases l[num]? <;> rfl

theorem set_returns_iff (recursive : Bool) (path : List (Option Text)) (doc value : Value) :
    (set recursive path doc value).1 ≠ none ↔ Settable recursive path doc := by
  induction path generalizing doc with
  | nil => exact iff_of_true nofun fun pre s rest node h => by cases pre <;> cases h
  | cons s rest ih =>
    cases s with
    | none => simp [set, settable_cons]
    | some seg =>
      simp only [settable_cons, Option.some.injEq, exists_eq_left']
      have hmade : (set true rest (container rest) value).1 ≠ none ↔ none ∉ rest := by
        have h := set_container rest value
        split at h
        · simp [*]
        · obtain ⟨_, hok⟩ := h
          simp [*]
      cases doc with
      | array ptr l =>
        rw [set]
        cases hnum : insertIdx seg l.length with
        | error e =>
          have hno : get [seg] (.array ptr l) = none := by
            have hseg : seg ≠ dash := by
              rintro rfl
              cases hnum
            rw [insertIdx, if_neg hseg] at hnum
            rw [get, hnum]
            rfl
          simp [Ready, hnum, hno]
        | ok num =>
          rw [get_element hnum]
          simp only [Ready, hnum, Except.ok.injEq]
          by_cases hend : num = l.length
          · subst hend
            rw [List.getElem?_eq_none (Nat.le_refl _)]
            by_cases hlast : rest = []
            · simp [hlast]
            by_cases hnext : rest.head? = some none
            · simp [hlast, hnext]
            cases recursive with
            | false => simp [hlast, hnext]
            | true => simpa [hlast, hnext] using hmade
          · cases hx : l[num]? with
            | none => simp [hend, hx]
            | some x => simp [hend, hx, ih]
      | object ptr o =>
        have hchild : get [seg] (.object ptr o) = InOMap.get o seg := by
          cases h : InOMap.get o seg <;> simp [get, h]
        rw [set, hchild]
        cases hx : InOMap.get o seg with
        | some x => simp [Ready, hx, ih]
        | none =>
          by_cases hlast : rest = []
          · simp [Ready, hlast]
          · cases recursive with
            | false => simp [Ready, hlast, hx]
            | true =>
              by_cases hnext : rest.head? = some none
              · simp [Ready, hlast, hx, hnext, List.mem_of_mem_head? hnext]
              · simpa [Ready, hlast, hx, hnext] using hmade
      | _ => simp [set, Ready, get]

/-! ## What setting does -/

/-- What setting a value owes its caller when it returns. -/
structure Sets (path : List (Option Text)) (doc value : Value)
    (res : Option (Except IndexError (Option Value))) (doc' : Value) : Prop where
  error : ∀ e, res = some (.error e) → doc' = doc
  ok : ∀ prev, res = some (.ok prev) →
    ∃ l : List Text, path = l.map some ∧ (dash ∉ l → get l doc' = some value)

/-- Setting a value below a child sets it below the node, which may have had to make the child. -/
theorem Sets.below (h : Sets rest x value res y) (hx : (∀ e, res ≠ some (.error e)) ∨ (y = x → doc' = doc))
    (hy : seg ≠ dash → ∀ l, get (seg :: l) doc' = get l y) :
    Sets (some seg :: rest) doc value res doc' where
  error e he := by
    obtain hok | hsame := hx
    · exact absurd he (hok e)
    · exact hsame (h.error e he)
  ok prev hok := by
    obtain ⟨l, rfl, hl⟩ := h.ok prev hok
    refine ⟨seg :: l, rfl, fun hdash => ?_⟩
    rw [List.mem_cons, not_or] at hdash
    rw [hy (Ne.symm hdash.1), hl hdash.2]

theorem Sets.of_refused (e : IndexError) : Sets rest doc value (some (.error e)) doc where
  error _ _ := rfl
  ok _ h := by cases h

theorem Sets.of_panic : Sets rest doc value none doc' where
  error _ h := by cases h
  ok _ h := by cases h

theorem Sets.of_placed {prev : Option Value} (h : seg ≠ dash → get [seg] doc' = some value) :
    Sets [some seg] doc value (some (.ok prev)) doc' where
  error _ h := by cases h
  ok _ _ := ⟨[seg], rfl, fun hdash => h (Ne.symm (List.mem_singleton.not.mp hdash))⟩

/-- What was made takes the rest of the path, or a segment cannot be read. -/
theorem set_container_ne_error (rest : List (Option Text)) (value : Value) (e : IndexError) :
    (set true rest (container rest) value).1 ≠ some (.error e) := by
  have h := set_container rest value
  split at h
  · rw [h]
    nofun
  · obtain ⟨prev, hok⟩ := h
    rw [hok]
    nofun

/-- What setting refuses it leaves alone, and what it accepts is read back. -/
theorem set_sets (recursive : Bool) (path : List (Option Text)) (value : Value)
    (hdoc : doc.WellFormed) :
    Sets path doc value (set recursive path doc value).1 (set recursive path doc value).2 := by
  induction path generalizing doc with
  | nil => exact ⟨nofun, fun _ _ => ⟨[], rfl, fun _ => rfl⟩⟩
  | cons s rest ih =>
    cases s with
    | none => exact .of_panic
    | some seg =>
      cases doc with
      | array ptr l =>
        rw [set]
        cases hnum : insertIdx seg l.length with
        | error e => exact .of_refused e
        | ok num =>
          dsimp only
          split_ifs with hlast hnext hmade
          · obtain ⟨rfl, rfl⟩ := hlast
            refine .of_placed fun hseg => ?_
            rw [get_array hseg hnum, List.getElem?_concat_length]
            rfl
          · exact .of_panic
          · obtain ⟨rfl, rfl⟩ := hmade
            rw [List.getElem?_concat_length]
            refine (ih (container_wellFormed rest)).below (.inl (set_container_ne_error rest value)) ?_
            intro hseg path
            rw [get_array hseg hnum, List.getElem?_set_self (by simp)]
            rfl
          · cases hx : l[num]? with
            | none => exact .of_refused _
            | some x =>
              obtain ⟨hlt, hx'⟩ := List.getElem?_eq_some_iff.mp hx
              refine (ih (hdoc.elements x (List.mem_of_getElem? hx))).below (.inr ?_) ?_
              · intro hsame
                dsimp only
                rw [hsame, ← hx', List.set_getElem_self]
              · intro hseg path
                rw [get_array hseg hnum, List.getElem?_set_self hlt]
                rfl
      | object ptr o =>
        rw [set]
        cases hx : InOMap.get o seg with
        | some x =>
          refine (ih (WellFormed.get_member hdoc hx)).below (.inr ?_) ?_
          · intro hsame
            dsimp only
            rw [hsame, InOMap.set_self hx]
          · intro _ path
            rw [get, InOMap.get_set hx, Function.update_self]
            rfl
        | none =>
          have hget (x : Value) : InOMap.get (InOMap.insert o seg x).2 seg = some x := by
            rw [InOMap.get_insert hdoc.unique, Function.update_self]
          split_ifs with hlast hmissing
          · subst hlast
            refine .of_placed fun _ => ?_
            rw [get, hget]
            rfl
          · exact .of_panic
          · obtain rfl : recursive = true := by simpa using (not_or.mp hmissing).2
            refine (ih (container_wellFormed rest)).below (.inl (set_container_ne_error rest value)) ?_
            intro _ path
            rw [get, InOMap.get_set (hget _), Function.update_self]
            rfl
      | _ => exact .of_refused _

/-- Setting a value returns, leaves the document alone on an error, and is read back at a pointer
without dashes, exactly if the pointer is settable. -/
theorem set_spec_iff (p : JsonPointer) (doc value : Value) (recursive : Bool)
    (hdoc : doc.WellFormed) : (∃ r, (p.set doc value recursive).1 = some r ∧
      (∀ e, r = .error e → (p.set doc value recursive).2 = doc) ∧
      ∀ prev, r = .ok prev → ∃ l, p.iter = some l ∧
        (dash ∉ l → get l (p.set doc value recursive).2 = some value)) ↔
    Settable recursive p.readings doc := by
  have hsets := set_sets recursive p.readings value hdoc
  rw [← set_returns_iff recursive p.readings doc value]
  constructor
  · rintro ⟨r, hr, -⟩
    exact Option.ne_none_iff_exists'.mpr ⟨r, hr⟩
  · intro h
    obtain ⟨r, hr⟩ := Option.ne_none_iff_exists'.mp h
    refine ⟨r, hr, fun e he => hsets.error e (he ▸ hr), fun prev hprev => ?_⟩
    obtain ⟨l, hl, hget⟩ := hsets.ok prev (hprev ▸ hr)
    exact ⟨l, Fallible.mapM_eq_some_iff.mpr hl, hget⟩

/-- The pointer `/a/b` is set in an empty document, where the object in between is made. -/
theorem set_spec_recursive : get [['a'], ['b']]
    ((JsonPointer.exact 0 [['a'], ['b']]).set (.object 0 []) .null true).2 = some .null := by
  obtain ⟨r, hr, -, hok⟩ := (set_spec_iff (.exact 0 [['a'], ['b']]) (.object 0 []) .null true
    (container_wellFormed [])).mpr ((set_returns_iff true [some ['a'], some ['b']] _ .null).mp nofun)
  cases hr
  obtain ⟨l, hl, hget⟩ := hok none rfl
  cases hl
  exact hget (by decide)

/-- Below a member that is not there, and must not be made. -/
theorem set_panics : ((JsonPointer.exact 0 [['a'], ['b']]).set (.object 0 []) .null false).1 = none :=
  rfl

end StartTech.JsonPtr
