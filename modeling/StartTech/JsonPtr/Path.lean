import StartTech.ImblValue.Json
import StartTech.JsonPtr.Access

/-!
# Documents along a path

Each segment resolves, at the node it is applied to, to a step into one child.
An edit below a child rebuilds the node around it and leaves the other children
alone, so what undoes an edit at a node undoes it anywhere.
-/

namespace StartTech.JsonPtr

open Foundation

/-- A step from a node to one of its children. -/
inductive Step
  | index (i : Nat)
  | key (k : Text)
  deriving DecidableEq, Repr

end StartTech.JsonPtr

namespace StartTech.ImblValue.Json

open Foundation JsonPtr

/-- The step that a segment stands for at a node. -/
def resolve (allowLast : Bool) (seg : Text) : Json → Option Step
  | .array l => (removeIdx allowLast seg l.length).map .index
  | .object _ => some (.key seg)
  | _ => none

def child : Step → Json → Option Json
  | .index i, .array l => l[i]?
  | .key k, .object m => m k
  | _, _ => none

def setChild : Step → Json → Json → Json
  | .index i, x, .array l => .array (l.set i x)
  | .key k, x, .object m => .object (Function.update m k (some x))
  | _, _, d => d

/-- Take a child out: later elements of an array move down. -/
def eraseChild : Step → Json → Json
  | .index i, .array l => .array (l.eraseIdx i)
  | .key k, .object m => .object (Function.update m k none)
  | _, d => d

/-- The child that a segment leads to, with the step to it. -/
def follow (allowLast : Bool) (seg : Text) (d : Json) : Option (Step × Json) :=
  (resolve allowLast seg d).bind fun s => (child s d).map fun x => (s, x)

/-- Edit the child that a segment leads to. -/
def descend {α : Type} (allowLast : Bool) (seg : Text) (f : Json → Option (α × Json))
    (d : Json) : Option (α × Json) :=
  (follow allowLast seg d).bind fun p => (f p.2).map fun r => (r.1, setChild p.1 r.2 d)

def get : List Text → Json → Option Json
  | [], d => some d
  | seg :: rest, d => (follow false seg d).bind fun p => get rest p.2

def replace : List Text → Json → Json → Option (Json × Json)
  | [], v, d => some (d, v)
  | seg :: rest, v, d => descend false seg (replace rest v) d

/-- Put a new child into a node: arrays make room, objects replace. -/
def insertHere (seg : Text) (v : Json) : Json → Option (Option Json × Json)
  | .array l =>
    (insertIdx seg l.length).toOption.bind fun num =>
      if num ≤ l.length then some (none, .array (l.insertIdx num v)) else none
  | .object m => some (m seg, .object (Function.update m seg (some v)))
  | _ => none

def insert : List Text → Json → Json → Option (Option Json × Json)
  | [], v, d => some (some d, v)
  | [seg], v, d => insertHere seg v d
  | seg :: rest, v, d => descend false seg (insert rest v) d

def removeHere (allowLast : Bool) (seg : Text) (d : Json) : Option (Json × Json) :=
  (follow allowLast seg d).map fun p => (p.2, eraseChild p.1 d)

def remove (allowLast : Bool) : List Text → Json → Option (Json × Json)
  | [], _ => none
  | [seg], d => removeHere allowLast seg d
  | seg :: rest, d => descend allowLast seg (remove allowLast rest) d

/-- Whether a value that is put at a path displaces another; nothing where it cannot be put. -/
def displaces : List Text → Json → Option Bool
  | [], _ => some true
  | [seg], d =>
    match d with
    | .array l =>
      (insertIdx seg l.length).toOption.bind fun num => if num ≤ l.length then some false else none
    | .object m => some (m seg).isSome
    | _ => none
  | seg :: rest, d => (follow false seg d).bind fun p => displaces rest p.2

variable {s b : Step} {d x d' v w : Json} {allowLast : Bool} {seg : Text} {α : Type}
  {f : Json → Option (α × Json)} {a : α} {n : Nat} {path : List Text}

/-- An edit goes on below the child that the first segment leads to, as long as more follow. -/
def Descends (allowLast : Bool) (edit : List Text → Json → Option (α × Json)) : Prop :=
  ∀ (seg : Text) {rest : List Text}, rest ≠ [] → ∀ d,
    edit (seg :: rest) d = descend allowLast seg (edit rest) d

theorem descends_insert (v : Json) : Descends false (insert · v) := by
  intro seg rest hne d
  cases rest with
  | nil => exact absurd rfl hne
  | cons next rest => rfl

theorem descends_remove (allowLast : Bool) : Descends allowLast (remove allowLast) := by
  intro seg rest hne d
  cases rest with
  | nil => exact absurd rfl hne
  | cons next rest => rfl

theorem displaces_eq (path : List Text) (v d : Json) :
    displaces path d = (insert path v d).map fun r => r.1.isSome := by
  induction path generalizing d with
  | nil => rfl
  | cons seg rest ih =>
    cases rest with
    | nil =>
      cases d with
      | array l =>
        simp only [displaces, insert, insertHere]
        cases (insertIdx seg l.length).toOption with
        | none => rfl
        | some num => by_cases h : num ≤ l.length <;> simp [h]
      | object m => rfl
      | _ => rfl
    | cons next rest =>
      simp only [displaces, insert, descend]
      cases follow false seg d with
      | none => rfl
      | some p => simp [ih, Function.comp_def]

theorem child_setChild (h : child s d = some x) (y : Json) : child s (setChild s y d) = some y := by
  cases s with
  | index i =>
    cases d with
    | array l =>
      obtain ⟨hi, -⟩ := List.getElem?_eq_some_iff.mp h
      simp [setChild, child, hi]
    | _ => simp [child] at h
  | key k =>
    cases d with
    | object m => simp [setChild, child]
    | _ => simp [child] at h

theorem setChild_setChild (s : Step) (x y d : Json) :
    setChild s y (setChild s x d) = setChild s y d := by
  cases s <;> cases d <;> simp [setChild]

theorem setChild_child (h : child s d = some x) : setChild s x d = d := by
  cases s with
  | index i =>
    cases d with
    | array l =>
      obtain ⟨hi, rfl⟩ := List.getElem?_eq_some_iff.mp h
      simp [setChild]
    | _ => rfl
  | key k =>
    cases d with
    | object m =>
      have hk : m k = some x := h
      simp [setChild, ← hk]
    | _ => rfl

theorem resolve_setChild (allowLast : Bool) (seg : Text) (s : Step) (x d : Json) :
    resolve allowLast seg (setChild s x d) = resolve allowLast seg d := by
  cases s <;> cases d <;> simp [setChild, resolve]

theorem follow_eq_some : follow allowLast seg d = some (s, x) ↔
      resolve allowLast seg d = some s ∧ child s d = some x := by
  simp only [follow, Option.bind_eq_some_iff, Option.map_eq_some_iff, Prod.mk.injEq]
  constructor
  · rintro ⟨t, ht, y, hy, rfl, rfl⟩
    exact ⟨ht, hy⟩
  · rintro ⟨hs, hx⟩
    exact ⟨s, hs, x, hx, rfl, rfl⟩

theorem follow_setChild (h : follow allowLast seg d = some (s, x)) (y : Json) :
    follow allowLast seg (setChild s y d) = some (s, y) := by
  obtain ⟨hs, hx⟩ := follow_eq_some.mp h
  exact follow_eq_some.mpr ⟨by rw [resolve_setChild, hs], child_setChild hx y⟩

theorem descend_eq_some : descend allowLast seg f d = some (a, d') ↔
      ∃ s x y, follow allowLast seg d = some (s, x) ∧ f x = some (a, y) ∧ d' = setChild s y d := by
  simp only [descend, Option.bind_eq_some_iff, Option.map_eq_some_iff, Prod.mk.injEq, Prod.exists]
  constructor
  · rintro ⟨s, x, hfollow, b, y, hf, rfl, rfl⟩
    exact ⟨s, x, y, hfollow, hf, rfl⟩
  · rintro ⟨s, x, y, hfollow, hf, rfl⟩
    exact ⟨s, x, hfollow, a, y, hf, rfl, rfl⟩

/-- What takes an edit back at a child takes it back at the node. -/
theorem descend_inverse {β : Type} {allowLast' : Bool} {g : Json → Option (β × Json)} {b : β}
    (hseg : ∀ {d s x}, follow allowLast seg d = some (s, x) → follow allowLast' seg d = some (s, x))
    (h : descend allowLast seg f d = some (a, d'))
    (hfg : ∀ x y, f x = some (a, y) → g y = some (b, x)) :
    descend allowLast' seg g d' = some (b, d) := by
  obtain ⟨s, x, y, hfollow, hf, rfl⟩ := descend_eq_some.mp h
  refine descend_eq_some.mpr ⟨s, y, x, ?_, hfg x y hf, ?_⟩
  · exact hseg (follow_setChild hfollow y)
  · rw [setChild_setChild, setChild_child (follow_eq_some.mp hfollow).2]

theorem parseIdx_dash : (parseIdx dash).toOption = none := by decide

/-- An index is written the way it is read. -/
theorem parseIdx_decimal (n : Nat) : parseIdx (Text.decimal n) = .ok n := by
  rcases Nat.eq_zero_or_pos n with rfl | hpos
  · decide
  · have hhead := Text.decimal_head (Nat.pos_iff_ne_zero.mp hpos)
    have hguard : ((Text.decimal n).byteLen > 1 && (Text.decimal n).head? == some '0') = false := by
      simp [hhead]
    simp only [parseIdx, hguard, Text.parseDecimal_decimal]
    rfl

theorem insertIdx_eq (h : seg ≠ dash) (len : Nat) : insertIdx seg len = parseIdx seg :=
  if_neg h

theorem ne_dash_of_parseIdx (h : (parseIdx seg).toOption = some n) : seg ≠ dash := by
  rintro rfl
  rw [parseIdx_dash] at h
  simp at h

theorem removeIdx_false (seg : Text) (len : Nat) :
    removeIdx false seg len = (parseIdx seg).toOption := by
  simp [removeIdx]

theorem removeIdx_of_parseIdx (h : (parseIdx seg).toOption = some n) (allowLast : Bool)
    (len : Nat) : removeIdx allowLast seg len = some n := by
  simp [removeIdx, ne_dash_of_parseIdx h, h]

/-- The dash names the element that was added last. -/
theorem removeIdx_of_insertIdx {len : Nat} (h : (insertIdx seg len).toOption = some n) :
    removeIdx true seg (len + 1) = some n := by
  by_cases hdash : seg = dash
  · subst hdash
    simpa [insertIdx, removeIdx, Except.toOption] using h
  · rw [insertIdx_eq hdash] at h
    exact removeIdx_of_parseIdx h true (len + 1)

/-- Segments that lead somewhere without the dash lead there with it. -/
theorem follow_of_false (h : follow false seg d = some (s, x)) :
    follow allowLast seg d = some (s, x) := by
  obtain ⟨hs, hx⟩ := follow_eq_some.mp h
  refine follow_eq_some.mpr ⟨?_, hx⟩
  cases d with
  | array l =>
    obtain ⟨n, hn, rfl⟩ := Option.map_eq_some_iff.mp hs
    have hparse : (parseIdx seg).toOption = some n := removeIdx_false seg _ ▸ hn
    simp [resolve, removeIdx_of_parseIdx hparse]
  | _ => exact hs

theorem insertHere_array {l : List Json} {prev : Option Json} :
    insertHere seg v (.array l) = some (prev, d') ↔
      ∃ n, (insertIdx seg l.length).toOption = some n ∧ n ≤ l.length ∧ prev = none ∧
        d' = .array (l.insertIdx n v) := by
  simp only [insertHere, Option.bind_eq_some_iff, Option.ite_none_right_eq_some,
    Option.some.injEq, Prod.mk.injEq]
  constructor
  · rintro ⟨n, hn, hle, rfl, rfl⟩
    exact ⟨n, hn, hle, rfl, rfl⟩
  · rintro ⟨n, hn, hle, rfl, rfl⟩
    exact ⟨n, hn, hle, rfl, rfl⟩

theorem removeHere_eq_some : removeHere allowLast seg d = some (v, d') ↔
      ∃ s, follow allowLast seg d = some (s, v) ∧ d' = eraseChild s d := by
  simp only [removeHere, Option.map_eq_some_iff, Prod.exists, Prod.mk.injEq]
  constructor
  · rintro ⟨s, x, h, rfl, rfl⟩
    exact ⟨s, h, rfl⟩
  · rintro ⟨s, h, rfl⟩
    exact ⟨s, v, h, rfl, rfl⟩

/-- The first step of taking something out. -/
theorem remove_cons : remove allowLast (seg :: path) d = some (v, d') ↔
      ∃ s x, follow allowLast seg d = some (s, x) ∧ (path = [] ∧ v = x ∧ d' = eraseChild s d ∨
          path ≠ [] ∧ ∃ y, remove allowLast path x = some (v, y) ∧ d' = setChild s y d) := by
  cases path with
  | nil =>
    change removeHere allowLast seg d = some (v, d') ↔ _
    rw [removeHere_eq_some]
    constructor
    · rintro ⟨s, hfollow, rfl⟩
      exact ⟨s, v, hfollow, .inl ⟨rfl, rfl, rfl⟩⟩
    · rintro ⟨s, x, hfollow, ⟨-, rfl, rfl⟩ | ⟨hne, -⟩⟩
      · exact ⟨s, hfollow, rfl⟩
      · exact absurd rfl hne
  | cons next rest =>
    change descend allowLast seg (remove allowLast (next :: rest)) d = some (v, d') ↔ _
    rw [descend_eq_some]
    constructor
    · rintro ⟨s, x, y, hfollow, hxy, rfl⟩
      exact ⟨s, x, hfollow, .inr ⟨by simp, y, hxy, rfl⟩⟩
    · rintro ⟨s, x, hfollow, ⟨hnil, -⟩ | ⟨-, y, hxy, rfl⟩⟩
      · simp at hnil
      · exact ⟨s, x, y, hfollow, hxy, rfl⟩

private theorem removeHere_of_insertHere (h : insertHere seg v d = some (none, d')) :
    removeHere true seg d' = some (v, d) := by
  rw [removeHere_eq_some]
  cases d with
  | array l =>
    obtain ⟨n, hn, hle, -, rfl⟩ := insertHere_array.mp h
    refine ⟨.index n, follow_eq_some.mpr ⟨?_, ?_⟩, ?_⟩
    · have hlen : (l.insertIdx n v).length = l.length + 1 := List.length_insertIdx_of_le_length hle v
      simp [resolve, hlen, removeIdx_of_insertIdx hn]
    · simp [child, List.getElem?_insertIdx_self, hle]
    · simp [eraseChild]
  | object m =>
    simp only [insertHere, Option.some.injEq, Prod.mk.injEq] at h
    obtain ⟨hnone, rfl⟩ := h
    refine ⟨.key seg, follow_eq_some.mpr ⟨rfl, by simp [child]⟩, ?_⟩
    simp [eraseChild, ← hnone]
  | _ => simp [insertHere] at h

/-- Taking out what was put in without displacing anything. -/
theorem remove_of_insert (h : insert path v d = some (none, d')) :
    remove true path d' = some (v, d) := by
  induction path generalizing d d' with
  | nil => simp [insert] at h
  | cons seg rest ih =>
    cases rest with
    | nil => exact removeHere_of_insertHere h
    | cons next rest =>
      exact descend_inverse follow_of_false h fun x y hxy => ih hxy

/-- Only members are displaced. -/
theorem insertHere_displaces (h : insertHere seg v d = some (some w, d')) :
    ∃ m, d = .object m ∧ m seg = some w ∧ d' = .object (Function.update m seg (some v)) := by
  cases d with
  | array l =>
    obtain ⟨n, -, -, hprev, -⟩ := insertHere_array.mp h
    cases hprev
  | object m =>
    obtain ⟨hw, hd'⟩ := Prod.mk.inj (Option.some.inj h)
    exact ⟨m, rfl, hw, hd'.symm⟩
  | _ => cases h

/-- Displacing a value and putting it back. -/
theorem insert_of_insert (h : insert path v d = some (some w, d')) :
    insert path w d' = some (some v, d) := by
  induction path generalizing d d' with
  | nil =>
    simp only [insert, Option.some.injEq, Prod.mk.injEq] at h
    simp [insert, h]
  | cons seg rest ih =>
    cases rest with
    | nil =>
      obtain ⟨m, rfl, hsome, rfl⟩ := insertHere_displaces h
      simp [insert, insertHere, ← hsome]
    | cons next rest => exact descend_inverse id h fun x y hxy => ih hxy

private theorem insertHere_of_removeHere (h : removeHere false seg d = some (v, d')) :
    insertHere seg v d' = some (none, d) := by
  obtain ⟨s, hfollow, rfl⟩ := removeHere_eq_some.mp h
  obtain ⟨hs, hv⟩ := follow_eq_some.mp hfollow
  cases d with
  | array l =>
    obtain ⟨n, hn, rfl⟩ := Option.map_eq_some_iff.mp hs
    have hparse : (parseIdx seg).toOption = some n := removeIdx_false seg _ ▸ hn
    obtain ⟨hlt, rfl⟩ := List.getElem?_eq_some_iff.mp hv
    have hlen := List.length_eraseIdx_of_lt hlt
    refine insertHere_array.mpr ⟨n, ?_, by omega, rfl, ?_⟩
    · rw [insertIdx_eq (ne_dash_of_parseIdx hparse), hparse]
    · rw [List.insertIdx_eraseIdx_getElem hlt]
  | object m =>
    cases hs
    have hm : m seg = some v := hv
    simp [eraseChild, insertHere, ← hm]
  | _ => simp [resolve] at hs

/-- Putting back what was taken out. -/
theorem insert_of_remove (h : remove false path d = some (v, d')) :
    insert path v d' = some (none, d) := by
  induction path generalizing d d' with
  | nil => simp [remove] at h
  | cons seg rest ih =>
    cases rest with
    | nil => exact insertHere_of_removeHere h
    | cons next rest => exact descend_inverse id h fun x y hxy => ih hxy

theorem replace_of_replace (h : replace path v d = some (w, d')) :
    replace path w d' = some (v, d) := by
  induction path generalizing d d' with
  | nil =>
    simp only [replace, Option.some.injEq, Prod.mk.injEq] at h
    simp [replace, h]
  | cons seg rest ih => exact descend_inverse id h fun x y hxy => ih hxy

/-- Replacing needs a target and nothing else. -/
theorem replace_eq_none_iff (path : List Text) (v d : Json) :
    replace path v d = none ↔ get path d = none := by
  induction path generalizing d with
  | nil => simp [replace, get]
  | cons seg rest ih =>
    simp only [replace, descend, get]
    cases follow false seg d with
    | none => simp
    | some p => simp [ih]

theorem child_setChild_ne {a : Step} (h : a ≠ b) (y d : Json) :
    child b (setChild a y d) = child b d := by
  cases a with
  | index i =>
    cases b with
    | index j =>
      have hij : i ≠ j := fun hij => h (by rw [hij])
      cases d <;> simp [child, setChild, hij]
    | key k => cases d <;> simp [child, setChild]
  | key k =>
    cases b with
    | index j => cases d <;> simp [child, setChild]
    | key k' =>
      have hkk : k' ≠ k := fun hkk => h (by rw [hkk])
      cases d <;> simp [child, setChild, hkk]

theorem setChild_comm {a : Step} (h : a ≠ b) (x y d : Json) :
    setChild a x (setChild b y d) = setChild b y (setChild a x d) := by
  cases a with
  | index i =>
    cases b with
    | index j =>
      have hij : i ≠ j := fun hij => h (by rw [hij])
      cases d <;> simp [setChild, List.set_comm _ _ hij.symm]
    | key k => cases d <;> simp [setChild]
  | key k =>
    cases b with
    | index j => cases d <;> simp [setChild]
    | key k' =>
      have hkk : k ≠ k' := fun hkk => h (by rw [hkk])
      cases d <;> simp [setChild, Function.update_comm hkk]

/-- A displaced value was there to be taken out, and taking out the new one leaves
the same document. -/
theorem remove_of_displace (hne : path ≠ []) (h : insert path v d = some (some w, d')) :
    ∃ e, remove false path d = some (w, e) ∧ remove true path d' = some (v, e) := by
  induction path generalizing d d' with
  | nil => exact absurd rfl hne
  | cons seg rest ih =>
    cases rest with
    | nil =>
      obtain ⟨m, rfl, hsome, rfl⟩ := insertHere_displaces h
      refine ⟨.object (Function.update m seg none), ?_, ?_⟩
      · simp [remove, removeHere, follow, resolve, child, eraseChild, hsome]
      · simp [remove, removeHere, follow, resolve, child, eraseChild]
    | cons next rest =>
      obtain ⟨s, x, y, hfollow, hxy, rfl⟩ := descend_eq_some.mp h
      obtain ⟨e, hx, hy⟩ := ih (by simp) hxy
      refine ⟨setChild s e d, descend_eq_some.mpr ⟨s, x, e, hfollow, hx, rfl⟩,
        descend_eq_some.mpr ⟨s, y, e, ?_, hy, ?_⟩⟩
      · exact follow_of_false (follow_setChild hfollow y)
      · rw [setChild_setChild]

theorem setChild_ne {y : Json} (h : child s d = some x) (hne : y ≠ x) : setChild s y d ≠ d := by
  intro heq
  have hy := child_setChild h y
  rw [heq, h] at hy
  exact hne (Option.some.inj hy).symm

theorem eraseChild_ne (h : child s d = some x) : eraseChild s d ≠ d := by
  cases s with
  | index i =>
    cases d with
    | array l =>
      obtain ⟨hi, -⟩ := List.getElem?_eq_some_iff.mp h
      intro heq
      have hlen := congrArg List.length (Json.array.inj heq)
      rw [List.length_eraseIdx_of_lt hi] at hlen
      omega
    | _ => simp [child] at h
  | key k =>
    cases d with
    | object m =>
      intro heq
      have hm := congrFun (Json.object.inj heq) k
      have hk : m k = some x := h
      simp [hk] at hm
    | _ => simp [child] at h

/-- Taking something out changes the document. -/
theorem remove_ne (h : remove allowLast path d = some (v, d')) : d' ≠ d := by
  induction path generalizing d d' with
  | nil => simp [remove] at h
  | cons seg rest ih =>
    obtain ⟨s, x, hfollow, ⟨-, -, rfl⟩ | ⟨-, y, hxy, rfl⟩⟩ := remove_cons.mp h
    · exact eraseChild_ne (follow_eq_some.mp hfollow).2
    · exact setChild_ne (follow_eq_some.mp hfollow).2 (ih hxy)

/-- Adding twice without displacing anything leaves two more values. -/
theorem insert_insert_ne {d'' : Json} (h : insert path v d = some (none, d'))
    (h' : insert path w d' = some (none, d'')) : d'' ≠ d := by
  induction path generalizing d d' d'' with
  | nil => simp [insert] at h
  | cons seg rest ih =>
    cases rest with
    | nil =>
      cases d with
      | array l =>
        obtain ⟨n, hn, hle, -, rfl⟩ := insertHere_array.mp h
        obtain ⟨n', hn', hle', -, rfl⟩ := insertHere_array.mp h'
        intro heq
        have hlen := congrArg List.length (Json.array.inj heq)
        rw [List.length_insertIdx_of_le_length hle', List.length_insertIdx_of_le_length hle] at hlen
        omega
      | object m =>
        simp only [insert, insertHere, Option.some.injEq, Prod.mk.injEq] at h
        obtain ⟨-, rfl⟩ := h
        simp [insert, insertHere] at h'
      | _ => simp [insert, insertHere] at h
    | cons next rest =>
      obtain ⟨s, x, y, hfollow, hxy, rfl⟩ := descend_eq_some.mp h
      obtain ⟨s', y', z, hfollow', hyz, rfl⟩ := descend_eq_some.mp h'
      rw [follow_setChild hfollow y] at hfollow'
      cases hfollow'
      rw [setChild_setChild]
      exact setChild_ne (follow_eq_some.mp hfollow).2 (ih hxy hyz)

/-- What is displaced was there. -/
theorem get_of_displace (h : insert path v d = some (some w, d')) : get path d = some w := by
  induction path generalizing d d' with
  | nil =>
    simp only [insert, Option.some.injEq, Prod.mk.injEq] at h
    rw [get, h.1]
  | cons seg rest ih =>
    cases rest with
    | nil =>
      obtain ⟨m, rfl, hsome, -⟩ := insertHere_displaces h
      simp [get, follow, resolve, child, hsome]
    | cons next rest =>
      obtain ⟨s, x, y, hfollow, hxy, -⟩ := descend_eq_some.mp h
      rw [get, hfollow]
      exact ih hxy

theorem get_of_replace (h : replace path v d = some (w, d')) : get path d' = some v := by
  induction path generalizing d d' with
  | nil =>
    simp only [replace, Option.some.injEq, Prod.mk.injEq] at h
    rw [get, h.2]
  | cons seg rest ih =>
    obtain ⟨s, x, y, hfollow, hxy, rfl⟩ := descend_eq_some.mp h
    rw [get, follow_setChild hfollow y]
    exact ih hxy

end StartTech.ImblValue.Json
