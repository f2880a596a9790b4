import Mathlib.Data.List.Nodup

/-!
# Insertion-ordered maps

The map is the list of its entries. Lookup finds the first entry of a key,
insertion moves the key to the end, and removal closes the gap. With distinct
keys all of them act on the lookup function as their names say.
-/

namespace StartTech.ImblValue

open Function (update)

variable {K V : Type*} [DecidableEq K]

abbrev InOMap (K V : Type*) := List (K × V)

namespace InOMap

def get (m : InOMap K V) (key : K) : Option V :=
  (m.find? fun e => e.1 == key).map Prod.snd

/-- Write through the reference to the first entry of a key. -/
def set : InOMap K V → K → V → InOMap K V
  | [], _, _ => []
  | (k, w) :: rest, key, v => if k = key then (k, v) :: rest else (k, w) :: set rest key v

/-- Drop the first entry of a key. -/
def without (m : InOMap K V) (key : K) : InOMap K V := m.eraseP fun e => e.1 == key

def insert (m : InOMap K V) (key : K) (v : V) : Option V × InOMap K V :=
  (m.get key, m.without key ++ [(key, v)])

def remove (m : InOMap K V) (key : K) : Option V × InOMap K V := (m.get key, m.without key)

def keys (m : InOMap K V) : List K := m.map Prod.fst

/-- No key has two entries. -/
def Unique (m : InOMap K V) : Prop := m.keys.Nodup

@[simp] theorem get_nil (key : K) : get ([] : InOMap K V) key = none := rfl

@[simp] theorem get_cons (e : K × V) (m : InOMap K V) (key : K) :
    get (e :: m) key = if e.1 = key then some e.2 else get m key := by
  by_cases h : e.1 = key <;> simp [get, h]

theorem without_cons (e : K × V) (m : InOMap K V) (key : K) :
    without (e :: m) key = if e.1 = key then m else e :: without m key := by
  by_cases h : e.1 = key <;> simp [without, h]

variable {m : InOMap K V} {v w : V} {e : K × V} {key : K}

theorem get_eq_none : m.get key = none ↔ key ∉ m.keys := by
  simp only [get, keys, Option.map_eq_none_iff, List.find?_eq_none, List.mem_map, not_exists,
    not_and, beq_iff_eq]

theorem mem_of_get (h : m.get key = some v) : (key, v) ∈ m := by
  induction m with
  | nil => simp at h
  | cons e m ih =>
    rw [get_cons] at h
    split at h
    · rename_i he
      cases h
      simp [← he]
    · exact List.mem_cons_of_mem _ (ih h)

theorem get_of_mem (hm : m.Unique) (h : (key, v) ∈ m) : m.get key = some v := by
  induction m with
  | nil => simp at h
  | cons e m ih =>
    obtain ⟨hhead, htail⟩ := List.nodup_cons.mp hm
    rw [get_cons]
    rcases List.mem_cons.mp h with rfl | h
    · simp
    · have hne : e.1 ≠ key := by
        rintro rfl
        exact hhead (List.mem_map.mpr ⟨_, h, rfl⟩)
      rw [if_neg hne, ih htail h]

@[simp] theorem keys_set (m : InOMap K V) (key : K) (v : V) : (m.set key v).keys = m.keys := by
  induction m with
  | nil => rfl
  | cons e m ih =>
    simp only [set, keys] at ih ⊢
    split <;> simp [ih]

theorem Unique.set (h : m.Unique) (key : K) (v : V) : (m.set key v).Unique := by
  rw [Unique, keys_set]
  exact h

theorem Unique.without (h : m.Unique) (key : K) : (m.without key).Unique :=
  h.sublist (List.eraseP_sublist.map Prod.fst)

/-- Writing to a present key changes the lookup function there. -/
theorem get_set (h : m.get key = some w) (v : V) :
    (m.set key v).get = update m.get key (some v) := by
  funext k
  induction m with
  | nil => simp at h
  | cons e m ih =>
    rw [get_cons] at h
    by_cases he : e.1 = key
    · by_cases hk : k = key
      · simp [set, he, hk]
      · have : key ≠ k := fun h => hk h.symm
        simp [set, he, hk, this]
    · rw [if_neg he] at h
      simp only [set, if_neg he, get_cons, ih h]
      by_cases hk : k = key
      · subst hk
        simp [he]
      · simp [hk]

theorem set_self (h : m.get key = some v) : m.set key v = m := by
  induction m with
  | nil => rfl
  | cons e m ih =>
    rw [get_cons] at h
    obtain ⟨k, w⟩ := e
    by_cases he : k = key
    · have hw : w = v := by simpa [he] using h
      simp [set, he, hw]
    · rw [if_neg he] at h
      simp [set, he, ih h]

theorem without_of_get (h : m.get key = none) : m.without key = m := by
  induction m with
  | nil => rfl
  | cons e m ih =>
    rw [get_cons] at h
    by_cases he : e.1 = key
    · simp [he] at h
    · rw [if_neg he] at h
      rw [without_cons, if_neg he, ih h]

/-- Removing a key clears the lookup function there. -/
theorem get_without (hm : m.Unique) (key : K) :
    (m.without key).get = update m.get key none := by
  funext k
  induction m with
  | nil => by_cases hk : k = key <;> simp [without, hk]
  | cons e m ih =>
    obtain ⟨hhead, htail⟩ := List.nodup_cons.mp hm
    rw [without_cons]
    by_cases he : e.1 = key
    · rw [if_pos he]
      by_cases hk : k = key
      · subst hk
        simpa using get_eq_none.mpr (he ▸ hhead)
      · have : key ≠ k := fun h => hk h.symm
        simp [update, hk, he, this]
    · rw [if_neg he, get_cons, ih htail]
      by_cases hk : k = key
      · subst hk
        simp [he]
      · simp [update, hk]

theorem get_append (m n : InOMap K V) (key : K) :
    get (m ++ n) key = (m.get key).or (n.get key) := by
  induction m with
  | nil => simp
  | cons e m ih => by_cases h : e.1 = key <;> simp [h, ih]

/-- Insertion sets the lookup function at the key. -/
theorem get_insert (hm : m.Unique) (key : K) (v : V) :
    (m.insert key v).2.get = update m.get key (some v) := by
  funext k
  simp only [insert]
  rw [get_append, get_without hm]
  by_cases hk : k = key
  · subst hk
    simp
  · have : key ≠ k := fun h => hk h.symm
    simp [hk, this]

theorem Unique.insert (h : m.Unique) (key : K) (v : V) : (m.insert key v).2.Unique := by
  have hout : key ∉ (m.without key).keys := by
    rw [← get_eq_none, get_without h]
    simp
  simp only [InOMap.insert, Unique, keys, List.map_append]
  refine List.nodup_append.mpr ⟨h.without key, by simp, ?_⟩
  intro k hk k' hk'
  rw [List.map_singleton, List.mem_singleton] at hk'
  rintro rfl
  obtain rfl : k = key := hk'
  exact hout hk

theorem mem_set (h : e ∈ m.set key v) : e.2 = v ∨ e ∈ m := by
  induction m with
  | nil => simp [set] at h
  | cons d m ih =>
    simp only [set] at h
    split at h
    · rcases List.mem_cons.mp h with rfl | h
      · exact .inl rfl
      · exact .inr (List.mem_cons_of_mem _ h)
    · rcases List.mem_cons.mp h with rfl | h
      · exact .inr (by simp)
      · exact (ih h).imp id (List.mem_cons_of_mem _)

/-- Writing to a key keeps every entry but the one it overwrites. -/
theorem mem_set_of_mem (key : K) (v : V) (h : e ∈ m) :
    e ∈ m.set key v ∨ e.1 = key ∧ m.get key = some e.2 := by
  induction m with
  | nil => cases h
  | cons d m ih =>
    obtain ⟨k, w⟩ := d
    by_cases hk : k = key
    · rcases List.mem_cons.mp h with rfl | h
      · exact .inr ⟨hk, by simp [hk]⟩
      · exact .inl (by simp [set, hk, h])
    · rcases List.mem_cons.mp h with rfl | h
      · exact .inl (by simp [set, hk])
      · rcases ih h with hset | ⟨heq, hget⟩
        · exact .inl (by simp [set, hk, hset])
        · exact .inr ⟨heq, by simp [hk, hget]⟩

theorem mem_set_self (h : m.get key = some w) (v : V) : (key, v) ∈ m.set key v := by
  apply mem_of_get
  rw [get_set h]
  simp

theorem mem_without (h : e ∈ m.without key) : e ∈ m :=
  List.eraseP_sublist.subset h

theorem mem_insert (h : e ∈ (m.insert key v).2) : e.2 = v ∨ e ∈ m := by
  rcases List.mem_append.mp h with h | h
  · exact .inr (mem_without h)
  · rw [List.mem_singleton.mp h]
    exact .inl rfl

end InOMap

end StartTech.ImblValue
