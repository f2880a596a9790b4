import StartTech.Foundation.Tiling

/-!
# Maps in the order of their keys

A map is the list of its entries in the order of their keys, each key once.
-/

namespace StartTech.Foundation

open Std

variable {β α : Type*} {R : α → β → Prop} {m : List β} {l : List α}

/-- Lists that correspond element by element: each element on the left has one on the right. -/
theorem exists_right_of_forall₂ (h : List.Forall₂ R l m) {a : α} (ha : a ∈ l) : ∃ b ∈ m, R a b := by
  induction h with
  | nil => simp at ha
  | cons hhead _ ih =>
    rcases List.mem_cons.mp ha with rfl | ha
    · exact ⟨_, by simp, hhead⟩
    · obtain ⟨b, hb, hab⟩ := ih ha
      exact ⟨b, by simp [hb], hab⟩

theorem exists_left_of_forall₂ (h : List.Forall₂ R l m) {b : β} (hb : b ∈ m) : ∃ a ∈ l, R a b :=
  exists_right_of_forall₂ (R := flip R) h.flip hb

theorem forall₂_append_left {l l' : List α} (h : List.Forall₂ R (l ++ l') m) :
    ∃ m₁ m₂, m = m₁ ++ m₂ ∧ List.Forall₂ R l m₁ ∧ List.Forall₂ R l' m₂ := by
  induction l generalizing m with
  | nil => exact ⟨[], m, rfl, .nil, h⟩
  | cons a rest ih =>
    obtain ⟨b, m', hab, hrest, rfl⟩ := List.forall₂_cons_left_iff.mp h
    obtain ⟨m₁, m₂, rfl, h₁, h₂⟩ := ih hrest
    exact ⟨b :: m₁, m₂, rfl, .cons hab h₁, h₂⟩

theorem total_le_of_forall₂ {v : α → Nat} {w : β → Nat}
    (h : List.Forall₂ (fun a b => w b ≤ v a) l m) : total w m ≤ total v l := by
  induction h with
  | nil => exact Nat.le_refl _
  | cons hhead _ ih => exact Nat.add_le_add hhead ih

namespace OrderedMap

variable {κ α : Type*} {R : κ × α → κ × β → Prop} {m' : List (κ × β)}

section Values

variable [DecidableEq κ] {k : κ} {v : α} {m : List (κ × α)}

def get (m : List (κ × α)) (k : κ) : Option α :=
  (m.find? fun e => e.1 == k).map Prod.snd

def erase (m : List (κ × α)) (k : κ) : List (κ × α) := m.filter fun e => e.1 ≠ k

theorem get_cons (e : κ × α) (m : List (κ × α)) (k : κ) :
    get (e :: m) k = if e.1 = k then some e.2 else get m k := by
  by_cases h : e.1 = k
  · simp [get, h]
  · simp [get, h]

theorem mem_of_get (h : get m k = some v) : (k, v) ∈ m := by
  obtain ⟨⟨k', v'⟩, he, rfl⟩ := Option.map_eq_some_iff.mp h
  obtain rfl : k' = k := by simpa using List.find?_some he
  exact List.mem_of_find?_eq_some he

theorem mem_keys_iff : k ∈ m.map Prod.fst ↔ ∃ v, get m k = some v := by
  constructor
  · intro h
    obtain ⟨e, he, rfl⟩ := List.mem_map.mp h
    obtain ⟨e', he'⟩ : ∃ e', m.find? (fun e' => e'.1 == e.1) = some e' :=
      Option.isSome_iff_exists.mp (List.find?_isSome.mpr ⟨e, he, beq_self_eq_true _⟩)
    exact ⟨e'.2, Option.map_eq_some_iff.mpr ⟨e', he', rfl⟩⟩
  · rintro ⟨v, h⟩
    exact List.mem_map.mpr ⟨(k, v), mem_of_get h, rfl⟩

theorem get_erase (m : List (κ × α)) (k x : κ) :
    get (erase m k) x = if k = x then none else get m x := by
  induction m with
  | nil => simp [erase, get]
  | cons e rest ih =>
    by_cases he : e.1 = k
    · have hdrop : erase (e :: rest) k = erase rest k := List.filter_cons_of_neg (by simp [he])
      rw [hdrop, ih, get_cons, he]
      by_cases hx : k = x
      · rw [if_pos hx, if_pos hx]
      · rw [if_neg hx, if_neg hx, if_neg hx]
    · have hkeep : erase (e :: rest) k = e :: erase rest k :=
        List.filter_cons_of_pos (by simp [he])
      rw [hkeep, get_cons, ih, get_cons]
      by_cases hx : k = x
      · rw [if_pos hx, if_pos hx, if_neg (hx ▸ he)]
      · rw [if_neg hx, if_neg hx]

theorem get_append (l m : List (κ × α)) (k : κ) : get (l ++ m) k = (get l k).or (get m k) := by
  induction l with
  | nil => exact (Option.none_or).symm
  | cons e rest ih =>
    rw [List.cons_append, get_cons, get_cons, ih]
    split
    · exact (Option.some_or).symm
    · rfl

/-- Maps that correspond entry by entry have corresponding values. -/
theorem get_of_forall₂
    (hkeys : ∀ a b, R a b → a.1 = b.1) (hm : List.Forall₂ R m m') (hv : get m k = some v) :
    ∃ v', get m' k = some v' ∧ R (k, v) (k, v') := by
  induction hm with
  | nil => cases hv
  | @cons a b _ _ hhead _ ih =>
    obtain ⟨k₁, v₁⟩ := a
    obtain ⟨k₂, v₂⟩ := b
    obtain rfl : k₁ = k₂ := hkeys _ _ hhead
    rw [get_cons] at hv ⊢
    split at hv
    · rename_i hk
      cases hk
      cases hv
      exact ⟨v₂, if_pos rfl, hhead⟩
    · rename_i hk
      rw [if_neg hk]
      exact ih hv

end Values

variable [Ord κ] {m : List (κ × α)} {v : α} {k : κ}

/-- Put an entry in its place, or in place of the one with its key. -/
def insert (k : κ) (v : α) : List (κ × α) → List (κ × α)
  | [] => [(k, v)]
  | (k', v') :: rest =>
    match compare k k' with
    | .lt => (k, v) :: (k', v') :: rest
    | .eq => (k, v) :: rest
    | .gt => (k', v') :: insert k v rest

/-- Put entries in their places, one after another. -/
def insertAll (m l : List (κ × α)) : List (κ × α) := l.foldl (fun m e => insert e.1 e.2 m) m

/-- Put an entry in its place unless its key is there. -/
def orInsert [DecidableEq κ] (m : List (κ × α)) (k : κ) (v : α) : List (κ × α) :=
  if (get m k).isSome then m else insert k v m

/-- The keys increase, so each of them occurs once. -/
def Sorted (m : List (κ × α)) : Prop := m.Pairwise fun a b => compare a.1 b.1 = .lt

instance (m : List (κ × α)) : Decidable (Sorted m) := inferInstanceAs (Decidable (List.Pairwise _ _))

theorem mem_insert {e : κ × α} (h : e ∈ insert k v m) : e = (k, v) ∨ e ∈ m := by
  induction m with
  | nil => exact .inl (by simpa [insert] using h)
  | cons e' rest ih =>
    rw [insert] at h
    split at h
    · simpa using h
    · rcases List.mem_cons.mp h with rfl | h
      · exact .inl rfl
      · exact .inr (List.mem_cons_of_mem _ h)
    · rcases List.mem_cons.mp h with rfl | h
      · exact .inr (by simp)
      · exact (ih h).imp_right (List.mem_cons_of_mem _)

/-- Entries that are put in maps in the same order stay related. -/
theorem insert_forall₂ {κ' : Type*} [Ord κ'] {R : κ × α → κ' × β → Prop} {k' : κ'}
    {v' : β} {m' : List (κ' × β)} (hv : R (k, v) (k', v'))
    (h : List.Forall₂ R m m')
    (hcompare : ∀ x ∈ m, ∀ x', R x x' → compare k' x'.1 = compare k x.1) :
    List.Forall₂ R (insert k v m) (insert k' v' m') := by
  induction h with
  | nil => exact .cons hv .nil
  | @cons x x' rest rest' hx hrest ih =>
    have hfirst := hcompare x List.mem_cons_self x' hx
    rw [insert, insert, hfirst]
    cases compare k x.1 with
    | lt => exact .cons hv (.cons hx hrest)
    | eq => exact .cons hv hrest
    | gt => exact .cons hx (ih fun y hy => hcompare y (List.mem_cons_of_mem _ hy))

/-- A weight of the entries grows by that of the new one at most. -/
theorem total_insert_le (w : κ × α → Nat) (k : κ) (v : α) (m : List (κ × α)) :
    total w (insert k v m) ≤ w (k, v) + total w m := by
  induction m with
  | nil => simp [insert]
  | cons e rest ih =>
    obtain ⟨k', v'⟩ := e
    rw [insert]
    split
    · simp
    · simp
    · simp only [total_cons]
      omega

theorem length_insert_le (k : κ) (v : α) (m : List (κ × α)) :
    (insert k v m).length ≤ m.length + 1 := by
  induction m with
  | nil => simp [insert]
  | cons e rest ih =>
    rw [insert]
    split
    · simp
    · simp
    · simpa using ih

section Order

variable {k : κ} {v : α} {m l : List (κ × α)}

theorem Sorted.erase [DecidableEq κ] (h : Sorted m) (k : κ) : Sorted (erase m k) :=
  List.Pairwise.filter _ h

/-- Being sorted is a property of the keys. -/
theorem Sorted.of_forall₂ (h : Sorted m)
    (hkeys : ∀ a b, R a b → a.1 = b.1) (hm : List.Forall₂ R m m') : Sorted m' := by
  have hmap : m.map Prod.fst = m'.map Prod.fst := by
    rw [← List.forall₂_eq_eq_eq]
    exact List.forall₂_map_left_iff.mpr (List.forall₂_map_right_iff.mpr (hm.imp hkeys))
  have hpairwise : (m.map Prod.fst).Pairwise fun a b => compare a b = .lt := List.pairwise_map.mpr h
  rw [hmap] at hpairwise
  exact List.pairwise_map.mp hpairwise

variable [LawfulEqOrd κ]

theorem insert_perm (h : ∀ e ∈ m, e.1 ≠ k) : (insert k v m).Perm ((k, v) :: m) := by
  induction m with
  | nil => exact List.Perm.refl _
  | cons e rest ih =>
    rw [insert]
    split
    · exact List.Perm.refl _
    · rename_i heq
      exact absurd (LawfulEqCmp.eq_of_compare heq).symm (h e (by simp))
    · exact ((ih fun e he => h e (List.mem_cons_of_mem _ he)).cons e).trans (List.Perm.swap _ _ _)

/-- Entries with new keys, each once, are all there in the end. -/
theorem insertAll_perm (hl : l.Pairwise fun a b => a.1 ≠ b.1)
    (hm : ∀ e ∈ m, ∀ e' ∈ l, e.1 ≠ e'.1) : (insertAll m l).Perm (m ++ l) := by
  induction l generalizing m with
  | nil => simp [insertAll]
  | cons e rest ih =>
    obtain ⟨hhead, htail⟩ := List.pairwise_cons.mp hl
    have hinsert : (insert e.1 e.2 m).Perm (e :: m) :=
      insert_perm fun e' he' => hm e' he' e (by simp)
    have hnew : ∀ e' ∈ insert e.1 e.2 m, ∀ e'' ∈ rest, e'.1 ≠ e''.1 := by
      intro e' he' e'' he''
      rcases mem_insert he' with rfl | he'
      · exact hhead e'' he''
      · exact hm e' he' e'' (by simp [he''])
    calc insertAll (insert e.1 e.2 m) rest
      _ |>.Perm (insert e.1 e.2 m ++ rest) := ih htail hnew
      _ |>.Perm (e :: m ++ rest) := hinsert.append_right rest
      _ |>.Perm (m ++ e :: rest) := List.perm_middle.symm

theorem Sorted.pairwise_ne (h : Sorted m) : m.Pairwise fun a b => a.1 ≠ b.1 := by
  refine h.imp fun {a b} hlt heq => ?_
  rw [heq, compare_self] at hlt
  cases hlt

theorem Sorted.eq_of_mem (h : Sorted m) {v' : α} (hv : (k, v) ∈ m) (hv' : (k, v') ∈ m) :
    v = v' := by
  have hne := h.pairwise_ne
  induction m with
  | nil => simp at hv
  | cons e rest ih =>
    obtain ⟨hhead, htail⟩ := List.pairwise_cons.mp hne
    rcases List.mem_cons.mp hv with rfl | hrest
    · rcases List.mem_cons.mp hv' with heq | hrest'
      · exact (Prod.mk.inj heq).2.symm
      · exact absurd rfl (hhead (k, v') hrest')
    · rcases List.mem_cons.mp hv' with rfl | hrest'
      · exact absurd rfl (hhead (k, v) hrest)
      · exact ih (List.pairwise_cons.mp h).2 hrest hrest' htail

section Lookup

variable [DecidableEq κ]

theorem Sorted.get_of_mem (h : Sorted m) (hmem : (k, v) ∈ m) : get m k = some v := by
  obtain ⟨v', hv'⟩ := mem_keys_iff.mp (List.mem_map_of_mem hmem)
  rw [hv', h.eq_of_mem hmem (mem_of_get hv')]

theorem Sorted.mem_iff_get (h : Sorted m) : (k, v) ∈ m ↔ get m k = some v :=
  ⟨h.get_of_mem, mem_of_get⟩

theorem get_insert (k : κ) (v : α) (m : List (κ × α)) (x : κ) :
    get (insert k v m) x = if k = x then some v else get m x := by
  induction m with
  | nil => rw [insert, get_cons]
  | cons e rest ih =>
    obtain ⟨k', v'⟩ := e
    rw [insert]
    cases hcompare : compare k k' with
    | lt => rw [get_cons]
    | eq =>
      obtain rfl := LawfulEqOrd.eq_of_compare hcompare
      rw [get_cons, get_cons]
      split
      · rfl
      · rfl
    | gt =>
      rw [get_cons, ih, get_cons]
      by_cases hx : k = x
      · have hne : k' ≠ x := by
          rintro rfl
          rw [hx, ReflOrd.compare_self] at hcompare
          cases hcompare
        rw [if_neg hne, if_pos hx, if_pos hx]
      · rw [if_neg hx, if_neg hx]

theorem get_insert_self (k : κ) (v : α) (m : List (κ × α)) : get (insert k v m) k = some v := by
  rw [get_insert, if_pos rfl]

/-- Keys whose values are a function of them, put in their places one after another. -/
theorem get_foldl_insert (f : κ → α) (keys : List κ) (m : List (κ × α)) (x : κ) :
    get (keys.foldl (fun m k => insert k (f k) m) m) x =
      if x ∈ keys then some (f x) else get m x := by
  induction keys generalizing m with
  | nil => simp
  | cons k rest ih =>
    rw [List.foldl_cons, ih, get_insert]
    by_cases hx : k = x
    · simp [hx]
    · simp [hx, Ne.symm hx]

theorem get_orInsert (m : List (κ × α)) (k : κ) (v : α) (x : κ) :
    get (orInsert m k v) x = (get m x).or (if k = x then some v else none) := by
  unfold orInsert
  split
  · rename_i hsome
    split
    · rename_i hx
      subst hx
      obtain ⟨v', hv'⟩ := Option.isSome_iff_exists.mp hsome
      rw [hv', Option.some_or]
    · rw [Option.or_none]
  · rename_i hnone
    rw [get_insert]
    split
    · rename_i hx
      subst hx
      rw [Option.not_isSome_iff_eq_none.mp hnone, Option.none_or]
    · rw [Option.or_none]

/-- The first value for a key stays. -/
theorem get_foldl_orInsert (l m : List (κ × α)) (x : κ) :
    get (l.foldl (fun m e => orInsert m e.1 e.2) m) x = (get m x).or (get l x) := by
  induction l generalizing m with
  | nil => exact (Option.or_none).symm
  | cons e rest ih =>
    rw [List.foldl_cons, ih, get_orInsert, get_cons, Option.or_assoc]
    split
    · rw [Option.some_or]
    · rw [Option.none_or]

end Lookup

variable [TransOrd κ]

theorem Sorted.insert (h : Sorted m) : Sorted (insert k v m) := by
  induction m with
  | nil => simp [OrderedMap.insert, Sorted]
  | cons e rest ih =>
    obtain ⟨hhead, htail⟩ := List.pairwise_cons.mp h
    rw [OrderedMap.insert]
    split
    · rename_i hlt
      refine List.pairwise_cons.mpr ⟨fun b hb => ?_, h⟩
      rcases List.mem_cons.mp hb with rfl | hb
      · exact hlt
      · exact TransCmp.lt_trans hlt (hhead b hb)
    · rename_i heq
      obtain rfl := LawfulEqCmp.eq_of_compare heq
      exact List.pairwise_cons.mpr ⟨hhead, htail⟩
    · rename_i hgt
      refine List.pairwise_cons.mpr ⟨fun b hb => ?_, ih htail⟩
      rcases mem_insert hb with rfl | hb
      · exact OrientedCmp.lt_of_gt hgt
      · exact hhead b hb

theorem Sorted.insertAll (h : Sorted m) (l : List (κ × α)) : Sorted (insertAll m l) := by
  induction l generalizing m with
  | nil => exact h
  | cons e rest ih => exact ih h.insert

theorem mem_foldl_insert [DecidableEq κ] (f : κ → α) (keys : List κ) {e : κ × α} :
    e ∈ keys.foldl (fun m k => insert k (f k) m) [] ↔ e.1 ∈ keys ∧ e.2 = f e.1 := by
  have hsorted : Sorted (keys.foldl (fun m k => insert k (f k) m) []) :=
    List.foldlRecOn keys _ .nil fun m hm k _ => .insert hm
  obtain ⟨k, v⟩ := e
  rw [hsorted.mem_iff_get, get_foldl_insert]
  by_cases hk : k ∈ keys
  · simp [hk, eq_comm]
  · simp [hk, get]

variable (h : Sorted m) {m' : List (κ × α)}
include h

/-- Two maps with the same entries are equal. -/
theorem Sorted.eq_of_perm (h' : Sorted m') (hperm : m.Perm m') : m = m' := by
  refine hperm.eq_of_pairwise (fun a b _ _ hab hba => ?_) h h'
  have := TransCmp.lt_trans hab hba
  rw [compare_self] at this
  cases this

/-- The entries of a map give the map, in whatever order they are put in. -/
theorem Sorted.insertAll_eq (hperm : l.Perm m) : OrderedMap.insertAll [] l = m := by
  have hkeys : l.Pairwise fun a b => a.1 ≠ b.1 :=
    (hperm.pairwise_iff fun hne => hne.symm).mpr h.pairwise_ne
  have hsorted : Sorted (OrderedMap.insertAll [] l) := Sorted.insertAll .nil l
  exact hsorted.eq_of_perm h ((insertAll_perm hkeys (by simp)).trans hperm)

theorem Sorted.eq_of_mem_iff (h' : Sorted m') (hmem : ∀ e, e ∈ m ↔ e ∈ m') : m = m' := by
  have hnodup {l : List (κ × α)} (hl : Sorted l) : l.Nodup :=
    hl.pairwise_ne.imp fun hne heq => hne (congrArg Prod.fst heq)
  exact h.eq_of_perm h' ((List.perm_ext_iff_of_nodup (hnodup h) (hnodup h')).mpr hmem)

variable [DecidableEq κ]

/-- Two maps with the same values are equal. -/
theorem Sorted.ext (h' : Sorted m') (hget : ∀ k, get m k = get m' k) : m = m' :=
  h.eq_of_mem_iff h' fun e => by rw [h.mem_iff_get, h'.mem_iff_get, hget]

/-- A value that is put in place of another and then back again. -/
theorem Sorted.insert_insert_of_get {v' : α}
    (hget : get m k = some v) : OrderedMap.insert k v (OrderedMap.insert k v' m) = m := by
  refine h.insert.insert.ext h fun x => ?_
  rw [get_insert, get_insert]
  split
  · rename_i hx
    rw [← hx, hget]
  · rfl

/-- An entry that is put in and taken out again. -/
theorem Sorted.erase_insert_of_get (hget : get m k = none) :
    OrderedMap.erase (OrderedMap.insert k v m) k = m := by
  refine (h.insert.erase k).ext h fun x => ?_
  rw [get_erase, get_insert]
  split
  · rename_i hx
    rw [← hx, hget]
  · rfl

end Order

end OrderedMap

end StartTech.Foundation
