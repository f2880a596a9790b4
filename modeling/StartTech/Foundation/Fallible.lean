import Mathlib.Data.List.Basic

/-!
# Inverting computations that can fail
-/

namespace StartTech.Foundation.Fallible

universe u v

variable {ε : Type u} {α β : Type v} {x : Except ε α} {a : α} {l : List α} {r : List β} {b : β}
  {f : α → Option β}

/-- A sequence succeeds exactly when both parts do. -/
theorem bind_eq_ok {f : α → Except ε β} {r : β} :
    (x >>= f) = .ok r ↔ ∃ a, x = .ok a ∧ f a = .ok r := by
  cases x with
  | error e => exact iff_of_false nofun (by simp)
  | ok a => exact ⟨fun h => ⟨a, rfl, h⟩, fun ⟨_, ha, h⟩ => by cases ha; exact h⟩

theorem bind_ok {f : α → Except ε β} {r : β} (h : x = .ok a) (hf : f a = .ok r) :
    (x >>= f) = .ok r := bind_eq_ok.mpr ⟨a, h, hf⟩

theorem exists_ok_of_toBool (h : x.toBool = true) : ∃ a, x = .ok a := by
  cases x with
  | error e => cases h
  | ok a => exact ⟨a, rfl⟩

theorem ok_bind (a : α) (f : α → Except ε β) : (.ok a >>= f) = f a := rfl

/-- A traversal in which every element succeeds. -/
theorem mapM_eq_pure {m : Type v → Type u} [Monad m] [LawfulMonad m] {f : α → m β} {g : α → β}
    (h : ∀ a ∈ l, f a = pure (g a)) : l.mapM f = pure (l.map g) := by
  induction l with
  | nil => simp
  | cons a l ih =>
    rw [List.mapM_cons, h a (by simp), ih fun b hb => h b (by simp [hb])]
    simp

/-- A traversal succeeds when every element does. -/
theorem mapM_eq_ok_iff {f : α → Except ε β} : l.mapM f = .ok r ↔ l.map f = r.map .ok := by
  induction l generalizing r with
  | nil => exact Except.ok.injEq .. ▸ eq_comm.trans List.map_eq_nil_iff.symm |>.trans eq_comm
  | cons a l ih =>
    rw [List.mapM_cons, bind_eq_ok, List.map_cons, eq_comm, List.map_eq_cons_iff]
    constructor
    · rintro ⟨b, hb, h⟩
      obtain ⟨rest, hrest, h⟩ := bind_eq_ok.mp h
      exact ⟨b, rest, (Except.ok.inj h).symm, hb.symm, (ih.mp hrest).symm⟩
    · rintro ⟨b, rest, rfl, hb, hrest⟩
      exact ⟨b, hb.symm, bind_ok (ih.mpr hrest.symm) rfl⟩

/-- Each result of a successful traversal is the result of some element. -/
theorem exists_of_mapM_ok {f : α → Except ε β} (h : l.mapM f = .ok r) (hb : b ∈ r) :
    ∃ a ∈ l, f a = .ok b := by
  rw [← List.mem_map, mapM_eq_ok_iff.mp h]
  exact List.mem_map_of_mem hb

/-- Elements that their results determine are recovered from them. -/
theorem map_of_map_eq {γ : Type*} {f : α → γ} {k : β → γ} {g : β → α} (h : l.map f = r.map k)
    (hg : ∀ a ∈ l, ∀ b, f a = k b → g b = a) : r.map g = l := by
  induction l generalizing r with
  | nil => rw [List.map_eq_nil_iff.mp h.symm, List.map_nil]
  | cons a l ih =>
    obtain ⟨b, rest, rfl, hb, hrest⟩ := List.map_eq_cons_iff.mp h.symm
    rw [List.map_cons, hg a List.mem_cons_self b hb.symm,
      ih hrest.symm fun a ha => hg a (List.mem_cons_of_mem _ ha)]

/-- What holds at the start and is kept by each step holds after an iteration that succeeds; a step
knows the part that is done and the part that is left. -/
theorem foldlM_ok {α : Type*} {f : β → α → Except ε β} (I : List α → β → Prop) {l : List α}
    {r : β} (h : l.foldlM f b = .ok r) (hstart : I [] b)
    (hstep : ∀ done a rest b c, l = done ++ a :: rest → I done b → f b a = .ok c →
      I (done ++ [a]) c) : I l r := by
  have hrun : ∀ (done rest : List α) (b : β), l = done ++ rest → I done b →
      rest.foldlM f b = .ok r → I l r := by
    intro done rest
    induction rest generalizing done with
    | nil =>
      intro b hl hb hr
      obtain rfl : b = r := Except.ok.inj hr
      rw [hl, List.append_nil]
      exact hb
    | cons a rest ih =>
      intro b hl hb hr
      obtain ⟨c, hc, hr⟩ := bind_eq_ok.mp hr
      refine ih (done ++ [a]) c ?_ (hstep done a rest b c hl hb hc) hr
      rw [hl, List.append_assoc, List.singleton_append]
  exact hrun [] l b rfl hstart h

theorem mapM_cons_eq_some : (a :: l).mapM f = some r ↔
      ∃ b rest, f a = some b ∧ l.mapM f = some rest ∧ r = b :: rest := by
  rw [List.mapM_cons]
  constructor
  · intro h
    obtain ⟨b, hb, h⟩ := Option.bind_eq_some_iff.mp h
    obtain ⟨rest, hrest, h⟩ := Option.bind_eq_some_iff.mp h
    exact ⟨b, rest, hb, hrest, (Option.some.inj h).symm⟩
  · rintro ⟨b, rest, hb, hrest, rfl⟩
    rw [hb, hrest]
    rfl

/-- In a successful traversal every element has its result. -/
theorem mapM_eq_some_iff : l.mapM f = some r ↔ l.map f = r.map some := by
  induction l generalizing r with
  | nil => exact Option.some_inj.trans (eq_comm.trans List.map_eq_nil_iff.symm) |>.trans eq_comm
  | cons a l ih =>
    rw [mapM_cons_eq_some, List.map_cons]
    constructor
    · rintro ⟨b, rest, hb, hrest, rfl⟩
      rw [hb, ih.mp hrest, List.map_cons]
    · intro h
      obtain ⟨b, rest, rfl, hb, hrest⟩ := List.map_eq_cons_iff.mp h.symm
      exact ⟨b, rest, hb.symm, ih.mpr hrest.symm, rfl⟩

variable (h : l.mapM f = some r)
include h

theorem exists_of_mapM_some (hb : b ∈ r) : ∃ a ∈ l, f a = some b := by
  rw [← List.mem_map, mapM_eq_some_iff.mp h]
  exact List.mem_map_of_mem hb

theorem forall_of_mapM_some (ha : a ∈ l) : ∃ b ∈ r, some b = f a := by
  rw [← List.mem_map, ← mapM_eq_some_iff.mp h]
  exact List.mem_map_of_mem ha

theorem getElem?_of_mapM_some (i : Nat) : l[i]?.map f = r[i]?.map some := by
  rw [← List.getElem?_map, mapM_eq_some_iff.mp h, List.getElem?_map]

theorem length_of_mapM_some : r.length = l.length := by
  simpa using (congrArg List.length (mapM_eq_some_iff.mp h)).symm

end StartTech.Foundation.Fallible
