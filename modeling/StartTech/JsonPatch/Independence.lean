import StartTech.JsonPtr.Path

/-!
# When taking out one value leaves a path alone

Taking out an element renumbers the later elements of its array. A path that
does not go through a renumbered element, nor to something that holds the value
taken out, leads to the same place before and after.
-/

namespace StartTech.JsonPatch

open Foundation ImblValue JsonPtr
open Json (eraseChild setChild follow_eq_some remove_cons descend_eq_some setChild_setChild child resolve follow)

/-- Taking out what `source` names moves or contains what `path` names. -/
def disturbs : List Text → List Text → Json → Bool
  | _, [], _ => true
  | [], _ :: _, _ => false
  | s :: source, t :: path, d =>
    match resolve false s d, resolve false t d with
    | some a, some b =>
      if source.isEmpty then
        match a, b with
        | .index i, .index j => decide (i ≤ j)
        | _, _ => false
      else
        a == b && match child a d with
          | some x => disturbs source path x
          | none => false
    | _, _ => false

/-- Taking out the child at the first step keeps the second step where it is. -/
def Apart : Step → Step → Prop
  | .index i, .index j => j < i
  | .key k, .key k' => k ≠ k'
  | _, _ => True

variable {a b : Step} {seg : Text} {u w d v x d₁ d₂ e : Json} {path source : List Text}
  {m : Text → Option Json}

theorem Apart.ne (h : Apart a b) : a ≠ b := by
  rintro rfl
  cases a with
  | index i => exact Nat.lt_irrefl i h
  | key k => exact h rfl

theorem resolve_eraseChild (seg : Text) (a : Step) (d : Json) :
    resolve false seg (eraseChild a d) = resolve false seg d := by
  cases a <;> cases d <;> simp [eraseChild, resolve, removeIdx]

theorem child_eraseChild (h : Apart a b) (d : Json) : child b (eraseChild a d) = child b d := by
  cases a with
  | index i =>
    cases b with
    | index j => cases d <;> simp [child, eraseChild, List.getElem?_eraseIdx_of_lt h]
    | key k => cases d <;> simp [child, eraseChild]
  | key k =>
    cases b with
    | index j => cases d <;> simp [child, eraseChild]
    | key k' =>
      have hk : k' ≠ k := fun hk => h hk.symm
      cases d <;> simp [child, eraseChild, hk]

theorem eraseChild_setChild (h : Apart a b) (y d : Json) :
    eraseChild a (setChild b y d) = setChild b y (eraseChild a d) := by
  cases a with
  | index i =>
    cases b with
    | index j =>
      cases d <;> simp [setChild, eraseChild, List.eraseIdx_set_gt h]
    | key k => cases d <;> simp [setChild, eraseChild]
  | key k =>
    cases b with
    | index j => cases d <;> simp [setChild, eraseChild]
    | key k' =>
      have hk : k ≠ k' := h
      cases d <;> simp [setChild, eraseChild, Function.update_comm hk]

/-- The last segment of the source takes out a child that the path does not need. -/
private theorem apart_of_free {s t : Text} (hs : follow false s d = some (a, v))
    (ht : follow false t (eraseChild a d) = some (b, x))
    (hfree : disturbs [s] (t :: path) d = false) : Apart a b := by
  obtain ⟨hrs, -⟩ := follow_eq_some.mp hs
  obtain ⟨hrt, hx⟩ := follow_eq_some.mp ht
  rw [resolve_eraseChild] at hrt
  simp only [disturbs, hrs, hrt] at hfree
  cases a with
  | index i =>
    cases b with
    | index j => simpa [Apart] using hfree
    | key k => trivial
  | key k =>
    cases b with
    | index j => trivial
    | key k' =>
      rintro rfl
      cases d <;> simp [child, eraseChild] at hx

private theorem follow_eraseChild (h : Apart a b) :
    follow false seg (eraseChild a d) = some (b, x) ↔ follow false seg d = some (b, x) := by
  rw [follow_eq_some, follow_eq_some, resolve_eraseChild, child_eraseChild h]

private theorem follow_setChild_ne (h : a ≠ b) (y : Json) :
    follow false seg (setChild a y d) = some (b, x) ↔ follow false seg d = some (b, x) := by
  rw [follow_eq_some, follow_eq_some, Json.resolve_setChild, Json.child_setChild_ne h]

private theorem eraseChild_comm (k k' : Text) (d : Json) :
    eraseChild (.key k) (eraseChild (.key k') d) =
      eraseChild (.key k') (eraseChild (.key k) d) := by
  by_cases h : k = k'
  · rw [h]
  · cases d <;> simp [eraseChild, Function.update_comm h]

private theorem object_of_eraseChild (h : eraseChild a d = .object m) : ∃ m', d = .object m' := by
  cases d with
  | object m' => exact ⟨m', rfl⟩
  | _ => cases a <;> simp [eraseChild] at h

private theorem object_of_setChild (h : setChild a x d = .object m) : ∃ m', d = .object m' := by
  cases d with
  | object m' => exact ⟨m', rfl⟩
  | _ => cases a <;> simp [setChild] at h

/-- Taking out a member after an undisturbing value could have come first. -/
theorem remove_commute (hsrc : Json.remove false source d = some (v, d₁))
    (hdisplace : Json.insert path u d₁ = some (some w, d₂))
    (hpath : Json.remove false path d₁ = some (w, e)) (hfree : disturbs source path d = false) :
    ∃ d', Json.remove false path d = some (w, d') ∧ Json.remove false source d' = some (v, e) := by
  induction source generalizing path d d₁ d₂ e with
  | nil => simp [Json.remove] at hsrc
  | cons s source ih =>
    cases path with
    | nil => simp [Json.remove] at hpath
    | cons t path =>
      obtain ⟨a, x, hs, hsrc⟩ := remove_cons.mp hsrc
      obtain ⟨b, z, ht, hpath⟩ := remove_cons.mp hpath
      rcases hsrc with ⟨rfl, rfl, rfl⟩ | ⟨hne, x₁, hx, rfl⟩
      · -- The source ends here: its child goes and the path keeps clear of it.
        have hab := apart_of_free hs ht hfree
        have ht' := (follow_eraseChild hab).mp ht
        rcases hpath with ⟨rfl, rfl, rfl⟩ | ⟨hne, y, hz, rfl⟩
        · obtain ⟨m, hm, -⟩ := Json.insertHere_displaces hdisplace
          obtain ⟨m', rfl⟩ := object_of_eraseChild hm
          obtain ⟨rfl⟩ := (follow_eq_some.mp hs).1
          obtain ⟨rfl⟩ := (follow_eq_some.mp ht).1
          refine ⟨eraseChild (.key t) (.object m'),
            remove_cons.mpr ⟨_, w, ht', .inl ⟨rfl, rfl, rfl⟩⟩,
            remove_cons.mpr ⟨.key s, v, ?_, .inl ⟨rfl, rfl, eraseChild_comm t s _⟩⟩⟩
          exact (follow_eraseChild (a := .key t) (b := .key s) hab.symm).mpr hs
        · refine ⟨setChild b y d, remove_cons.mpr ⟨b, z, ht', .inr ⟨hne, y, hz, rfl⟩⟩,
            remove_cons.mpr ⟨a, v, ?_, .inl ⟨rfl, rfl, ?_⟩⟩⟩
          · exact (follow_setChild_ne hab.ne.symm y).mpr hs
          · rw [eraseChild_setChild hab]
      · obtain ⟨hrs, hxd⟩ := follow_eq_some.mp hs
        obtain ⟨hrt, hzd⟩ := follow_eq_some.mp ht
        rw [Json.resolve_setChild] at hrt
        have hempty : source.isEmpty = false := by simpa using hne
        simp only [disturbs, hrs, hrt, hxd, hempty] at hfree
        rcases hpath with ⟨rfl, rfl, rfl⟩ | ⟨hne', y, hz, rfl⟩
        · obtain ⟨m, hm, -⟩ := Json.insertHere_displaces hdisplace
          obtain ⟨m', rfl⟩ := object_of_setChild hm
          obtain ⟨rfl⟩ := hrs
          obtain ⟨rfl⟩ := hrt
          have hts : Apart (.key t) (.key s) := by
            rintro rfl
            simp [disturbs] at hfree
          have ht' := (follow_setChild_ne (Ne.symm hts.ne) x₁).mp ht
          refine ⟨eraseChild (.key t) (.object m'),
            remove_cons.mpr ⟨_, w, ht', .inl ⟨rfl, rfl, rfl⟩⟩,
            remove_cons.mpr ⟨.key s, x, ?_, .inr ⟨hne, x₁, hx, ?_⟩⟩⟩
          · exact (follow_eraseChild hts).mpr hs
          · rw [eraseChild_setChild hts]
        · by_cases hab : a = b
          · -- Both go on below one child.
            subst hab
            obtain rfl : x₁ = z := by
              rw [Json.child_setChild hxd] at hzd
              exact Option.some.inj hzd
            obtain ⟨next, rest, rfl⟩ := List.exists_cons_of_ne_nil hne'
            obtain ⟨b, z', y', ht', hdisp, -⟩ := descend_eq_some.mp hdisplace
            rw [ht] at ht'
            cases ht'
            obtain ⟨x', hp, hs'⟩ := ih hx hdisp hz (by simpa using hfree)
            refine ⟨setChild a x' d, remove_cons.mpr ⟨a, x, follow_eq_some.mpr ⟨hrt, hxd⟩,
                .inr ⟨hne', x', hp, rfl⟩⟩,
              remove_cons.mpr ⟨a, x', ?_, .inr ⟨hne, y, hs', ?_⟩⟩⟩
            · exact Json.follow_setChild hs x'
            · rw [setChild_setChild, setChild_setChild]
          · have ht' := (follow_setChild_ne hab x₁).mp ht
            refine ⟨setChild b y d, remove_cons.mpr ⟨b, z, ht', .inr ⟨hne', y, hz, rfl⟩⟩,
              remove_cons.mpr ⟨a, x, ?_, .inr ⟨hne, x₁, hx, ?_⟩⟩⟩
            · exact (follow_setChild_ne (Ne.symm hab) y).mpr hs
            · exact Json.setChild_comm (Ne.symm hab) y x₁ d

/-- The element that was edited stands one further on after the move back. -/
private theorem shifted_ne {l : List Json} {i j : Nat} {y z q : Json} (hij : i ≤ j)
    (hz : (l.eraseIdx i)[j]? = some z) (hyz : y ≠ z) :
    (((l.eraseIdx i).set j y).insertIdx i v).set j q ≠ l := by
  intro heq
  have hlt := (List.getElem?_eq_some_iff.mp hz).1
  have hnext := congrArg (fun m : List Json => m[j + 1]?) heq
  rw [List.getElem?_eraseIdx_of_ge hij] at hz
  simp only [hz] at hnext
  rw [List.getElem?_set_ne (by omega), List.getElem?_insertIdx_of_gt (by omega),
    Nat.add_sub_cancel, List.getElem?_set_self hlt] at hnext
  exact hyz (Option.some.inj hnext)

/-- A disturbed path is lost: moving back fails, or what was displaced goes back to
another place. -/
theorem disturbed_undo (hpath : path ≠ []) (hsrc : Json.remove false source d = some (v, d₁))
    (hdisplace : Json.insert path v d₁ = some (some w, d₂))
    (hremove : Json.remove false path d₁ = some (w, e)) (hdisturb : disturbs source path d = true)
    {prev : Option Json} {d₃ d₄ : Json} (hback : Json.insert source v e = some (prev, d₃))
    (hadd : Json.insert path w d₃ = some (none, d₄)) : d₄ ≠ d := by
  induction source generalizing path d d₁ d₂ e d₃ d₄ with
  | nil => simp [Json.remove] at hsrc
  | cons s source ih =>
    obtain ⟨t, path, rfl⟩ := List.exists_cons_of_ne_nil hpath
    obtain ⟨a, x, hs, hsrc⟩ := remove_cons.mp hsrc
    obtain ⟨b, z, ht, hremove⟩ := remove_cons.mp hremove
    obtain ⟨hrs, hxd⟩ := follow_eq_some.mp hs
    obtain ⟨hrt, hzd⟩ := follow_eq_some.mp ht
    rcases hsrc with ⟨rfl, rfl, rfl⟩ | ⟨hne, x₁, hx, rfl⟩
    · rw [resolve_eraseChild] at hrt
      simp only [disturbs, hrs, hrt] at hdisturb
      cases d with
      | array l =>
        obtain ⟨i, hi, rfl⟩ := Option.map_eq_some_iff.mp hrs
        obtain ⟨j, hj, rfl⟩ := Option.map_eq_some_iff.mp hrt
        have hij : i ≤ j := by simpa using hdisturb
        rcases hremove with ⟨rfl, -, -⟩ | ⟨hne, y, hzy, rfl⟩
        · obtain ⟨m, hm, -⟩ := Json.insertHere_displaces hdisplace
          simp [eraseChild] at hm
        · obtain ⟨n, hn, hle, -, rfl⟩ := Json.insertHere_array.mp hback
          obtain ⟨next, rest, rfl⟩ := List.exists_cons_of_ne_nil hne
          obtain ⟨c, q, q', hq, -, rfl⟩ := descend_eq_some.mp hadd
          rw [Json.removeIdx_false] at hi hj
          rw [Json.insertIdx_eq (Json.ne_dash_of_parseIdx hi), hi] at hn
          cases hn
          have hc := (follow_eq_some.mp hq).1
          rw [resolve, Json.removeIdx_false, hj] at hc
          cases hc
          intro heq
          exact shifted_ne hij hzd (Json.remove_ne hzy) (Json.array.inj heq)
      | object m =>
        cases hrs
        simp at hdisturb
      | _ => simp [resolve] at hrs
    · rw [Json.resolve_setChild] at hrt
      have hempty : source.isEmpty = false := by simpa using hne
      simp only [disturbs, hrs, hrt, hxd, hempty, Bool.false_eq_true, if_false,
        Bool.and_eq_true, beq_iff_eq] at hdisturb
      obtain ⟨rfl, hdisturb⟩ := hdisturb
      obtain ⟨next, rest, rfl⟩ := List.exists_cons_of_ne_nil hne
      obtain ⟨c, r, r', hfollow, hrun, rfl⟩ := descend_eq_some.mp hback
      rcases hremove with ⟨rfl, rfl, rfl⟩ | ⟨hne', y, hzy, rfl⟩
      · -- The path leads to what holds the source, so there is no way back to it.
        obtain ⟨m, hm, -⟩ := Json.insertHere_displaces hdisplace
        obtain ⟨m', rfl⟩ := object_of_setChild hm
        cases hrs
        obtain ⟨hc, hr⟩ := follow_eq_some.mp hfollow
        cases hc
        simp [setChild, eraseChild, child] at hr
      · -- Both go on below one child.
        obtain ⟨next', rest', rfl⟩ := List.exists_cons_of_ne_nil hne'
        obtain rfl : x₁ = z := by
          rw [Json.child_setChild hxd] at hzd
          exact Option.some.inj hzd
        obtain ⟨c', z', y', hfollow', hdisp, -⟩ := descend_eq_some.mp hdisplace
        rw [ht] at hfollow'
        cases hfollow'
        rw [setChild_setChild] at hfollow hadd
        rw [Json.follow_setChild hs y] at hfollow
        cases hfollow
        rw [setChild_setChild] at hadd
        obtain ⟨c, q, q', hfollow, hadd, rfl⟩ := descend_eq_some.mp hadd
        have ht' : follow false t d = some (a, x) := follow_eq_some.mpr ⟨hrt, hxd⟩
        rw [Json.follow_setChild ht' r'] at hfollow
        cases hfollow
        rw [setChild_setChild]
        exact Json.setChild_ne hxd (ih hne' hx hdisp hzy hdisturb hrun hadd)

end StartTech.JsonPatch
