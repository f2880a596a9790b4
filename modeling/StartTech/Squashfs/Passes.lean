import StartTech.Squashfs.Layers

/-!
# The passes over the nodes

What a path has after each pass of applying a layer: after removals, after directories have been
made, and after the marks of the layer have been told from its entries.
-/

namespace StartTech.Squashfs

open Foundation Foundation.Fallible MerkleArchive

variable {S : Type}

/-- A proper ancestor. -/
def Above (ancestor path : Path) : Prop := ancestor <+: path ∧ ancestor ≠ path

theorem above_iff_dropLast {ancestor path : Path} (hpath : path ≠ []) :
    Above ancestor path ↔ ancestor <+: path.dropLast := by
  constructor
  · rintro ⟨hbelow, hne⟩
    obtain ⟨rest, rfl⟩ := hbelow
    have hrest : rest ≠ [] := by
      rintro rfl
      exact hne (List.append_nil _).symm
    rw [List.dropLast_append_of_ne_nil hrest]
    exact List.prefix_append _ _
  · intro h
    refine ⟨h.trans (List.dropLast_prefix path), ?_⟩
    rintro rfl
    have hle := h.length_le
    rw [List.length_dropLast] at hle
    have hpos := List.length_pos_iff.mpr hpath
    omega

namespace LayerFilesystem

variable {fs fs' : LayerFilesystem S} {path p : Path}

theorem get_remove (fs : LayerFilesystem S) (path p : Path) :
    (fs.remove path).get p = if path = p then none else fs.get p :=
  OrderedMap.get_erase _ _ _

theorem get_share (fs : LayerFilesystem S) (path : Path) (a : Shared S) (p : Path) :
    (fs.share path a).get p = if path = p then some a else fs.get p :=
  OrderedMap.get_insert _ _ _ _

theorem get_insert (fs : LayerFilesystem S) (path : Path) (node : Node S) (p : Path) :
    (fs.insert path node).get p = if path = p then some ⟨fs.next, node⟩ else fs.get p :=
  OrderedMap.get_insert _ _ _ _

section Removal

theorem mem_keys_of_get {a : Shared S} (h : fs.get p = some a) : p ∈ fs.nodes.map Prod.fst :=
  List.mem_map.mpr ⟨(p, a), OrderedMap.mem_of_get h, rfl⟩

/-- If the first path behind is not below, no path is. -/
theorem get_of_nextDescendant (h : fs.nextDescendant path = none) (hbelow : Above path p) :
    fs.get p = none := by
  cases hget : fs.get p with
  | none => rfl
  | some a =>
    have hmem := mem_keys_of_get hget
    have hlt : compare path p = .lt := Lexicographic.lt_of_isPrefix hbelow.1 hbelow.2
    obtain ⟨first, hfirst⟩ : ∃ first, (fs.nodes.map Prod.fst).find?
        (fun candidate => compare path candidate == .lt) = some first :=
      Option.isSome_iff_exists.mp (List.find?_isSome.mpr ⟨p, hmem, by rw [hlt]; rfl⟩)
    rw [nextDescendant, hfirst, Option.filter_some, ite_eq_right_iff] at h
    obtain ⟨hbehind, before, after, hkeys, hbefore⟩ := List.find?_eq_some_iff_append.mp hfirst
    have hle : compare first p ≠ .gt := by
      rw [hkeys] at hmem
      obtain hmem | hmem := List.mem_append.mp hmem
      · exact absurd hlt (by simpa using hbefore p hmem)
      · obtain rfl | hmem := List.mem_cons.mp hmem
        · rw [Std.ReflOrd.compare_self]
          decide
        · have hsorted : (fs.nodes.map Prod.fst).Pairwise fun a b => compare a b = .lt :=
            List.pairwise_map.mpr fs.sorted
          rw [hkeys] at hsorted
          rw [(List.pairwise_cons.mp (List.pairwise_append.mp hsorted).2.1).1 p hmem]
          decide
    have hbelow := Lexicographic.isPrefix_of_between (eq_of_beq hbehind) hle hbelow.1
    cases h (List.isPrefixOf_iff_prefix.mpr hbelow)

variable {next : Path}

theorem above_of_nextDescendant (h : fs.nextDescendant path = some next) :
    Above path next ∧ next ∈ fs.nodes.map Prod.fst := by
  obtain ⟨hfind, hbelow⟩ := Option.filter_eq_some_iff.mp h
  have hlt : compare path next = .lt := by simpa using List.find?_some hfind
  refine ⟨⟨List.isPrefixOf_iff_prefix.mp hbelow, ?_⟩, List.mem_of_find?_eq_some hfind⟩
  rintro rfl
  rw [Std.ReflOrd.compare_self] at hlt
  cases hlt

theorem length_remove_lt (h : next ∈ fs.nodes.map Prod.fst) :
    (fs.remove next).nodes.length < fs.nodes.length := by
  obtain ⟨e, he, rfl⟩ := List.mem_map.mp h
  exact List.length_filter_lt_length_iff_exists.mpr ⟨e, he, by simp⟩

/-- By induction on the number of nodes, of which each round takes one. -/
theorem get_removeDescendantsFrom {n : Nat} (hn : fs.nodes.length ≤ n) (path p : Path) :
    (Above path p → (removeDescendantsFrom n fs path).get p = none) ∧
      (¬Above path p → (removeDescendantsFrom n fs path).get p = fs.get p) := by
  induction n generalizing fs with
  | zero =>
    have hnil : fs.nodes = [] := List.eq_nil_of_length_eq_zero (Nat.le_zero.mp hn)
    refine ⟨fun _ => ?_, fun _ => rfl⟩
    rw [removeDescendantsFrom, get, hnil]
    rfl
  | succ n ih =>
    rw [removeDescendantsFrom]
    cases hnext : fs.nextDescendant path with
    | none => exact ⟨get_of_nextDescendant hnext, fun _ => rfl⟩
    | some next =>
      obtain ⟨habove, hmem⟩ := above_of_nextDescendant hnext
      have hlt := length_remove_lt hmem
      obtain ⟨hnone, hsame⟩ := ih (Nat.le_of_lt_succ (hlt.trans_le hn))
      refine ⟨hnone, fun hnot => ?_⟩
      have hne : next ≠ p := by
        rintro rfl
        exact hnot habove
      rw [hsame hnot, get_remove, if_neg hne]

theorem get_removeDescendants_of_above (h : Above path p) :
    (fs.removeDescendants path).get p = none :=
  (get_removeDescendantsFrom le_rfl path p).1 h

theorem get_removeDescendants (h : ¬Above path p) : (fs.removeDescendants path).get p = fs.get p :=
  (get_removeDescendantsFrom le_rfl path p).2 h

theorem get_removeSubtree_of_isPrefix (h : path <+: p) : (fs.removeSubtree path).get p = none := by
  by_cases hne : path = p
  · rw [removeSubtree, get_removeDescendants fun habove => habove.2 hne, get_remove, if_pos hne]
  · exact get_removeDescendants_of_above ⟨h, hne⟩

theorem get_removeSubtree (h : ¬path <+: p) : (fs.removeSubtree path).get p = fs.get p := by
  have hne : path ≠ p := by
    rintro rfl
    exact h List.prefix_rfl
  rw [removeSubtree, get_removeDescendants fun habove => h habove.1, get_remove, if_neg hne]

theorem next_removeDescendantsFrom (n : Nat) (fs : LayerFilesystem S) (path : Path) :
    (removeDescendantsFrom n fs path).next = fs.next := by
  induction n generalizing fs with
  | zero => rfl
  | succ n ih =>
    rw [removeDescendantsFrom]
    split
    · rfl
    · exact ih _

theorem next_removeDescendants (fs : LayerFilesystem S) (path : Path) :
    (fs.removeDescendants path).next = fs.next :=
  next_removeDescendantsFrom _ _ _

/-- What a pass of removals leaves. -/
theorem get_foldl (f : LayerFilesystem S → Path → LayerFilesystem S) (hides : Path → Path → Prop)
    (hhidden : ∀ fs w p, hides w p → (f fs w).get p = none)
    (hsame : ∀ fs w p, ¬hides w p → (f fs w).get p = fs.get p) (paths : List Path)
    (fs : LayerFilesystem S) (p : Path) :
    ((∃ w ∈ paths, hides w p) → (paths.foldl f fs).get p = none) ∧
      ((¬∃ w ∈ paths, hides w p) → (paths.foldl f fs).get p = fs.get p) := by
  induction paths generalizing fs with
  | nil => simp
  | cons w rest ih =>
    obtain ⟨hnone, hkept⟩ := ih (f fs w)
    rw [List.foldl_cons]
    by_cases hrest : ∃ w ∈ rest, hides w p
    · exact ⟨fun _ => hnone hrest, fun hnot => absurd
        (hrest.imp fun w hw => ⟨List.mem_cons_of_mem _ hw.1, hw.2⟩) hnot⟩
    · rw [hkept hrest]
      refine ⟨fun hex => ?_, fun hnot => hsame fs w p fun hw => ?_⟩
      · obtain ⟨w', hw', hhides⟩ := hex
        obtain rfl | hw' := List.mem_cons.mp hw'
        · exact hhidden fs w' p hhides
        · exact absurd ⟨w', hw', hhides⟩ hrest
      · exact hnot ⟨w, List.mem_cons_self, hw⟩

theorem next_foldl {f : LayerFilesystem S → Path → LayerFilesystem S}
    (h : ∀ fs w, (f fs w).next = fs.next) (paths : List Path) (fs : LayerFilesystem S) :
    (paths.foldl f fs).next = fs.next := by
  induction paths generalizing fs with
  | nil => rfl
  | cons w rest ih => exact (ih (f fs w)).trans (h fs w)

end Removal

/-- The nodes that were there, and new implicit directories at the places where there was none. -/
structure Extended (fs : LayerFilesystem S) (places : Path → Prop) (fs' : LayerFilesystem S) :
    Prop where
  kept : ∀ p a, fs.get p = some a → fs'.get p = some a
  added : ∀ p, fs.get p = none → places p →
    ∃ id, fs.next ≤ id ∧ fs'.get p = some ⟨id, Node.implicitDirectory⟩
  absent : ∀ p, fs.get p = none → ¬places p → fs'.get p = none
  next : fs.next ≤ fs'.next

section Extension

variable {P Q : Path → Prop}

theorem Extended.refl (fs : LayerFilesystem S) : Extended fs (fun _ => False) fs where
  kept _ _ h := h
  added _ _ h := h.elim
  absent _ h _ := h
  next := le_rfl

theorem Extended.congr (h : Extended fs P fs') (hiff : ∀ p, P p ↔ Q p) : Extended fs Q fs' where
  kept := h.kept
  added p hnone hq := h.added p hnone ((hiff p).mpr hq)
  absent p hnone hq := h.absent p hnone fun hp => hq ((hiff p).mp hp)
  next := h.next

theorem Extended.trans {fs'' : LayerFilesystem S} (h : Extended fs P fs')
    (h' : Extended fs' Q fs'') : Extended fs (fun p => P p ∨ Q p) fs'' where
  kept p a hp := h'.kept p a (h.kept p a hp)
  added p hnone hplace := by
    by_cases hp : P p
    · obtain ⟨id, hid, hget⟩ := h.added p hnone hp
      exact ⟨id, hid, h'.kept p _ hget⟩
    · obtain ⟨id, hid, hget⟩ := h'.added p (h.absent p hnone hp) (hplace.resolve_left hp)
      exact ⟨id, Nat.le_trans h.next hid, hget⟩
  absent p hnone hplace :=
    h'.absent p (h.absent p hnone fun hp => hplace (.inl hp)) fun hq => hplace (.inr hq)
  next := Nat.le_trans h.next h'.next

theorem extended_of_ensureAncestor {ancestor : Path} (h : fs.ensureAncestor ancestor = .ok fs') :
    Extended fs (· = ancestor) fs' := by
  unfold ensureAncestor at h
  split at h
  · rename_i a ha
    split at h
    · obtain rfl := Except.ok.inj h
      refine ⟨fun _ _ hp => hp, ?_, fun _ hp _ => hp, le_rfl⟩
      rintro p hnone rfl
      cases hnone.symm.trans ha
    · cases h
  · rename_i hnone
    cases h
    refine ⟨fun p a hp => ?_, ?_, fun p hp hne => ?_, Nat.le_succ _⟩
    · rw [get_insert, if_neg, hp]
      rintro rfl
      cases hp.symm.trans hnone
    · rintro p - rfl
      exact ⟨fs.next, le_rfl, by rw [get_insert, if_pos rfl]⟩
    · rw [get_insert, if_neg fun heq => hne heq.symm, hp]

/-- An iteration of extensions. -/
theorem extended_of_foldlM {α : Type} {f : LayerFilesystem S → α → Except Error (LayerFilesystem S)}
    (places : α → Path → Prop)
    (hf : ∀ fs a fs', f fs a = .ok fs' → Extended fs (places a) fs') {l : List α}
    (h : l.foldlM f fs = .ok fs') : Extended fs (fun p => ∃ a ∈ l, places a p) fs' := by
  refine foldlM_ok (fun done fs' => Extended fs (fun p => ∃ a ∈ done, places a p) fs') h
    ((Extended.refl fs).congr fun p => by simp) fun done a rest fs₁ fs₂ _ hdone hstep => ?_
  refine (hdone.trans (hf fs₁ a fs₂ hstep)).congr fun p => ?_
  simp

theorem extended_of_ensureDirectory (h : fs.ensureDirectory path = .ok fs') :
    Extended fs (· <+: path) fs' := by
  refine (extended_of_foldlM (fun ancestor p => p = ancestor)
    (fun _ _ _ => extended_of_ensureAncestor) h).congr fun p => ?_
  simp [List.mem_inits]

theorem extended_of_ensureParent (h : ensureParent fs path = .ok fs') :
    Extended fs (Above · path) fs' := by
  unfold ensureParent at h
  split at h
  · rename_i hpath
    cases h
    refine (Extended.refl fs).congr fun p => ⟨False.elim, fun habove => ?_⟩
    rw [hpath] at habove
    exact habove.2 (List.prefix_nil.mp habove.1)
  · rename_i hpath
    exact (extended_of_ensureDirectory h).congr fun p => (above_iff_dropLast hpath).symm

end Extension

end LayerFilesystem

section Marks

/-- The path that a mark removes. -/
def whiteoutOf (path : Path) : Option Path :=
  (markName path).bind fun name =>
    if name = opaqueName then none else some (path.dropLast ++ [name])

/-- The directory that a mark empties. -/
def opaqueOf (path : Path) : Option Path :=
  (markName path).bind fun name => if name = opaqueName then some path.dropLast else none

def entriesOf (layer : List (Path × Entry S)) : List (Path × Entry S) :=
  layer.filter fun e => (markName e.1).isNone

def whiteoutsOf (layer : List (Path × Entry S)) : List Path :=
  layer.filterMap fun e => whiteoutOf e.1

def opaquesOf (layer : List (Path × Entry S)) : List Path :=
  layer.filterMap fun e => opaqueOf e.1

structure Scanned (layer : List (Path × Entry S)) (scan : Scan S) : Prop where
  entries : scan.entries = entriesOf layer
  whiteouts : scan.whiteouts = whiteoutsOf layer
  opaques : scan.opaques = opaquesOf layer

variable [FileSource S] {scan scan' : Scan S} {layer : List (Path × Entry S)}

/-- A mark adds itself to the marks of its kind. -/
theorem scanMark_eq_ok {path : Path} {name : Name} {entry : Entry S}
    (h : scanMark scan path name entry = .ok scan') :
    scan' = if name = opaqueName then { scan with opaques := scan.opaques ++ [path.dropLast] }
      else { scan with whiteouts := scan.whiteouts ++ [path.dropLast ++ [name]] } := by
  unfold scanMark at h
  split at h
  · split at h
    · cases h
    · split at h
      · rename_i hname
        rw [if_pos hname]
        exact (Except.ok.inj h).symm
      · rename_i hname
        obtain ⟨_, -, h⟩ := bind_eq_ok.mp h
        rw [if_neg hname]
        exact (Except.ok.inj h).symm
  · cases h

theorem Scanned.append {e : Path × Entry S} (h : Scanned layer scan)
    (hstep : scanEntry scan e = .ok scan') : Scanned (layer ++ [e]) scan' := by
  obtain ⟨hents, hwhiteouts, hopaques⟩ := h
  unfold scanEntry at hstep
  split at hstep
  · cases hstep
  · split at hstep
    · rename_i name hname
      rw [scanMark_eq_ok hstep]
      by_cases hopaque : name = opaqueName
      · rw [if_pos hopaque]
        constructor
        · simp [entriesOf, hname, hents]
        · simp [whiteoutsOf, whiteoutOf, hname, hopaque, hwhiteouts]
        · simp [opaquesOf, opaqueOf, hname, hopaque, hopaques]
      · rw [if_neg hopaque]
        constructor
        · simp [entriesOf, hname, hents]
        · simp [whiteoutsOf, whiteoutOf, hname, hopaque, hwhiteouts]
        · simp [opaquesOf, opaqueOf, hname, hopaque, hopaques]
    · rename_i hname
      cases hstep
      constructor
      · simp [entriesOf, hname, hents]
      · simp [whiteoutsOf, whiteoutOf, hname, hwhiteouts]
      · simp [opaquesOf, opaqueOf, hname, hopaques]

theorem scanned_of_foldlM (h : layer.foldlM scanEntry {} = .ok scan) : Scanned layer scan :=
  foldlM_ok Scanned h ⟨rfl, rfl, rfl⟩ fun _ _ _ _ _ _ hdone hstep => hdone.append hstep

end Marks

section Pending

variable {fs : LayerFilesystem S} {pending : List (Path × Path)} {p : Path} {a : Shared S}
  {next : Path}

theorem get_of_lookupHardlink (h : lookupHardlink fs pending p = some (.ok a)) :
    fs.get p = some a := by
  unfold lookupHardlink at h
  split at h
  · rename_i b hb
    rw [hb, Except.ok.inj (Option.some.inj h)]
  · obtain ⟨_, -, h⟩ := Option.map_eq_some_iff.mp h
    cases h

theorem pending_of_lookupHardlink (h : lookupHardlink fs pending p = some (.error next)) :
    fs.get p = none ∧ OrderedMap.get pending p = some next := by
  unfold lookupHardlink at h
  split at h
  · cases Option.some.inj h
  · rename_i hnone
    obtain ⟨_, hpend, h⟩ := Option.map_eq_some_iff.mp h
    rw [← Except.error.inj h]
    exact ⟨hnone, hpend⟩

end Pending

end StartTech.Squashfs
