import StartTech.Squashfs.Passes

/-!
# What a layer makes of a filesystem

A path has the entry of the layer if there is one; if not, what the layer removes is gone and the
rest stays. Directories that are missing on the way to a path of the layer are made. Removing is
done on the lower layers alone, so that it never meets an entry of the same layer.

## Implementation notes

A hardlink shares the node that its target has when the link is read. This is the node of the
lower layers if the layer has not touched the target by then, and the one of the layer if it has,
or if there was none.
-/

namespace StartTech.Squashfs

open Foundation Foundation.Fallible MerkleArchive LayerFilesystem
open OrderedMap (get mem_keys_iff get_insert_self)
open List (mem_cons_self mem_append_left prefix_rfl mem_append_right)

variable {S : Type}

variable (layer : List (Path × Entry S))

/-- The marks of a layer remove a path of the layers below. -/
def Marked (p : Path) : Prop :=
  (∃ w ∈ whiteoutsOf layer, w <+: p) ∨ ∃ o ∈ opaquesOf layer, Above o p

/-- An entry that is not a directory stands where a proper ancestor was. -/
def Replaced (entries : List (Path × Entry S)) (p : Path) : Prop :=
  ∃ e ∈ entries, e.2.isDirectory = false ∧ Above e.1 p

/-- A layer removes a path of the layers below. -/
def Hidden (p : Path) : Prop := Marked layer p ∨ Replaced (entriesOf layer) p

/-- A path of the layer lies below. -/
def Holds (layer : List (Path × Entry S)) (p : Path) : Prop := ∃ e ∈ layer, Above p e.1

/-- When a link is read, the layer has nothing at its target or in place of an ancestor. -/
def Untouched (before : List (Path × Entry S)) (p target : Path) : Prop :=
  (∀ e ∈ before, e.1 ≠ target) ∧ target ≠ p ∧ ¬Replaced (before ++ [(p, .hardlink target)]) target

/-- Paths are distinct, and an entry comes after the entries above it, which are directories. -/
structure Orderly : Prop where
  distinct : (layer.map Prod.fst).Nodup
  ancestors : ∀ before e after, entriesOf layer = before ++ e :: after →
    ∀ d ∈ entriesOf layer, Above d.1 e.1 → d ∈ before ∧ d.2.isDirectory = true

/-- What a layer makes of a filesystem. -/
structure Composed (fs fs' : LayerFilesystem S) : Prop where
  node : ∀ p n, (p, .node n) ∈ entriesOf layer → ∃ id, fs.next ≤ id ∧ fs'.get p = some ⟨id, n⟩
  link : ∀ before p target after, entriesOf layer = before ++ (p, .hardlink target) :: after →
    (∀ a, Untouched before p target → ¬Marked layer target → fs.get target = some a →
      fs'.get p = some a) ∧
    ((Untouched before p target → Marked layer target ∨ fs.get target = none) →
      ∃ a, fs'.get p = some a ∧ fs'.get target = some a)
  kept : ∀ p, (∀ e ∈ entriesOf layer, e.1 ≠ p) → ¬Hidden layer p → ∀ a, fs.get p = some a →
    fs'.get p = some a
  implicit : ∀ p, (∀ e ∈ entriesOf layer, e.1 ≠ p) → (Hidden layer p ∨ fs.get p = none) →
    Holds layer p → ∃ id, fs.next ≤ id ∧ fs'.get p = some ⟨id, Node.implicitDirectory⟩
  absent : ∀ p, (∀ e ∈ entriesOf layer, e.1 ≠ p) → (Hidden layer p ∨ fs.get p = none) →
    ¬Holds layer p → fs'.get p = none

section Entries

variable {fs : LayerFilesystem S} {done : List (Path × Entry S)}
  {e : Path × Entry S} {s s' : Applying S}

variable {p path : Path} {fs₁ : LayerFilesystem S} {entries : List (Path × Entry S)}

theorem replaced_append : Replaced (entries ++ [e]) p ↔
      Replaced entries p ∨ (e.2.isDirectory = false ∧ Above e.1 p) := by
  simp [Replaced]

theorem holds_append : Holds (entries ++ [e]) p ↔ Holds entries p ∨ Above p e.1 := by
  simp [Holds]

/-- Away from the entries that are done: what was below, unless it is replaced, and the directories
that were missing. -/
structure Around (fs : LayerFilesystem S) (done : List (Path × Entry S)) (fs' : LayerFilesystem S)
    (p : Path) : Prop where
  kept : ¬Replaced done p → ∀ a, fs.get p = some a → fs'.get p = some a
  implicit : (Replaced done p ∨ fs.get p = none) → Holds done p →
    ∃ id, fs.next ≤ id ∧ fs'.get p = some ⟨id, Node.implicitDirectory⟩
  absent : (Replaced done p ∨ fs.get p = none) → ¬Holds done p → fs'.get p = none

/-- The entries of a layer up to some place have been put in. -/
structure Progress (fs : LayerFilesystem S) (done : List (Path × Entry S)) (s : Applying S) :
    Prop where
  next : fs.next ≤ s.fs.next
  node : ∀ p n, (p, .node n) ∈ done → ∃ id, fs.next ≤ id ∧ s.fs.get p = some ⟨id, n⟩
  link : ∀ before p target after, done = before ++ (p, .hardlink target) :: after →
    (∀ a, Untouched before p target → fs.get target = some a → s.fs.get p = some a) ∧
    ((Untouched before p target → fs.get target = none) →
      get s.pending p = some target ∨
        ((∃ d ∈ done, d.1 = target) ∧ ∃ a, s.fs.get p = some a ∧ s.fs.get target = some a))
  pending : ∀ p target, get s.pending p = some target →
    (p, .hardlink target) ∈ done ∧ s.fs.get p = none
  around : ∀ p, (∀ d ∈ done, d.1 ≠ p) → Around fs done s.fs p

/-- An entry comes after the entries above it, which are directories, and before those below. -/
def Comes (done : List (Path × Entry S)) (e : Path × Entry S) : Prop :=
  ∀ d ∈ done, ¬e.1 <+: d.1 ∧ (d.1 <+: e.1 → d.2.isDirectory = true)

/-- The filesystem right before an entry is put in: its parents are there, and what is below it
is gone unless it is a directory. -/
structure Prepared (s : Applying S) (e : Path × Entry S) (fs₂ : LayerFilesystem S) : Prop where
  next : s.fs.next ≤ fs₂.next
  exists_extended : ∃ fs₁, LayerFilesystem.Extended s.fs (Above · e.1) fs₁ ∧
    (∀ p, e.2.isDirectory = false → Above e.1 p → fs₂.get p = none) ∧
    ∀ p, p ≠ e.1 → (e.2.isDirectory = true ∨ ¬Above e.1 p) → fs₂.get p = fs₁.get p

variable {fs₂ : LayerFilesystem S}

section

variable (h : Progress fs done s)
include h

section

variable (hcomes : Comes done e)
include hcomes

/-- The entries that are done are not touched. -/
theorem Progress.get_done (hp : Prepared s e fs₂)
    {d : Path × Entry S} (hd : d ∈ done) : fs₂.get d.1 = s.fs.get d.1 := by
  obtain ⟨fs₁, hext, -, hsame⟩ := hp.exists_extended
  obtain ⟨hbelow, hdir⟩ := hcomes d hd
  have hne : d.1 ≠ e.1 := fun heq => hbelow (heq ▸ prefix_rfl)
  rw [hsame d.1 hne (.inr fun habove => hbelow habove.1)]
  cases hget : s.fs.get d.1 with
  | some a => exact hext.kept d.1 a hget
  | none =>
    refine hext.absent d.1 hget fun habove => ?_
    -- a link that is pending is no directory, so that it is not above
    obtain ⟨p, entry⟩ := d
    cases entry with
    | node n =>
      obtain ⟨id, -, hnode⟩ := h.node p n hd
      cases hget.symm.trans hnode
    | hardlink target => cases hdir habove.1

theorem Progress.get_around (hp : Prepared s e fs₂)
    (hdone : ∀ d ∈ done, d.1 ≠ p) (hne : p ≠ e.1) : Around fs (done ++ [e]) fs₂ p := by
  obtain ⟨fs₁, hext, hgone, hsame⟩ := hp.exists_extended
  obtain ⟨hkept, himplicit, habsent⟩ := h.around p hdone
  by_cases hreplaced : e.2.isDirectory = false ∧ Above e.1 p
  · have hholds : ¬Holds (done ++ [e]) p := by
      rw [holds_append]
      rintro (⟨d, hd, habove⟩ | habove)
      · exact (hcomes d hd).1 (hreplaced.2.1.trans habove.1)
      · exact habove.2 (habove.1.eq_of_length_le hreplaced.2.1.length_le)
    refine ⟨fun hnot => absurd (replaced_append.mpr (.inr hreplaced)) hnot,
      fun _ hex => absurd hex hholds, fun _ _ => hgone p hreplaced.1 hreplaced.2⟩
  · have hget : fs₂.get p = fs₁.get p := by
      refine hsame p hne ?_
      cases hdir : e.2.isDirectory with
      | true => exact .inl rfl
      | false => exact .inr fun habove => hreplaced ⟨hdir, habove⟩
    have hiff : Replaced (done ++ [e]) p ↔ Replaced done p := by
      rw [replaced_append, or_iff_left hreplaced]
    constructor
    · intro hnot a ha
      rw [hget]
      exact hext.kept p a (hkept (fun hr => hnot (hiff.mpr hr)) a ha)
    · intro hor hholds
      rw [hget]
      have hor := hor.imp_left hiff.mp
      by_cases hold : Holds done p
      · obtain ⟨id, hid, hsome⟩ := himplicit hor hold
        exact ⟨id, hid, hext.kept p _ hsome⟩
      · have habove := (holds_append.mp hholds).resolve_left hold
        obtain ⟨id, hid, hsome⟩ := hext.added p (habsent hor hold) habove
        exact ⟨id, Nat.le_trans h.next hid, hsome⟩
    · intro hor hholds
      rw [hget]
      have hor := hor.imp_left hiff.mp
      exact hext.absent p (habsent hor fun hold => hholds (holds_append.mpr (.inl hold)))
        fun habove => hholds (holds_append.mpr (.inr habove))

/-- An entry is put in where it belongs; nothing else changes. -/
theorem Progress.append (hp : Prepared s e fs₂)
    (hnext : fs₂.next ≤ s'.fs.next) (hget : ∀ p, p ≠ e.1 → s'.fs.get p = fs₂.get p)
    (hpending : ∀ p, p ≠ e.1 → get s'.pending p = get s.pending p)
    (hnode : ∀ n, e.2 = .node n → ∃ id, fs.next ≤ id ∧ s'.fs.get e.1 = some ⟨id, n⟩)
    (hlink : ∀ target, e.2 = .hardlink target →
      (∀ a, Untouched done e.1 target → fs.get target = some a → s'.fs.get e.1 = some a) ∧
      ((Untouched done e.1 target → fs.get target = none) → get s'.pending e.1 = some target ∨
          ((∃ d ∈ done, d.1 = target) ∧ ∃ a, s'.fs.get e.1 = some a ∧ fs₂.get target = some a)))
    (hown : ∀ target, get s'.pending e.1 = some target →
      e.2 = .hardlink target ∧ s'.fs.get e.1 = none) : Progress fs (done ++ [e]) s' := by
  have hne : ∀ d ∈ done, d.1 ≠ e.1 := fun d hd heq =>
    (hcomes d hd).1 (heq ▸ prefix_rfl)
  have hold : ∀ d ∈ done, s'.fs.get d.1 = s.fs.get d.1 := fun d hd => by
    rw [hget d.1 (hne d hd), h.get_done hcomes hp hd]
  refine ⟨Nat.le_trans h.next (Nat.le_trans hp.next hnext), ?_, ?_, ?_, ?_⟩
  · intro p n hmem
    obtain hmem | hmem := List.mem_append.mp hmem
    · obtain ⟨id, hid, hnode⟩ := h.node p n hmem
      exact ⟨id, hid, (hold _ hmem).trans hnode⟩
    · obtain rfl := List.mem_singleton.mp hmem
      exact hnode n rfl
  · intro before p target after heq
    obtain rfl | ⟨after, last, rfl⟩ := List.eq_nil_or_concat after
    · obtain ⟨rfl, hlast⟩ := List.append_inj' heq rfl
      obtain rfl := List.singleton_inj.mp hlast
      obtain ⟨hbelow, hlayer⟩ := hlink target rfl
      refine ⟨hbelow, fun hnone => ?_⟩
      obtain hpend | ⟨⟨d, hd, htarget⟩, a, hp', ht⟩ := hlayer hnone
      · exact .inl hpend
      · refine .inr ⟨⟨d, mem_append_left _ hd, htarget⟩, a, hp', ?_⟩
        rw [← ht, hget target (htarget ▸ hne d hd)]
    · rw [List.concat_eq_append, ← List.cons_append, ← List.append_assoc] at heq
      obtain ⟨rfl, -⟩ := List.append_inj' heq rfl
      have hmem : (p, .hardlink target) ∈ before ++ (p, .hardlink target) :: after :=
        mem_append_right _ mem_cons_self
      obtain ⟨hbelow, hlayer⟩ := h.link before p target after rfl
      refine ⟨fun a hun ha => (hold _ hmem).trans (hbelow a hun ha), fun hnone => ?_⟩
      obtain hpend | ⟨⟨d, hd, htarget⟩, a, hp', ht⟩ := hlayer hnone
      · exact .inl ((hpending p (hne _ hmem)).trans hpend)
      · refine .inr ⟨⟨d, mem_append_left _ hd, htarget⟩, a, (hold _ hmem).trans hp', ?_⟩
        subst htarget
        exact (hold d hd).trans ht
  · intro p target hpend
    by_cases heq : p = e.1
    · subst heq
      obtain ⟨hentry, hnone⟩ := hown target hpend
      refine ⟨mem_append_right _ (List.mem_singleton.mpr ?_), hnone⟩
      rw [← hentry]
    · obtain ⟨hmem, hnone⟩ := h.pending p target ((hpending p heq).symm.trans hpend)
      exact ⟨mem_append_left _ hmem, (hold _ hmem).trans hnone⟩
  · intro p hdone
    obtain ⟨hdone, hne'⟩ : (∀ d ∈ done, d.1 ≠ p) ∧ p ≠ e.1 :=
      ⟨fun d hd => hdone d (mem_append_left _ hd),
        (hdone e (mem_append_right _ mem_cons_self)).symm⟩
    obtain ⟨hkept, himplicit, habsent⟩ := h.get_around hcomes hp hdone hne'
    have hsame := hget p hne'
    exact ⟨fun hr a ha => hsame.trans (hkept hr a ha),
      fun hor hholds => (himplicit hor hholds).imp fun id hid => ⟨hid.1, hsame.trans hid.2⟩,
      fun hor hholds => hsame.trans (habsent hor hholds)⟩

/-- An entry does not wait for its target before it has been read. -/
theorem Progress.pending_eq_none : get s.pending e.1 = none := by
  cases hget : get s.pending e.1 with
  | none => rfl
  | some target =>
    exact absurd prefix_rfl (hcomes _ (h.pending e.1 target hget).1).1

end

theorem Progress.applyNode {n : Node S}
    (hcomes : Comes done (path, .node n)) (hparent : ensureParent s.fs path = .ok fs₁)
    (hstep : applyNode s fs₁ path n = .ok s') : Progress fs (done ++ [(path, .node n)]) s' := by
  have hext := extended_of_ensureParent hparent
  unfold Squashfs.applyNode at hstep
  split at hstep
  · cases hstep
  · obtain rfl := Except.ok.inj hstep
    have hprepared : Prepared s (path, .node n)
        (if n.isDirectory then fs₁ else fs₁.removeDescendants path) := by
      cases hdir : n.isDirectory with
      | true =>
        refine ⟨hext.next, fs₁, hext, fun p hfalse => ?_, fun _ _ _ => rfl⟩
        exact absurd (hdir.symm.trans hfalse) (by decide)
      | false =>
        rw [if_neg Bool.false_ne_true]
        refine ⟨?_, fs₁, hext, fun p _ habove => ?_, fun p _ hor => ?_⟩
        · rw [next_removeDescendants]
          exact hext.next
        · exact get_removeDescendants_of_above habove
        · refine get_removeDescendants (hor.resolve_left fun htrue => ?_)
          exact absurd (hdir.symm.trans htrue) (by decide)
    refine h.append hcomes hprepared (Nat.le_succ _) (fun p hp => ?_) (fun _ _ => rfl)
      (fun n' hn => ?_) (fun target htarget => ?_) fun target hpend => ?_
    · rw [get_insert, if_neg fun heq => hp heq.symm]
    · obtain rfl := Entry.node.inj hn
      refine ⟨_, Nat.le_trans h.next hprepared.next, ?_⟩
      rw [get_insert, if_pos rfl]
    · cases htarget
    · cases (h.pending_eq_none hcomes).symm.trans hpend

/-- What a link finds at its target is of the layers below, or the layer's own. -/
theorem Progress.applyHardlink {target : Path}
    (hcomes : Comes done (path, .hardlink target)) (hparent : ensureParent s.fs path = .ok fs₁)
    (hstep : applyHardlink s fs₁ path target = .ok s') :
    Progress fs (done ++ [(path, .hardlink target)]) s' := by
  have hext := extended_of_ensureParent hparent
  have hprepared : Prepared s (path, .hardlink target) (fs₁.removeSubtree path) := by
    refine ⟨?_, fs₁, hext, fun p _ habove => ?_, fun p hne hor => ?_⟩
    · rw [removeSubtree, next_removeDescendants]
      exact hext.next
    · exact get_removeSubtree_of_isPrefix habove.1
    · have hnot := hor.resolve_left Bool.false_ne_true
      exact get_removeSubtree fun hbelow => hnot ⟨hbelow, hne.symm⟩
  have hown : (fs₁.removeSubtree path).get path = none :=
    get_removeSubtree_of_isPrefix prefix_rfl
  -- the target is of the layers below: it is still there
  have hbelow : ∀ a, Untouched done path target → fs.get target = some a →
      (fs₁.removeSubtree path).get target = some a := by
    rintro a ⟨hdone, hne, hreplaced⟩ ha
    exact (h.get_around hcomes hprepared hdone hne).kept hreplaced a ha
  unfold Squashfs.applyHardlink at hstep
  split at hstep
  · cases hstep
  · dsimp only at hstep
    split at hstep
    · rename_i a ha
      obtain ⟨⟨⟩, hvalid, hstep⟩ := bind_eq_ok.mp hstep
      cases hstep
      have hself : ((fs₁.removeSubtree path).share path a).get path = some a := by
        rw [get_share, if_pos rfl]
      refine h.append hcomes hprepared le_rfl (fun p hp => ?_) (fun _ _ => rfl)
        (fun n hn => ?_) (fun target' htarget => ?_) fun target' hpend => ?_
      · rw [get_share, if_neg fun heq => hp heq.symm]
      · cases hn
      · obtain rfl := Entry.hardlink.inj htarget
        refine ⟨fun a' hun ha' => ?_, fun hnone => .inr ?_⟩
        · rw [hself, ← ha, hbelow a' hun ha']
        · refine ⟨?_, a, hself, ha⟩
          -- were the target not of the layer, it would be an implicit directory
          by_contra hdone
          have hdone : ∀ d ∈ done, d.1 ≠ target := fun d hd heq => hdone ⟨d, hd, heq⟩
          have hne : target ≠ path := by
            rintro rfl
            cases hown.symm.trans ha
          have haround := h.get_around hcomes hprepared hdone hne
          have hor : Replaced (done ++ [(path, .hardlink target)]) target ∨
              fs.get target = none := by
            by_cases hreplaced : Replaced (done ++ [(path, .hardlink target)]) target
            · exact .inl hreplaced
            · exact .inr (hnone ⟨hdone, hne, hreplaced⟩)
          by_cases hholds : Holds (done ++ [(path, .hardlink target)]) target
          · obtain ⟨id, -, himplicit⟩ := haround.implicit hor hholds
            obtain rfl := Option.some.inj (himplicit.symm.trans ha)
            cases Node.isDirectory_of_validate hvalid
          · cases (haround.absent hor hholds).symm.trans ha
      · cases (h.pending_eq_none hcomes).symm.trans hpend
    · rename_i hnone
      cases hstep
      refine h.append hcomes hprepared le_rfl (fun p hp => rfl) (fun p hp => ?_)
        (fun n hn => ?_) (fun target' htarget => ?_) fun target' hpend => ?_
      · rw [OrderedMap.get_insert, if_neg fun heq => hp heq.symm]
      · cases hn
      · obtain rfl := Entry.hardlink.inj htarget
        refine ⟨fun a hun ha => ?_, fun _ => .inl ?_⟩
        · cases hnone.symm.trans (hbelow a hun ha)
        · rw [get_insert_self]
      · rw [get_insert_self] at hpend
        cases hpend
        exact ⟨rfl, hown⟩

theorem Progress.applyEntry (hcomes : Comes done e)
    (hstep : applyEntry s e = .ok s') : Progress fs (done ++ [e]) s' := by
  obtain ⟨fs₁, hparent, hstep⟩ := bind_eq_ok.mp hstep
  obtain ⟨path, entry⟩ := e
  cases entry with
  | node n => exact h.applyNode hcomes hparent hstep
  | hardlink target => exact h.applyHardlink hcomes hparent hstep

end

theorem progress_start (fs : LayerFilesystem S) : Progress fs [] ⟨fs, []⟩ where
  next := le_rfl
  node _ _ h := nomatch h
  link before p target after h := by simp at h
  pending _ _ h := nomatch h
  around p _ := by
    refine ⟨fun _ _ h => h, fun _ hholds => ?_, fun hor _ => hor.resolve_left ?_⟩
    · obtain ⟨e, he, -⟩ := hholds
      cases he
    · rintro ⟨e, he, -⟩
      cases he

theorem Orderly.comes {layer done rest : List (Path × Entry S)} (h : Orderly layer)
    (heq : entriesOf layer = done ++ e :: rest) : Comes done e := by
  have hnodup : ((entriesOf layer).map Prod.fst).Nodup :=
    h.distinct.sublist (List.filter_sublist.map Prod.fst)
  rw [heq, List.map_append] at hnodup
  have hapart : ∀ d ∈ done, d.1 ≠ e.1 := by
    intro d hd hsame
    exact List.disjoint_of_nodup_append hnodup (List.mem_map_of_mem hd) (hsame ▸ mem_cons_self)
  intro d hd
  obtain ⟨before, after, rfl⟩ := List.append_of_mem hd
  have hmem : ∀ x ∈ before ++ d :: after, x ∈ entriesOf layer := fun x hx =>
    heq ▸ mem_append_left _ hx
  have hlast : e ∈ entriesOf layer := heq ▸ mem_append_right _ mem_cons_self
  constructor
  · intro hbelow
    have hsplit : entriesOf layer = before ++ d :: (after ++ e :: rest) := by
      rw [heq, List.append_assoc, List.cons_append]
    have hbefore := (h.ancestors before d _ hsplit e hlast
      ⟨hbelow, fun hsame => hapart d hd hsame.symm⟩).1
    exact hapart e (mem_append_left _ hbefore) rfl
  · intro hbelow
    exact (h.ancestors _ e rest heq d (hmem d hd) ⟨hbelow, hapart d hd⟩).2

end Entries

variable {fs fs' : LayerFilesystem S} {pending : List (Path × Path)} {done : List Path} {p : Path}

/-- Some of the links have got the nodes at the ends of their chains. -/
structure Linked (fs : LayerFilesystem S) (pending : List (Path × Path)) (done : List Path)
    (fs' : LayerFilesystem S) : Prop where
  same : ∀ p, p ∉ done → fs'.get p = fs.get p
  linked : ∀ p ∈ done, ∃ a, fs'.get p = some a ∧ Resolves (lookupHardlink fs pending) p a
  next : fs'.next = fs.next

/-- A chain that ends at such a link goes on to the same node. -/
theorem Linked.resolves (h : Linked fs pending done fs') {a : Shared S}
    (hres : Resolves (lookupHardlink fs' pending) p a) :
    Resolves (lookupHardlink fs pending) p a := by
  induction hres with
  | @node p a hlookup =>
    have hget := get_of_lookupHardlink hlookup
    by_cases hdone : p ∈ done
    · obtain ⟨b, hb, hres⟩ := h.linked p hdone
      obtain rfl := Option.some.inj (hb.symm.trans hget)
      exact hres
    · rw [h.same p hdone] at hget
      exact .node (by rw [lookupHardlink, hget])
  | @link p next a hlookup _ ih =>
    obtain ⟨hnone, hpend⟩ := pending_of_lookupHardlink hlookup
    have hdone : p ∉ done := by
      intro hmem
      obtain ⟨b, hb, -⟩ := h.linked p hmem
      cases hnone.symm.trans hb
    rw [h.same p hdone] at hnone
    exact .link (by rw [lookupHardlink, hnone, hpend]; rfl) ih

/-- No more links than a layer has are followed. -/
theorem resolveHardlink_pending {fuel : Nat} (hfuel : pending.length < fuel) :
    resolveHardlink (lookupHardlink fs pending) fuel [] p =
      resolveHardlink (lookupHardlink fs pending) (pending.length + 1) [] p := by
  have hlinks (p next : Path) (h : lookupHardlink fs pending p = some (.error next)) :
      p ∈ pending.map Prod.fst := mem_keys_iff.mpr ⟨_, (pending_of_lookupHardlink h).2⟩
  induction fuel, hfuel using Nat.le_induction with
  | base => rfl
  | succ fuel hle ih =>
    have hlt : (pending.map Prod.fst).length < fuel := by rwa [List.length_map]
    exact (resolveHardlink_succ hlinks .nil (List.nil_subset _) hlt).trans ih

theorem Linked.append (h : Linked fs pending done fs') {fs'' : LayerFilesystem S}
    (hstep : resolvePending pending fs' p = .ok fs'') : Linked fs pending (done ++ [p]) fs'' := by
  obtain ⟨a, hresolve, hstep⟩ := bind_eq_ok.mp hstep
  obtain ⟨_, -, hstep⟩ := bind_eq_ok.mp hstep
  cases hstep
  have hres := h.resolves (resolves_of_resolveHardlink hresolve)
  refine ⟨fun q hq => ?_, fun q hq => ?_, h.next⟩
  · obtain ⟨hdone, hne⟩ : q ∉ done ∧ p ≠ q := by
      rw [List.mem_append, not_or, List.mem_singleton] at hq
      exact ⟨hq.1, fun heq => hq.2 heq.symm⟩
    rw [get_share, if_neg hne, h.same q hdone]
  · by_cases heq : p = q
    · subst heq
      exact ⟨a, by rw [get_share, if_pos rfl], hres⟩
    · have hdone : q ∈ done := (List.mem_append.mp hq).resolve_right fun hmem =>
        heq (List.mem_singleton.mp hmem).symm
      obtain ⟨b, hb, hres⟩ := h.linked q hdone
      exact ⟨b, by rw [get_share, if_neg heq, hb], hres⟩

/-- In the end a link that waited shares the node of its target. -/
theorem Linked.shared (h : Linked fs pending (pending.map Prod.fst) fs') {target : Path}
    (hpend : get pending p = some target) (hnone : fs.get p = none) :
    ∃ a, fs'.get p = some a ∧ fs'.get target = some a := by
  obtain ⟨a, ha, hres⟩ := h.linked p (mem_keys_iff.mpr ⟨target, hpend⟩)
  have htarget : Resolves (lookupHardlink fs pending) target a := by
    cases hres with
    | node hlookup => cases hnone.symm.trans (get_of_lookupHardlink hlookup)
    | link hlookup hres =>
      have hnext := (pending_of_lookupHardlink hlookup).2
      rw [Option.some.inj (hpend.symm.trans hnext)]
      exact hres
  refine ⟨a, ha, ?_⟩
  by_cases hmem : target ∈ pending.map Prod.fst
  · obtain ⟨b, hb, hres'⟩ := h.linked target hmem
    rw [hb, hres'.unique htarget]
  · rw [h.same target hmem]
    cases htarget with
    | node hlookup => exact get_of_lookupHardlink hlookup
    | link hlookup _ =>
      exact absurd (mem_keys_iff.mpr ⟨_, (pending_of_lookupHardlink hlookup).2⟩) hmem

variable {layer} {fs₁ fs₂ : LayerFilesystem S} {s : Applying S}

/-- The lower layers after the marks have been followed. -/
def unmarked (layer : List (Path × Entry S)) (fs : LayerFilesystem S) : LayerFilesystem S :=
  (opaquesOf layer).foldl removeDescendants
    ((whiteoutsOf layer).foldl removeSubtree fs)

theorem next_unmarked (layer : List (Path × Entry S)) (fs : LayerFilesystem S) :
    (unmarked layer fs).next = fs.next := by
  rw [unmarked, next_foldl next_removeDescendants]
  refine next_foldl (fun fs w => ?_) _ fs
  exact next_removeDescendants _ _

theorem get_unmarked (layer : List (Path × Entry S)) (fs : LayerFilesystem S) (p : Path) :
    (Marked layer p → (unmarked layer fs).get p = none) ∧
      (¬Marked layer p → (unmarked layer fs).get p = fs.get p) := by
  obtain ⟨hwhite, hwhite'⟩ := get_foldl removeSubtree (· <+: ·)
    (fun _ _ _ h => get_removeSubtree_of_isPrefix h)
    (fun _ _ _ h => get_removeSubtree h) (whiteoutsOf layer) fs p
  obtain ⟨hemptied, hemptied'⟩ := get_foldl removeDescendants Above
    (fun _ _ _ h => get_removeDescendants_of_above h)
    (fun _ _ _ h => get_removeDescendants h) (opaquesOf layer)
    ((whiteoutsOf layer).foldl removeSubtree fs) p
  constructor
  · intro hmarked
    by_cases ho : ∃ o ∈ opaquesOf layer, Above o p
    · exact hemptied ho
    · exact (hemptied' ho).trans (hwhite (hmarked.resolve_right ho))
  · intro hnot
    exact (hemptied' fun ho => hnot (.inr ho)).trans (hwhite' fun hw => hnot (.inl hw))

/-- The directories that are made for entries and for marks are those above the paths of the
layer. -/
theorem holds_iff : Holds layer p ↔ Holds (entriesOf layer) p ∨
    (∃ w ∈ whiteoutsOf layer, p <+: w.dropLast) ∨ ∃ o ∈ opaquesOf layer, p <+: o := by
  constructor
  · rintro ⟨e, he, habove⟩
    cases hname : markName e.1 with
    | none =>
      refine .inl ⟨e, List.mem_filter.mpr ⟨he, ?_⟩, habove⟩
      rw [hname]
      rfl
    | some name =>
      have hpath : e.1 ≠ [] := by
        intro hnil
        rw [hnil] at hname
        cases hname
      have hdir := (above_iff_dropLast hpath).mp habove
      by_cases hemptied : name = opaqueName
      · refine .inr (.inr ⟨e.1.dropLast, List.mem_filterMap.mpr ⟨e, he, ?_⟩, hdir⟩)
        simp [opaqueOf, hname, hemptied]
      · refine .inr (.inl ⟨e.1.dropLast ++ [name], List.mem_filterMap.mpr ⟨e, he, ?_⟩, ?_⟩)
        · simp [whiteoutOf, hname, hemptied]
        · rw [List.dropLast_concat]
          exact hdir
  · have hpath : ∀ {path : Path} {name : Name}, markName path = some name → path ≠ [] := by
      rintro path name hname rfl
      cases hname
    rintro (⟨e, he, habove⟩ | ⟨w, hw, hdir⟩ | ⟨o, ho, hdir⟩)
    · exact ⟨e, (List.mem_filter.mp he).1, habove⟩
    · obtain ⟨e, he, hw⟩ := List.mem_filterMap.mp hw
      obtain ⟨name, hname, hw⟩ := Option.bind_eq_some_iff.mp hw
      split at hw
      · cases hw
      · obtain rfl := Option.some.inj hw
        rw [List.dropLast_concat] at hdir
        exact ⟨e, he, (above_iff_dropLast (hpath hname)).mpr hdir⟩
    · obtain ⟨e, he, ho⟩ := List.mem_filterMap.mp ho
      obtain ⟨name, hname, ho⟩ := Option.bind_eq_some_iff.mp ho
      split at ho
      · obtain rfl := Option.some.inj ho
        exact ⟨e, he, (above_iff_dropLast (hpath hname)).mpr hdir⟩
      · cases ho

/-- The stages of a layer that is applied without an error. -/
theorem stages_of_applyTar [FileSource S] (hlayer : Orderly layer)
    (h : applyTar fs layer = .ok fs') : ∃ s fs₂, Progress (unmarked layer fs) (entriesOf layer) s ∧
      Linked s.fs s.pending (s.pending.map Prod.fst) fs₂ ∧
      LayerFilesystem.Extended fs₂ (fun p => (∃ w ∈ whiteoutsOf layer, p <+: w.dropLast) ∨
        ∃ o ∈ opaquesOf layer, p <+: o) fs' := by
  obtain ⟨scan, hscan, h⟩ := bind_eq_ok.mp h
  obtain ⟨hents, hwhiteouts, hopaques⟩ := scanned_of_foldlM hscan
  rw [hents, hwhiteouts, hopaques] at h
  obtain ⟨s, hs, h⟩ := bind_eq_ok.mp h
  obtain ⟨fs₂, hlinks, h⟩ := bind_eq_ok.mp h
  obtain ⟨fs₃, hwhite, hemptied⟩ := bind_eq_ok.mp h
  refine ⟨s, fs₂, ?_, foldlM_ok (Linked s.fs s.pending) hlinks
    ⟨fun _ _ => rfl, fun _ hp => (List.not_mem_nil hp).elim, rfl⟩
    fun _ _ _ _ _ _ hdone hstep => hdone.append hstep, ?_⟩
  · exact foldlM_ok (Progress (unmarked layer fs)) hs (progress_start _)
      fun done e rest s s' heq hdone hstep => hdone.applyEntry (hlayer.comes heq) hstep
  · have hfirst := extended_of_foldlM (fun (w : Path) p => p <+: w.dropLast)
      (fun _ _ _ h => extended_of_ensureDirectory h) hwhite
    exact hfirst.trans (extended_of_foldlM (fun (o : Path) p => p <+: o)
      (fun _ _ _ h => extended_of_ensureDirectory h) hemptied)

/-- A path without an entry does not wait for a target. -/
theorem Progress.get_other (h : Progress fs₁ (entriesOf layer) s)
    (hlinks : Linked s.fs s.pending (s.pending.map Prod.fst) fs₂)
    (hp : ∀ e ∈ entriesOf layer, e.1 ≠ p) : fs₂.get p = s.fs.get p := by
  refine hlinks.same p fun hmem => ?_
  obtain ⟨target, hpend⟩ := mem_keys_iff.mp hmem
  exact hp _ (h.pending p target hpend).1 rfl

theorem get_unmarked_eq_none (h : Marked layer p ∨ fs.get p = none) :
    (unmarked layer fs).get p = none := by
  obtain ⟨hmarked, hsame⟩ := get_unmarked layer fs p
  by_cases hm : Marked layer p
  · exact hmarked hm
  · rw [hsame hm, h.resolve_left hm]

/-- A path has the entry of the layer; without one it is gone if the layer removes it and stays if
not, apart from directories that are missing above a path of the layer. -/
theorem layers_compose [FileSource S] (fs : LayerFilesystem S) (layer : List (Path × Entry S))
    (fs' : LayerFilesystem S) (hlayer : Orderly layer) (h : applyTar fs layer = .ok fs') :
    Composed layer fs fs' := by
  obtain ⟨s, fs₂, hprogress, hlinks, hext⟩ := stages_of_applyTar hlayer h
  have hnext : fs.next ≤ fs₂.next := by
    rw [hlinks.next, ← next_unmarked layer fs]
    exact hprogress.next
  have hkept : ∀ p a, s.fs.get p = some a → fs'.get p = some a := by
    intro p a ha
    refine hext.kept p a ((hlinks.same p fun hmem => ?_).trans ha)
    obtain ⟨target, hpend⟩ := mem_keys_iff.mp hmem
    cases (hprogress.pending p target hpend).2.symm.trans ha
  have hhidden : ∀ p, Hidden layer p ∨ fs.get p = none →
      Replaced (entriesOf layer) p ∨ (unmarked layer fs).get p = none := by
    rintro p ((hmarked | hreplaced) | hnone)
    · exact .inr (get_unmarked_eq_none (.inl hmarked))
    · exact .inl hreplaced
    · exact .inr (get_unmarked_eq_none (.inr hnone))
  constructor
  case node =>
    intro p n hmem
    obtain ⟨id, hid, hget⟩ := hprogress.node p n hmem
    exact ⟨id, next_unmarked layer fs ▸ hid, hkept p _ hget⟩
  case link =>
    intro before p target after heq
    obtain ⟨hbelow, hlayer'⟩ := hprogress.link before p target after heq
    refine ⟨fun a hun hmarked ha => ?_, fun hnone => ?_⟩
    · exact hkept p a (hbelow a hun (((get_unmarked layer fs target).2 hmarked).trans ha))
    · obtain hpend | ⟨-, a, hp, ht⟩ := hlayer' fun hun => get_unmarked_eq_none (hnone hun)
      · obtain ⟨a, hp, ht⟩ := hlinks.shared hpend (hprogress.pending p target hpend).2
        exact ⟨a, hext.kept p a hp, hext.kept target a ht⟩
      · exact ⟨a, hkept p a hp, hkept target a ht⟩
  case kept =>
    intro p hp hnot a ha
    have hget : (unmarked layer fs).get p = some a :=
      ((get_unmarked layer fs p).2 fun hm => hnot (.inl hm)).trans ha
    exact hkept p a ((hprogress.around p hp).kept (fun hr => hnot (.inr hr)) a hget)
  case implicit =>
    intro p hp hor hholds
    by_cases hents : Holds (entriesOf layer) p
    · obtain ⟨id, hid, hget⟩ := (hprogress.around p hp).implicit (hhidden p hor) hents
      exact ⟨id, next_unmarked layer fs ▸ hid, hkept p _ hget⟩
    · have hnone := (hprogress.around p hp).absent (hhidden p hor) hents
      obtain ⟨id, hid, hget⟩ := hext.added p ((hprogress.get_other hlinks hp).trans hnone)
        ((holds_iff.mp hholds).resolve_left hents)
      exact ⟨id, hnext.trans hid, hget⟩
  case absent =>
    intro p hp hor hholds
    have hnone := (hprogress.around p hp).absent (hhidden p hor) fun hents =>
      hholds (holds_iff.mpr (.inl hents))
    exact hext.absent p ((hprogress.get_other hlinks hp).trans hnone) fun hmarks =>
      hholds (holds_iff.mpr (.inr hmarks))

/-- The file `a`. -/
def sampleLower : LayerFilesystem Bytes where
  nodes := [([], ⟨0, Node.implicitDirectory⟩), ([[97]], ⟨1, ⟨Metadata.new 420, .file [1]⟩⟩)]
  next := 2
  sorted := by decide

/-- A link `c` to `a`, and then `a` anew. -/
def sampleUpper : List (Path × Entry Bytes) :=
  [([[99]], .hardlink [[97]]), ([[97]], .node ⟨Metadata.new 420, .file [2]⟩)]

theorem orderly_sampleUpper : Orderly sampleUpper where
  distinct := by decide
  ancestors := by
    have hapart : ∀ d ∈ entriesOf sampleUpper, ∀ e ∈ entriesOf sampleUpper, ¬Above d.1 e.1 := by
      intro d hd e he habove
      have hlen : ∀ x ∈ entriesOf sampleUpper, x.1.length = 1 := by decide
      exact habove.2 (habove.1.eq_of_length ((hlen d hd).trans (hlen e he).symm))
    intro before e after heq d hd habove
    exact absurd habove (hapart d hd e (heq ▸ mem_append_right _ mem_cons_self))

theorem layers_compose_sample : ∃ fs', applyTar sampleLower sampleUpper = .ok fs' ∧
    Composed sampleUpper sampleLower fs' :=
  ⟨_, rfl, layers_compose sampleLower sampleUpper _ orderly_sampleUpper rfl⟩

/-- In the result a hardlink and its target have one node. -/
def SharesTargets (layer : List (Path × Entry S)) (fs' : LayerFilesystem S) : Prop :=
  ∀ p target, (p, .hardlink target) ∈ entriesOf layer →
    ∃ a, fs'.get p = some a ∧ fs'.get target = some a

/-- The link keeps the node that its target had below; the target gets a new one. -/
theorem link_keeps_old_node : Orderly sampleUpper ∧ ∃ fs',
    applyTar sampleLower sampleUpper = .ok fs' ∧ ¬SharesTargets sampleUpper fs' := by
  refine ⟨orderly_sampleUpper, _, rfl, fun h => ?_⟩
  obtain ⟨a, hlink, htarget⟩ := h [[99]] [[97]] mem_cons_self
  have hold : (1 : Nat) = a.id := congrArg Shared.id (Option.some.inj hlink)
  have hnew : (2 : Nat) = a.id := congrArg Shared.id (Option.some.inj htarget)
  exact absurd (hold.trans hnew.symm) (by decide)

end StartTech.Squashfs
