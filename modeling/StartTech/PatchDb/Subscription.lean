import StartTech.PatchDb.Channels
import StartTech.PatchDb.Memory
import StartTech.PatchDb.Recovery

/-!
# Subscribers keep up with the store

A subscriber of the whole document starts from a dump and is sent every revision
that the store accepts. The one update that changes the document without being
sent is one whose compaction fails after it has committed.
-/

namespace StartTech.PatchDb

open Foundation ImblValue JsonPatch

section Following

/-- A patch that runs through does not remove the root. -/
theorem root_not_removed {d d' : Json} {ops : Patch} (h : runJson d ops = some d') :
    PatchOperation.remove [] ∉ ops := by
  induction ops generalizing d with
  | nil => simp
  | cons op rest ih =>
    obtain ⟨d₁, hstep, hrest⟩ := Option.bind_eq_some_iff.mp h
    intro hmem
    rcases List.mem_cons.mp hmem with rfl | hmem
    · cases hstep
    · exact ih hrest hmem

/-- At the root, a patch that runs through is its own scoped view. -/
theorem forPath_root {d d' : Json} {p : DiffPatch} (h : runJson d p.ops = some d') :
    p.forPath [] = p := by
  obtain ⟨ops, diffs, wellFormed⟩ := p
  have hroot := root_not_removed h
  have hself : ∀ op ∈ ops, forPathOperation [] op = some op := by
    intro op hop
    have hdiff := diffs op hop
    cases op with
    | add path value | replace path value => simp [forPathOperation]
    | remove path =>
      cases path with
      | nil => exact absurd hop hroot
      | cons seg rest => rfl
    | _ => cases hdiff
  have hops : ops.filterMap (forPathOperation []) = ops := by
    rw [List.filterMap_congr hself, List.filterMap_some]
  simp [DiffPatch.forPath, hops]

/-- The revisions lead from a dump to a document and its revision. -/
structure Follows (dump : Dump) (revisions : List Revision) (d : Json) (n : Nat) : Prop where
  wellFormed : dump.value.WellFormed
  document : runPatches dump.value.denote (revisions.map Revision.patch) = some d
  revision : (revisions.getLast?.map Revision.id).getD dump.id = n

variable {dump : Dump}

theorem Follows.start (h : dump.value.WellFormed) : Follows dump [] dump.value.denote dump.id :=
  ⟨h, rfl, rfl⟩

variable {r : Revision}

theorem Follows.push {revisions : List Revision} {d d' : Json} {n : Nat}
    (h : Follows dump revisions d n) (hrun : runJson d r.patch.ops = some d') :
    Follows dump (revisions ++ [r]) d' r.id where
  wellFormed := h.wellFormed
  document := by
    rw [List.map_append, List.map_singleton, runPatches_concat, h.document, Option.bind_some, hrun]
  revision := by simp

variable {Bytes : Type} {ser : Serializer Bytes}

/-- A group has the JSON channel of a subscriber who follows. -/
def HasJson (ser : Serializer Bytes) (listeners : ScopedBroadcast Bytes)
    (id capacity start : Nat) (bytes : Bytes) (d : Json) (n : Nat) : Prop :=
  ∃ sender, (capacity, sender) ∈ listeners.json ∧ (id, start) ∈ sender.receivers ∧
    start ≤ sender.sent.length ∧ ∃ dump revisions, ser.dump dump = some bytes ∧
      sender.sent.drop start = revisions.map ser.revision ∧ Follows dump revisions d n

variable {listeners : ScopedBroadcast Bytes} {id : Nat} {d d' : Json} {n : Nat}
  {capacity start : Nat} {bytes : Bytes}

section

variable (h : HasJson ser listeners id capacity start bytes d n)
include h

theorem HasJson.prune : HasJson ser listeners.pruneJson id capacity start bytes d n ∧
      listeners.pruneJson.json ≠ [] := by
  obtain ⟨sender, hmem, hreceiver, hrest⟩ := h
  have hkept : (capacity, sender) ∈ listeners.pruneJson.json := by
    refine List.mem_filter.mpr ⟨hmem, ?_⟩
    simpa using List.ne_nil_of_mem hreceiver
  exact ⟨⟨sender, hkept, hreceiver, hrest⟩, List.ne_nil_of_mem hkept⟩

theorem HasJson.retain : ∃ listeners', listeners.retain = some listeners' ∧
      HasJson ser listeners' id capacity start bytes d n := by
  have hne : listeners.json ≠ [] := by
    obtain ⟨sender, hmem, -⟩ := h
    exact List.ne_nil_of_mem hmem
  refine ⟨listeners.pruneUnbounded, ?_, h⟩
  have hjson : listeners.pruneUnbounded.json ≠ [] := hne
  simp [ScopedBroadcast.retain, ScopedBroadcast.isEmpty, hjson]

/-- A revision that is sent at the root reaches every JSON channel of the group. -/
theorem HasJson.send (hrun : runJson d r.patch.ops = some d') (hne : r.patch.isEmpty = false) :
    ∃ listeners', listeners.send ser [] r = some listeners' ∧
      HasJson ser listeners' id capacity start bytes d' r.id := by
  have hroot : r.forPath [] = r := by rw [Revision.forPath, forPath_root hrun]
  have hcleared : HasJson ser (.pruneUnbounded { listeners with dump := none })
      id capacity start bytes d n := h
  obtain ⟨⟨sender, hmem, hreceiver, hstart, dump, revisions, hdump, hsent, hfollows⟩, hkept⟩ :=
    hcleared.prune
  generalize hpruned : ScopedBroadcast.pruneJson
    (.pruneUnbounded { listeners with dump := none }) = pruned at hmem hkept
  refine ⟨pruned.deliver ser r, ?_, ?_⟩
  · have hempty : pruned.isEmpty = false := by simp [ScopedBroadcast.isEmpty, hkept]
    simp [ScopedBroadcast.send, hpruned, hempty, hroot, hne]
  · refine ⟨{ sender with sent := sender.sent ++ [ser.revision r] }, ?_, hreceiver, ?_, dump,
      revisions ++ [r], hdump, ?_, hfollows.push hrun⟩
    · exact List.mem_map.mpr ⟨(capacity, sender), hmem, rfl⟩
    · rw [List.length_append]
      omega
    · rw [List.drop_append_of_le_length hstart, hsent, List.map_append]
      rfl

theorem HasJson.close {gone : Nat}
    (hne : id ≠ gone) : HasJson ser (listeners.close gone) id capacity start bytes d n := by
  obtain ⟨sender, hmem, hreceiver, hrest⟩ := h
  refine ⟨{ sender with receivers := sender.receivers.filter fun r => r.1 != gone },
    List.mem_map.mpr ⟨_, hmem, rfl⟩, ?_, hrest⟩
  exact List.mem_filter.mpr ⟨hreceiver, by simpa using hne⟩

theorem HasJson.attach (capacity' id' : Nat) :
    HasJson ser (listeners.attach capacity' id').2 id capacity start bytes d n := by
  obtain ⟨sender, hmem, hreceiver, hrest⟩ := h
  unfold ScopedBroadcast.attach
  split
  · rename_i other hget
    rcases InOMap.mem_set_of_mem capacity' _ hmem with hset | ⟨rfl, hsame⟩
    · exact ⟨sender, hset, hreceiver, hrest⟩
    · obtain rfl : other = sender := Option.some.inj (hget.symm.trans hsame)
      refine ⟨_, InOMap.mem_set_self hget _, ?_, hrest⟩
      exact List.mem_append_left _ hreceiver
  · exact ⟨sender, List.mem_append_left _ hmem, hreceiver, hrest⟩

end

end Following

section System

variable {B Bytes : Type}

/-- Every subscriber of the root follows the store, and a dump that is kept for the
root is of the current state. -/
structure Tracked (ser : Serializer Bytes) (s : System B Bytes) : Prop where
  wellFormed : s.store.persistent.WellFormed
  unbounded : Subscribed s.broadcast s.subscribers [] fun dump sent =>
    Follows dump sent s.store.persistent.denote s.store.revision
  json : ∀ id capacity start bytes, .json id [] capacity start bytes ∈ s.subscribers →
    ∃ listeners, s.broadcast [] = some listeners ∧
      HasJson ser listeners id capacity start bytes s.store.persistent.denote s.store.revision
  cached : ∀ listeners bytes, s.broadcast [] = some listeners → listeners.dump = some bytes →
    ∃ v : Value, ser.dump ⟨s.store.revision, v⟩ = some bytes ∧ v.WellFormed ∧
      v.denote = s.store.persistent.denote

variable {ser : Serializer Bytes} {s : System B Bytes}

variable {store : Store} {files : Files B} {json : Bytes}

theorem Tracked.sent (h : Tracked ser s) {patch : DiffPatch} (hne : patch.isEmpty = false)
    (hwf : store.persistent.WellFormed)
    (hrun : runJson s.store.persistent.denote patch.ops = some store.persistent.denote)
    (hrev : store.revision = s.store.revision + 1) :
    Tracked ser { s with
      store, files
      broadcast := s.broadcast.send ser { id := s.store.revision + 1, patch } } where
  wellFormed := hwf
  unbounded := by
    have hroot : patch.forPath [] = patch := forPath_root hrun
    apply h.unbounded.send ser
    · intro hempty
      simp [Revision.forPath, hroot, hne] at hempty
    · intro _ dump sent hfollows
      simpa [Revision.forPath, hroot, hrev] using
        hfollows.push hrun
  json id capacity start bytes hmem := by
    obtain ⟨listeners, hgroup, hhas⟩ := h.json id capacity start bytes hmem
    obtain ⟨listeners', hsend, hhas'⟩ :=
      hhas.send (r := ⟨s.store.revision + 1, patch⟩) hrun hne
    refine ⟨listeners', ?_, ?_⟩
    · simp [Broadcast.send, hgroup, hsend]
    · simpa [hrev] using hhas'
  cached listeners bytes hgroup hdump := by
    obtain ⟨old, -, hsend⟩ := Option.bind_eq_some_iff.mp hgroup
    rw [send_dump hsend] at hdump
    cases hdump

theorem Tracked.unsent (h : Tracked ser s) (hwf : store.persistent.WellFormed)
    (hdoc : store.persistent.denote = s.store.persistent.denote)
    (hrev : store.revision = s.store.revision) : Tracked ser { s with store, files } where
  wellFormed := hwf
  unbounded := by simpa [hdoc, hrev] using h.unbounded
  json id capacity start bytes hmem := by
    simpa [hdoc, hrev] using h.json id capacity start bytes hmem
  cached listeners bytes hgroup hdump := by
    simpa [hdoc, hrev] using h.cached listeners bytes hgroup hdump

section

variable (h : Tracked ser s)
include h

theorem Tracked.subscribed (ptr : List Text) : Tracked ser { s with
      broadcast := s.broadcast.subscribe ptr s.nextId
      subscribers := s.subscribers ++ [.unbounded s.nextId ptr (s.store.dump ptr)]
      nextId := s.nextId + 1 } where
  wellFormed := h.wellFormed
  unbounded := h.unbounded.subscribe ptr s.nextId _ fun heq => by
    subst heq
    exact @Follows.start (s.store.dump []) h.wellFormed
  json id capacity start bytes hmem := by
    rcases List.mem_append.mp hmem with hmem | hmem
    · obtain ⟨listeners, hgroup, hhas⟩ := h.json id capacity start bytes hmem
      obtain ⟨listeners', hretain, hhas'⟩ := hhas.retain
      obtain ⟨extra, hsub⟩ := subscribe_keeps hgroup hretain ptr s.nextId
      exact ⟨_, hsub, hhas'⟩
    · cases List.mem_singleton.mp hmem
  cached listeners bytes hgroup hdump := by
    have hretained : ∀ group, (s.broadcast []).bind ScopedBroadcast.retain = some group →
        group.dump = some bytes → ∃ old, s.broadcast [] = some old ∧ old.dump = some bytes := by
      intro group hbind hgroupDump
      obtain ⟨old, hold, hretain⟩ := Option.bind_eq_some_iff.mp hbind
      exact ⟨old, hold, by rw [← retain_dump hretain, hgroupDump]⟩
    have hold : ∃ old, s.broadcast [] = some old ∧ old.dump = some bytes := by
      rcases subscribe_at s.broadcast ptr s.nextId [] with ⟨hsub, -⟩ | ⟨-, group, hgroup', hsub⟩
      · exact hretained listeners (hsub.symm.trans hgroup) hdump
      · obtain rfl := Option.some.inj (hsub.symm.trans hgroup)
        cases hbind : (s.broadcast []).bind ScopedBroadcast.retain with
        | none =>
          rw [hbind] at hgroup'
          rw [hgroup'] at hdump
          cases hdump
        | some kept =>
          rw [hbind] at hgroup'
          exact hretained kept hbind (by simpa [hgroup'] using hdump)
    obtain ⟨old, hold, hdump'⟩ := hold
    exact h.cached old bytes hold hdump'

/-- What is tracked depends on the group at the root and its subscribers. -/
theorem Tracked.of_root {broadcast : Broadcast Bytes}
    (hroot : broadcast [] = s.broadcast []) {subscribers : List (Subscriber Bytes)}
    (hsub : ∀ sub ∈ subscribers, sub ∈ s.subscribers ∨
      ∃ id seg ptr capacity start bytes, sub = .json id (seg :: ptr) capacity start bytes)
    (nextId : Nat) : Tracked ser { s with broadcast, subscribers, nextId } where
  wellFormed := h.wellFormed
  unbounded := by
    refine h.unbounded.of_unbounded (fun listeners hgroup => ⟨listeners, ?_, rfl⟩) ?_
    · exact hroot.trans hgroup
    · intro id dump hmem
      rcases hsub _ hmem with hold | ⟨_, _, _, _, _, _, hnew⟩
      · exact hold
      · cases hnew
  json id capacity start bytes hmem := by
    rcases hsub _ hmem with hold | ⟨_, _, _, _, _, _, hnew⟩
    · simpa [hroot] using h.json id capacity start bytes hold
    · cases hnew
  cached listeners bytes hgroup hdump := h.cached listeners bytes (hroot ▸ hgroup) hdump

/-- The dump that is handed out at the root is of the current state. -/
theorem Tracked.handed
    (hjson : ((s.broadcast []).getD .empty).dump.or (ser.dump (s.store.dump [])) = some json) :
    ∃ v : Value, ser.dump ⟨s.store.revision, v⟩ = some json ∧ v.WellFormed ∧
      v.denote = s.store.persistent.denote := by
  cases hdump : ((s.broadcast []).getD .empty).dump with
  | none =>
    rw [hdump] at hjson
    exact ⟨s.store.persistent, hjson, h.wellFormed, rfl⟩
  | some bytes =>
    rw [hdump] at hjson
    obtain rfl := Option.some.inj hjson
    cases hgroup : s.broadcast [] with
    | none =>
      rw [hgroup] at hdump
      cases hdump
    | some listeners =>
      rw [hgroup] at hdump
      exact h.cached listeners bytes hgroup hdump

/-- A group that is made for a subscription that then fails. -/
theorem Tracked.opened : Tracked ser { s with
      broadcast := Function.update s.broadcast [] (some ((s.broadcast []).getD .empty)) } where
  wellFormed := h.wellFormed
  unbounded := h.unbounded.of_unbounded
    (fun listeners hgroup => ⟨listeners, by simp [hgroup], rfl⟩) fun _ _ hmem => hmem
  json id capacity start bytes hmem := by
    obtain ⟨listeners, hgroup, hhas⟩ := h.json id capacity start bytes hmem
    exact ⟨listeners, by simp [hgroup], hhas⟩
  cached listeners bytes hgroup hdump := by
    obtain rfl : (s.broadcast []).getD .empty = listeners := by simpa using hgroup
    cases hold : s.broadcast [] with
    | none =>
      rw [hold] at hdump
      cases hdump
    | some group =>
      rw [hold] at hdump
      exact h.cached group bytes hold hdump

/-- Keeping a dump of the current state at the root and adding a JSON receiver. -/
theorem Tracked.attached (capacity : Nat)
    (hjson : ((s.broadcast []).getD .empty).dump.or (ser.dump (s.store.dump [])) = some json)
    {r : Nat × ScopedBroadcast Bytes}
    (hr : r = ScopedBroadcast.attach capacity s.nextId
      { (s.broadcast []).getD .empty with dump := some json }) :
    Tracked ser { s with
      broadcast := Function.update s.broadcast [] (some r.2)
      subscribers := s.subscribers ++ [.json s.nextId [] capacity r.1 json]
      nextId := s.nextId + 1 } where
  wellFormed := h.wellFormed
  unbounded := by
    refine h.unbounded.of_unbounded (fun listeners hgroup => ⟨r.2, by simp, ?_⟩) ?_
    · rw [hr, (attach_unbounded _ _ _).1, hgroup]
      rfl
    · intro id dump hmem
      rcases List.mem_append.mp hmem with hmem | hmem
      · exact hmem
      · cases List.mem_singleton.mp hmem
  json id capacity' start bytes hmem := by
    refine ⟨r.2, by simp, ?_⟩
    rcases List.mem_append.mp hmem with hmem | hmem
    · obtain ⟨listeners, hgroup, hhas⟩ := h.json id capacity' start bytes hmem
      rw [hr]
      apply HasJson.attach
      rw [hgroup]
      exact hhas
    · cases List.mem_singleton.mp hmem
      obtain ⟨v, hdump, hv, hdoc⟩ := h.handed hjson
      have hfollows := @Follows.start ⟨s.store.revision, v⟩ hv
      rw [hdoc] at hfollows
      rw [hr]
      unfold ScopedBroadcast.attach
      split
      · rename_i sender hget
        refine ⟨_, InOMap.mem_set_self hget _, List.mem_append_right _ (by simp), Nat.le_refl _,
          _, [], hdump, ?_, hfollows⟩
        simp
      · exact ⟨_, List.mem_append_right _ (List.mem_singleton.mpr rfl), by simp, Nat.le_refl _,
          _, [], hdump, rfl, hfollows⟩
  cached listeners bytes hgroup hdump := by
    obtain rfl : r.2 = listeners := by simpa using hgroup
    rw [hr, (attach_unbounded _ _ _).2] at hdump
    cases hdump
    exact h.handed hjson

theorem Tracked.closed (gone : Nat) : Tracked ser { s with
      broadcast := s.broadcast.close gone
      subscribers := s.subscribers.filter fun sub => sub.id != gone } where
  wellFormed := h.wellFormed
  unbounded := h.unbounded.close gone
  json id capacity start bytes hmem := by
    obtain ⟨hsub, hid⟩ := List.mem_filter.mp hmem
    obtain ⟨listeners, hgroup, hhas⟩ := h.json id capacity start bytes hsub
    refine ⟨listeners.close gone, ?_, hhas.close (by simpa [Subscriber.id] using hid)⟩
    simp [Broadcast.close, hgroup]
  cached listeners bytes hgroup hdump := by
    obtain ⟨old, hold, rfl⟩ := Option.map_eq_some_iff.mp hgroup
    exact h.cached old bytes hold hdump

end

variable [Inhabited B] {cbor : Cbor B}

/-- An update that can be taken back and does not stay in memory unsent. -/
def System.stepSafe (s : System B Bytes) : Event → Bool
  | .apply patch io =>
    stepsUndoable s.store.persistent patch.ops && !staysUnsent s.store patch io
  | _ => true

/-- Every call that meets the condition keeps the subscribers of the root in step. -/
theorem Tracked.step (h : Tracked ser s) {e : Event} (hsafe : s.stepSafe e = true) :
    ∃ s', s.step ser cbor e = some s' ∧ Tracked ser s' := by
  cases e with
  | apply patch io =>
    simp only [System.stepSafe, Bool.and_eq_true, Bool.not_eq_true'] at hsafe
    obtain ⟨res, store, files, happly, hmemory⟩ :=
      apply_remembers cbor h.wellFormed hsafe.1 hsafe.2 s.files
    cases hmemory with
    | advanced nonempty wellFormed document revision =>
      exact ⟨_, by rw [System.step, happly], h.sent nonempty wellFormed document revision⟩
    | unchanged silent wellFormed document revision =>
      exact ⟨_, System.step_unsent ser cbor happly silent, h.unsent wellFormed document revision⟩
  | dumpAndSub ptr => exact ⟨_, rfl, h.subscribed ptr⟩
  | dumpAndSubJson ptr capacity =>
    cases hjson : ((s.broadcast ptr).getD .empty).dump.or (ser.dump (s.store.dump ptr)) with
    | none =>
      refine ⟨_, by rw [System.step, subscribeJson_none capacity s.nextId hjson], ?_⟩
      cases ptr with
      | nil => exact h.opened
      | cons seg ptr =>
        exact h.of_root (Function.update_of_ne (by simp) _ _) (fun sub hsub => .inl hsub) _
    | some json =>
      refine ⟨_, by rw [System.step, subscribeJson_some capacity s.nextId hjson], ?_⟩
      cases ptr with
      | nil => exact h.attached capacity hjson rfl
      | cons seg ptr =>
        apply h.of_root (Function.update_of_ne (by simp) _ _)
        intro sub hsub
        rcases List.mem_append.mp hsub with hsub | hsub
        · exact .inl hsub
        · exact .inr ⟨_, _, _, _, _, _, List.mem_singleton.mp hsub⟩
  | close id => exact ⟨_, rfl, h.closed id⟩

/-- Every update of a run is safe where it is made. -/
def System.runSafe (ser : Serializer Bytes) (cbor : Cbor B) (s : System B Bytes)
    (events : List Event) : Bool :=
  s.runMeets ser cbor System.stepSafe events

end System

/-- Apply patches in turn, as a subscriber does; `none` when one fails. -/
def patchAll : Value → List DiffPatch → Option Value
  | v, [] => some v
  | v, p :: ps =>
    match JsonPatch.patch v p.ops with
    | some (.ok _, v) => patchAll v ps
    | _ => none

variable {v : Value} {ps : List DiffPatch} {d : Json} {store : Store} {B Bytes : Type}

/-- A run of patches starts with a patch that succeeds. -/
theorem patch_of_runPatches (hv : v.WellFormed) {p : DiffPatch}
    (h : runPatches v.denote (p :: ps) = some d) :
    ∃ us v₁, JsonPatch.patch v p.ops = some (.ok us, v₁) ∧ v₁.WellFormed ∧
      runPatches v₁.denote ps = some d := by
  obtain ⟨d₁, hstep, hrest⟩ := Option.bind_eq_some_iff.mp h
  obtain ⟨us, v₁, happly, hv₁, rfl⟩ := applyPatches_ok hv p.wellFormed hstep []
  exact ⟨us, v₁, happly, hv₁, hrest⟩

theorem patchAll_of_runPatches (hv : v.WellFormed) (h : runPatches v.denote ps = some d) :
    ∃ v', patchAll v ps = some v' ∧ v'.WellFormed ∧ v'.denote = d := by
  induction ps generalizing v with
  | nil => exact ⟨v, rfl, hv, Option.some.inj h⟩
  | cons p ps ih =>
    obtain ⟨us, v₁, happly, hv₁, hrest⟩ := patch_of_runPatches hv h
    obtain ⟨v', hrun, hv', hd⟩ := ih hv₁ hrest
    exact ⟨v', by rw [patchAll, happly]; exact hrun, hv', hd⟩

/-- A dump, patched with the revisions that came after it, is the store's document,
and the last of them has the store's revision. -/
structure Mirrors (dump : Dump) (revisions : List Revision) (store : Store) : Prop where
  document : ∃ v, patchAll dump.value (revisions.map Revision.patch) = some v ∧
    v.eq store.persistent = true
  revision : (revisions.getLast?.map Revision.id).getD dump.id = store.revision

theorem Follows.mirrors {dump : Dump} {revisions : List Revision}
    (hwf : store.persistent.WellFormed)
    (h : Follows dump revisions store.persistent.denote store.revision) :
    Mirrors dump revisions store where
  document := by
    obtain ⟨v, hrun, hv, hd⟩ := patchAll_of_runPatches h.wellFormed h.document
    exact ⟨v, hrun, (Value.eq_iff hv hwf).mpr hd⟩
  revision := h.revision

/-- Every live subscriber of the root has a channel into which the revisions since its
dump were sent, and a dump that is kept for the root is of the current state. -/
structure Synced {B Bytes : Type} (ser : Serializer Bytes) (s : System B Bytes) : Prop where
  unbounded : ∀ id dump, .unbounded id [] dump ∈ s.subscribers →
    ∃ listeners sender, s.broadcast [] = some listeners ∧ sender ∈ listeners.unbounded ∧
      sender.id = id ∧ sender.closed = false ∧ Mirrors dump sender.sent s.store
  json : ∀ id capacity start bytes, .json id [] capacity start bytes ∈ s.subscribers →
    ∃ listeners sender dump revisions, s.broadcast [] = some listeners ∧
      (capacity, sender) ∈ listeners.json ∧ (id, start) ∈ sender.receivers ∧
      ser.dump dump = some bytes ∧ sender.sent.drop start = revisions.map ser.revision ∧
      Mirrors dump revisions s.store
  cached : ∀ listeners bytes, s.broadcast [] = some listeners → listeners.dump = some bytes →
    ∃ v : Value, ser.dump ⟨s.store.revision, v⟩ = some bytes ∧ v.eq s.store.persistent = true

theorem Tracked.synced {ser : Serializer Bytes} {s : System B Bytes}
    (h : Tracked ser s) : Synced ser s where
  unbounded id dump hmem := by
    obtain ⟨listeners, hgroup, sender, hsender, hid, hopen, hfollows⟩ := h.unbounded id dump hmem
    exact ⟨listeners, sender, hgroup, hsender, hid, hopen, hfollows.mirrors h.wellFormed⟩
  json id capacity start bytes hmem := by
    obtain ⟨listeners, hgroup, sender, hsender, hreceiver, -, dump, revisions, hdump, hsent,
      hfollows⟩ := h.json id capacity start bytes hmem
    exact ⟨listeners, sender, dump, revisions, hgroup, hsender, hreceiver, hdump, hsent,
      hfollows.mirrors h.wellFormed⟩
  cached listeners bytes hgroup hdump := by
    obtain ⟨v, hv, hwf, hd⟩ := h.cached listeners bytes hgroup hdump
    exact ⟨v, hv, (Value.eq_iff hwf h.wellFormed).mpr hd⟩

/-- A database nobody has subscribed to. -/
def System.start {B Bytes : Type} (store : Store) (files : Files B) : System B Bytes where
  store := store
  files := files
  broadcast := Broadcast.new
  subscribers := []
  nextId := 0

/-- In every run in which each update can be taken back and no compaction fails after
its commit, the subscribers of the root are in step at the end, and nothing panics.
An update whose compaction does fail there moves the store on and sends nothing. -/
theorem subscribers_synced {B Bytes : Type} [Inhabited B] (ser : Serializer Bytes)
    (cbor : Cbor B) (store : Store) (files : Files B) (hwf : store.persistent.WellFormed)
    (events : List Event)
    (hsafe : (System.start store files).runSafe ser cbor events = true) :
    ∃ s, (System.start store files).run ser cbor events = some s ∧ Synced ser s ∧
      ∀ patch io, stepsUndoable s.store.persistent patch.ops = true →
        staysUnsent s.store patch io = true →
        ∃ s', s.step ser cbor (.apply patch io) = some s' ∧
          s'.store.revision = s.store.revision + 1 ∧ s'.broadcast = s.broadcast ∧
          s'.subscribers = s.subscribers := by
  have hstart : Tracked ser (.start store files) :=
    ⟨hwf, fun _ _ h => (by cases h), fun _ _ _ _ h => (by cases h), fun _ _ h => (by cases h)⟩
  obtain ⟨s, hrun, htracked⟩ := System.run_invariant (fun h => h.step) hstart hsafe
  refine ⟨s, hrun, htracked.synced, ?_⟩
  intro patch io hsteps hunsent
  obtain ⟨store', files', happly, hrev, -⟩ :=
    apply_staysUnsent cbor htracked.wellFormed hsteps hunsent s.files
  refine ⟨{ s with store := store', files := files' }, ?_, hrev, rfl, rfl⟩
  rw [System.step, happly]

/-- A serialization that keeps what it is given. -/
def tokenSerializer : Serializer (Dump ⊕ Revision) where
  dump d := some (.inl d)
  revision r := some (.inr r)

/-- A store one revision before a compaction. -/
def fullStore : Store := ⟨some (.atEnd (B := Token) []), .null, 4095⟩

/-- Results of an update whose compaction fails to seek after its commit. -/
def ApplyIo.failsSeek : ApplyIo := ⟨{ CompressIo.allOk with seek := .err 0 }, .allOk⟩

/-- A subscriber of a new database is sent its first update; a database that is full
moves on without a word when its compaction fails. -/
theorem subscribers_synced_once :
    (∃ s, (System.start ⟨none, .null, 0⟩ (emptyFiles false)).run tokenSerializer tokenCbor
        [.dumpAndSub [], .apply setTrue .allOk] = some s ∧ Synced tokenSerializer s) ∧
      ∃ s', (System.start fullStore (emptyFiles false)).step tokenSerializer tokenCbor
          (.apply setTrue .failsSeek) = some s' ∧ s'.store.revision = 4096 := by
  constructor
  · obtain ⟨s, hrun, hsynced, -⟩ :=
      subscribers_synced tokenSerializer tokenCbor ⟨none, .null, 0⟩ (emptyFiles false) .null
        [.dumpAndSub [], .apply setTrue .allOk] rfl
    exact ⟨s, hrun, hsynced⟩
  · obtain ⟨s, hrun, -, hunsent⟩ :=
      subscribers_synced tokenSerializer tokenCbor fullStore (emptyFiles false) .null [] rfl
    cases hrun
    obtain ⟨s', hstep, hrev, -⟩ := hunsent setTrue .failsSeek rfl rfl
    exact ⟨s', hstep, hrev⟩

/-- Two subscribers of the root, one of them in JSON, of a store that is due for a
compaction. It fails after its commit: the store is at the next revision, nothing
was sent, and the dump that is kept is of the revision before. -/
theorem subscribers_not_synced :
    ∃ s, (System.start fullStore (emptyFiles false)).run tokenSerializer tokenCbor
        [.dumpAndSubJson [] 1, .dumpAndSub [], .apply setTrue .failsSeek] = some s ∧
      s.store.persistent = .bool true ∧ s.store.revision = 4096 ∧
      (∃ listeners, s.broadcast [] = some listeners ∧ listeners.unbounded = [⟨1, false, []⟩] ∧
        listeners.dump = some (.inl ⟨4095, .null⟩)) ∧
      ¬ Synced tokenSerializer s := by
  refine ⟨_, rfl, rfl, rfl, ⟨_, rfl, rfl, rfl⟩, ?_⟩
  intro hsynced
  obtain ⟨v, hv, -⟩ := hsynced.cached _ _ rfl rfl
  have hid : (4096 : Nat) = 4095 := congrArg Dump.id (Sum.inl.inj (Option.some.inj hv))
  exact absurd hid (by decide)

end StartTech.PatchDb
