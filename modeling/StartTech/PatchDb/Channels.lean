import StartTech.PatchDb.Broadcast

/-!
# Channels of subscribers

A subscriber keeps its channel through everything that happens to the broadcast,
and what is sent into it is what is sent to its pointer. What holds of a dump and
the revisions after it is carried along as a predicate.
-/

namespace StartTech.PatchDb

open Foundation

section Groups

variable {Bytes : Type} {listeners listeners' : ScopedBroadcast Bytes} {id : Nat}
  {P P' : List Revision → Prop} {ser : Serializer Bytes} {ptr : List Text} {r : Revision}

/-- A group has the open channel of a subscriber, with something known of what was
sent into it. -/
def HasUnbounded (listeners : ScopedBroadcast Bytes) (id : Nat) (P : List Revision → Prop) :
    Prop :=
  ∃ sender ∈ listeners.unbounded, sender.id = id ∧ sender.closed = false ∧ P sender.sent

section

variable (h : HasUnbounded listeners id P)
include h

theorem HasUnbounded.prune :
    HasUnbounded listeners.pruneUnbounded id P ∧ listeners.pruneUnbounded.unbounded ≠ [] := by
  obtain ⟨sender, hmem, hid, hopen, hsent⟩ := h
  have hkept : sender ∈ listeners.pruneUnbounded.unbounded :=
    List.mem_filter.mpr ⟨hmem, by simp [hopen]⟩
  exact ⟨⟨sender, hkept, hid, hopen, hsent⟩, List.ne_nil_of_mem hkept⟩

theorem HasUnbounded.retain :
    ∃ listeners', listeners.retain = some listeners' ∧ HasUnbounded listeners' id P := by
  obtain ⟨hpruned, hne⟩ := h.prune
  refine ⟨listeners.pruneUnbounded, ?_, hpruned⟩
  simp [ScopedBroadcast.retain, ScopedBroadcast.isEmpty, hne]

/-- A revision reaches every channel of a group, unless nothing of it concerns the
pointer. -/
theorem HasUnbounded.send (ser : Serializer Bytes)
    (hsilent : (r.forPath ptr).patch.isEmpty = true → ∀ sent, P sent → P' sent)
    (hpush : (r.forPath ptr).patch.isEmpty = false → ∀ sent, P sent →
      P' (sent ++ [r.forPath ptr])) :
    ∃ listeners', listeners.send ser ptr r = some listeners' ∧ HasUnbounded listeners' id P' := by
  have hcleared : HasUnbounded { listeners with dump := none } id P := h
  obtain ⟨⟨sender, hmem, hid, hopen, hsent⟩, hkept⟩ := hcleared.prune
  generalize hpruned : ScopedBroadcast.pruneUnbounded { listeners with dump := none } = pruned
    at hmem hkept
  have hnonempty : pruned.pruneJson.isEmpty = false := by
    have hkept' : pruned.pruneJson.unbounded ≠ [] := hkept
    simp [ScopedBroadcast.isEmpty, hkept']
  cases hempty : (r.forPath ptr).patch.isEmpty with
  | true =>
    refine ⟨pruned.pruneJson, ?_, sender, hmem, hid, hopen, hsilent hempty _ hsent⟩
    simp [ScopedBroadcast.send, hpruned, hnonempty, hempty]
  | false =>
    refine ⟨pruned.pruneJson.deliver ser (r.forPath ptr), ?_,
      { sender with sent := sender.sent ++ [r.forPath ptr] }, ?_, hid, hopen,
      hpush hempty _ hsent⟩
    · simp [ScopedBroadcast.send, hpruned, hnonempty, hempty]
    · refine List.mem_filterMap.mpr ⟨sender, hmem, ?_⟩
      simp [UnboundedSender.send, hopen]

theorem HasUnbounded.close {gone : Nat} (hne : id ≠ gone) :
    HasUnbounded (listeners.close gone) id P := by
  obtain ⟨sender, hmem, rfl, hopen, hsent⟩ := h
  exact ⟨sender, List.mem_map.mpr ⟨sender, hmem, if_neg hne⟩, rfl, hopen, hsent⟩

end

theorem retain_dump (h : listeners.retain = some listeners') :
    listeners'.dump = listeners.dump := by
  simp only [ScopedBroadcast.retain] at h
  split at h
  · cases h
  · cases h
    rfl

/-- Sending drops the dump that was kept. -/
theorem send_dump (h : listeners.send ser ptr r = some listeners') : listeners'.dump = none := by
  simp only [ScopedBroadcast.send] at h
  split at h
  · cases h
  · split at h <;> cases h <;> rfl

theorem attach_unbounded (listeners : ScopedBroadcast Bytes) (capacity id : Nat) :
    (listeners.attach capacity id).2.unbounded = listeners.unbounded ∧
      (listeners.attach capacity id).2.dump = listeners.dump := by
  unfold ScopedBroadcast.attach
  split <;> exact ⟨rfl, rfl⟩

end Groups

variable {Bytes : Type} {ser : Serializer Bytes} {b : Broadcast Bytes} {ptr : List Text}

/-- What a subscription makes of the group at a pointer. -/
theorem subscribe_at (b : Broadcast Bytes) (ptr : List Text) (id : Nat) (place : List Text) :
    b.subscribe ptr id place = (b place).bind ScopedBroadcast.retain ∧ ptr ≠ place ∨
      ptr = place ∧ ∃ listeners, listeners = ((b place).bind ScopedBroadcast.retain).getD .empty ∧
        b.subscribe ptr id place = some { listeners with
          unbounded := listeners.unbounded ++ [{ id, closed := false, sent := [] }] } := by
  by_cases hptr : ptr = place
  · subst hptr
    exact .inr ⟨rfl, _, rfl, by simp [Broadcast.subscribe]⟩
  · exact .inl ⟨by simp [Broadcast.subscribe, Ne.symm hptr], hptr⟩

/-- A group that is retained loses nothing when others subscribe. -/
theorem subscribe_keeps {listeners listeners' : ScopedBroadcast Bytes}
    (hgroup : b ptr = some listeners) (hretain : listeners.retain = some listeners')
    (other : List Text) (id : Nat) :
    ∃ extra, b.subscribe other id ptr =
      some { listeners' with unbounded := listeners'.unbounded ++ extra } := by
  rcases subscribe_at b other id ptr with ⟨hsub, -⟩ | ⟨-, group, hgroup', hsub⟩
  · refine ⟨[], ?_⟩
    simpa [hgroup, hretain] using hsub
  · rw [hgroup, Option.bind_some, hretain] at hgroup'
    obtain rfl : group = listeners' := hgroup'
    exact ⟨_, hsub⟩

theorem subscribeJson_none {dump : Dump} (capacity id : Nat)
    (h : ((b ptr).getD .empty).dump.or (ser.dump dump) = none) :
    b.subscribeJson ser ptr dump capacity id =
      (none, Function.update b ptr (some ((b ptr).getD .empty))) := by
  simp [Broadcast.subscribeJson, h]

theorem subscribeJson_some {dump : Dump} (capacity id : Nat) {json : Bytes}
    (h : ((b ptr).getD .empty).dump.or (ser.dump dump) = some json) :
    b.subscribeJson ser ptr dump capacity id = (some (json, (ScopedBroadcast.attach capacity id
          { (b ptr).getD .empty with dump := some json }).1),
        Function.update b ptr (some (ScopedBroadcast.attach capacity id
          { (b ptr).getD .empty with dump := some json }).2)) := by
  simp [Broadcast.subscribeJson, h]

section Subscribers

variable {b' : Broadcast Bytes} {subscribers : List (Subscriber Bytes)}
  {P P' : Dump → List Revision → Prop}

/-- Every subscriber of a pointer has its channel there. -/
def Subscribed (b : Broadcast Bytes) (subscribers : List (Subscriber Bytes)) (ptr : List Text)
    (P : Dump → List Revision → Prop) : Prop :=
  ∀ id dump, .unbounded id ptr dump ∈ subscribers →
    ∃ listeners, b ptr = some listeners ∧ HasUnbounded listeners id (P dump)

section

variable (h : Subscribed b subscribers ptr P)
include h

theorem Subscribed.send (ser : Serializer Bytes) {r : Revision}
    (hsilent : (r.forPath ptr).patch.isEmpty = true → ∀ dump sent, P dump sent → P' dump sent)
    (hpush : (r.forPath ptr).patch.isEmpty = false → ∀ dump sent, P dump sent →
      P' dump (sent ++ [r.forPath ptr])) :
    Subscribed (b.send ser r) subscribers ptr P' := by
  intro id dump hmem
  obtain ⟨listeners, hgroup, hhas⟩ := h id dump hmem
  obtain ⟨listeners', hsend, hhas'⟩ :=
    hhas.send ser (fun he => hsilent he dump) (fun he => hpush he dump)
  exact ⟨listeners', by simp [Broadcast.send, hgroup, hsend], hhas'⟩

theorem Subscribed.subscribe (other : List Text)
    (new : Nat) (dump' : Dump) (hnew : other = ptr → P dump' []) :
    Subscribed (b.subscribe other new) (subscribers ++ [.unbounded new other dump']) ptr P := by
  intro id dump hmem
  rcases List.mem_append.mp hmem with hmem | hmem
  · obtain ⟨listeners, hgroup, hhas⟩ := h id dump hmem
    obtain ⟨listeners', hretain, sender, hsender, hrest⟩ := hhas.retain
    obtain ⟨extra, hsub⟩ := subscribe_keeps hgroup hretain other new
    exact ⟨_, hsub, sender, List.mem_append_left _ hsender, hrest⟩
  · -- The subscriber is the new one.
    cases List.mem_singleton.mp hmem
    rcases subscribe_at b ptr new ptr with ⟨-, hne⟩ | ⟨-, listeners, -, hsub⟩
    · exact absurd rfl hne
    · exact ⟨_, hsub, _, List.mem_append_right _ (List.mem_singleton.mpr rfl), rfl, rfl, hnew rfl⟩

/-- Nothing changes for a pointer whose channels stay. -/
theorem Subscribed.of_unbounded (hgroups : ∀ listeners, b ptr = some listeners →
      ∃ listeners', b' ptr = some listeners' ∧ listeners'.unbounded = listeners.unbounded)
    {subscribers' : List (Subscriber Bytes)}
    (hsub : ∀ id dump, .unbounded id ptr dump ∈ subscribers' →
      .unbounded id ptr dump ∈ subscribers) :
    Subscribed b' subscribers' ptr P := by
  intro id dump hmem
  obtain ⟨listeners, hgroup, sender, hsender, hrest⟩ := h id dump (hsub id dump hmem)
  obtain ⟨listeners', hgroup', hsame⟩ := hgroups listeners hgroup
  exact ⟨listeners', hgroup', sender, hsame ▸ hsender, hrest⟩

theorem Subscribed.close (gone : Nat) :
    Subscribed (b.close gone) (subscribers.filter fun sub => sub.id != gone) ptr P := by
  intro id dump hmem
  obtain ⟨hsub, hid⟩ := List.mem_filter.mp hmem
  obtain ⟨listeners, hgroup, hhas⟩ := h id dump hsub
  refine ⟨listeners.close gone, ?_, hhas.close (by simpa [Subscriber.id] using hid)⟩
  simp [Broadcast.close, hgroup]

end

/-- Calls that do not update the store keep the channels of a pointer. -/
theorem Subscribed.step {B : Type} [Inhabited B] {ser : Serializer Bytes} {cbor : Cbor B}
    {s : System B Bytes} {e : Event} (h : Subscribed s.broadcast s.subscribers ptr P)
    (he : ∀ patch io, e ≠ .apply patch io) (hstart : P (s.store.dump ptr) []) :
    ∃ s', s.step ser cbor e = some s' ∧ s'.store = s.store ∧
      Subscribed s'.broadcast s'.subscribers ptr P := by
  cases e with
  | apply patch io => exact absurd rfl (he patch io)
  | dumpAndSub other =>
    exact ⟨_, rfl, rfl, h.subscribe other s.nextId _ fun heq => heq ▸ hstart⟩
  | dumpAndSubJson other capacity =>
    have hgroups (listeners : ScopedBroadcast Bytes) (hgroup : s.broadcast ptr = some listeners) :
        ∃ listeners', (s.broadcast.subscribeJson ser other (s.store.dump other) capacity
            s.nextId).2 ptr = some listeners' ∧ listeners'.unbounded = listeners.unbounded := by
      cases hjson : ((s.broadcast other).getD .empty).dump.or (ser.dump (s.store.dump other)) with
      | none =>
        rw [subscribeJson_none capacity s.nextId hjson]
        by_cases hptr : ptr = other
        · subst hptr
          exact ⟨listeners, by simp [hgroup], rfl⟩
        · exact ⟨listeners, by simp [hptr, hgroup], rfl⟩
      | some json =>
        rw [subscribeJson_some capacity s.nextId hjson]
        by_cases hptr : ptr = other
        · subst hptr
          refine ⟨_, Function.update_self _ _ _, ?_⟩
          rw [(attach_unbounded _ _ _).1, hgroup]
          rfl
        · exact ⟨listeners, by simp [hptr, hgroup], rfl⟩
    rw [System.step]
    split
    · rename_i broadcast hjson
      rw [hjson] at hgroups
      exact ⟨_, rfl, rfl, h.of_unbounded hgroups fun _ _ hmem => hmem⟩
    · rename_i dump start broadcast hjson
      rw [hjson] at hgroups
      refine ⟨_, rfl, rfl, h.of_unbounded hgroups ?_⟩
      intro id dump hmem
      rcases List.mem_append.mp hmem with hmem | hmem
      · exact hmem
      · cases List.mem_singleton.mp hmem
  | close gone => exact ⟨_, rfl, rfl, h.close gone⟩

end Subscribers

end StartTech.PatchDb
