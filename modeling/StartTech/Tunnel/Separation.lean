import StartTech.Foundation.Fallible
import StartTech.Tunnel.Rekeying

/-!
# Forwards of one address stay apart

Every transaction on the forwards keeps the entries of each external address apart, whatever
the calls to the host do. The exception is the map that is built when addresses are reassigned:
its forwards come from several addresses and nobody looks whether they clash.
-/

namespace StartTech.Tunnel

open Net Foundation
open OrderedMap (get insert Sorted)
open Prog (run_bind run_mutate run_pure Keeps)

/-- A map of forwards in the order of its keys whose entries lie apart. -/
structure Separate (m : PortForwards) : Prop where
  sorted : Sorted m
  apart : Apart m

section Transactions

variable {m m' : PortForwards} {source target : SocketAddrV4} {e : PortForward}
  {auto enabled : Bool} {label : Option Text} {hostnames : List Text} {host : Host}
  {keep : Ipv4Addr → Bool} {p : Persisted} {count : UInt16}

theorem Separate.nil : Separate [] := ⟨.nil, fun _ h => absurd h List.not_mem_nil⟩

theorem Separate.erase (h : Separate m) (source : SocketAddrV4) :
    Separate (OrderedMap.erase m source) :=
  ⟨h.sorted.erase source, h.apart.erase source⟩

theorem Separate.replace (h : Separate m) {old : PortForward}
    (hold : get m source = some old) (hspan : e.portSpan.toNat ≤ old.portSpan.toNat) :
    Separate (insert source e m) :=
  ⟨h.sorted.insert, h.apart.replace hold hspan⟩

theorem Separate.claim (h : Separate m) (hnone : PortForwards.overlapping m source count = none)
    (hspan : spanEnd source.port e.portSpan = spanEnd source.port count) :
    Separate (insert source e m) :=
  ⟨h.sorted.insert, h.apart.claim h.sorted hnone hspan⟩

/-- A shared port takes no more than what was there. -/
theorem sni_portSpan_le (routes : List (Text × SniRoute)) (fallback : Option SniRoute)
    (e : PortForward) : (PortForward.sni routes fallback).portSpan.toNat ≤ e.portSpan.toNat :=
  e.portSpan_pos

section

variable (h : Separate m)
include h

theorem Separate.persistFallback
    (hok : persistFallback source target auto label m = .ok (enabled, m')) : Separate m' := by
  rw [Tunnel.persistFallback] at hok
  split at hok
  · rename_i hget
    split at hok
    · cases hok
    · cases hok
      exact h.replace hget (sni_portSpan_le _ _ _)
  · cases hok

theorem Separate.dropFallback : Separate (dropFallback source target m) := by
  rw [Tunnel.dropFallback]
  split
  · rename_i fallback hget
    generalize (if fallback.any fun f => f.target = target then none else fallback) = left
    dsimp only
    split
    · exact h.erase source
    · exact h.replace hget (sni_portSpan_le _ _ _)
  · exact h

theorem Separate.dropRoutes {autoOnly : Bool} :
    Separate (dropRoutes source target hostnames autoOnly m).2 := by
  rw [Tunnel.dropRoutes]
  split
  · rename_i hget
    dsimp only
    split
    · exact h.erase source
    · exact h.replace hget (sni_portSpan_le _ _ _)
  · exact h

theorem Separate.remapAutoDnat : Separate (remapAutoDnat source target count m).2 := by
  rw [Tunnel.remapAutoDnat]
  split
  · exact h
  · rename_i hfree
    rw [Option.not_isSome_iff_eq_none] at hfree
    split
    · split
      · exact h.claim hfree (spanEnd_max_one _ _)
      · exact h
    · exact h

theorem Separate.reserveDnat {label : Text} :
    Separate (reserveDnat source target count label m).2 := by
  rw [Tunnel.reserveDnat]
  split
  · exact h
  · rename_i hfree
    rw [Option.not_isSome_iff_eq_none] at hfree
    exact h.claim hfree (spanEnd_max_one _ _)

theorem Separate.reserveManual
    (hok : reserveManual host source target count label m = .ok ((), m')) : Separate m' := by
  rw [Tunnel.reserveManual] at hok
  split at hok
  · cases hok
  · split at hok
    · cases hok
    · rename_i hfree
      split at hok
      · cases hok
      · cases hok
        exact h.claim hfree (spanEnd_max_one _ _)

theorem Separate.updateForwardEnabled {hostname : Option Text} {toggle : ForwardToggle}
    (hok : updateForwardEnabled host source enabled hostname m = .ok (toggle, m')) :
    Separate m' := by
  rw [Tunnel.updateForwardEnabled] at hok
  split at hok
  · cases hok
  · rename_i hget
    split at hok
    · cases hok
    · cases hok
      exact h.replace hget le_rfl
  · rename_i hget
    split at hok
    · cases hok
    · split at hok
      · cases hok
      · cases hok
        exact h.replace hget (sni_portSpan_le _ _ _)

end

theorem gcEntry_portSpan {e' : PortForward} (h : gcEntry keep e = some e') :
    e'.portSpan.toNat ≤ e.portSpan.toNat := by
  cases e with
  | dnat _ _ _ _ _ =>
    rw [gcEntry] at h
    split at h
    · cases h
      exact le_rfl
    · cases h
  | sni _ _ =>
    rw [gcEntry] at h
    split at h
    · cases h
    · cases h
      exact le_rfl

theorem mem_gcForwards {e : SocketAddrV4 × PortForward} :
    e ∈ gcForwards keep m ↔ ∃ old, (e.1, old) ∈ m ∧ gcEntry keep old = some e.2 := by
  rw [gcForwards, List.mem_filterMap]
  constructor
  · rintro ⟨⟨source, old⟩, hmem, hentry⟩
    obtain ⟨e', hgc, rfl⟩ := Option.map_eq_some_iff.mp hentry
    exact ⟨old, hmem, hgc⟩
  · rintro ⟨old, hmem, hgc⟩
    exact ⟨(e.1, old), hmem, by rw [hgc]; rfl⟩

theorem sorted_gcForwards (h : Sorted m) : Sorted (gcForwards keep m) := by
  refine List.Pairwise.filterMap _ (fun a b hab a' ha' b' hb' => ?_) h
  obtain ⟨_, -, rfl⟩ := Option.map_eq_some_iff.mp ha'
  obtain ⟨_, -, rfl⟩ := Option.map_eq_some_iff.mp hb'
  exact hab

theorem Separate.gcForwards (h : Separate m) (keep : Ipv4Addr → Bool) :
    Separate (gcForwards keep m) := by
  refine ⟨sorted_gcForwards h.sorted, h.apart.of_spans fun e he => ?_⟩
  obtain ⟨old, hold, hgc⟩ := mem_gcForwards.mp he
  exact ⟨(e.1, old), hold, rfl, gcEntry_portSpan hgc⟩

/-- What is persisted for names: a shared port, in place of what was there. -/
theorem persistSni_ok (hok : persistSni source target hostnames auto label m = .ok (p, m')) :
    PortForwards.overlapping m source 1 = none ∧
      planDnatConversion (get m source) target = .ok p.converted.isSome ∧
      p.previous = get m source ∧
      (p.converted = p.previous ∨ p.converted = none) ∧
      p.enabledHostnames = (insertRoutes target auto label
        (sharedPort (get m source)).1 hostnames).2 ∧
      (∀ h ∈ hostnames, ∀ r, get (sharedPort (get m source)).1 h = some r →
          routeConflicts r target auto = false) ∧
      m' = insert source (.sni (insertRoutes target auto label
        (sharedPort (get m source)).1 hostnames).1 (sharedPort (get m source)).2) m := by
  rw [persistSni] at hok
  split at hok
  · cases hok
  · rename_i hfree
    obtain ⟨convert, hplan, hok⟩ := Fallible.bind_eq_ok.mp hok
    dsimp only at hok
    split at hok
    · cases hok
    · rename_i hfind
      cases hok
      have hconverted : (if convert then get m source else none).isSome = convert := by
        cases convert with
        | false => rfl
        | true =>
          cases hget : get m source with
          | none =>
            rw [hget] at hplan
            cases hplan
          | some e => rfl
      refine ⟨hfree, by rw [hplan, hconverted], rfl, ?_, rfl, fun h hh r hr => ?_, rfl⟩
      · cases convert with
        | false => exact .inr rfl
        | true => exact .inl rfl
      · have := List.find?_eq_none.mp hfind h hh
        rw [hr] at this
        exact Bool.eq_false_iff.mpr this

theorem Separate.persistSni (h : Separate m)
    (hok : persistSni source target hostnames auto label m = .ok (p, m')) : Separate m' := by
  obtain ⟨hfree, -, -, -, -, -, rfl⟩ := persistSni_ok hok
  exact h.claim hfree rfl

end Transactions

variable {α ε : Type} {host : Host} {source target : SocketAddrV4}

/-- The program leaves the map of forwards alone. -/
def Untouched (p : Prog TunnelContext α) : Prop := ∀ s, (p.run s).2.portForwards = s.portForwards

/-- What holds of the map of forwards. -/
abbrev SeparateIn (s : TunnelContext) : Prop := Separate s.portForwards

variable {p : Prog TunnelContext α} {β : Type} {hostnames sni : List Text} {lifetime : Option Nat}
  {enabled auto autoOnly : Bool} {label hostname : Option Text} {restore : Prog TunnelContext Unit}
  {peer : Ipv4Addr} {internalPort : UInt16} {r : MapRequest} {count : UInt16}

theorem Untouched.keeps (h : Untouched p) : p.Keeps SeparateIn := by
  intro s hs
  rw [SeparateIn, h s]
  exact hs

theorem Untouched.bind {f : α → Prog TunnelContext β} (hp : Untouched p)
    (hf : ∀ a, Untouched (f a)) : Untouched (p >>= f) := by
  intro s
  rw [run_bind, hf _ _, hp]

theorem Untouched.each {f : α → Prog TunnelContext Unit} (h : ∀ a, Untouched (f a))
    (l : List α) : Untouched (Prog.each f l) := by
  intro s
  induction l generalizing s with
  | nil => rfl
  | cons a rest ih => rw [Prog.run_each_cons, ih, h a]

theorem keeps_change {g : PortForwards → α × PortForwards}
    (h : ∀ m, Separate m → Separate (g m).2) : (change g).Keeps SeparateIn :=
  fun s hs => h s.portForwards hs

theorem keeps_transact {g : PortForwards → Except ε (α × PortForwards)}
    (h : ∀ m a m', Separate m → g m = .ok (a, m') → Separate m') :
    (transact g).Keeps SeparateIn := by
  intro s hs
  rw [transact, run_mutate]
  split
  · rename_i hok
    exact h _ _ _ hs hok
  · exact hs

theorem untouched_call : Untouched (call host) := fun _ => rfl

theorem untouched_prepare : Untouched (prepare host) := fun _ => rfl

theorem untouched_sniRegister : Untouched (sniRegister host source hostnames target) := fun _ => rfl

theorem untouched_sniRegisterFallback : Untouched (sniRegisterFallback host source target) :=
  fun _ => rfl

theorem untouched_sniUnregister : Untouched (sniUnregister source hostnames target) := fun _ => rfl

theorem untouched_sniUnregisterFallback : Untouched (sniUnregisterFallback source target) :=
  fun _ => rfl

theorem untouched_forget (key : LeaseKey) : Untouched (forget key) := fun _ => rfl

theorem untouched_stampFor (key : LeaseKey) (lifetime : Option Nat) :
    Untouched (stampFor key lifetime) := by
  intro s
  cases lifetime <;> rfl

theorem untouched_addForwardRange : Untouched (addForwardRange host source target count) := by
  intro s
  rw [addForwardRange, run_mutate, TunnelContext.addForwardRange]
  split <;> rfl

theorem untouched_withdraw : Untouched (withdraw host source) := by
  intro s
  rw [withdraw, run_mutate]
  split <;> rfl

theorem untouched_carryLease : Untouched (carryLease source) := by
  intro s
  rw [carryLease, run_bind]
  split <;> rfl

theorem untouched_completeConversion (p : Persisted) :
    Untouched (completeConversion host source p) := by
  rw [completeConversion]
  split
  · exact untouched_withdraw.bind fun _ => untouched_carryLease
  · exact fun _ => rfl

theorem keeps_removeSniFallbackLocked : (removeSniFallbackLocked source target).Keeps SeparateIn :=
  untouched_sniUnregisterFallback.keeps.bind fun _ =>
    (untouched_forget _).keeps.bind fun _ => keeps_change fun _ hm => hm.dropFallback

theorem keeps_registerFallback :
    (registerFallback host source target lifetime enabled).Keeps SeparateIn := by
  refine .bind ?_ fun r => ?_
  · split
    · exact untouched_sniRegisterFallback.keeps
    · exact .pure _
  · split
    · exact keeps_removeSniFallbackLocked.bind .pure
    · exact (untouched_stampFor _ _).keeps.bind .pure

theorem keeps_persistFallbackForwardLocked :
    (persistFallbackForwardLocked host source target lifetime auto label).Keeps SeparateIn := by
  refine untouched_prepare.keeps.bind fun r => ?_
  split
  · exact .pure _
  · refine (keeps_transact fun _ _ _ hm hok => hm.persistFallback hok).bind fun r => ?_
    split
    · exact .pure _
    · exact keeps_registerFallback

theorem keeps_renewDnat :
    (renewDnat host source target count lifetime enabled).Keeps SeparateIn := by
  refine (Keeps.peek _).bind fun active => Keeps.bind ?_ fun installed => ?_
  · split
    · exact untouched_addForwardRange.keeps
    · exact .pure _
  · split
    · exact (untouched_stampFor _ _).keeps.bind .pure
    · exact .pure _

theorem keeps_reassertDnat {count existingCount : UInt16} {existing : SocketAddrV4} :
    (reassertDnat host source target count lifetime existing existingCount enabled).Keeps
      SeparateIn := by
  rw [reassertDnat]
  split
  · refine (keeps_change fun _ hm => hm.remapAutoDnat).bind fun remapped => ?_
    split
    · exact untouched_withdraw.keeps.bind fun _ => keeps_renewDnat
    · exact .pure _
  · exact keeps_renewDnat

theorem keeps_createDnat {label : Text} :
    (createDnat host source target count label lifetime).Keeps SeparateIn := by
  refine (keeps_change fun _ hm => hm.reserveDnat).bind fun reserved => ?_
  split
  · refine untouched_addForwardRange.keeps.bind fun installed => ?_
    split
    · exact (untouched_stampFor _ _).keeps.bind .pure
    · exact (keeps_change fun _ hm => hm.erase source).bind .pure
  · exact .pure _

theorem keeps_applyPeerForwardRange {label : Text} :
    (applyPeerForwardRange host source target count label lifetime).Keeps SeparateIn := by
  refine .locked ?_
  split
  · exact .pure _
  · refine (Keeps.peek _).bind fun current => ?_
    split
    · split
      · exact .pure _
      · refine keeps_persistFallbackForwardLocked.bind fun r => ?_
        split <;> exact .pure _
    · exact keeps_reassertDnat
    · exact keeps_createDnat

/-- The program leaves this map, from any state with that one. -/
def Restores (m' m : PortForwards) (p : Prog TunnelContext Unit) : Prop :=
  ∀ s, s.portForwards = m' → (p.run s).2.portForwards = m

variable {m m' : PortForwards} {key : SocketAddrV6}

theorem restores_restorePersistedForward (hsorted : Sorted m) (e : PortForward) :
    Restores (insert source e m) m (restorePersistedForward source (get m source)) := by
  intro s hs
  rw [restorePersistedForward, change, run_mutate, hs]
  cases hget : get m source with
  | none => exact hsorted.erase_insert_of_get hget
  | some old => exact hsorted.insert_insert_of_get hget

/-- A program succeeds and leaves the map, or fails and leaves another in its place. -/
def LeavesOrRestores (m' m : PortForwards) (p : Prog TunnelContext (Except UInt8 Unit)) : Prop :=
  ∀ s, s.portForwards = m' →
    (p.run s).1 = .ok () ∧ (p.run s).2.portForwards = m' ∨
      (∃ code, (p.run s).1 = .error code) ∧ (p.run s).2.portForwards = m

theorem registerOrRestore_forwards (h : Restores m' m restore) :
    LeavesOrRestores m' m (registerOrRestore host source target hostnames restore) := by
  intro s hs
  rw [registerOrRestore, run_bind]
  have hr : ((sniRegister host source hostnames target).run s).2.portForwards = m' := hs
  generalize (sniRegister host source hostnames target).run s = r at hr ⊢
  obtain ⟨result, s'⟩ := r
  cases result with
  | ok _ => exact .inl ⟨rfl, hr⟩
  | error code =>
    rw [run_bind]
    exact .inr ⟨⟨code, rfl⟩, h s' hr⟩

theorem registerConvertedSni_forwards {fallback : Option SocketAddrV4} (h : Restores m' m restore) :
    LeavesOrRestores m' m (registerConvertedSni host source target hostnames fallback restore) := by
  cases fallback with
  | none => exact registerOrRestore_forwards h
  | some fallback =>
    intro s hs
    rw [registerConvertedSni, run_bind]
    have hr : ((sniRegisterFallback host source fallback).run s).2.portForwards = m' := hs
    generalize (sniRegisterFallback host source fallback).run s = r at hr ⊢
    obtain ⟨result, s'⟩ := r
    cases result with
    | ok _ =>
      refine registerOrRestore_forwards (fun s hs => ?_) s' hr
      exact h _ ((untouched_sniUnregisterFallback s).trans hs)
    | error code =>
      rw [run_bind]
      exact .inr ⟨⟨code, rfl⟩, h s' hr⟩

/-- When the names cannot be registered, the map is what it was before the transaction. -/
theorem registerPersisted_forwards (host : Host) {p : Persisted} (hsorted : Sorted m)
    (hok : persistSni source target hostnames auto label m = .ok (p, m')) :
    LeavesOrRestores m' m (registerPersisted host source target p) := by
  obtain ⟨-, -, hprevious, hconverted, -, -, rfl⟩ := persistSni_ok hok
  have hrestore (e : PortForward) : Restores (insert source e m) m
      (restorePersistedForward source p.previous) := by
    rw [hprevious]
    exact restores_restorePersistedForward hsorted e
  rw [registerPersisted]
  split
  · rename_i hsome
    rcases hconverted with hconverted | hconverted
    · rw [hconverted]
      exact registerConvertedSni_forwards (hrestore _)
    · rw [hconverted] at hsome
      cases hsome
  · exact registerOrRestore_forwards (hrestore _)

theorem keeps_persistSniForward :
    (persistSniForward host source target hostnames lifetime auto label).Keeps SeparateIn := by
  refine .locked (untouched_prepare.keeps.bind fun r => ?_)
  split
  · exact .pure _
  · intro s hs
    rw [run_bind, transact, run_mutate]
    cases hok : persistSni source target hostnames auto (defaultLabel auto label) s.portForwards with
    | error e => exact hs
    | ok r =>
      obtain ⟨p, m'⟩ := r
      rw [run_bind]
      have hregister := registerPersisted_forwards host hs.sorted hok
        { s with portForwards := m' } rfl
      generalize (registerPersisted host source target p).run { s with portForwards := m' } = r
        at hregister ⊢
      obtain ⟨result, s'⟩ := r
      rcases hregister with ⟨rfl, hforwards⟩ | ⟨⟨code, rfl⟩, hforwards⟩
      · refine ((untouched_completeConversion p).keeps.bind fun _ =>
          (Untouched.each (fun _ => untouched_stampFor _ _) _).keeps.bind fun _ => .pure _) s' ?_
        rw [SeparateIn, hforwards]
        exact hs.persistSni hok
      · rw [run_pure, SeparateIn, hforwards]
        exact hs

theorem keeps_removeSniFallback : (removeSniFallback source target).Keeps SeparateIn :=
  keeps_removeSniFallbackLocked.locked

theorem keeps_removeSniRoutes :
    (removeSniRoutes source target hostnames autoOnly).Keeps SeparateIn :=
  Keeps.locked ((keeps_change fun _ hm => hm.dropRoutes).bind fun _ =>
    untouched_sniUnregister.keeps.bind fun _ =>
      (Untouched.each (fun _ => untouched_forget _) _).keeps)

theorem keeps_removeDnat : (removeDnat host source).Keeps SeparateIn :=
  (keeps_change fun _ hm => hm.erase source).bind fun _ =>
    untouched_withdraw.keeps.bind fun _ => (untouched_forget _).keeps

theorem keeps_removePeerForwardBySource :
    (removePeerForwardBySource host source peer autoOnly).Keeps SeparateIn := by
  refine .locked ((Keeps.peek _).bind fun current => ?_)
  split
  · split
    · exact keeps_removeDnat.bind .pure
    · exact .pure _
  · split
    · exact keeps_removeSniFallbackLocked.bind .pure
    · exact .pure _
  · exact .pure _

theorem keeps_removePeerForward : (removePeerForward host peer internalPort).Keeps SeparateIn := by
  refine .locked ((Keeps.peek _).bind fun found => ?_)
  split
  · exact .pure _
  · exact keeps_removeSniFallbackLocked
  · exact keeps_removeDnat

theorem untouched_openPinhole : Untouched (openPinhole host key internalPort count label auto) := by
  intro s
  rw [openPinhole, Prog.run_locked, run_bind, run_mutate]
  cases upsertPinhole key internalPort count label auto s.pinholes with
  | error e => rfl
  | ok r =>
    obtain ⟨enabled, pinholes⟩ := r
    cases enabled with
    | false => rfl
    | true =>
      dsimp only
      rw [applyPinhole, run_mutate]
      split <;> rfl

theorem untouched_closePinhole : Untouched (closePinhole host key autoOnly) := by
  intro s
  rw [closePinhole, Prog.run_locked, run_bind, run_mutate]
  by_cases hmatch : ((get s.pinholes key).any fun p => !autoOnly || p.auto) = true
  · rw [if_pos hmatch]
    rfl
  · rw [if_neg hmatch]
    rfl

theorem keeps_mapRun : (mapRun host peer source r count).Keeps SeparateIn := by
  rw [mapRun]
  split
  · exact keeps_removePeerForward.bind .pure
  · refine keeps_applyPeerForwardRange.bind fun applied => ?_
    split <;> exact .pure _

theorem keeps_mapHostnames : (mapHostnames host peer source r).Keeps SeparateIn := by
  refine .ite (fun _ => .pure _) fun _ => .ite (fun _ => ?_) fun _ => ?_
  · exact keeps_removeSniRoutes.bind .pure
  · refine keeps_persistSniForward.bind fun persisted => ?_
    split <;> exact .pure _

theorem keeps_handle : (handle host peer r).Keeps SeparateIn := by
  refine (Keeps.peek _).bind fun known => (Keeps.peek _).bind fun external => ?_
  refine .ite (fun _ => .pure _) fun _ => ?_
  cases external with
  | none => exact .pure _
  | some ip =>
    exact .ite (fun _ => .pure _) fun _ =>
      .ite (fun _ => keeps_mapHostnames) fun _ =>
        .ite (fun _ => .pure _) fun _ => keeps_mapRun

theorem untouched_handle6 {peer : Ipv6Addr} : Untouched (handle6 host peer r) := by
  have hpeek {β : Type} (g : TunnelContext → β) : Untouched (Prog.peek g) := fun _ => rfl
  have hpure {β : Type} (b : β) : Untouched (pure b) := fun _ => rfl
  refine (hpeek _).bind fun known => ?_
  split
  · exact hpure _
  · split
    · exact hpure _
    · split
      · refine Untouched.bind ?_ hpure
        exact untouched_closePinhole.bind fun _ => untouched_forget _
      · refine Untouched.bind ?_ hpure
        refine untouched_openPinhole.bind fun opened => ?_
        split
        · exact (untouched_stampFor _ _).bind hpure
        · exact hpure _

theorem keeps_handleControl {r : IgdRequest} : (handleControl host peer r).Keeps SeparateIn := by
  refine (Keeps.peek _).bind fun known => (Keeps.peek _).bind fun external => ?_
  split
  · exact .pure _
  · exact .ite (fun _ => .pure _) fun _ =>
      keeps_applyPeerForwardRange.bind .pure
  · exact keeps_removePeerForwardBySource
  · exact .ite (fun _ => .pure _) fun _ =>
      keeps_persistSniForward.bind .pure
  · exact .ite (fun _ => .pure _) fun _ =>
      keeps_removeSniRoutes.bind .pure

theorem keeps_addManual : (addManual host source target count label).Keeps SeparateIn := by
  refine (keeps_transact fun _ _ _ hm hok => hm.reserveManual hok).bind fun r => ?_
  split
  · exact .pure _
  · refine untouched_addForwardRange.keeps.bind fun installed => ?_
    split
    · exact .pure _
    · exact (keeps_change fun _ hm => hm.erase source).bind .pure

theorem keeps_addForwardAt :
    (addForwardAt host source target label sni count).Keeps SeparateIn := by
  refine .ite (fun _ => .pure _) fun _ => .ite (fun _ => ?_) fun _ => ?_
  · refine .ite (fun _ => .pure _) fun _ => ?_
    refine keeps_persistSniForward.bind fun r => ?_
    split <;> exact .pure _
  · exact .ite (fun _ => .pure _) fun _ => keeps_addManual

theorem keeps_addForward {externalPort : UInt16} {count : Option UInt16} :
    (addForward host externalPort target label sni count).Keeps SeparateIn := by
  refine .ite (fun _ => .pure _) fun _ => (Keeps.peek _).bind fun ip => ?_
  split
  · exact .pure _
  · exact keeps_addForwardAt

theorem keeps_removeForward : (removeForward host source hostname).Keeps SeparateIn := by
  refine (Keeps.peek _).bind fun current => ?_
  split
  · refine (Keeps.each fun _ _ => keeps_removeSniRoutes).bind fun _ => ?_
    split
    · exact keeps_removeSniFallback.bind .pure
    · exact .pure _
  · exact (keeps_change fun _ hm => hm.erase source).bind fun _ => untouched_withdraw.keeps
  · exact .pure _

theorem untouched_toggleForward (toggle : ForwardToggle) :
    Untouched (toggleForward host source enabled toggle) := by
  have hpure {β : Type} (b : β) : Untouched (pure b) := fun _ => rfl
  cases toggle with
  | dnat target count =>
    refine Untouched.bind ?_ hpure
    split
    · exact untouched_addForwardRange
    · exact untouched_withdraw
  | sni hostname target =>
    rw [toggleForward]
    split
    · refine untouched_prepare.bind fun r => ?_
      split
      · exact hpure _
      · refine untouched_sniRegister.bind fun r => ?_
        split <;> exact hpure _
    · exact untouched_sniUnregister.bind hpure

theorem keeps_setForwardEnabled :
    (setForwardEnabled host source enabled hostname).Keeps SeparateIn := by
  refine .locked ?_
  refine (keeps_transact fun _ _ _ hm hok => hm.updateForwardEnabled hok).bind fun r => ?_
  split
  · exact .pure _
  · exact (untouched_toggleForward _).keeps

theorem keeps_reapKey (key : LeaseKey) : (reapKey host key).Keeps SeparateIn := by
  cases key with
  | dnat source =>
    refine (Keeps.peek _).bind fun auto => ?_
    split
    · exact (keeps_change fun _ hm => hm.erase source).bind fun _ =>
        untouched_withdraw.keeps.bind .pure
    · exact .pure _
  | sni source hostname =>
    refine (Keeps.peek _).bind fun found => ?_
    split
    · exact .pure _
    · exact keeps_removeSniRoutes
  | sniFallback source =>
    refine (Keeps.peek _).bind fun found => ?_
    split
    · exact .pure _
    · exact keeps_removeSniFallback
  | pinhole key => exact untouched_closePinhole.keeps.bind .pure

theorem keeps_reapExpired : (reapExpired host).Keeps SeparateIn := by
  refine (Keeps.peek _).bind fun now => (Keeps.peek _).bind fun expired => ?_
  refine (Keeps.each fun key _ => ?_).bind fun _ => .peek _
  refine (Keeps.peek _).bind fun lapsed => ?_
  refine .ite (fun _ => (keeps_reapKey key).bind fun _ => ?_) fun _ => .pure _
  refine .modify fun s hs => ?_
  split
  · exact hs
  · exact hs

theorem keeps_clearForPeer : (clearForPeer host peer autoOnly).Keeps SeparateIn := by
  refine (Keeps.peek _).bind fun forwards => ?_
  refine (Keeps.each fun _ _ =>
    keeps_removePeerForwardBySource.bind fun _ => .pure _).bind fun _ => ?_
  refine (Keeps.each fun _ _ => keeps_removeSniRoutes).bind fun _ => ?_
  refine (Keeps.each fun _ _ => keeps_removeSniFallback).bind fun _ => ?_
  refine (Keeps.peek _).bind fun guas => (Keeps.peek _).bind fun keys => ?_
  exact .each fun _ _ =>
    untouched_closePinhole.keeps.bind .pure

theorem foldl_release_portForwards (sources : List SocketAddrV4) (s : TunnelContext) :
    (sources.foldl TunnelContext.release s).portForwards = s.portForwards := by
  induction sources generalizing s with
  | nil => rfl
  | cons source rest ih => exact ih _

theorem untouched_collectForwards (gc : GcForwards) : Untouched (collectForwards host gc) := by
  refine (Untouched.each (fun _ => untouched_sniUnregister) _).bind fun _ => ?_
  refine (Untouched.each (fun _ => untouched_sniUnregisterFallback) _).bind fun _ => ?_
  refine Untouched.bind (fun s => foldl_release_portForwards _ s) fun _ => ?_
  exact Untouched.bind (fun _ => rfl) fun _ _ => rfl

theorem keeps_reconfigure {update : List (IpNet × WgSubnet) → Option (List (IpNet × WgSubnet))} :
    (reconfigure host update).Keeps SeparateIn := by
  refine .bind ?_ fun gc => ?_
  · refine .mutate fun s hs => ?_
    split
    · exact hs
    · exact hs.gcForwards _
  · split
    · exact .pure _
    · exact untouched_call.keeps.bind fun _ =>
        .ite (fun _ => (untouched_collectForwards _).keeps) fun _ => .pure _

theorem untouched_reconcileSniDemux (old want : PortForwards) :
    Untouched (reconcileSniDemux host old want) := by
  have hpure : Untouched (pure ()) := fun _ => rfl
  refine (Untouched.each (fun e => ?_) _).bind fun _ => ?_
  · split
    · exact hpure
    · exact untouched_sniUnregister
  refine (Untouched.each (fun e => untouched_sniRegister.bind fun _ => hpure) _).bind fun _ => ?_
  refine (Untouched.each (fun e => ?_) _).bind fun _ => ?_
  · split
    · exact hpure
    · exact untouched_sniUnregisterFallback
  exact Untouched.each (fun e => untouched_sniRegisterFallback.bind fun _ => hpure) _

theorem untouched_installMissing (want : PortForwards) : Untouched (installMissing host want) := by
  induction want with
  | nil => exact fun _ => rfl
  | cons e rest ih =>
    obtain ⟨source, entry⟩ := e
    cases entry with
    | sni routes fallback => exact ih
    | dnat target label enabled count auto =>
      cases enabled with
      | false => exact ih
      | true =>
        refine Untouched.bind (fun _ => rfl) fun active => Untouched.bind ?_ fun installed => ?_
        · split
          · exact fun _ => rfl
          · exact untouched_addForwardRange
        · split
          · exact ih
          · exact fun _ => rfl

/-- Moving the forwards stores the map that was built, or stops before. -/
theorem resyncForwardKeys_forwards (host : Host) (s : TunnelContext) :
    ((resyncForwardKeys host).run s).2.portForwards = s.portForwards ∨
      ((resyncForwardKeys host).run s).2.portForwards =
        rekey (fun ip => s.externalIpv4 ip host) s.portForwards := by
  simp only [resyncForwardKeys, run_bind, Prog.run_peek, Prog.run_modify]
  split
  · exact .inr rfl
  · left
    rw [run_pure, untouched_installMissing, foldl_release_portForwards, untouched_reconcileSniDemux]

/-- The addresses that devices have under a configuration. -/
def externalUnder (host : Host) (subnets : List (IpNet × WgSubnet)) (device : Ipv4Addr) :
    Option Ipv4Addr :=
  (TunnelContext.initial subnets).externalIpv4 device host

variable {update : List (IpNet × WgSubnet) → Option (List (IpNet × WgSubnet))} {s : TunnelContext}

/-- When the operation reassigns addresses, no two forwards clash where they move to. -/
def clashFree (s : TunnelContext) (c : Call) : Bool :=
  match c.operation.assignment with
  | none => true
  | some update =>
    match update s.subnets with
    | none => true
    | some subnets =>
      decide ((moved (externalUnder c.host subnets) s.portForwards).Pairwise Compatible)

/-- A reassignment drops nothing that is held. -/
def DropsNothing (s : TunnelContext) (c : Call) : Prop :=
  c.operation.assignment.isSome →
    ∀ x ∈ holdings s.portForwards, x ∈ holdings (perform s c).portForwards

theorem separate_reassign {host : Host} (h : Separate s.portForwards)
    (hclear : ∀ subnets, update s.subnets = some subnets →
      (moved (externalUnder host subnets) s.portForwards).Pairwise Compatible) :
    Separate ((reassign host update).run s).2.portForwards ∧ ∀ x ∈ holdings s.portForwards,
        x ∈ holdings ((reassign host update).run s).2.portForwards := by
  rw [reassign, run_bind, run_mutate]
  cases hupdate : update s.subnets with
  | none => exact ⟨h, fun _ hx => hx⟩
  | some subnets =>
    simp only [if_true, run_bind]
    split
    · rcases resyncForwardKeys_forwards host
          ((call host).run { s with subnets := subnets }).2 with hsame | hrekey
      · rw [hsame]
        exact ⟨h, fun _ hx => hx⟩
      · have hplaced := placed_rekey (hclear subnets hupdate)
        rw [hrekey]
        exact ⟨⟨hplaced.sorted, hplaced.apart (hclear subnets hupdate)⟩,
          fun _ hx => holdings_rekey (hclear subnets hupdate) hx⟩
    · exact ⟨h, fun _ hx => hx⟩

theorem clashFree_pairwise {c : Call} (h : clashFree s c = true)
    (hassign : c.operation.assignment = some update) (subnets : List (IpNet × WgSubnet))
    (hupdate : update s.subnets = some subnets) :
    (moved (externalUnder c.host subnets) s.portForwards).Pairwise Compatible := by
  rw [clashFree, hassign] at h
  dsimp only at h
  rw [hupdate] at h
  exact of_decide_eq_true h

/-- Every operation keeps the forwards apart, a reassignment when nothing clashes. -/
theorem separate_perform (s : TunnelContext) (c : Call) (h : Separate s.portForwards)
    (hclear : clashFree s c = true) :
    Separate (perform s c).portForwards ∧ DropsNothing s c := by
  obtain ⟨host, operation⟩ := c
  have hkeeps (hp : (operation.program host).Keeps SeparateIn)
      (hnone : operation.assignment = none) :
      Separate (perform s ⟨host, operation⟩).portForwards ∧ DropsNothing s ⟨host, operation⟩ := by
    refine ⟨hp s h, fun hsome => ?_⟩
    rw [hnone] at hsome
    cases hsome
  have hpure (a : Unit) : (pure a : Prog TunnelContext Unit).Keeps SeparateIn := .pure a
  cases operation with
  | map peer r => exact hkeeps (keeps_handle.bind fun _ => hpure ()) rfl
  | map6 peer r => exact hkeeps (untouched_handle6.keeps.bind fun _ => hpure ()) rfl
  | control peer r => exact hkeeps (keeps_handleControl.bind fun _ => hpure ()) rfl
  | addForward externalPort target label sni count =>
    exact hkeeps (keeps_addForward.bind fun _ => hpure ()) rfl
  | removeForward source hostname => exact hkeeps (keeps_removeForward.bind fun _ => hpure ()) rfl
  | setForwardEnabled source enabled hostname =>
    exact hkeeps (keeps_setForwardEnabled.bind fun _ => hpure ()) rfl
  | reapExpired => exact hkeeps (keeps_reapExpired.bind fun _ => hpure ()) rfl
  | clearForPeer peer autoOnly => exact hkeeps keeps_clearForPeer rfl
  | removeDevice subnet ip =>
    have hboth : (Tunnel.removeDevice host subnet ip).Keeps SeparateIn :=
      keeps_clearForPeer.bind fun _ => keeps_reconfigure
    exact hkeeps (hboth.bind fun _ => hpure ()) rfl
  | removeSubnet subnet => exact hkeeps (keeps_reconfigure.bind fun _ => hpure ()) rfl
  | setDeviceWan subnet ip wanIp | setSubnetWan subnet wanIp =>
    have hreassign := separate_reassign h (clashFree_pairwise hclear rfl)
    rw [DropsNothing, perform, Operation.program, run_bind]
    exact ⟨hreassign.1, fun _ => hreassign.2⟩
  | configure subnets | wait seconds => exact ⟨h, fun hsome => nomatch hsome⟩

/-- From a tunnel that forwards nothing, whatever is done and whatever calls to the host fail:
entries on one address take no common port, and no reassignment drops a forward, as long as the
forwards that a reassignment moves do not clash where they move to. -/
theorem forwards_stay_apart {s : TunnelContext} (hempty : s.portForwards = []) {calls : List Call}
    (hclear : Meets clashFree s calls = true) :
    Throughout (fun s => Apart s.portForwards) DropsNothing s calls := by
  have hstart : Separate s.portForwards := by
    rw [hempty]
    exact Separate.nil
  have hrun : Throughout (fun s => Separate s.portForwards) DropsNothing s calls :=
    throughout_of_step separate_perform hstart hclear
  exact hrun.imp fun _ h => h.apart

/-- The second device gets the address of the first, on which it has another port. -/
def clearRun : List Call :=
  [⟨.steady, .map (.ofOctets 10 59 0 2) (samplePort 443)⟩,
    ⟨.steady, .map (.ofOctets 10 59 0 3) (samplePort 8443)⟩,
    ⟨.steady, .setDeviceWan sampleSubnet (.ofOctets 10 59 0 3) (some (.ofOctets 203 0 113 1))⟩]

theorem forwards_stay_apart_clearRun : Meets clashFree sampleTunnel clearRun = true ∧
      Throughout (fun s => Apart s.portForwards) DropsNothing sampleTunnel clearRun :=
  ⟨by decide +kernel, forwards_stay_apart rfl (by decide +kernel)⟩

/-- The second device gets the address of the first, and both have the same port. -/
def clashRun : List Call :=
  [⟨.steady, .map (.ofOctets 10 59 0 2) (samplePort 443)⟩,
    ⟨.steady, .map (.ofOctets 10 59 0 3) (samplePort 443)⟩]

/-- The forward of one device is lost, though every call succeeds. -/
theorem reassignment_drops_forward : let s := clashRun.foldl perform sampleTunnel
    let c : Call :=
      ⟨.steady, .setDeviceWan sampleSubnet (.ofOctets 10 59 0 3) (some (.ofOctets 203 0 113 1))⟩
    s.portForwards.length = 2 ∧ (perform s c).portForwards.length = 1 ∧ ¬ DropsNothing s c := by
  have hheld : (443, Piece.dnat ⟨.ofOctets 10 59 0 2, 443⟩ (some protocolLabel) true 1 true) ∈
      holdings (clashRun.foldl perform sampleTunnel).portForwards := by
    decide +kernel
  refine ⟨by decide +kernel, by decide +kernel, fun hkeeps => ?_⟩
  exact absurd (hkeeps rfl _ hheld) (by decide +kernel)

end StartTech.Tunnel
