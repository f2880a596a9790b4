import StartTech.Tunnel.Operations
import Mathlib.Data.List.Pairwise

/-!
# Forwards that move to other addresses

A map of forwards is taken apart into its pieces (a run of ports, a route for a host name, a
fallback) and each piece is placed at the address that its device has now. When no two pieces
clash there, each of them is in the new map, and the new map has nothing else.
-/

namespace StartTech.Tunnel

open Net Foundation
open OrderedMap (get get_insert get_insert_self mem_of_get)

/-- What one device or the operator holds on a port. -/
inductive Piece
  | dnat (target : SocketAddrV4) (label : Option Text) (enabled : Bool) (count : UInt16)
      (auto : Bool)
  | route (hostname : Text) (route : SniRoute)
  | fallback (route : SniRoute)
  deriving DecidableEq

namespace Piece

def device : Piece → Ipv4Addr
  | dnat target _ _ _ _ => target.ip
  | route _ r => r.target.ip
  | fallback r => r.target.ip

def portSpan : Piece → UInt16
  | dnat _ _ _ count _ => max count 1
  | route _ _ => 1
  | fallback _ => 1

/-- The place of a piece on a shared port; a run of ports does not share. -/
def slot : Piece → Option (Option Text)
  | dnat _ _ _ _ _ => none
  | route hostname _ => some (some hostname)
  | fallback _ => some none

theorem portSpan_pos (p : Piece) : 0 < p.portSpan.toNat := by
  cases p with
  | dnat _ _ _ count _ =>
    rw [portSpan, toNat_max_one]
    omega
  | route _ _ | fallback _ => exact Nat.one_pos

end Piece

def PortForward.pieces : PortForward → List Piece
  | .dnat target label enabled count auto => [.dnat target label enabled count auto]
  | .sni routes fallback =>
    (routes.map fun r => Piece.route r.1 r.2) ++ (fallback.map Piece.fallback).toList

open PortForward (pieces isSni)

/-- The pieces of a map, each with the address that it has now. -/
def moved (external : Ipv4Addr → Option Ipv4Addr) (old : PortForwards) :
    List (SocketAddrV4 × Piece) :=
  old.flatMap fun e => e.2.pieces.map fun p => (movedKey external e.1 p.device, p)

/-- What is held on which port, at whatever address. -/
def holdings (forwards : PortForwards) : List (UInt16 × Piece) :=
  forwards.flatMap fun e => e.2.pieces.map fun p => (e.1.port, p)

def place (want : PortForwards) (x : SocketAddrV4 × Piece) : PortForwards :=
  match x.2 with
  | .dnat target label enabled count auto =>
    OrderedMap.insert x.1 (.dnat target label enabled count auto) want
  | .route hostname route => rekeyRoute want x.1 hostname route
  | .fallback f => rekeyFallback want x.1 f

/-- Building the map again places its pieces one after another. -/
theorem rekey_eq (external : Ipv4Addr → Option Ipv4Addr) (old : PortForwards) :
    rekey external old = (moved external old).foldl place [] := by
  rw [rekey, moved, List.foldl_flatMap]
  congr 1
  funext want e
  obtain ⟨source, entry⟩ := e
  cases entry with
  | dnat target label enabled count auto => rfl
  | sni routes fallback =>
    cases fallback <;>
      simp [rekeyEntry, pieces, List.foldl_map, place, Piece.device]

/-- Two pieces take different ports. -/
def Beside (a b : SocketAddrV4 × Piece) : Prop :=
  a.1.port.toNat + a.2.portSpan.toNat ≤ b.1.port.toNat ∨
    b.1.port.toNat + b.2.portSpan.toNat ≤ a.1.port.toNat

/-- Two pieces have different places on one shared port. -/
def Shares (a b : SocketAddrV4 × Piece) : Prop :=
  a.1 = b.1 ∧ a.2.slot.isSome ∧ b.2.slot.isSome ∧ a.2.slot ≠ b.2.slot

/-- Two pieces do not clash: if they are on one address, they take different ports or share
one. -/
def Compatible (a b : SocketAddrV4 × Piece) : Prop := a.1.ip = b.1.ip → Beside a b ∨ Shares a b

instance (a b : SocketAddrV4 × Piece) : Decidable (Beside a b) :=
  inferInstanceAs (Decidable (_ ∨ _))

instance (a b : SocketAddrV4 × Piece) : Decidable (Shares a b) :=
  inferInstanceAs (Decidable (_ ∧ _))

instance (a b : SocketAddrV4 × Piece) : Decidable (Compatible a b) :=
  inferInstanceAs (Decidable (_ → _))

variable {a b : SocketAddrV4 × Piece}

theorem Compatible.symm (h : Compatible a b) : Compatible b a := by
  intro hip
  rcases h hip.symm with hbeside | ⟨hkey, ha, hb, hne⟩
  · exact .inl hbeside.symm
  · exact .inr ⟨hkey.symm, hb, ha, hne.symm⟩

instance : Std.Symm Compatible := ⟨fun _ _ => Compatible.symm⟩

theorem not_beside_of_port_eq (h : a.1.port = b.1.port) : ¬ Beside a b := by
  have ha := a.2.portSpan_pos
  have hb := b.2.portSpan_pos
  rw [Beside, h]
  omega

/-- Compatible pieces of one address and port share it. -/
theorem Compatible.shares {k : SocketAddrV4} {p q : Piece} (h : Compatible (k, p) (k, q)) :
    Shares (k, p) (k, q) :=
  (h rfl).resolve_left (not_beside_of_port_eq rfl)

theorem Compatible.beside (h : Compatible a b) (hip : a.1.ip = b.1.ip) (hne : a.1 ≠ b.1) :
    Beside a b :=
  (h hip).resolve_right fun hshares => hne hshares.1

section Placed

/-- The piece is in the map. -/
def Present (want : PortForwards) (key : SocketAddrV4) : Piece → Prop
  | .dnat target label enabled count auto =>
    get want key = some (.dnat target label enabled count auto)
  | .route hostname route => ∃ routes fallback,
      get want key = some (.sni routes fallback) ∧
        get routes hostname = some route
  | .fallback f => ∃ routes, get want key = some (.sni routes (some f))

/-- The entry takes the ports of a piece and is of its kind. -/
def Piece.Within (p : Piece) (e : PortForward) : Prop :=
  e.portSpan = p.portSpan ∧ (p.slot.isSome ↔ e.isSni = true)

/-- The map has the pieces that were placed, and an entry only where one was. -/
structure Placed (done : List (SocketAddrV4 × Piece)) (want : PortForwards) : Prop where
  sorted : OrderedMap.Sorted want
  present : ∀ x ∈ done, Present want x.1 x.2
  origin : ∀ key e, get want key = some e → ∃ p, (key, p) ∈ done ∧ p.Within e

theorem Placed.nil : Placed [] [] :=
  ⟨.nil, fun _ h => absurd h List.not_mem_nil, fun _ _ h => nomatch h⟩

variable {done : List (SocketAddrV4 × Piece)} {want old : PortForwards} {key target : SocketAddrV4}
  {p : Piece} {e : PortForward} {label : Option Text} {enabled auto : Bool}
  {external : Ipv4Addr → Option Ipv4Addr} {count : UInt16}

theorem Present.get_ne_none (h : Present want key p) : get want key ≠ none := by
  intro hnone
  cases p with
  | dnat _ _ _ _ _ => cases hnone.symm.trans h
  | route _ _ =>
    obtain ⟨_, _, hentry, -⟩ := h
    cases hnone.symm.trans hentry
  | fallback _ =>
    obtain ⟨_, hentry⟩ := h
    cases hnone.symm.trans hentry

section

variable (h : Placed done want)
include h

/-- An entry put at a key of which it keeps the pieces. -/
theorem Placed.insert (hself : Present (OrderedMap.insert key e want) key p) (hwithin : p.Within e)
    (hsame : ∀ q, (key, q) ∈ done → Present (OrderedMap.insert key e want) key q) :
    Placed (done ++ [(key, p)]) (OrderedMap.insert key e want) := by
  refine ⟨h.sorted.insert, fun x hx => ?_, fun key' e' he' => ?_⟩
  · rcases List.mem_append.mp hx with hx | hx
    · by_cases hkey : key = x.1
      · obtain ⟨xkey, q⟩ := x
        obtain rfl : key = xkey := hkey
        exact hsame q hx
      · rcases x with ⟨xkey, _ | _ | _⟩ <;>
          simpa only [Present, get_insert, if_neg hkey] using h.present _ hx
    · rw [List.mem_singleton] at hx
      subst hx
      exact hself
  · rw [get_insert] at he'
    split at he'
    · rename_i hkey
      cases hkey
      cases he'
      exact ⟨p, by simp, hwithin⟩
    · obtain ⟨q, hq, hqe⟩ := h.origin key' e' he'
      exact ⟨q, List.mem_append_left _ hq, hqe⟩

/-- No entry is a run where a piece that shares is to be placed. -/
theorem Placed.not_dnat (hcompat : ∀ x ∈ done, Compatible x (key, p))
    : get want key ≠ some (.dnat target label enabled count auto) := by
  intro hget
  obtain ⟨q, hq, -, hslot⟩ := h.origin key _ hget
  have hshares := (hcompat _ hq).shares
  exact Bool.false_ne_true (hslot.mp hshares.2.1)

/-- Hostnames put at a key, with those that were placed there. -/
theorem Placed.place_sni (hcompat : ∀ x ∈ done, Compatible x (key, p))
    (hslot : p.slot.isSome = true) {routes : List (Text × SniRoute)} {fallback : Option SniRoute}
    (hself : Present (OrderedMap.insert key (.sni routes fallback) want) key p)
    (hroutes : ∀ name r, (key, .route name r) ∈ done → get routes name = some r)
    (hfallback : ∀ f, (key, .fallback f) ∈ done → fallback = some f) :
    Placed (done ++ [(key, p)]) (OrderedMap.insert key (.sni routes fallback) want) := by
  refine h.insert hself ⟨?_, by simp [hslot, isSni]⟩ fun q hq => ?_
  · cases p with
    | dnat _ _ _ _ _ => cases hslot
    | route _ _ | fallback _ => rfl
  · have hget := get_insert_self key (.sni routes fallback) want
    cases q with
    | dnat _ _ _ _ _ => exact absurd (hcompat _ hq).shares.2.1 Bool.false_ne_true
    | route name r => exact ⟨_, _, hget, hroutes name r hq⟩
    | fallback f => exact ⟨_, by rw [hget, hfallback f hq]⟩

/-- Another name on a shared port. -/
theorem Placed.place_route {hostname : Text} {route : SniRoute}
    (hcompat : ∀ x ∈ done, Compatible x (key, .route hostname route)) :
    Placed (done ++ [(key, .route hostname route)]) (place want (key, .route hostname route)) := by
  change Placed _ (rekeyRoute want key hostname route)
  rw [rekeyRoute]
  cases hget : get want key with
  | none =>
    refine h.place_sni hcompat rfl ⟨_, _, get_insert_self _ _ _, by simp [OrderedMap.get]⟩
      (fun _ _ hq => ?_) fun _ hq => ?_
    -- Nothing was placed here.
    all_goals exact absurd hget (h.present _ hq).get_ne_none
  | some e =>
    cases e with
    | dnat _ _ _ _ _ => exact absurd hget (h.not_dnat hcompat)
    | sni routes fallback =>
      refine h.place_sni hcompat rfl ⟨_, _, get_insert_self _ _ _, get_insert_self _ _ _⟩
        (fun name r hq => ?_) fun f hq => ?_
      · obtain ⟨_, _, hentry, hroute⟩ := h.present _ hq
        cases hget.symm.trans hentry
        have hne : hostname ≠ name := by
          rintro rfl
          exact (hcompat _ hq).shares.2.2.2 rfl
        rw [get_insert, if_neg hne, hroute]
      · obtain ⟨_, hentry⟩ := h.present _ hq
        cases hget.symm.trans hentry
        rfl

theorem Placed.place_fallback {f : SniRoute}
    (hcompat : ∀ x ∈ done, Compatible x (key, .fallback f)) :
    Placed (done ++ [(key, .fallback f)]) (place want (key, .fallback f)) := by
  change Placed _ (rekeyFallback want key f)
  rw [rekeyFallback]
  cases hget : get want key with
  | none =>
    refine h.place_sni hcompat rfl ⟨_, get_insert_self _ _ _⟩ (fun _ _ hq => ?_) fun _ hq => ?_
    all_goals exact absurd hget (h.present _ hq).get_ne_none
  | some e =>
    cases e with
    | dnat _ _ _ _ _ => exact absurd hget (h.not_dnat hcompat)
    | sni routes fallback =>
      refine h.place_sni hcompat rfl ⟨_, get_insert_self _ _ _⟩
        (fun name r hq => ?_) fun _ hq => absurd rfl (hcompat _ hq).shares.2.2.2
      obtain ⟨_, _, hentry, hroute⟩ := h.present _ hq
      cases hget.symm.trans hentry
      exact hroute

theorem Placed.place {x : SocketAddrV4 × Piece}
    (hcompat : ∀ y ∈ done, Compatible y x) : Placed (done ++ [x]) (place want x) := by
  obtain ⟨key, p⟩ := x
  cases p with
  | dnat _ _ _ _ _ =>
    refine h.insert ?_ ⟨rfl, by simp [Piece.slot, isSni]⟩ fun q hq => ?_
    · exact get_insert_self _ _ _
    · have hslot := (hcompat _ hq).shares.2.2.1
      cases hslot
  | route _ _ => exact h.place_route hcompat
  | fallback _ => exact h.place_fallback hcompat

/-- Pieces that do not clash are placed one after another. -/
theorem placed_foldl {l : List (SocketAddrV4 × Piece)}
    (hl : (done ++ l).Pairwise Compatible) : Placed (done ++ l) (l.foldl Tunnel.place want) := by
  induction l generalizing done want with
  | nil => rwa [List.append_nil]
  | cons x rest ih =>
    have hx : ∀ y ∈ done, Compatible y x :=
      fun y hy => (List.pairwise_append.mp hl).2.2 y hy x List.mem_cons_self
    rw [List.append_cons] at hl ⊢
    exact ih (h.place hx) hl

end

theorem placed_rekey (hclear : (moved external old).Pairwise Compatible) :
    Placed (moved external old) (rekey external old) := by
  rw [rekey_eq]
  exact placed_foldl Placed.nil hclear

/-- Compatible pieces make a map whose entries lie apart. -/
theorem Placed.apart (h : Placed done want) (hcompat : done.Pairwise Compatible) : Apart want := by
  intro a ha b hb hne hip port hcover
  obtain ⟨p, hp, hpspan, -⟩ := h.origin a.1 a.2 (h.sorted.get_of_mem ha)
  obtain ⟨q, hq, hqspan, -⟩ := h.origin b.1 b.2 (h.sorted.get_of_mem hb)
  have hdiff : (a.1, p) ≠ (b.1, q) := fun heq => hne (Prod.mk.inj heq).1
  have hbeside := (hcompat.forall hp hq hdiff).beside hip hne
  obtain ⟨⟨_, _⟩, _, _⟩ := hcover
  rw [Beside] at hbeside
  dsimp only at hbeside
  rw [← hpspan, ← hqspan] at hbeside
  omega

/-- A piece that is in the map is held on its port. -/
theorem Present.mem_holdings (h : Present want key p) : (key.port, p) ∈ holdings want := by
  have hmem {e : PortForward} (he : get want key = some e) (hp : p ∈ e.pieces) :
      (key.port, p) ∈ holdings want :=
    List.mem_flatMap.mpr ⟨(key, e), mem_of_get he, List.mem_map.mpr ⟨p, hp, rfl⟩⟩
  cases p with
  | dnat _ _ _ _ _ => exact hmem h (by simp [pieces])
  | route hostname r =>
    obtain ⟨routes, fallback, hentry, hroute⟩ := h
    have := mem_of_get hroute
    exact hmem hentry (by simp [pieces, this])
  | fallback f =>
    obtain ⟨routes, hentry⟩ := h
    exact hmem hentry (by simp [pieces])

/-- Forwards that do not clash where they move to are all kept. -/
theorem holdings_rekey (hclear : (moved external old).Pairwise Compatible) {x : UInt16 × Piece}
    (hx : x ∈ holdings old) : x ∈ holdings (rekey external old) := by
  obtain ⟨e, he, hx⟩ := List.mem_flatMap.mp hx
  obtain ⟨p, hp, rfl⟩ := List.mem_map.mp hx
  have hmoved : (movedKey external e.1 p.device, p) ∈ moved external old :=
    List.mem_flatMap.mpr ⟨e, he, List.mem_map.mpr ⟨p, hp, rfl⟩⟩
  exact ((placed_rekey hclear).present _ hmoved).mem_holdings

end Placed

end StartTech.Tunnel
