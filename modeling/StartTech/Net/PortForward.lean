import StartTech.Foundation.OrderedMap
import StartTech.Net.Ip

/-!
# Port forwards and their handles

A controller installs forwards by running a script and keeps, for each source address, the one
that it installed and the handle that was given out for it. A forward whose handle nobody holds
is withdrawn when the controller collects.

## Implementation notes

A run of the script takes effect or fails without effect; which of the two is a parameter, by
the number of the run. A handle is a number; `held` are the handles to which somebody has a
reference. References are dropped between commands: a command looks at them once, before it
runs the script, so one that is dropped meanwhile is as good as one that is dropped after it.
-/

namespace StartTech.Net

open Foundation
open OrderedMap (get get_insert get_erase)

/-- What the script installs and removes. -/
structure Rule where
  source : SocketAddrV4
  target : SocketAddrV4
  count : UInt16
  targetPrefix : UInt8
  srcFilter : Option IpNet
  deriving DecidableEq

structure ForwardMapping extends Rule where
  rc : Nat
  deriving DecidableEq

/-- The controller with the rules that are installed and the handles that are held. -/
structure Forwarding where
  mappings : List (SocketAddrV4 × ForwardMapping)
  held : Finset Nat
  fresh : Nat
  installed : Finset Rule
  runs : Nat

inductive ScriptError
  | network
  deriving DecidableEq, Repr

namespace Forwarding

/-- Rules that an earlier controller left are removed before the first command. -/
def initial : Forwarding := ⟨[], ∅, 0, ∅, 0⟩

section Commands

variable (outcomes : Nat → Bool)

def invoke (w : Forwarding) (effect : Finset Rule → Finset Rule) :
    Except ScriptError Unit × Forwarding :=
  if outcomes w.runs then
    (.ok (), { w with installed := effect w.installed, runs := w.runs + 1 })
  else (.error .network, { w with runs := w.runs + 1 })

def forward (w : Forwarding) (r : Rule) : Except ScriptError Unit × Forwarding :=
  w.invoke outcomes (insert r)

def unforward (w : Forwarding) (r : Rule) : Except ScriptError Unit × Forwarding :=
  w.invoke outcomes fun rules => rules.erase r

/-- Take out a mapping, then remove its rule. -/
def takeDown (w : Forwarding) (source : SocketAddrV4) (m : ForwardMapping) :
    Except ScriptError Unit × Forwarding :=
  unforward outcomes { w with mappings := OrderedMap.erase w.mappings source } m.toRule

/-- Install a rule and give out a new handle for it. -/
def install (w : Forwarding) (r : Rule) : Except ScriptError Nat × Forwarding :=
  match w.forward outcomes r with
  | (.error e, w) => (.error e, w)
  | (.ok (), w) =>
    (.ok w.fresh, { w with
      mappings := OrderedMap.insert r.source ⟨r, w.fresh⟩ w.mappings
      held := insert w.fresh w.held
      fresh := w.fresh + 1 })

/-- The mapping does what is asked for. The length of the target's network is not compared. -/
def ForwardMapping.serves (m : ForwardMapping) (r : Rule) : Prop :=
  m.target = r.target ∧ m.count = r.count ∧ m.srcFilter = r.srcFilter

instance (m : ForwardMapping) (r : Rule) : Decidable (ForwardMapping.serves m r) :=
  inferInstanceAs (Decidable (_ ∧ _))

def addForward (w : Forwarding) (r : Rule) : Except ScriptError Nat × Forwarding :=
  match get w.mappings r.source with
  | none => w.install outcomes r
  | some existing =>
    if ForwardMapping.serves existing r then
      if existing.rc ∈ w.held then (.ok existing.rc, w)
      else
        (.ok w.fresh, { w with
          mappings := OrderedMap.insert r.source { existing with rc := w.fresh } w.mappings
          held := insert w.fresh w.held
          fresh := w.fresh + 1 })
    else
      match w.takeDown outcomes r.source existing with
      | (.error e, w) => (.error e, w)
      | (.ok (), w) => w.install outcomes r

/-- The sources whose handle nobody holds. -/
def unheld (w : Forwarding) : List SocketAddrV4 :=
  (w.mappings.filter fun e => e.2.rc ∉ w.held).map Prod.fst

def gcFrom (w : Forwarding) : List SocketAddrV4 → Except ScriptError Unit × Forwarding
  | [] => (.ok (), w)
  | source :: rest =>
    match get w.mappings source with
    | none => gcFrom w rest
    | some m =>
      match w.takeDown outcomes source m with
      | (.error e, w) => (.error e, w)
      | (.ok (), w) => gcFrom w rest

def gc (w : Forwarding) : Except ScriptError Unit × Forwarding := w.gcFrom outcomes w.unheld

/-- A command, or the last reference to a handle is dropped. -/
inductive Command
  | addForward (r : Rule)
  | gc
  | drop (handle : Nat)

def step (w : Forwarding) : Command → Forwarding
  | .addForward r => (w.addForward outcomes r).2
  | .gc => (w.gc outcomes).2
  | .drop handle => { w with held := w.held.erase handle }

end Commands

section Records

/-- The rule is recorded, with all that the script was given. -/
def Records (w : Forwarding) (r : Rule) : Prop :=
  ∃ m, get w.mappings r.source = some m ∧ m.toRule = r

/-- Every rule that is installed is recorded. -/
def Recorded (w : Forwarding) : Prop := ∀ r ∈ w.installed, w.Records r

/-- The rules that are installed are those that are recorded, each under its source. -/
structure Exact (w : Forwarding) : Prop where
  sorted : OrderedMap.Sorted w.mappings
  source : ∀ source m, get w.mappings source = some m → m.source = source
  installed : ∀ r, r ∈ w.installed ↔ w.Records r

theorem exact_initial : Exact initial :=
  ⟨.nil, nofun, fun r => ⟨fun h => absurd h (Finset.notMem_empty r), nofun⟩⟩

theorem Exact.recorded {w : Forwarding} (h : Exact w) : w.Recorded := fun r => (h.installed r).mp

variable {outcomes : Nat → Bool} {w : Forwarding} {r : Rule} {source : SocketAddrV4}
  {m : ForwardMapping}

theorem takeDown_of_true (hrun : outcomes w.runs = true) :
    w.takeDown outcomes source m = (.ok (), ⟨OrderedMap.erase w.mappings source, w.held, w.fresh,
      w.installed.erase m.toRule, w.runs + 1⟩) :=
  if_pos hrun

theorem takeDown_of_false (hrun : outcomes w.runs = false) :
    w.takeDown outcomes source m = (.error .network, ⟨OrderedMap.erase w.mappings source, w.held,
      w.fresh, w.installed, w.runs + 1⟩) :=
  if_neg (by rw [hrun]; exact Bool.false_ne_true)

/-- A rule for a source without one is installed and recorded, or neither. -/
theorem Exact.install (h : Exact w) (hnone : get w.mappings r.source = none) :
    Exact (w.install outcomes r).2 := by
  cases hrun : outcomes w.runs with
  | false =>
    rw [Forwarding.install, forward, invoke, hrun]
    exact ⟨h.sorted, h.source, h.installed⟩
  | true =>
    rw [Forwarding.install, forward, invoke, if_pos hrun]
    refine ⟨h.sorted.insert, fun source m hm => ?_, fun r' => ?_⟩
    · rw [get_insert] at hm
      split at hm
      · rename_i hsrc
        cases hm
        exact hsrc
      · exact h.source source m hm
    · simp only [Finset.mem_insert, Records, get_insert]
      by_cases hsrc : r.source = r'.source
      · have hnot : r' ∉ w.installed := by
          intro hmem
          obtain ⟨m, hm, -⟩ := (h.installed r').mp hmem
          rw [← hsrc, hnone] at hm
          cases hm
        rw [if_pos hsrc]
        constructor
        · rintro (rfl | hmem)
          · exact ⟨_, rfl, rfl⟩
          · exact absurd hmem hnot
        · rintro ⟨m, hm, rfl⟩
          cases hm
          exact .inl rfl
      · have hne : r' ≠ r := by
          rintro rfl
          exact hsrc rfl
        rw [if_neg hsrc, h.installed r']
        exact ⟨fun hr => hr.resolve_left hne, .inr⟩

/-- A mapping that is taken out and whose rule is removed leaves the others. -/
theorem Exact.takeDown (h : Exact w) (hm : get w.mappings source = some m)
    (hrun : outcomes w.runs = true) : Exact (w.takeDown outcomes source m).2 := by
  rw [takeDown_of_true hrun]
  refine ⟨h.sorted.erase _, fun source' m' hm' => ?_, fun r => ?_⟩
  · rw [get_erase] at hm'
    split at hm'
    · cases hm'
    · exact h.source source' m' hm'
  · simp only [Finset.mem_erase, Records, get_erase]
    by_cases hsrc : source = r.source
    · rw [if_pos hsrc]
      constructor
      · rintro ⟨hne, hmem⟩
        obtain ⟨m', hm', rfl⟩ := (h.installed r).mp hmem
        rw [← hsrc, hm] at hm'
        cases hm'
        exact absurd rfl hne
      · rintro ⟨m', hm', -⟩
        cases hm'
    · have hne : r ≠ m.toRule := by
        rintro rfl
        exact hsrc (h.source source m hm).symm
      rw [if_neg hsrc, h.installed r]
      exact ⟨And.right, fun hr => ⟨hne, hr⟩⟩

/-- A mapping that is taken out while its rule stays is a rule that is not recorded. -/
theorem Exact.takeDown_leak (h : Exact w) (hm : get w.mappings source = some m)
    (hrun : outcomes w.runs = false) : ¬ Recorded (w.takeDown outcomes source m).2 := by
  rw [takeDown_of_false hrun]
  have hsrc := h.source source m hm
  intro hrecorded
  obtain ⟨m', hm', -⟩ :=
    hrecorded m.toRule ((h.installed m.toRule).mpr ⟨m, hsrc.symm ▸ hm, rfl⟩)
  rw [get_erase, if_pos hsrc.symm] at hm'
  cases hm'

end Records

section Steps

variable (outcomes : Nat → Bool)

/-- The script takes effect each time a command uses it to remove a rule: that of another
mapping of the source, or those of the mappings whose handle nobody holds. -/
def Effective (w : Forwarding) : Command → Prop
  | .addForward r => ∀ m ∈ get w.mappings r.source,
      ¬ ForwardMapping.serves m r → outcomes w.runs = true
  | .gc => ∀ i < w.unheld.length, outcomes (w.runs + i) = true
  | .drop _ => True

variable {outcomes} {w : Forwarding} {r : Rule} {c : Command}

theorem Exact.addForward (h : Exact w) (heffective : Effective outcomes w (.addForward r)) :
    Exact (w.addForward outcomes r).2 := by
  unfold Forwarding.addForward
  cases hget : get w.mappings r.source with
  | none => exact h.install hget
  | some m =>
    have hsrc := h.source _ _ hget
    dsimp only
    split
    · split
      · exact h
      · refine ⟨h.sorted.insert, fun source m' hm' => ?_, fun r' => ?_⟩
        · rw [get_insert] at hm'
          split at hm'
          · rename_i heq
            cases hm'
            exact hsrc.trans heq
          · exact h.source source m' hm'
        · rw [h.installed r']
          simp only [Records, get_insert]
          by_cases heq : r.source = r'.source
          · rw [if_pos heq, ← heq, hget]
            constructor
            · rintro ⟨m', hm', hrule⟩
              exact ⟨_, rfl, Option.some.inj hm' ▸ hrule⟩
            · rintro ⟨m', hm', hrule⟩
              exact ⟨m, rfl, by rw [← hrule, ← Option.some.inj hm']⟩
          · rw [if_neg heq]
    · rename_i hserves
      have hrun : outcomes w.runs = true := heffective m hget hserves
      have hdown := h.takeDown hget hrun
      rw [takeDown_of_true hrun] at hdown ⊢
      exact hdown.install (by simp [get_erase])

theorem Exact.addForward_leak (h : Exact w) (hfails : ¬ Effective outcomes w (.addForward r)) :
    ¬ Recorded (w.addForward outcomes r).2 := by
  obtain ⟨m, hget, hserves, hrun⟩ : ∃ m, get w.mappings r.source = some m ∧
      ¬ ForwardMapping.serves m r ∧ outcomes w.runs = false := by
    simpa [Effective] using hfails
  have hleak := h.takeDown_leak hget hrun
  rw [takeDown_of_false hrun] at hleak
  rw [Forwarding.addForward, hget]
  dsimp only
  rw [if_neg hserves, takeDown_of_false hrun]
  exact hleak

/-- What collecting leaves: everything but the sources it goes through. -/
structure Collected (w : Forwarding) (sources : List SocketAddrV4)
    (result : Except ScriptError Unit × Forwarding) : Prop where
  ok : result.1 = .ok ()
  exact : Exact result.2
  held : result.2.held = w.held
  get : ∀ source, OrderedMap.get result.2.mappings source =
    if source ∈ sources then none else OrderedMap.get w.mappings source

/-- By induction on the sources that are left to go through, each of them with a mapping. -/
theorem Exact.gcFrom (h : Exact w) {sources : List SocketAddrV4} (hnodup : sources.Nodup)
    (hsome : ∀ source ∈ sources, ∃ m, get w.mappings source = some m) :
    ((∀ i < sources.length, outcomes (w.runs + i) = true) →
      Collected w sources (w.gcFrom outcomes sources)) ∧
    ((∃ i < sources.length, outcomes (w.runs + i) = false) →
      ¬ Recorded (w.gcFrom outcomes sources).2) := by
  induction sources generalizing w with
  | nil => exact ⟨fun _ => ⟨rfl, h, rfl, fun _ => by simp [Forwarding.gcFrom]⟩, by simp⟩
  | cons source rest ih =>
    obtain ⟨hfresh, hrest⟩ := List.nodup_cons.mp hnodup
    obtain ⟨m, hm⟩ := hsome source List.mem_cons_self
    rw [Forwarding.gcFrom, hm]
    dsimp only
    cases hrun : outcomes w.runs with
    | false =>
      have hleak := h.takeDown_leak hm hrun
      rw [takeDown_of_false hrun] at hleak ⊢
      refine ⟨fun hall => ?_, fun _ => hleak⟩
      have hfirst := hall 0 (Nat.zero_lt_succ _)
      rw [Nat.add_zero, hrun] at hfirst
      cases hfirst
    | true =>
      have hdown := h.takeDown hm hrun
      rw [takeDown_of_true hrun] at hdown ⊢
      obtain ⟨hok, hleak⟩ := ih hdown hrest fun source' hmem => by
        obtain ⟨m', hm'⟩ := hsome source' (List.mem_cons_of_mem _ hmem)
        refine ⟨m', ?_⟩
        rw [get_erase, if_neg, hm']
        rintro rfl
        exact hfresh hmem
      refine ⟨fun hall => ?_, fun ⟨i, hi, hfalse⟩ => ?_⟩
      · have hcollected := hok fun i hi => by
          have hi' := hall (i + 1) (Nat.succ_lt_succ hi)
          rwa [Nat.add_comm i 1, ← Nat.add_assoc] at hi'
        refine ⟨hcollected.ok, hcollected.exact, hcollected.held, fun source' => ?_⟩
        rw [hcollected.get, get_erase]
        by_cases hmem : source' ∈ rest
        · rw [if_pos hmem, if_pos (List.mem_cons_of_mem _ hmem)]
        · by_cases heq : source = source'
          · rw [if_neg hmem, if_pos heq, if_pos (by simp [heq])]
          · rw [if_neg hmem, if_neg heq, if_neg (by simp [hmem, Ne.symm heq])]
      · obtain _ | i := i
        · rw [Nat.add_zero, hrun] at hfalse
          cases hfalse
        · refine hleak ⟨i, Nat.lt_of_succ_lt_succ hi, ?_⟩
          rwa [Nat.add_comm i 1, ← Nat.add_assoc] at hfalse

theorem Exact.unheld_nodup (h : Exact w) : w.unheld.Nodup := by
  refine List.pairwise_map.mpr (List.Pairwise.filter _ ?_)
  exact h.sorted.pairwise_ne

theorem mem_unheld {source : SocketAddrV4} :
    source ∈ w.unheld ↔ ∃ m, (source, m) ∈ w.mappings ∧ m.rc ∉ w.held := by
  simp [unheld]

theorem Exact.exists_of_unheld (h : Exact w) (source : SocketAddrV4) (hmem : source ∈ w.unheld) :
    ∃ m, get w.mappings source = some m := by
  obtain ⟨m, hm, -⟩ := mem_unheld.mp hmem
  exact ⟨m, h.sorted.get_of_mem hm⟩

/-- Collecting leaves exactly the rules of mappings whose handle is held. -/
theorem Collected.installed (hcollected : Collected w w.unheld (w.gc outcomes)) (r : Rule) :
    r ∈ (w.gc outcomes).2.installed ↔
      ∃ m, OrderedMap.get (w.gc outcomes).2.mappings r.source = some m ∧ m.toRule = r ∧
        m.rc ∈ (w.gc outcomes).2.held := by
  rw [hcollected.exact.installed]
  refine ⟨fun ⟨m, hm, hrule⟩ => ⟨m, hm, hrule, ?_⟩, fun ⟨m, hm, hrule, _⟩ => ⟨m, hm, hrule⟩⟩
  rw [hcollected.get] at hm
  split at hm
  · cases hm
  · rename_i hheld
    rw [hcollected.held]
    by_contra hrc
    exact hheld (mem_unheld.mpr ⟨m, OrderedMap.mem_of_get hm, hrc⟩)

theorem Exact.step (h : Exact w) (heffective : Effective outcomes w c) :
    Exact (w.step outcomes c) := by
  cases c with
  | addForward r => exact h.addForward heffective
  | gc => exact ((h.gcFrom h.unheld_nodup h.exists_of_unheld).1 heffective).exact
  | drop handle => exact ⟨h.sorted, h.source, h.installed⟩

theorem Exact.step_leak (h : Exact w) (hfails : ¬ Effective outcomes w c) :
    ¬ Recorded (w.step outcomes c) := by
  cases c with
  | addForward r => exact h.addForward_leak hfails
  | gc =>
    refine (h.gcFrom h.unheld_nodup h.exists_of_unheld).2 ?_
    simpa [Effective] using hfails
  | drop handle => exact absurd trivial hfails

end Steps

section Runs

variable (outcomes : Nat → Bool)

/-- Collecting that succeeds leaves exactly the rules of mappings whose handle is held. -/
def ClosesUnheld (w : Forwarding) (c : Command) : Prop :=
  c = .gc → (w.gc outcomes).1 = .ok () → ∀ r, r ∈ (w.step outcomes c).installed ↔
    ∃ m, get (w.step outcomes c).mappings r.source = some m ∧ m.toRule = r ∧
      m.rc ∈ (w.step outcomes c).held

/-- All along a run the rules are recorded, and collecting closes what nobody holds. -/
def NeverStaysOpen (w : Forwarding) : List Command → Prop
  | [] => w.Recorded
  | c :: rest => w.Recorded ∧ ClosesUnheld outcomes w c ∧ NeverStaysOpen (w.step outcomes c) rest

/-- All along a run the script takes effect each time it is to remove a rule. -/
def AlwaysEffective (w : Forwarding) : List Command → Prop
  | [] => True
  | c :: rest => Effective outcomes w c ∧ AlwaysEffective (w.step outcomes c) rest

variable {outcomes} {w : Forwarding}

theorem NeverStaysOpen.recorded {commands : List Command} (h : NeverStaysOpen outcomes w commands) :
    w.Recorded := by
  cases commands with
  | nil => exact h
  | cons c rest => exact h.1

theorem Exact.neverStaysOpen_iff (h : Exact w) (commands : List Command) :
    NeverStaysOpen outcomes w commands ↔ AlwaysEffective outcomes w commands := by
  induction commands generalizing w with
  | nil => exact ⟨fun _ => trivial, fun _ => h.recorded⟩
  | cons c rest ih =>
    constructor
    · rintro ⟨-, -, hrest⟩
      by_cases heffective : Effective outcomes w c
      · exact ⟨heffective, (ih (h.step heffective)).mp hrest⟩
      · exact absurd hrest.recorded (h.step_leak heffective)
    · rintro ⟨heffective, hrest⟩
      refine ⟨h.recorded, ?_, (ih (h.step heffective)).mpr hrest⟩
      rintro rfl -
      exact ((h.gcFrom h.unheld_nodup h.exists_of_unheld).1 heffective).installed

variable (outcomes) in
/-- Whatever commands come and whatever becomes of each run of the script, all installed rules
are recorded at all times, and collecting that succeeds leaves exactly those whose handle is
held, if and only if the script takes effect each time it is to remove a rule. -/
theorem withdrawn_forwards_close_iff (commands : List Command) :
    NeverStaysOpen outcomes initial commands ↔ AlwaysEffective outcomes initial commands :=
  exact_initial.neverStaysOpen_iff commands

/-- A forward of one port. -/
def sampleRule : Rule where
  source := ⟨.ofOctets 192 168 1 5, 8080⟩
  target := ⟨.ofOctets 10 0 3 7, 80⟩
  count := 1
  targetPrefix := 24
  srcFilter := none

/-- The script fails once, when the forward is collected. From then on the rule stays, and
collecting again succeeds without removing it. -/
theorem failed_removal_stays_open :
    ¬ NeverStaysOpen (· != 1) initial [.addForward sampleRule, .drop 0, .gc, .gc] ∧
    ((List.foldl (step (· != 1)) initial [.addForward sampleRule, .drop 0, .gc]).gc
      (· != 1)).1 = .ok () ∧
    sampleRule ∈ (List.foldl (step (· != 1)) initial
      [.addForward sampleRule, .drop 0, .gc, .gc]).installed ∧
    (List.foldl (step (· != 1)) initial
      [.addForward sampleRule, .drop 0, .gc, .gc]).mappings = [] := by
  refine ⟨fun h => ?_, by decide +kernel, by decide +kernel, by decide +kernel⟩
  obtain ⟨-, -, -, -, -, -, hrecorded, -⟩ := h
  have hnone : get (List.foldl (step (· != 1)) initial
      [.addForward sampleRule, .drop 0, .gc]).mappings sampleRule.source = none := by
    decide +kernel
  obtain ⟨m, hm, -⟩ := hrecorded sampleRule (by decide +kernel)
  exact absurd (hnone.symm.trans hm) nofun

end Runs

end Forwarding

end StartTech.Net
