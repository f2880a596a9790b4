import StartTech.Foundation.Run
import StartTech.StartSdk.VersionGraph

/-!
# Migrations that are interrupted

An attempt of `init` runs migrations and stores versions, one after the other. It may end at any
point, when a migration throws or the process dies; the next attempt starts from what is stored.
-/

namespace StartTech.StartSdk

open Foundation
open StartCore (ExtendedVersion)

variable {M : Type}

structure Service (M : Type) where
  stored : Option Spec
  /-- What the attempt has yet to do; `none` between attempts. -/
  todo : Option (List (Op M))
  /-- The migration that was started last, until a version is stored. -/
  started : Option (Edge M)

inductive Act
  | init
  | next
  | stop

def Service.perform (s : Service M) : Op M → List (Op M) → Service M
  | .run e, rest => ⟨s.stored, some rest, some e⟩
  | .store t, rest => ⟨some t, some rest, none⟩

namespace VersionGraph

variable (vg : VersionGraph M)

def step (s : Service M) : Act → Option (Service M)
  | .init => if s.todo.isSome then none else some ⟨s.stored, vg.init s.stored, none⟩
  | .next =>
    match s.todo with
    | some (op :: rest) => some (s.perform op rest)
    | _ => none
  | .stop => some ⟨s.stored, none, none⟩

/-- No vertex matches the stored version and the current one, unless they match each other. -/
def distinguishes (s : Service M) : Act → Bool
  | .init =>
    match s.stored, vg.graph with
    | some t, some g => overlaps t (.exver vg.current.version) || g.vertices.all fun v =>
      !(overlaps v.metadata t && overlaps v.metadata (.exver vg.current.version))
    | _, _ => true
  | _ => true

/-- The stored version matches the source of a migration. -/
def MayRun (stored : Option Spec) (e : Edge M) : Prop :=
  ∃ t, stored = some t ∧ (overlaps e.source.metadata t = true ∨ e.source.metadata = t)

/-- A version to store is the target of the migration that was started last, or the current version
when a range that contains it is stored, or nothing is. -/
def MayStore (stored : Option Spec) (started : Option (Edge M)) (t : Spec) : Prop :=
  (∃ e, started = some e ∧ t = e.target.metadata) ∨ (t = .exver vg.current.version ∧
    ∀ t' ∈ stored, ∃ r, t' = .range r ∧ vg.current.version.satisfies r = true)

def Done (stored : Option Spec) : Prop :=
  ∃ v, stored = some (.exver v) ∧ v.equals vg.current.version = true

/-- What may be done when a version is stored and a migration has been started. -/
def Good (stored : Option Spec) (started : Option (Edge M)) : List (Op M) → Prop
  | [] => vg.Done stored
  | .run e :: rest => MayRun stored e ∧ Good stored (some e) rest
  | .store t :: rest => vg.MayStore stored started t ∧ Good (some t) none rest

variable {vg} {g : Graph M} {s : Service M}

theorem good_settle {t : Spec} (h : overlaps t (.exver vg.current.version) = true) :
    vg.Good (some t) none (settle t (.exver vg.current.version)) := by
  cases t with
  | exver v => exact ⟨v, rfl, h⟩
  | range r =>
    refine ⟨.inr ⟨rfl, fun s hs => ?_⟩, vg.current.version, rfl, equals_self _⟩
    cases hs
    exact ⟨r, rfl, h⟩

/-- Every migration of a path starts where the one before it ended. -/
theorem good_follow {a z : Vertex} {p : List (Edge M)} {t : Spec} (hwalk : g.Walk a p z)
    (hz : overlaps z.metadata (.exver vg.current.version) = true)
    (hmatch : overlaps a.metadata t = true ∨ a.metadata = t)
    (hnil : p = [] → overlaps t (.exver vg.current.version) = true) :
    vg.Good (some t) none (follow (.exver vg.current.version) t p) := by
  induction p generalizing a t with
  | nil => exact good_settle (hnil rfl)
  | cons e p ih =>
    obtain ⟨-, rfl, hrest⟩ := hwalk
    refine ⟨⟨t, rfl, hmatch⟩, .inl ⟨e, rfl, rfl⟩, ih hrest (.inr rfl) ?_⟩
    rintro rfl
    cases hrest
    exact hz

/-- An attempt does only what may be done. -/
theorem good_init {ops : List (Op M)} (hcond : vg.distinguishes s .init = true)
    (h : vg.init s.stored = some ops) : vg.Good s.stored none ops := by
  cases hstored : s.stored with
  | none =>
    rw [hstored] at h
    cases h
    exact ⟨.inr ⟨rfl, by simp⟩, vg.current.version, rfl, equals_self _⟩
  | some t =>
    rw [hstored] at h
    obtain ⟨p, hp, rfl⟩ := Option.map_eq_some_iff.mp h
    rw [path] at hp
    split at hp
    · cases hp
      exact good_settle ‹_›
    · rename_i hno
      obtain ⟨g, hg, hp⟩ := Option.bind_eq_some_iff.mp hp
      obtain ⟨a, ha, hsrc, z, hz, hwalk⟩ := Graph.walk_of_shortestPath hp
      refine good_follow hwalk hz (.inl hsrc) ?_
      rintro rfl
      cases hwalk
      simp only [distinguishes, hstored, hg, hno, Bool.false_or, List.all_eq_true] at hcond
      simpa [hsrc, hz] using hcond a ha

/-- An attempt that does only what may be done. -/
def Attempt (vg : VersionGraph M) (s : Service M) : Prop :=
  ∀ ops, s.todo = some ops → vg.Good s.stored s.started ops

theorem attempt_step {s' : Service M} {a : Act} (h : vg.Attempt s)
    (hcond : vg.distinguishes s a = true) (hstep : vg.step s a = some s') : vg.Attempt s' := by
  intro ops hops
  cases a with
  | init =>
    rw [step] at hstep
    split at hstep
    · cases hstep
    · cases hstep
      exact good_init hcond hops
  | next =>
    rw [step] at hstep
    split at hstep
    · rename_i op rest htodo
      cases hstep
      cases op <;> cases hops <;> exact (h _ htodo).2
    · cases hstep
  | stop =>
    cases hstep
    cases hops

/-- A migration is started only when the stored version matches its source, what is stored is its
target or the current version, and an attempt returns with the current version stored. -/
theorem resumes {stored : Option Spec} {acts : List Act} {s : Service M}
    (hmeets : meetsFrom vg.step vg.distinguishes ⟨stored, none, none⟩ acts = true)
    (hrun : runFrom vg.step ⟨stored, none, none⟩ acts = some s) :
    (∀ e rest, s.todo = some (.run e :: rest) → MayRun s.stored e) ∧
    (∀ t rest, s.todo = some (.store t :: rest) → vg.MayStore s.stored s.started t) ∧
    (s.todo = some [] → vg.Done s.stored) := by
  have hgood := invariant_of_runFrom (fun hinv hcond hstep => attempt_step hinv hcond hstep)
    (fun ops h => absurd h (by simp)) hmeets hrun
  exact ⟨fun e rest h => (hgood _ h).1, fun t rest h => (hgood _ h).1, hgood []⟩

/-- A version without flavor. -/
def plain (number : List Nat) : ExtendedVersion := ⟨none, ⟨number.map .ofNat, []⟩, .zero⟩

/-- Version 1 is current, and version 2 has a migration down to it. -/
def downgradable : VersionGraph Nat where
  current := ⟨plain [1], .undefined, .undefined, []⟩
  versions := [⟨plain [2], .undefined, .fn 0, []⟩]

/-- An attempt from version 2 that ends before anything is stored, and one that returns. -/
theorem resumes_downgradable : ∃ s, runFrom downgradable.step
      ⟨some (.exver (plain [2])), none, none⟩ [.init, .next, .stop, .init, .next, .next] = some s ∧
    s.todo = some [] ∧ downgradable.Done s.stored :=
  have hmeets : meetsFrom downgradable.step downgradable.distinguishes
      ⟨some (.exver (plain [2])), none, none⟩
      [.init, .next, .stop, .init, .next, .next] = true := by
    decide
  ⟨_, rfl, rfl, (resumes hmeets rfl).2.2 rfl⟩

/-- Version 1.5 lies in one range with version 1, so an attempt returns with it stored. -/
theorem returns_between : ∃ s, runFrom downgradable.step
      ⟨some (.exver (plain [1, 5])), none, none⟩ [.init] = some s ∧
    s.todo = some [] ∧ s.stored = some (.exver (plain [1, 5])) ∧
    (plain [1, 5]).equals downgradable.current.version = false :=
  ⟨_, rfl, rfl, rfl, by decide⟩

end VersionGraph

end StartTech.StartSdk
