import StartTech.Foundation.OrderedMap
import StartTech.Foundation.Run
import StartTech.Foundation.Text

/-!
# Edits of configuration files by several processes

A process reads files with the times of their last modification, edits them, and writes them back:
it opens and locks them in the order of their names, compares their times with those it read, and
puts a temporary file in the place of each. The lock and the comparison are for the file that was
opened, which need not be the one that has the name any more.

## Implementation notes

A step is one call of the system. Names have no extension, so each file has a temporary file of its
own. Calls fail only where other processes make them fail; the clock is an argument of each step.
-/

namespace StartTech.Uciedit

open Foundation

inductive Path
  | config (name : Text)
  | tmp (name : Text)
  deriving DecidableEq

/-- What is under a name stays the same file until another is renamed to it. -/
structure File where
  content : Text
  modified : Nat

structure Entry where
  name : Text
  modified : Option Nat
  text : Text

inductive Outcome
  | ok
  | conflict
  | io
  deriving DecidableEq

/-- How far the file that takes the place of another is. -/
inductive Stage
  | start
  | created (file : Nat)
  | filled

/-- What a process is doing. `found` is the time of the file that is read next, once it is known;
`pending` is the file that was opened and is not locked yet. -/
inductive Task
  | idle (result : Option Outcome)
  | reading (names : List Text) (expected tries : Nat) (todo : List Text) (found : Option Nat)
      (done : List Entry)
  | editing (entries : List Entry)
  | opening (todo : List Entry) (pending : Option Nat) (files : List (Entry × Nat))
  | checking (todo files : List (Entry × Nat))
  | storing (files : List (Entry × Nat)) (stage : Stage)

inductive Act
  | readAll (names : List Text)
  | freeze (text : Text → Text)
  | next

structure Call where
  pid : Nat
  act : Act
  now : Nat

structure World where
  dir : Path → Option Nat
  files : Nat → File
  unused : Nat
  locks : Nat → Option Nat
  tasks : List Task
  clock : Nat

namespace World

variable (w : World)

def fill (file : Nat) (content : Text) (now : Nat) : World :=
  { w with files := fun i => if i = file then ⟨content, now⟩ else w.files i }

def create (path : Path) (now : Nat) : World :=
  { w.fill w.unused [] now with
    dir := fun p => if p = path then some w.unused else w.dir p
    unused := w.unused + 1 }

def rename (name : Text) (file : Nat) : World :=
  { w with dir := fun p =>
      if p = .config name then some file else if p = .tmp name then none else w.dir p }

def release (files : List (Entry × Nat)) : World :=
  { w with locks := fun i => if files.any (·.2 = i) then none else w.locks i }

end World

/-- Entries in the order of their names, with the texts after the edit. -/
def frozen (entries : List Entry) (text : Text → Text) : List Entry :=
  (OrderedMap.insertAll [] (entries.map fun e => (e.name, e.modified))).map fun e =>
    ⟨e.1, e.2, text e.1⟩

/-- How often reading starts again. -/
def maxRetries : Nat := 4

/-- One step of a process. -/
def World.act (w : World) (pid now : Nat) : Task → Act → Option (World × Task)
  | .idle _, .readAll names => some (w, .reading names now (maxRetries - 1) names none [])
  | .reading names expected tries [] _ done, .next =>
    if done.any (fun e => e.modified.any (expected < ·)) && 0 < tries then
      some (w, .reading names now (tries - 1) names none [])
    else some (w, .editing done)
  | .reading names expected tries (n :: todo) none done, .next =>
    match w.dir (.config n) with
    | none => some (w, .reading names expected tries todo none (done ++ [⟨n, none, []⟩]))
    | some i =>
      some (w, .reading names expected tries (n :: todo) (some (w.files i).modified) done)
  | .reading names expected tries (n :: todo) (some m) done, .next =>
    match w.dir (.config n) with
    | none => some (w, .idle (some .io))
    | some i =>
      some (w, .reading names expected tries todo none
        (done ++ [⟨n, some m, (w.files i).content⟩]))
  | .editing entries, .freeze text => some (w, .opening (frozen entries text) none [])
  | .opening [] _ files, .next => some (w, .checking files files)
  | .opening (e :: todo) none files, .next =>
    match w.dir (.config e.name) with
    | none => some (w.create (.config e.name) now, .opening (e :: todo) (some w.unused) files)
    | some i => some (w, .opening (e :: todo) (some i) files)
  | .opening (e :: todo) (some i) files, .next =>
    if (w.locks i).isSome then none
    else some ({ w with locks := fun j => if j = i then some pid else w.locks j },
      .opening todo none (files ++ [(e, i)]))
  | .checking [] files, .next => some (w, .storing files .start)
  | .checking (f :: todo) files, .next =>
    if f.1.modified.any (· < (w.files f.2).modified) then
      some (w.release files, .idle (some .conflict))
    else some (w, .checking todo files)
  | .storing [] _, .next => some (w, .idle (some .ok))
  | .storing (f :: rest) .start, .next =>
    match w.dir (.tmp f.1.name) with
    | none => some (w.create (.tmp f.1.name) now, .storing (f :: rest) (.created w.unused))
    | some t => some (w.fill t [] now, .storing (f :: rest) (.created t))
  | .storing (f :: rest) (.created t), .next =>
    some (w.fill t f.1.text now, .storing (f :: rest) .filled)
  | .storing (f :: rest) .filled, .next =>
    match w.dir (.tmp f.1.name) with
    | none => some (w.release (f :: rest), .idle (some .io))
    | some t => some ((w.rename f.1.name t).release [f], .storing rest .start)
  | _, _ => none

/-- A step at a time that is not before that of the last one. -/
def World.step (w : World) (c : Call) : Option World :=
  if c.now < w.clock then none
  else
    (w.tasks[c.pid]?).bind fun task => (w.act c.pid c.now task c.act).map fun r =>
      { r.1 with tasks := w.tasks.set c.pid r.2, clock := c.now }

/-- What the steps did: which files other processes changed since a process read them, whether a
process replaced such a file, and whether it replaced any since it began to write. -/
structure Watch where
  changed : Nat → Text → Bool
  lost : Bool
  stored : Nat → Bool

/-- What a step does with the file that has a name. -/
inductive Effect
  | none
  | reads (name : Text)
  | creates (name : Text)
  | replaces (name : Text)
  deriving DecidableEq

def World.effect (w : World) (c : Call) : Effect :=
  match w.tasks[c.pid]?, c.act with
  | some (.reading _ _ _ (n :: _) none _), .next => .reads n
  | some (.opening (e :: _) none _), .next =>
    if (w.dir (.config e.name)).isNone then .creates e.name else .none
  | some (.storing (f :: _) .filled), .next =>
    if (w.dir (.tmp f.1.name)).isNone then .none else .replaces f.1.name
  | _, _ => .none

def Watch.observe (g : Watch) (w : World) (c : Call) : Watch where
  changed p n :=
    if p = c.pid then w.effect c ≠ .reads n && g.changed p n
    else w.effect c = .replaces n || w.effect c = .creates n || g.changed p n
  lost :=
    match w.effect c with
    | .replaces n => g.lost || g.changed c.pid n
    | _ => g.lost
  stored p :=
    if p ≠ c.pid then g.stored p
    else
      match c.act, w.effect c with
      | .freeze _, _ => false
      | _, .replaces _ => true
      | _, _ => g.stored p

def advance (x : World × Watch) (c : Call) : Option (World × Watch) :=
  (x.1.step c).map fun w => (w, x.2.observe x.1 c)

/-- Nobody replaced a file that another process had changed since it was read; who met a conflict
has replaced nothing; and nothing else went wrong. -/
structure NotLost (x : World × Watch) : Prop where
  lost : x.2.lost = false
  conflict : ∀ p : Nat, x.1.tasks[p]? = some (.idle (some .conflict)) → x.2.stored p = false
  io : ∀ p : Nat, x.1.tasks[p]? ≠ some (.idle (some .io))

/-- What is read under a name. -/
def World.read (w : World) (name : Text) : Option Text :=
  (w.dir (.config name)).map fun i => (w.files i).content

/-- The files that a process has locked. -/
def Task.files : Task → List (Entry × Nat)
  | .opening _ _ files | .checking _ files | .storing files _ => files
  | _ => []

/-- Files that are read are there; a file has its name still when its lock is got; and a file is
written when it is later than the time of the one that it replaces. -/
def World.orderly (w : World) (c : Call) : Bool :=
  match w.tasks[c.pid]?, c.act with
  | some (.reading _ _ _ (n :: _) none _), .next => (w.dir (.config n)).isSome
  | some (.opening (e :: _) (some i) _), .next => w.dir (.config e.name) = some i
  | some (.storing (f :: _) (.created _)), .next =>
    (w.dir (.config f.1.name)).all fun i => (w.files i).modified < c.now
  | _, _ => true

/-- Files with their names, and so many processes that do nothing yet. -/
def World.start (contents : List (Text × File)) (processes now : Nat) : World where
  dir
    | .config n => (contents.map Prod.fst).idxOf? n
    | .tmp _ => none
  files i := ((contents[i]?).map Prod.snd).getD ⟨[], now⟩
  unused := contents.length
  locks _ := none
  tasks := List.replicate processes (.idle none)
  clock := now

open World (act)

def Watch.start : Watch := ⟨fun _ _ => false, false, fun _ => false⟩

section Invariant

/-- The time that a process knows of a file is that of the file, or an earlier one if others have
changed it since. -/
def Known (w : World) (changed : Text → Bool) (name : Text) (time : Nat) : Prop :=
  ∃ i, w.dir (.config name) = some i ∧ time ≤ (w.files i).modified ∧
    (changed name = true → time < (w.files i).modified)

/-- A process has read the file and knows its time. -/
def Entry.Ok (w : World) (changed : Text → Bool) (e : Entry) : Prop :=
  ∃ time, e.modified = some time ∧ Known w changed e.name time

/-- Entries of files that a process has read, each with a name of its own. -/
def Entries (w : World) (changed : Text → Bool) (entries : List Entry) : Prop :=
  (∀ e ∈ entries, e.Ok w changed) ∧ (entries.map Entry.name).Nodup

/-- A process has the lock of the file that has the name. -/
def Held (w : World) (pid : Nat) (f : Entry × Nat) : Prop :=
  w.locks f.2 = some pid ∧ w.dir (.config f.1.name) = some f.2

/-- The temporary file is there, and later than the one it is to replace once it is filled. -/
def Stage.Ok (w : World) (name : Text) : Stage → Prop
  | .start => True
  | .created t => w.dir (.tmp name) = some t
  | .filled => ∃ i t, w.dir (.config name) = some i ∧ w.dir (.tmp name) = some t ∧
      (w.files i).modified < (w.files t).modified

/-- What holds of a process in the middle of its work. -/
def Task.Ok (w : World) (pid : Nat) (changed : Text → Bool) (stored : Bool) : Task → Prop
  | .idle result => result ≠ some .io ∧ (result = some .conflict → stored = false)
  | .reading _ _ _ todo found done =>
    (∀ e ∈ done, e.Ok w changed) ∧ ∀ n ∈ todo.head?, ∀ time ∈ found, Known w changed n time
  | .editing entries => ∀ e ∈ entries, e.Ok w changed
  | .opening todo _ files =>
    (∀ f ∈ files, Held w pid f) ∧ stored = false ∧ Entries w changed (files.map Prod.fst ++ todo)
  | .checking todo files =>
    (∀ f ∈ files, Held w pid f) ∧ stored = false ∧ Entries w changed (files.map Prod.fst) ∧
      ∃ seen, files = seen ++ todo ∧ ∀ f ∈ seen, changed f.1.name = false
  | .storing files stage =>
    (∀ f ∈ files, Held w pid f) ∧ (files.map (·.1.name)).Nodup ∧
      (∀ f ∈ files, changed f.1.name = false) ∧ ∀ f ∈ files.head?, stage.Ok w f.1.name

/-- Each file has one name. -/
structure World.Named (w : World) : Prop where
  bound : ∀ path i, w.dir path = some i → i < w.unused
  apart : ∀ a b i, w.dir a = some i → w.dir b = some i → a = b

/-- What holds in every state of an orderly run. -/
structure Orderly (x : World × Watch) : Prop where
  named : x.1.Named
  tasks : ∀ (p : Nat) (t : Task), x.1.tasks[p]? = some t →
    t.Ok x.1 p (x.2.changed p) (x.2.stored p)
  lost : x.2.lost = false

variable {w w' : World} {changed changed' : Text → Bool} {stored : Bool} {t : Task} {pid : Nat}
  {n : Text}

theorem Task.Ok.held (h : t.Ok w pid changed stored) : ∀ f ∈ t.files, Held w pid f := by
  cases t with
  | idle | reading | editing => exact fun f hf => absurd hf List.not_mem_nil
  | opening | checking | storing => exact h.1

/-- The file under a path stays as it is. -/
def Kept (w w' : World) (path : Path) : Prop :=
  ∀ i, w.dir path = some i → w'.dir path = some i ∧ w'.files i = w.files i

theorem Kept.read {text : Text} (h : Kept w w' (.config n)) (hread : w.read n = some text) :
    w'.read n = some text := by
  obtain ⟨i, hdir, hcontent⟩ := Option.map_eq_some_iff.mp hread
  obtain ⟨hdir', hsame⟩ := h i hdir
  exact Option.map_eq_some_iff.mpr ⟨i, hdir', hsame.symm ▸ hcontent⟩

theorem Known.kept {time : Nat} (h : Known w changed n time) (hkept : Kept w w' (.config n))
    (hchanged : changed' n = true → changed n = true) : Known w' changed' n time := by
  obtain ⟨i, hdir, hle, hlt⟩ := h
  obtain ⟨hdir', hsame⟩ := hkept i hdir
  exact ⟨i, hdir', hsame ▸ hle, fun hn => hsame ▸ hlt (hchanged hn)⟩

theorem Stage.Ok.kept {stage : Stage} (h : stage.Ok w n) (hconfig : Kept w w' (.config n))
    (htmp : Kept w w' (.tmp n)) : stage.Ok w' n := by
  cases stage with
  | start => trivial
  | created t => exact (htmp t h).1
  | filled =>
    obtain ⟨i, t, hi, ht, hlt⟩ := h
    obtain ⟨hi', hisame⟩ := hconfig i hi
    obtain ⟨ht', htsame⟩ := htmp t ht
    exact ⟨i, t, hi', ht', by rwa [hisame, htsame]⟩

/-- Files become later, and are later than before when they are changed. -/
def Later (w w' : World) (changed changed' : Text → Bool) : Prop :=
  ∀ n time, Known w changed n time → Known w' changed' n time

theorem Entry.Ok.later {e : Entry} (h : e.Ok w changed) (hlater : Later w w' changed changed') :
    e.Ok w' changed' := by
  obtain ⟨time, htime, hknown⟩ := h
  exact ⟨time, htime, hlater e.name time hknown⟩

/-- A process is concerned by what becomes of the files that it has locked. -/
theorem Task.Ok.later (h : t.Ok w pid changed stored) (hlater : Later w w' changed changed')
    (hfiles : ∀ f ∈ t.files, w'.locks f.2 = some pid ∧ changed' f.1.name = changed f.1.name ∧
      Kept w w' (.config f.1.name) ∧ Kept w w' (.tmp f.1.name)) : t.Ok w' pid changed' stored := by
  have hheld : ∀ f ∈ t.files, Held w' pid f := fun f hf =>
    ⟨(hfiles f hf).1, ((hfiles f hf).2.2.1 f.2 (h.held f hf).2).1⟩
  have hentries {entries : List Entry} (he : Entries w changed entries) :
      Entries w' changed' entries := ⟨fun e hmem => (he.1 e hmem).later hlater, he.2⟩
  cases t with
  | idle result => exact h
  | reading names expected tries todo found done =>
    exact ⟨fun e he => (h.1 e he).later hlater,
      fun n hn time htime => hlater n time (h.2 n hn time htime)⟩
  | editing entries => exact fun e he => (h e he).later hlater
  | opening todo pending files => exact ⟨hheld, h.2.1, hentries h.2.2⟩
  | checking todo files =>
    obtain ⟨-, hstored, hok, seen, rfl, hseen⟩ := h
    refine ⟨hheld, hstored, hentries hok, seen, rfl, fun f hf => ?_⟩
    exact (hfiles f (List.mem_append_left todo hf)).2.1.trans (hseen f hf)
  | storing files stage =>
    obtain ⟨-, hnodup, hsame, hstage⟩ := h
    refine ⟨hheld, hnodup, fun f hf => (hfiles f hf).2.1.trans (hsame f hf), fun f hf => ?_⟩
    obtain ⟨-, -, hkept⟩ := hfiles f (List.mem_of_head? hf)
    exact (hstage f hf).kept hkept.1 hkept.2

end Invariant

section Turns

open World (effect)

variable {w w₁ : World} {g : Watch} {c : Call} {t t' : Task}

theorem Watch.observe_changed_self : (g.observe w c).changed c.pid =
    fun n => w.effect c ≠ .reads n && g.changed c.pid n :=
  funext fun _ => if_pos rfl

theorem Watch.observe_changed_of_ne {q : Nat} (hq : q ≠ c.pid) (n : Text) :
    (g.observe w c).changed q n =
      (w.effect c = .replaces n || w.effect c = .creates n || g.changed q n) :=
  if_neg hq

/-- The world after a turn of a process. -/
def World.turned (w w₁ : World) (c : Call) (t' : Task) : World :=
  { w₁ with tasks := w.tasks.set c.pid t', clock := c.now }

theorem Orderly.turn (hnamed : w₁.Named)
    (hothers : ∀ (q : Nat) (u : Task), q ≠ c.pid → w.tasks[q]? = some u →
      u.Ok w₁ q ((g.observe w c).changed q) (g.stored q))
    (hown : t'.Ok w₁ c.pid ((g.observe w c).changed c.pid) ((g.observe w c).stored c.pid))
    (hlost : (g.observe w c).lost = false) : Orderly (w.turned w₁ c t', g.observe w c) := by
  refine ⟨⟨hnamed.bound, hnamed.apart⟩, fun q u hu => ?_, hlost⟩
  change (w.tasks.set c.pid t')[q]? = some u at hu
  by_cases hq : q = c.pid
  · subst hq
    rw [List.getElem?_set_self'] at hu
    obtain ⟨-, -, rfl⟩ := Option.map_eq_some_iff.mp hu
    exact hown
  · rw [List.getElem?_set_ne (Ne.symm hq)] at hu
    have hstored : (g.observe w c).stored q = g.stored q := if_pos hq
    exact hstored ▸ hothers q u hq hu

section

variable (h : Orderly (w, g))
include h

/-- A turn that changes no file and takes no lock from another process. -/
theorem Orderly.quiet {locks : Nat → Option Nat}
    (hlocks : ∀ i q, q ≠ c.pid → w.locks i = some q → locks i = some q)
    (heffect : w.effect c = .none ∨ ∃ n, w.effect c = .reads n)
    (hown : t'.Ok { w with locks } c.pid (fun n => w.effect c ≠ .reads n && g.changed c.pid n)
      ((g.observe w c).stored c.pid)) :
    Orderly (w.turned { w with locks } c t', g.observe w c) := by
  refine Orderly.turn ⟨h.named.bound, h.named.apart⟩ (fun q u hq hu => ?_) ?_ ?_
  · have hchanged : (g.observe w c).changed q = g.changed q := by
      funext n
      rw [Watch.observe_changed_of_ne hq]
      rcases heffect with heffect | ⟨m, heffect⟩ <;> simp [heffect]
    have hok := h.tasks q u hu
    rw [hchanged]
    exact hok.later (fun _ _ hknown => hknown) fun f hf => ⟨hlocks _ q hq (hok.held f hf).1, rfl,
      fun _ hi => ⟨hi, rfl⟩, fun _ hi => ⟨hi, rfl⟩⟩
  · rw [Watch.observe_changed_self]
    exact hown
  · rw [Watch.observe]
    rcases heffect with heffect | ⟨m, heffect⟩ <;> simpa [heffect] using h.lost

/-- A turn that does nothing with files. -/
theorem Orderly.plain (hact : c.act = .next) {locks : Nat → Option Nat}
    (hlocks : ∀ i q, q ≠ c.pid → w.locks i = some q → locks i = some q)
    (heffect : w.effect c = .none)
    (hown : t'.Ok { w with locks } c.pid (g.changed c.pid) (g.stored c.pid)) :
    Orderly (w.turned { w with locks } c t', g.observe w c) := by
  refine h.quiet hlocks (.inl heffect) ?_
  simpa [heffect, Watch.observe, hact] using hown

/-- A turn of a process that works on a file it has locked: nobody else has. -/
theorem Orderly.change {f : Entry × Nat} (htask : w.tasks[c.pid]? = some t) (hf : f ∈ t.files)
    (hnamed : w₁.Named) (hlocks : ∀ i q, q ≠ c.pid → w.locks i = some q → w₁.locks i = some q)
    (hkept : ∀ path, path ≠ .config f.1.name → path ≠ .tmp f.1.name → Kept w w₁ path)
    (hchanged : ∀ q n, q ≠ c.pid → n ≠ f.1.name → (g.observe w c).changed q n = g.changed q n)
    (hlater : ∀ q time, q ≠ c.pid → Known w (g.changed q) f.1.name time →
      Known w₁ ((g.observe w c).changed q) f.1.name time)
    (hown : t'.Ok w₁ c.pid ((g.observe w c).changed c.pid) ((g.observe w c).stored c.pid))
    (hlost : (g.observe w c).lost = false) : Orderly (w.turned w₁ c t', g.observe w c) := by
  refine Orderly.turn hnamed (fun q u hq hu => ?_) hown hlost
  have hok := h.tasks q u hu
  have hconfig {n : Text} (hn : n ≠ f.1.name) : Kept w w₁ (.config n) :=
    hkept _ (fun heq => hn (Path.config.inj heq)) Path.noConfusion
  refine hok.later (fun n time hknown => ?_) fun f' hf' => ?_
  · by_cases hn : n = f.1.name
    · subst hn
      exact hlater q time hq hknown
    · exact hknown.kept (hconfig hn) (hchanged q n hq hn ▸ id)
  · obtain ⟨hlock', hdir'⟩ := hok.held f' hf'
    -- A name has one file, and one process has its lock.
    have hne : f'.1.name ≠ f.1.name := by
      intro hname
      obtain ⟨hlock, hdir⟩ := (h.tasks c.pid t htask).held f hf
      rw [hname] at hdir'
      rw [Option.some.inj (hdir'.symm.trans hdir), hlock] at hlock'
      exact hq (Option.some.inj hlock').symm
    exact ⟨hlocks _ q hq hlock', hchanged q _ hq hne, hconfig hne,
      hkept _ Path.noConfusion fun heq => hne (Path.tmp.inj heq)⟩

end

variable {changed : Text → Bool} {file now : Nat} {name : Text} {stage : Stage} {path : Path}

theorem kept_fill {content : Text} (h : w.Named) (hfile : w.dir (.tmp name) = some file)
    (hpath : path ≠ .tmp name) : Kept w (w.fill file content now) path := by
  refine fun i hdir => ⟨hdir, if_neg ?_⟩
  rintro rfl
  exact hpath (h.apart _ _ _ hdir hfile)

theorem kept_create {path' : Path} (h : w.Named) (hpath : w.dir path = none) :
    Kept w (w.create path now) path' := by
  refine fun i hdir => ⟨?_, if_neg (Nat.ne_of_lt (h.bound _ i hdir))⟩
  refine (if_neg ?_).trans hdir
  rintro rfl
  cases hpath.symm.trans hdir

/-- A file that is created is no other file. -/
theorem World.Named.create (h : w.Named) : (w.create path now).Named := by
  have hfresh {a : Path} (ha : w.dir a = some w.unused) : False :=
    Nat.lt_irrefl _ (h.bound a _ ha)
  constructor <;> simp only [World.create]
  · intro a i ha
    split at ha
    · cases ha
      exact Nat.lt_succ_self _
    · exact Nat.lt_succ_of_lt (h.bound a i ha)
  · intro a b i ha hb
    split at ha
    · cases ha
      split at hb
      · simp [*]
      · exact (hfresh hb).elim
    · split at hb
      · cases hb
        exact (hfresh ha).elim
      · exact h.apart a b i ha hb

theorem World.Named.rename (h : w.Named) (hfile : w.dir (.tmp name) = some file) :
    (w.rename name file).Named := by
  have hsplit {a : Path} {i : Nat} (ha : (w.rename name file).dir a = some i) :
      (a = .config name ∧ i = file) ∨ (a ≠ .tmp name ∧ w.dir a = some i) := by
    simp only [World.rename] at ha
    split at ha
    · rename_i heq
      exact .inl ⟨heq, (Option.some.inj ha).symm⟩
    · split at ha
      · cases ha
      · rename_i hne
        exact .inr ⟨hne, ha⟩
  constructor
  · intro a i ha
    rcases hsplit ha with ⟨-, rfl⟩ | ⟨-, ha⟩
    · exact h.bound _ _ hfile
    · exact h.bound a i ha
  · intro a b i ha hb
    rcases hsplit ha with ⟨rfl, rfl⟩ | ⟨hane, ha'⟩
    · rcases hsplit hb with ⟨rfl, -⟩ | ⟨hbne, hb'⟩
      · rfl
      · exact absurd (h.apart _ _ _ hb' hfile) hbne
    · rcases hsplit hb with ⟨rfl, rfl⟩ | ⟨-, hb'⟩
      · exact absurd (h.apart _ _ _ ha' hfile) hane
      · exact h.apart a b i ha' hb'

theorem mem_insertAll {l m : List (Text × Option Nat)} {e : Text × Option Nat}
    (h : e ∈ OrderedMap.insertAll m l) : e ∈ m ∨ e ∈ l := by
  induction l generalizing m with
  | nil => exact .inl h
  | cons a rest ih =>
    rcases ih h with hm | hrest
    · rcases OrderedMap.mem_insert hm with rfl | hm
      · exact .inr List.mem_cons_self
      · exact .inl hm
    · exact .inr (List.mem_cons_of_mem a hrest)

theorem entries_frozen {entries : List Entry} {text : Text → Text}
    (h : ∀ e ∈ entries, e.Ok w changed) : Entries w changed (frozen entries text) := by
  constructor
  · intro e he
    obtain ⟨a, ha, rfl⟩ := List.mem_map.mp he
    rcases mem_insertAll ha with hnil | hmem
    · cases hnil
    · obtain ⟨e', he', rfl⟩ := List.mem_map.mp hmem
      exact h e' he'
  · rw [frozen, List.map_map]
    exact List.pairwise_map.mpr (OrderedMap.Sorted.insertAll .nil _).pairwise_ne

variable {todo : List (Entry × Nat)} {f : Entry × Nat} {rest files : List (Entry × Nat)}

variable (h : Orderly (w, g))
include h

/-- The temporary file is worked on. -/
theorem Orderly.staged {stage' : Stage}
    (htask : w.tasks[c.pid]? = some (.storing (f :: rest) stage)) (heffect : w.effect c = .none)
    (hnamed : w₁.Named) (hlocks : w₁.locks = w.locks)
    (hkept : ∀ path, path ≠ .tmp f.1.name → Kept w w₁ path) (hstage : stage'.Ok w₁ f.1.name) :
    Orderly (w.turned w₁ c (.storing (f :: rest) stage'), g.observe w c) := by
  obtain ⟨hheld, hnodup, hsame, -⟩ := h.tasks c.pid _ htask
  have hchanged (q : Nat) : (g.observe w c).changed q = g.changed q := by
    simp [Watch.observe, heffect]
  refine h.change htask (List.mem_cons_self (a := f)) hnamed (fun i q _ hi => hlocks ▸ hi)
    (fun path _ => hkept path) (fun q n _ _ => congrFun (hchanged q) n)
    (fun q time _ hknown => hknown.kept (hkept _ Path.noConfusion) (hchanged q ▸ id)) ?_ ?_
  · refine ⟨fun f' hf' => ?_, hnodup, hchanged c.pid ▸ hsame, fun f' hf' => ?_⟩
    · obtain ⟨hlock, hdir⟩ := hheld f' hf'
      exact ⟨hlocks ▸ hlock, (hkept _ Path.noConfusion _ hdir).1⟩
    · cases hf'
      exact hstage
  · simpa [Watch.observe, heffect] using h.lost

section

variable (hact : c.act = .next)
include hact

/-- The temporary file takes the place of the file. -/
theorem Orderly.replaced (htask : w.tasks[c.pid]? = some (.storing (f :: rest) .filled))
    (hfile : w.dir (.tmp f.1.name) = some file) :
    Orderly (w.turned ((w.rename f.1.name file).release [f]) c (.storing rest .start),
      g.observe w c) := by
  obtain ⟨hheld, hnodup, hsame, hstage⟩ := h.tasks c.pid _ htask
  obtain ⟨hlock, hopened⟩ := hheld f List.mem_cons_self
  obtain ⟨i, t, hdir, ht, hlater⟩ := hstage f rfl
  cases hfile.symm.trans ht
  have heffect : w.effect c = .replaces f.1.name := by simp [effect, htask, hact, hfile]
  have hnamed := h.named.rename hfile
  have hrelease {j : Nat} (hj : f.2 ≠ j) :
      ((w.rename f.1.name file).release [f]).locks j = w.locks j := by
    simp [World.release, World.rename, hj]
  refine h.change htask (List.mem_cons_self (a := f)) ⟨hnamed.bound, hnamed.apart⟩
    (fun j q hq hj => ?_) (fun path hconfig htmp j hj => ⟨?_, rfl⟩) (fun q n hq hn => ?_)
    (fun q time _ hknown => ?_) ⟨fun f' hf' => ?_, ?_⟩ ?_
  · refine (hrelease ?_).trans hj
    rintro rfl
    exact hq (Option.some.inj (hj.symm.trans hlock))
  · exact ((if_neg hconfig).trans (if_neg htmp)).trans hj
  · simp [Watch.observe_changed_of_ne hq, heffect, Ne.symm hn]
  · obtain ⟨j, hj, hle, -⟩ := hknown
    cases hdir.symm.trans hj
    have hbefore := Nat.lt_of_le_of_lt hle hlater
    exact ⟨file, if_pos rfl, Nat.le_of_lt hbefore, fun _ => hbefore⟩
  · obtain ⟨hlock', hopened'⟩ := hheld f' (List.mem_cons_of_mem f hf')
    have hne : f'.1.name ≠ f.1.name := fun heq =>
      (List.nodup_cons.mp hnodup).1 (List.mem_map.mpr ⟨f', hf', heq⟩)
    constructor
    · refine (hrelease fun heq => hne ?_).trans hlock'
      exact Path.config.inj (h.named.apart _ _ _ hopened' (heq ▸ hopened))
    · simpa [World.release, World.rename, hne] using hopened'
  · rw [Watch.observe_changed_self, heffect]
    exact ⟨(List.nodup_cons.mp hnodup).2,
      fun f' hf' => by simpa using hsame f' (List.mem_cons_of_mem f hf'), fun _ _ => trivial⟩
  · rw [Watch.observe, heffect]
    exact Bool.or_eq_false_iff.mpr ⟨h.lost, hsame f List.mem_cons_self⟩

theorem Orderly.checked (htask : w.tasks[c.pid]? = some (.checking todo files))
    (hstep : w.act c.pid c.now (.checking todo files) .next = some (w₁, t')) :
    Orderly (w.turned w₁ c t', g.observe w c) := by
  obtain ⟨hheld, hstored, hentries, seen, rfl, hseen⟩ := h.tasks c.pid _ htask
  have heffect : w.effect c = .none := by simp [effect, htask]
  cases todo with
  | nil =>
    cases hstep
    rw [List.append_nil] at hheld hentries
    refine h.plain hact (fun _ _ _ => id) heffect ?_
    rw [List.append_nil]
    exact ⟨hheld, by simpa [Function.comp_def] using hentries.2, hseen, fun _ _ => trivial⟩
  | cons f todo =>
    simp only [act] at hstep
    split at hstep
    · cases hstep
      refine h.plain hact (fun i q hq hi => (if_neg fun hany => ?_).trans hi) heffect
        ⟨by decide, fun _ => hstored⟩
      obtain ⟨f', hf', heq⟩ := List.any_eq_true.mp hany
      rw [← of_decide_eq_true heq, (hheld f' hf').1] at hi
      exact hq (Option.some.inj hi).symm
    · rename_i hpass
      cases hstep
      refine h.plain hact (fun _ _ _ => id) heffect
        ⟨hheld, hstored, hentries, seen ++ [f], by simp, fun f' hf' => ?_⟩
      rcases List.mem_append.mp hf' with hf' | hf'
      · exact hseen f' hf'
      · rw [List.mem_singleton.mp hf']
        -- A file that passes the comparison was not changed.
        obtain ⟨time, htime, i, hdir, -, hlt⟩ := hentries.1 f.1 (by simp)
        cases (hheld f (by simp)).2.symm.trans hdir
        rw [htime] at hpass
        by_contra hchanged
        exact hpass (decide_eq_true (hlt (Bool.not_eq_false _ ▸ hchanged)))

variable (hcond : w.orderly c = true)
include hcond

/-- What a process does before it opens files leaves the files as they are. -/
theorem Orderly.read {names todo : List Text} {expected tries : Nat} {found : Option Nat}
    {done : List Entry}
    (htask : w.tasks[c.pid]? = some (.reading names expected tries todo found done))
    (hstep : w.act c.pid c.now (.reading names expected tries todo found done) .next =
      some (w₁, t')) : Orderly (w.turned w₁ c t', g.observe w c) := by
  obtain ⟨hdone, hfound⟩ := h.tasks c.pid _ htask
  cases todo with
  | nil =>
    have heffect : w.effect c = .none := by simp [effect, htask]
    simp only [act] at hstep
    split at hstep
    · cases hstep
      exact h.plain hact (fun _ _ _ => id) heffect
        ⟨fun e he => absurd he List.not_mem_nil, fun _ _ m hm => absurd hm (Option.not_mem_none m)⟩
    · cases hstep
      exact h.plain hact (fun _ _ _ => id) heffect hdone
  | cons n todo =>
    cases found with
    | none =>
      obtain ⟨i, hdir⟩ : ∃ i, w.dir (.config n) = some i := by
        rw [← Option.isSome_iff_exists]
        simpa [World.orderly, htask, hact] using hcond
      have heffect : w.effect c = .reads n := by simp [effect, htask, hact]
      simp only [act, hdir] at hstep
      cases hstep
      refine h.quiet (fun _ _ _ => id) (.inr ⟨n, heffect⟩)
        ⟨fun e he => (hdone e he).later fun m time hknown => ?_, fun m hm time ht => ?_⟩
      · exact hknown.kept (fun _ hi => ⟨hi, rfl⟩) fun hm => (Bool.and_eq_true_iff.mp hm).2
      · cases hm
        cases ht
        exact ⟨i, hdir, Nat.le_refl _, fun hn => by simp [heffect] at hn⟩
    | some time =>
      have heffect : w.effect c = .none := by simp [effect, htask]
      obtain ⟨i, hdir, htime⟩ := hfound n rfl time rfl
      dsimp only at hdir
      simp only [act, hdir] at hstep
      cases hstep
      refine h.plain hact (fun _ _ _ => id) heffect
        ⟨fun e he => ?_, fun _ _ m hm => absurd hm (Option.not_mem_none m)⟩
      rcases List.mem_append.mp he with he | he
      · exact hdone e he
      · rw [List.mem_singleton.mp he]
        exact ⟨time, rfl, i, hdir, htime⟩

/-- Opening and locking. -/
theorem Orderly.opened {todo : List Entry} {pending : Option Nat}
    (htask : w.tasks[c.pid]? = some (.opening todo pending files))
    (hstep : w.act c.pid c.now (.opening todo pending files) .next = some (w₁, t')) :
    Orderly (w.turned w₁ c t', g.observe w c) := by
  obtain ⟨hheld, hstored, hentries⟩ := h.tasks c.pid _ htask
  cases todo with
  | nil =>
    cases hstep
    rw [List.append_nil] at hentries
    exact h.plain hact (fun _ _ _ => id) (by simp [effect, htask])
      ⟨hheld, hstored, hentries, [], rfl, fun _ hf => absurd hf List.not_mem_nil⟩
  | cons e todo =>
    cases pending with
    | none =>
      obtain ⟨-, -, i, hdir, -⟩ := hentries.1 e (by simp)
      dsimp only at hdir
      have heffect : w.effect c = .none := by simp [effect, htask, hact, hdir]
      simp only [act, hdir] at hstep
      cases hstep
      exact h.plain hact (fun _ _ _ => id) heffect ⟨hheld, hstored, hentries⟩
    | some i =>
      have hdir : w.dir (.config e.name) = some i := by
        simpa [World.orderly, htask, hact] using hcond
      simp only [act] at hstep
      split at hstep
      · cases hstep
      · rename_i hfree
        cases hstep
        have hmore : Entries w (g.changed c.pid) ((files ++ [(e, i)]).map Prod.fst ++ todo) := by
          simpa using hentries
        refine h.plain hact (fun j q _ hj => (if_neg ?_).trans hj) (by simp [effect, htask])
          ⟨fun f hf => ?_, hstored, hmore⟩
        · rintro rfl
          exact hfree (hj ▸ rfl)
        · rcases List.mem_append.mp hf with hf | hf
          · obtain ⟨hlock, hopened⟩ := hheld f hf
            exact ⟨ite_eq_left_iff.mpr fun _ => hlock, hopened⟩
          · rw [List.mem_singleton.mp hf]
            exact ⟨if_pos rfl, hdir⟩

theorem Orderly.stored (htask : w.tasks[c.pid]? = some (.storing files stage))
    (hstep : w.act c.pid c.now (.storing files stage) .next = some (w₁, t')) :
    Orderly (w.turned w₁ c t', g.observe w c) := by
  obtain ⟨hheld, -, -, hstage⟩ := h.tasks c.pid _ htask
  cases files with
  | nil =>
    cases hstep
    exact h.plain hact (fun _ _ _ => id) (by simp [effect, htask])
      ⟨by decide, fun hr => by cases hr⟩
  | cons f rest =>
    cases stage with
    | start =>
      have heffect : w.effect c = .none := by simp [effect, htask]
      simp only [act] at hstep
      split at hstep
      · cases hstep
        exact h.staged htask heffect h.named.create rfl (fun _ _ => kept_create h.named ‹_›)
          (if_pos rfl)
      · rename_i file hfile
        cases hstep
        exact h.staged htask heffect ⟨h.named.bound, h.named.apart⟩ rfl
          (fun _ => kept_fill h.named hfile) hfile
    | created file =>
      have heffect : w.effect c = .none := by simp [effect, htask]
      have hfile : w.dir (.tmp f.1.name) = some file := hstage f rfl
      obtain ⟨-, hdir⟩ := hheld f List.mem_cons_self
      dsimp only at hdir
      cases hstep
      refine h.staged htask heffect ⟨h.named.bound, h.named.apart⟩ rfl
        (fun _ => kept_fill h.named hfile) ⟨f.2, file, hdir, hfile, ?_⟩
      have hne : f.2 ≠ file := fun heq =>
        Path.noConfusion (h.named.apart _ _ _ hdir (heq ▸ hfile))
      simpa [World.fill, hne, World.orderly, htask, hact, hdir] using hcond
    | filled =>
      obtain ⟨-, file, -, hfile, -⟩ := hstage f rfl
      dsimp only at hfile
      simp only [act, hfile] at hstep
      cases hstep
      exact h.replaced hact htask hfile

end

/-- A step of an orderly run. -/
theorem Orderly.advance {y : World × Watch} (hcond : w.orderly c = true)
    (hstep : advance (w, g) c = some y) : Orderly y := by
  obtain ⟨w', hw', rfl⟩ := Option.map_eq_some_iff.mp hstep
  rw [World.step] at hw'
  split at hw'
  · cases hw'
  · obtain ⟨t, htask, hr⟩ := Option.bind_eq_some_iff.mp hw'
    obtain ⟨⟨w₁, t'⟩, hturn, rfl⟩ := Option.map_eq_some_iff.mp hr
    cases hact : c.act with
    | readAll names =>
      cases t with
      | idle result =>
        rw [hact] at hturn
        cases hturn
        exact h.quiet (fun _ _ _ => id) (.inl (by simp [effect, htask]))
          ⟨fun e he => absurd he List.not_mem_nil,
            fun _ _ m hm => absurd hm (Option.not_mem_none m)⟩
      | reading | editing | opening | checking | storing => simp [act, hact] at hturn
    | freeze text =>
      cases t with
      | editing entries =>
        rw [hact] at hturn
        cases hturn
        have heffect : w.effect c = .none := by simp [effect, htask]
        refine h.quiet (fun _ _ _ => id) (.inl heffect)
          ⟨fun _ hf => absurd hf List.not_mem_nil, by simp [Watch.observe, hact], ?_⟩
        simpa [heffect] using entries_frozen (h.tasks c.pid _ htask)
      | idle | reading | opening | checking | storing => simp [act, hact] at hturn
    | next =>
      rw [hact] at hturn
      cases t with
      | idle | editing => simp [act] at hturn
      | reading => exact h.read hact hcond htask hturn
      | opening => exact h.opened hact hcond htask hturn
      | checking => exact h.checked hact htask hturn
      | storing => exact h.stored hact hcond htask hturn

end Turns

variable {w w' : World} {g : Watch} {c : Call} {n text : Text} {x : World × Watch}

/-- A step that replaces no file leaves what is read. -/
theorem Orderly.read_kept (h : Orderly (w, g)) (hstep : w.step c = some w')
    (heffect : ∀ m, w.effect c ≠ .replaces m) (hread : w.read n = some text) :
    w'.read n = some text := by
  rw [World.step] at hstep
  split at hstep
  · cases hstep
  · obtain ⟨t, htask, hr⟩ := Option.bind_eq_some_iff.mp hstep
    obtain ⟨⟨w₁, t'⟩, hturn, rfl⟩ := Option.map_eq_some_iff.mp hr
    have hok := h.tasks c.pid t htask
    unfold act at hturn
    split at hturn
    all_goals try split at hturn
    all_goals cases hturn
    all_goals try exact hread
    · exact (kept_create h.named ‹_›).read hread
    · exact (kept_create h.named ‹_›).read hread
    · exact (kept_fill h.named ‹_› Path.noConfusion).read hread
    · exact (kept_fill h.named (hok.2.2.2 _ rfl) Path.noConfusion).read hread
    · rename_i hact _ _ hfile
      simp [World.effect, htask, hact, hfile] at heffect

theorem orderly_start (contents : List (Text × File)) (processes now : Nat) :
    Orderly (.start contents processes now, .start) := by
  have hdir {path : Path} {i : Nat} (h : (World.start contents processes now).dir path = some i) :
      ∃ n, path = .config n ∧ (contents.map Prod.fst)[i]? = some n := by
    cases path with
    | config n =>
      obtain ⟨hlt, hn, -⟩ := List.idxOf?_eq_some_iff.mp h
      exact ⟨n, rfl, List.getElem?_eq_some_iff.mpr ⟨hlt, hn⟩⟩
    | tmp n => cases h
  have hidle {p : Nat} {t : Task} (h : (World.start contents processes now).tasks[p]? = some t) :
      t = .idle none := List.eq_of_mem_replicate (List.mem_of_getElem? h)
  refine ⟨⟨fun path i h => ?_, fun a b i ha hb => ?_⟩, fun p t ht => ?_, rfl⟩
  · obtain ⟨n, -, hn⟩ := hdir h
    have hlt := (List.getElem?_eq_some_iff.mp hn).1
    rw [List.length_map] at hlt
    exact hlt
  · obtain ⟨n, rfl, hn⟩ := hdir ha
    obtain ⟨m, rfl, hm⟩ := hdir hb
    rw [Option.some.inj (hn.symm.trans hm)]
  · rw [hidle ht]
    exact ⟨by decide, fun h => by cases h⟩

/-- Processes that read files which are there, lock what still has its name, and write at times that
advance, lose no edit: who replaces a file replaces what was read, and who does not meets a conflict
and has left every file as it was. -/
theorem edits_not_lost (contents : List (Text × File)) (processes now : Nat) {calls : List Call}
    {x : World × Watch}
    (horderly : meetsFrom advance (fun x c => x.1.orderly c) (.start contents processes now, .start)
      calls = true)
    (hrun : runFrom advance (.start contents processes now, .start) calls = some x) :
    NotLost x ∧ ∀ c w, x.1.step c = some w → (∀ m, x.1.effect c ≠ .replaces m) →
      ∀ n text, x.1.read n = some text → w.read n = some text := by
  have hkeep {x y : World × Watch} {c : Call} (hx : Orderly x) (hcond : x.1.orderly c = true)
      (hstep : advance x c = some y) : Orderly y := hx.advance hcond hstep
  have hx := invariant_of_runFrom hkeep (orderly_start contents processes now) horderly hrun
  exact ⟨⟨hx.lost, fun p hp => (hx.tasks p _ hp).2 rfl, fun p hp => (hx.tasks p _ hp).1 rfl⟩,
    fun c w hstep heffect n text hread => hx.read_kept hstep heffect hread⟩

/-- A process reads a file, in so many steps. -/
def readsFile (pid steps : Nat) : List (Nat × Act) :=
  (pid, .readAll ["network".toList]) :: List.replicate steps (pid, .next)

/-- A process goes so many steps towards writing a file back; nine are all of them. -/
def writesFile (pid steps : Nat) : List (Nat × Act) :=
  (pid, .freeze fun _ => "edited".toList) :: List.replicate steps (pid, .next)

/-- Steps at times that are so far apart. -/
def timed (apart : Nat) (acts : List (Nat × Act)) : List Call :=
  acts.zipIdx.map fun e => ⟨e.1.1, e.1.2, apart * (e.2 + 1)⟩

def sampleFile : List (Text × File) := [("network".toList, ⟨"text".toList, 0⟩)]

/-- Both processes read before the first writes. It opens the file again while the second has the
lock, and gets it when the second meets a conflict. -/
def turnsRun : List Call :=
  timed 1 (readsFile 0 3 ++ readsFile 1 3 ++ writesFile 0 9 ++ writesFile 1 2 ++ readsFile 0 3 ++
    writesFile 0 1 ++ List.replicate 2 (1, .next) ++ List.replicate 8 (0, .next))

theorem edits_not_lost_turnsRun :
    ∃ x, runFrom advance (.start sampleFile 2 0, .start) turnsRun = some x ∧
      x.1.tasks[1]? = some (.idle (some .conflict)) ∧ NotLost x := by
  have horderly : meetsFrom advance (fun x c => x.1.orderly c) (.start sampleFile 2 0, .start)
      turnsRun = true := by decide +kernel
  have htask : (runFrom advance (.start sampleFile 2 0, .start) turnsRun).map
      (fun x => x.1.tasks[1]?) = some (some (.idle (some .conflict))) := rfl
  obtain ⟨x, hrun, hx⟩ := Option.map_eq_some_iff.mp htask
  exact ⟨x, hrun, hx, (edits_not_lost sampleFile 2 0 horderly hrun).1⟩

/-- Both processes open the file, and the second gets the lock when the first has put another in its
place. -/
def openedRun : List Call :=
  timed 1 (readsFile 0 3 ++ readsFile 1 3 ++ writesFile 0 1 ++ writesFile 1 1 ++
    List.replicate 8 (0, .next) ++ List.replicate 8 (1, .next))

/-- Both processes read before either writes, and the clock stands still. -/
def stillRun : List Call :=
  timed 0 (readsFile 0 3 ++ readsFile 1 3 ++ writesFile 0 9 ++ writesFile 1 9)

/-- The same with a file that is not there. -/
def missingRun : List Call :=
  timed 1 (readsFile 0 2 ++ readsFile 1 2 ++ writesFile 0 9 ++ writesFile 1 9)

/-- In each of three runs, the second process replaces what the first wrote, without a conflict. -/
theorem edit_lost :
    (runFrom advance (.start sampleFile 2 0, .start) openedRun).any (fun x => x.2.lost) = true ∧
    (runFrom advance (.start sampleFile 2 0, .start) stillRun).any (fun x => x.2.lost) = true ∧
    (runFrom advance (.start [] 2 0, .start) missingRun).any (fun x => x.2.lost) = true := by
  decide +kernel

end StartTech.Uciedit
