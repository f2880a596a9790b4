import Mathlib.Data.List.Basic

/-!
# Programs of atomic steps

A program reads and changes a shared state in atomic steps and may hold one lock. Run alone it
is a function of the state; run beside others, each of its steps finds the state as the others
left it.
-/

namespace StartTech.Foundation

/-- A step changes the state; what follows depends on the state before it. -/
inductive Prog (σ α : Type) : Type
  | ret (a : α)
  | act (f : σ → σ) (next : σ → Prog σ α)
  | lock (next : Prog σ α)
  | unlock (next : Prog σ α)

namespace Prog

variable {σ α β : Type}

protected def bind : Prog σ α → (α → Prog σ β) → Prog σ β
  | ret a, h => h a
  | act f next, h => act f fun s => (next s).bind h
  | lock next, h => lock (next.bind h)
  | unlock next, h => unlock (next.bind h)

instance : Monad (Prog σ) where
  pure := ret
  bind := Prog.bind

/-- Read the state. -/
def peek (g : σ → α) : Prog σ α := act id fun s => ret (g s)

/-- Change the state and return a result. -/
def mutate (g : σ → α × σ) : Prog σ α := act (fun s => (g s).2) fun s => ret (g s).1

def modify (f : σ → σ) : Prog σ Unit := act f fun _ => ret ()

/-- The lock is held while the program runs. -/
def locked (p : Prog σ α) : Prog σ α := lock (p.bind fun a => unlock (ret a))

/-- One program for each element of a list, in order. -/
def each (f : α → Prog σ Unit) : List α → Prog σ Unit
  | [] => ret ()
  | a :: rest => (f a).bind fun _ => each f rest

/-- What a program that runs alone returns and leaves. -/
def run : Prog σ α → σ → α × σ
  | ret a, s => (a, s)
  | act f next, s => (next s).run (f s)
  | lock next, s => next.run s
  | unlock next, s => next.run s

variable (p : Prog σ α) (h : α → Prog σ β) (s : σ)

theorem run_bind' : (p.bind h).run s = (h (p.run s).1).run (p.run s).2 := by
  induction p generalizing s with
  | ret a => rfl
  | act f next ih => exact ih s (f s)
  | lock next ih | unlock next ih => exact ih s

@[simp] theorem run_bind : (p >>= h).run s = (h (p.run s).1).run (p.run s).2 := run_bind' p h s

@[simp] theorem run_pure (a : α) : (pure a : Prog σ α).run s = (a, s) := rfl

@[simp] theorem run_peek (g : σ → α) : (peek g).run s = (g s, s) := rfl

@[simp] theorem run_mutate (g : σ → α × σ) : (mutate g).run s = g s := rfl

@[simp] theorem run_modify (f : σ → σ) : (modify f).run s = ((), f s) := rfl

@[simp] theorem run_locked : p.locked.run s = p.run s := run_bind' p _ s

@[simp] theorem run_each_cons (f : α → Prog σ Unit) (a : α) (rest : List α) :
    (each f (a :: rest)).run s = (each f rest).run ((f a).run s).2 := run_bind' (f a) _ s

/-- Run alone, the program keeps what holds of the state. -/
def Keeps (inv : σ → Prop) (p : Prog σ α) : Prop := ∀ s, inv s → inv (p.run s).2

variable {inv : σ → Prop} {p}

theorem Keeps.pure (a : α) : Keeps inv (pure a : Prog σ α) := fun _ h => h

theorem Keeps.peek (g : σ → α) : Keeps inv (peek g) := fun _ h => h

theorem Keeps.mutate {g : σ → α × σ} (h : ∀ s, inv s → inv (g s).2) : Keeps inv (mutate g) := h

theorem Keeps.modify {f : σ → σ} (h : ∀ s, inv s → inv (f s)) : Keeps inv (modify f) := h

theorem Keeps.bind {f : α → Prog σ β} (hp : Keeps inv p) (hf : ∀ a, Keeps inv (f a)) :
    Keeps inv (p >>= f) := by
  intro s hs
  rw [run_bind]
  exact hf _ _ (hp s hs)

theorem Keeps.locked (h : Keeps inv p) : Keeps inv p.locked := by
  intro s hs
  rw [run_locked]
  exact h s hs

theorem Keeps.ite {c : Prop} [Decidable c] {q : Prog σ α} (hp : c → Keeps inv p)
    (hq : ¬ c → Keeps inv q) : Keeps inv (if c then p else q) := by
  split
  · rename_i h
    exact hp h
  · rename_i h
    exact hq h

theorem Keeps.each {f : α → Prog σ Unit} {l : List α} (h : ∀ a ∈ l, Keeps inv (f a)) :
    Keeps inv (each f l) := by
  induction l with
  | nil => exact fun _ hs => hs
  | cons a rest ih =>
    intro s hs
    rw [run_each_cons]
    exact ih (fun b hb => h b (List.mem_cons_of_mem a hb)) _ (h a List.mem_cons_self s hs)

end Prog

end StartTech.Foundation
