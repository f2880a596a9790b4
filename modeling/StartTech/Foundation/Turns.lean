import Mathlib.Data.List.Nodup
import Mathlib.Data.List.Perm.Subperm
import Mathlib.Logic.Relation

/-!
# Searches whose branches take turns

A branch waits with an item, or it has reported its item and lets the branches of the items behind
it take turns. In its turn a branch reports one item, and a branch that is over leaves the round. An
item whose key was reported before is passed over; the search ends at the first item that is wanted.
-/

namespace StartTech.Foundation

inductive Branch (α : Type)
  | waiting (a : α)
  | turns (todo kept : List (Branch α))

/-- What comes of a turn. -/
inductive Turn (α β : Type)
  | ended
  | found (a : α)
  | reported (a : α) (left : β)

structure Search (α κ : Type) where
  key : α → κ
  next : α → List α
  wanted : κ → Bool

variable {α β γ κ : Type}

def Turn.map (f : β → γ) : Turn α β → Turn α γ
  | .ended => .ended
  | .found a => .found a
  | .reported a left => .reported a (f left)

/-- The second turn when the first one is over. -/
def Turn.orElse : Turn α β → Turn α β → Turn α β
  | .ended, t => t
  | t, _ => t

mutual

/-- The items that branches wait with. -/
def Branch.items : Branch α → List α
  | .waiting a => [a]
  | .turns todo kept => itemsAll todo ++ itemsAll kept
termination_by structural b => b

def itemsAll : List (Branch α) → List α
  | [] => []
  | b :: rest => b.items ++ itemsAll rest
termination_by structural l => l

end

theorem itemsAll_append (l l' : List (Branch α)) :
    itemsAll (l ++ l') = itemsAll l ++ itemsAll l' := by
  induction l with
  | nil => rfl
  | cons b l ih => rw [List.cons_append, itemsAll, ih, itemsAll, List.append_assoc]

theorem itemsAll_waiting (l : List α) : itemsAll (l.map .waiting) = l := by
  induction l with
  | nil => rfl
  | cons a l ih => rw [List.map_cons, itemsAll, ih, Branch.items, List.singleton_append]

/-- Branches for some items, which take turns. -/
def Branch.start (l : List α) : Branch α := .turns (l.map .waiting) []

@[simp]
theorem Branch.items_start (l : List α) : (Branch.start l).items = l := by
  simp [start, items, itemsAll_waiting, itemsAll]

namespace Search

section Model

variable [DecidableEq κ] (s : Search α κ)

mutual

def resume (seen : List κ) : Branch α → Turn α (Branch α)
  | .waiting a =>
    if s.wanted (s.key a) then .found a
    else if s.key a ∈ seen then .ended
    else .reported a (.start (s.next a))
  | .turns todo kept =>
    ((resumeAll seen todo).map fun r => .turns r.2 (kept ++ [r.1])).orElse
      ((resumeAll seen kept).map fun r => .turns r.2 [r.1])
termination_by structural b => b

/-- The turn of the first branch that is not over. -/
def resumeAll (seen : List κ) : List (Branch α) → Turn α (Branch α × List (Branch α))
  | [] => .ended
  | b :: rest => ((resume seen b).map fun b => (b, rest)).orElse (resumeAll seen rest)
termination_by structural l => l

end

/-- The items that are reported, and the one that is found. -/
def run : Nat → List α → Branch α → Option (List α × Option α)
  | 0, _, _ => none
  | fuel + 1, seen, b =>
    match s.resume (seen.map s.key) b with
    | .ended => some (seen, none)
    | .found a => some (seen, some a)
    | .reported a b => run fuel (seen ++ [a]) b

end Model

section Turns

variable {s : Search α κ} {seen : List κ} {l m : List α} {k : γ → List α} {t : Turn α β}
  {g : β → List α}

/-- An item that is not wanted and was reported before. -/
def Passed (s : Search α κ) (seen : List κ) (a : α) : Prop :=
  s.wanted (s.key a) = false ∧ s.key a ∈ seen

/-- A report leaves the other items, but for some that are passed over, and those behind it. -/
structure Reports (s : Search α κ) (seen : List κ) (l : List α) (a : α) (l' : List α) : Prop where
  mem : a ∈ l
  fresh : s.wanted (s.key a) = false ∧ s.key a ∉ seen
  left : ∀ c ∈ l, c = a ∨ c ∈ l' ∨ s.Passed seen c
  behind : ∀ c ∈ s.next a, c ∈ l'
  only : ∀ c ∈ l', c ∈ l ∨ c ∈ s.next a

/-- What a turn says about the items. -/
def Explains (s : Search α κ) (seen : List κ) (l : List α) (items : β → List α) :
    Turn α β → Prop
  | .ended => ∀ c ∈ l, s.Passed seen c
  | .found a => a ∈ l ∧ s.wanted (s.key a) = true
  | .reported a b => s.Reports seen l a (items b)

/-- A turn of some branches, and of others when they are over. -/
theorem Explains.orElse {f : β → γ} {u : Turn α γ}
    (ht : s.Explains seen l g t) (hu : s.Explains seen m k u)
    (hf : ∀ b c, c ∈ k (f b) ↔ c ∈ g b ∨ c ∈ m) :
    s.Explains seen (l ++ m) k ((t.map f).orElse u) := by
  cases t with
  | found a => exact ⟨List.mem_append_left m ht.1, ht.2⟩
  | reported a b =>
    refine ⟨List.mem_append_left m ht.mem, ht.fresh, fun c hc => ?_, fun c hc => ?_, fun c hc => ?_⟩
    · rw [hf]
      rcases List.mem_append.mp hc with hc | hc
      · exact (ht.left c hc).imp_right fun hleft => hleft.imp_left .inl
      · exact .inr (.inl (.inr hc))
    · exact (hf b c).mpr (.inl (ht.behind c hc))
    · rw [List.mem_append]
      rcases (hf b c).mp hc with hc | hc
      · exact (ht.only c hc).imp_left .inl
      · exact .inl (.inr hc)
  | ended =>
    have hpassed {P : α → Prop} (hm : ∀ c ∈ m, P c) : ∀ c ∈ l ++ m, P c ∨ s.Passed seen c :=
      fun c hc => (List.mem_append.mp hc).symm.imp (hm c) (ht c)
    cases u with
    | found a => exact ⟨List.mem_append_right l hu.1, hu.2⟩
    | reported a b =>
      refine ⟨List.mem_append_right l hu.mem, hu.fresh, fun c hc => ?_, hu.behind, fun c hc => ?_⟩
      · exact (hpassed hu.left c hc).elim id fun hc => .inr (.inr hc)
      · exact (hu.only c hc).imp_left (List.mem_append_right l)
    | ended => exact fun c hc => (hpassed hu c hc).elim id id

theorem Explains.map {f : β → γ} (h : s.Explains seen l g t) (hf : ∀ b c, c ∈ k (f b) ↔ c ∈ g b) :
    s.Explains seen l k (t.map f) := by
  have hu : s.Explains seen [] k (.ended : Turn α γ) := fun c hc => absurd hc List.not_mem_nil
  have hor := h.orElse hu (by simpa using hf)
  rw [List.append_nil] at hor
  cases t <;> exact hor

variable [DecidableEq κ]

theorem explains_resume (b : Branch α) :
    s.Explains seen b.items Branch.items (s.resume seen b) := by
  refine @Branch.rec α (fun b => s.Explains seen b.items Branch.items (s.resume seen b))
    (fun l => s.Explains seen (itemsAll l) (fun r => r.1.items ++ itemsAll r.2)
      (s.resumeAll seen l))
    (fun a => ?_) (fun todo kept htodo hkept => ?_) (fun c hc => absurd hc List.not_mem_nil)
    (fun b rest hb hrest => hb.orElse hrest (by simp)) b
  · rw [resume]
    split
    · exact ⟨List.mem_singleton_self a, ‹_›⟩
    · rename_i hwanted
      have hwanted := Bool.eq_false_iff.mpr hwanted
      split
      · intro c hc
        rw [List.mem_singleton.mp hc]
        exact ⟨hwanted, ‹_›⟩
      · refine ⟨List.mem_singleton_self a, ⟨hwanted, ‹_›⟩, ?_, ?_, ?_⟩
        · exact fun c hc => .inl (List.mem_singleton.mp hc)
        · simp
        · simpa using fun c => .inr
  · refine htodo.orElse (hkept.map ?_) ?_
    · simp [Branch.items, itemsAll, or_comm]
    · simp [Branch.items, itemsAll_append, itemsAll, or_comm, or_left_comm]

end Turns

variable [DecidableEq κ] {s : Search α κ} {fuel : Nat} {seen seen' : List α} {b : Branch α}
  {found : Option α}

/-- An item that is left is wanted, or all of them are passed over. -/
def Ends (s : Search α κ) (seen l : List α) : Option α → Prop
  | some a => a ∈ l ∧ s.wanted (s.key a) = true
  | none => ∀ c ∈ l, s.Passed (seen.map s.key) c

/-- What every report keeps holds at the end. -/
theorem run_invariant {I : List α → List α → Prop}
    (hkeep : ∀ {seen l a l'}, I seen l → s.Reports (seen.map s.key) l a l' → I (seen ++ [a]) l')
    (h : I seen b.items) (hrun : s.run fuel seen b = some (seen', found)) :
    ∃ l, I seen' l ∧ s.Ends seen' l found := by
  induction fuel generalizing seen b with
  | zero => cases hrun
  | succ fuel ih =>
    have hturn : s.Explains (seen.map s.key) b.items Branch.items _ := explains_resume b
    rw [run] at hrun
    split at hrun
    · rename_i heq
      rw [heq] at hturn
      cases hrun
      exact ⟨_, h, hturn⟩
    · rename_i heq
      rw [heq] at hturn
      cases hrun
      exact ⟨_, h, hturn⟩
    · rename_i heq
      rw [heq] at hturn
      exact ih (hkeep h hturn) hrun

/-- What every step from an item keeps holds of all that is reported. -/
theorem forall_of_run {P : α → Prop} (hnext : ∀ a, P a → ∀ c ∈ s.next a, P c)
    (h : ∀ c ∈ b.items, P c) (hrun : s.run fuel [] b = some (seen', found)) :
    (∀ a ∈ seen', P a) ∧ ∀ a ∈ found, P a ∧ s.wanted (s.key a) = true := by
  have hkeep {seen l a l'} (h : ∀ c ∈ seen ++ l, P c)
      (hreport : s.Reports (seen.map s.key) l a l') : ∀ c ∈ seen ++ [a] ++ l', P c := by
    have ha : P a := h a (List.mem_append_right seen hreport.mem)
    simp only [List.mem_append, List.mem_singleton] at h ⊢
    rintro c ((hc | rfl) | hc)
    · exact h c (.inl hc)
    · exact ha
    · exact (hreport.only c hc).elim (fun hc => h c (.inr hc)) (hnext a ha c)
  obtain ⟨l, h, hend⟩ := run_invariant hkeep h hrun
  refine ⟨fun a ha => h a (List.mem_append_left l ha), fun a ha => ?_⟩
  rw [ha] at hend
  exact ⟨h a (List.mem_append_right seen' hend.1), hend.2⟩

/-- Keys of a supply are reported once each, and what there is to look at is left or passed over. -/
structure Covers (s : Search α κ) (supply : List κ) (starts seen l : List α) : Prop where
  nodup : (seen.map s.key).Nodup
  keys : ∀ c ∈ seen ++ l, s.key c ∈ supply
  left : ∀ c, (c ∈ starts ∨ ∃ a ∈ seen, c ∈ s.next a) → c ∈ l ∨ s.Passed (seen.map s.key) c

variable {supply : List κ} {starts : List α} (hnext : ∀ a, ∀ c ∈ s.next a, s.key c ∈ supply)
include hnext

omit [DecidableEq κ] in
theorem Covers.report {l l' : List α} {a : α} (h : s.Covers supply starts seen l)
    (hreport : s.Reports (seen.map s.key) l a l') : s.Covers supply starts (seen ++ [a]) l' := by
  obtain ⟨hnodup, hkeys, hcovers⟩ := h
  obtain ⟨hmem, hfresh, hleft, hbehind, honly⟩ := hreport
  refine ⟨?_, by grind, ?_⟩
  · rw [List.map_append]
    exact List.nodup_append_comm.mp (List.nodup_cons.mpr ⟨hfresh.2, hnodup⟩)
  · simp only [Passed, List.map_append, List.mem_append] at hleft hcovers ⊢
    grind

/-- By induction on the turns, of which there are more than keys to report. -/
theorem Covers.run (h : s.Covers supply starts seen b.items)
    (hfuel : supply.length < seen.length + fuel) :
    ∃ r l, s.run fuel seen b = some r ∧ s.Covers supply starts r.1 l ∧ s.Ends r.1 l r.2 := by
  induction fuel generalizing seen b with
  | zero =>
    have hseen : seen.map s.key ⊆ supply := by grind [h.keys]
    have hle := (h.nodup.subperm hseen).length_le
    rw [List.length_map] at hle
    omega
  | succ fuel ih =>
    have hturn : s.Explains (seen.map s.key) b.items Branch.items _ := explains_resume b
    rw [Search.run]
    cases hresume : s.resume (seen.map s.key) b with
    | reported a b' =>
      rw [hresume] at hturn
      exact ih (h.report hnext hturn) (by simp; omega)
    | _ =>
      rw [hresume] at hturn
      exact ⟨_, _, rfl, h, hturn⟩

/-- A search comes to an end. Where it finds nothing it has passed over all there is. -/
theorem exists_run (hstarts : ∀ c ∈ starts, s.key c ∈ supply) (hfuel : supply.length < fuel) :
    ∃ r, s.run fuel [] (.start starts) = some r ∧ (r.2 = none →
      ∀ c, (c ∈ starts ∨ ∃ a ∈ r.1, c ∈ s.next a) → s.Passed (r.1.map s.key) c) := by
  have hstart : s.Covers supply starts [] (Branch.start starts).items :=
    ⟨.nil, by simpa using hstarts, fun c hc => .inl (by simpa using hc)⟩
  obtain ⟨⟨seen, found⟩, l, hrun, hcovers, hends⟩ := hstart.run hnext (by simpa using hfuel)
  refine ⟨_, hrun, ?_⟩
  rintro rfl c hc
  exact (hcovers.left c hc).elim (hends c) id

omit hnext in
/-- A search that wants nothing reports exactly what can be reached from where it starts. -/
theorem exists_run_reach [DecidableEq α] {next : α → List α} {supply starts : List α} {fuel : Nat}
    (hnext : ∀ a, ∀ c ∈ next a, c ∈ supply) (hstarts : ∀ c ∈ starts, c ∈ supply)
    (hfuel : supply.length < fuel) :
    ∃ seen, (Search.mk id next fun _ => false).run fuel [] (.start starts) = some (seen, none) ∧
      ∀ v, v ∈ seen ↔ ∃ a ∈ starts, Relation.ReflTransGen (fun a c => c ∈ next a) a v := by
  obtain ⟨⟨seen, found⟩, hrun, hpassed⟩ :=
    exists_run (s := ⟨id, next, fun _ => false⟩) hnext hstarts hfuel
  obtain ⟨hreached, hfound⟩ := forall_of_run
    (P := fun v => ∃ a ∈ starts, Relation.ReflTransGen (fun a c => c ∈ next a) a v)
    (fun v ⟨a, ha, hreach⟩ c hc => ⟨a, ha, hreach.tail hc⟩)
    (fun c hc => ⟨c, by rwa [Branch.items_start] at hc, .refl⟩) hrun
  cases found with
  | some x => exact absurd (hfound x rfl).2 Bool.false_ne_true
  | none =>
    have hseen {c : α} (hc : c ∈ starts ∨ ∃ a ∈ seen, c ∈ next a) : c ∈ seen := by
      simpa using (hpassed rfl c hc).2
    refine ⟨seen, hrun, fun v => ⟨hreached v, ?_⟩⟩
    rintro ⟨a, ha, hreach⟩
    induction hreach with
    | refl => exact hseen (.inl ha)
    | tail _ hstep ih => exact hseen (.inr ⟨_, ih, hstep⟩)

end Search

end StartTech.Foundation
