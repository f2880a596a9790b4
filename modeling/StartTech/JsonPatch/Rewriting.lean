import StartTech.JsonPatch.Atomicity
import StartTech.JsonPtr.Locality

/-!
# Patches that rewrite one part of a document

A patch rewrites one document into another at a path when, wherever the first
stands there, it runs through, touches nothing else and can be taken back.
Such patches compose.
-/

namespace StartTech.JsonPatch

open Foundation ImblValue JsonPtr

/-- The operations that a diff consists of, where they can always be taken back. -/
def Direct (d : Json) : PatchOperation → Prop
  | .add _ _ | .remove _ => True
  | .replace path _ => ∃ x, Json.get path d = some x
  | _ => False

/-- A run of direct operations, all of which succeed. -/
inductive DirectRun : Json → Patch → Json → Prop
  | nil (d : Json) : DirectRun d [] d
  | cons {d d₁ d' : Json} {op : PatchOperation} {rest : Patch} (direct : Direct d op)
      (step : applyJson d op = some d₁) (run : DirectRun d₁ rest d') : DirectRun d (op :: rest) d'

variable {d d' : Json} {p : Patch} {doc : Value} {op : PatchOperation}

theorem DirectRun.append {d₁ : Json} {q : Patch} (hp : DirectRun d p d₁) (hq : DirectRun d₁ q d') :
    DirectRun d (p ++ q) d' := by
  induction hp with
  | nil d => exact hq
  | cons direct step _ ih => exact .cons direct step (ih hq)

theorem DirectRun.runJson (h : DirectRun d p d') : runJson d p = some d' := by
  induction h with
  | nil d => rfl
  | cons _ step _ ih => rw [JsonPatch.runJson, List.foldlM_cons, step]; exact ih

theorem Direct.undoable (h : Direct doc.denote op) : undoable doc op = true := by
  cases op with
  | add path value | remove path => rfl
  | replace path value =>
    obtain ⟨x, hx⟩ := h
    simp [JsonPatch.undoable, hx]
  | _ => exact h.elim

theorem DirectRun.stepsUndoable (hdoc : doc.WellFormed) (hp : p.WellFormed)
    (h : DirectRun doc.denote p d') : stepsUndoable doc p = true := by
  induction p generalizing doc with
  | nil => rfl
  | cons op rest ih =>
    cases h with
    | cons direct step run =>
      simp only [JsonPatch.stepsUndoable, direct.undoable, Bool.true_and]
      cases applyOperation_outcome hdoc (hp op (by simp)) with
      | ok u doc' hrun effect wellFormed restores =>
        rw [step] at effect
        cases effect
        simpa [hrun] using ih wellFormed hp.tail run
      | error e doc' hrun effect wellFormed unchanged => simp [hrun]

/-- A direct run is what `patch` does, and its undo operations take it back. -/
theorem patch_of_directRun (hdoc : doc.WellFormed) (hp : p.WellFormed)
    (h : DirectRun doc.denote p d') :
    ∃ us doc', patch doc p = some (.ok us, doc') ∧ doc'.WellFormed ∧ doc'.denote = d' ∧
      RestoresAll us doc.denote d' := by
  have hsteps := h.stepsUndoable hdoc hp
  rcases applyPatches_spec hdoc hp hsteps (RestoresAll.nil doc.denote) with
    ⟨us, doc', hrun, hwf, heffect, hrestore⟩ | ⟨e, doc', -, -, heffect, -⟩
  · rw [h.runJson] at heffect
    cases heffect
    exact ⟨us, doc', hrun, hwf, rfl, hrestore⟩
  · rw [h.runJson] at heffect
    cases heffect

/-- Wherever the path leads to the first document, the patch puts the second there. -/
structure Rewrites (path : List Text) (x y : Json) (ops : Patch) : Prop where
  wellFormed : ops.WellFormed
  run : ∀ d, Json.get path d = some x → DirectRun d ops (Json.put path y d)

namespace Rewrites

variable {path : List Text} {x y z : Json} {q : Patch} {seg : Text}

theorem refl (path : List Text) (x : Json) : Rewrites path x x [] where
  wellFormed := by simp [Patch.WellFormed]
  run d h := by
    rw [Json.put_get h]
    exact .nil d

theorem trans (hp : Rewrites path x y p) (hq : Rewrites path y z q) :
    Rewrites path x z (p ++ q) where
  wellFormed op hop := (List.mem_append.mp hop).elim (hp.wellFormed op) (hq.wellFormed op)
  run d h := by
    have hsecond := hq.run _ (Json.get_put h y)
    rw [Json.put_put h] at hsecond
    exact (hp.run d h).append hsecond

/-- One operation that acts at the path. -/
theorem single (hop : op.WellFormed)
    (h : ∀ d, Json.get path d = some x → Direct d op ∧ applyJson d op = some (Json.put path y d)) :
    Rewrites path x y [op] where
  wellFormed o ho := by
    rw [List.mem_singleton.mp ho]
    exact hop
  run d hd := .cons (h d hd).1 (h d hd).2 (.nil _)

theorem replace {value : Value} (hval : value.WellFormed) :
    Rewrites path x value.denote [.replace path value] := by
  refine single hval fun d h => ⟨⟨x, h⟩, ?_⟩
  simp only [applyJson, Json.put]
  cases hr : Json.replace path value.denote d with
  | some r => rfl
  | none =>
    rw [Json.replace_eq_none_iff, h] at hr
    cases hr

theorem add {value : Value} (hval : value.WellFormed) {prev : Option Json}
    (h : Json.insertHere seg value.denote x = some (prev, y)) :
    Rewrites path x y [.add (path ++ [seg]) value] := by
  refine single hval fun d hd => ⟨trivial, ?_⟩
  have hedit : Json.insert [seg] value.denote x = some (prev, y) := h
  have happend := (Json.descends_insert value.denote).append path (List.cons_ne_nil seg []) d
  simp_all [applyJson, Json.editAt_eq _ hd]

theorem remove {v : Json} (h : Json.removeHere false seg x = some (v, y)) :
    Rewrites path x y [.remove (path ++ [seg])] := by
  refine single trivial fun d hd => ⟨trivial, ?_⟩
  have hedit : Json.remove false [seg] x = some (v, y) := h
  have happend := (Json.descends_remove false).append path (List.cons_ne_nil seg []) d
  simp [applyJson, happend, Json.editAt_eq _ hd, hedit]

/-- Rewriting a child rewrites the node around it. -/
theorem below {s : Step} {c c' : Json} (h : Rewrites (path ++ [seg]) c c' p)
    (hfollow : Json.follow false seg x = some (s, c)) :
    Rewrites path x (Json.setChild s c' x) p where
  wellFormed := h.wellFormed
  run d hd := by
    have hget : Json.get (path ++ [seg]) d = some c := by
      rw [Json.get_append, hd]
      exact Json.get_cons hfollow
    have hput : Json.put (path ++ [seg]) c' d = Json.put path (.setChild s c' x) d := by
      rw [Json.put_append [seg] hd, Json.put_cons c' hfollow, Json.put_nil]
    rw [← hput]
    exact h.run d hget

end Rewrites

end StartTech.JsonPatch
