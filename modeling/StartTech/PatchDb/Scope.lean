import StartTech.PatchDb.DiffPatch

/-!
# A patch seen from a pointer

An edit of a document shows at a pointer as an edit of what the pointer leads to,
as a new value there, or not at all, depending on how the two paths relate. This
is so unless the edit renumbers an array that the pointer goes through, or reaches
an element by another writing of its index.
-/

namespace StartTech.ImblValue.Json

open Foundation JsonPtr

/-- What a pointer leads to, with null for nothing. -/
def shownAt (ptr : List Text) (d : Json) : Json := (get ptr d).getD .null

variable {seg : Text} {s : Step} {x d d' : Json}

theorem shownAt_cons (h : follow false seg d = some (s, x)) (rest : List Text) :
    shownAt (seg :: rest) d = shownAt rest x := by
  rw [shownAt, get_cons h, shownAt]

theorem shownAt_none (h : follow false seg d = none) (rest : List Text) :
    shownAt (seg :: rest) d = .null := by
  rw [shownAt, get, h]
  rfl

theorem shownAt_congr (h : follow false seg d' = follow false seg d) (rest : List Text) :
    shownAt (seg :: rest) d' = shownAt (seg :: rest) d := by
  rw [shownAt, shownAt, get, get, h]

/-- Two segments that name one element of an array. -/
def aliases (seg other : Text) : Json → Bool
  | .array _ =>
    match (parseIdx seg).toOption, (parseIdx other).toOption with
    | some i, some j => i == j
    | _, _ => false
  | _ => false

/-- Whether an edit at a path moves what a pointer leads to, given when it does at the
node that it edits. -/
def moves (here : Text → Text → Json → Bool) : List Text → List Text → Json → Bool
  | [seg], other :: _, d => here seg other d
  | seg :: rest, other :: ptr, d =>
    if seg = other then
      match follow false seg d with
      | some (_, x) => moves here rest ptr x
      | none => false
    else aliases seg other d
  | _, _, _ => false

/-- Inserting makes room at its index. The dash is no place that a pointer leads to. -/
def addMoves (seg other : Text) : Json → Bool
  | .array l =>
    match (insertIdx seg l.length).toOption, (parseIdx other).toOption with
    | some i, some j => seg != other && decide (i ≤ j) && decide (j ≤ l.length)
    | some _, none => seg == other
    | _, _ => false
  | _ => false

/-- Removing closes the gap at its index. -/
def removeMoves (seg other : Text) : Json → Bool
  | .array l =>
    match (parseIdx seg).toOption, (parseIdx other).toOption with
    | some i, some j =>
      decide (i ≤ j) && decide ((if seg = other then j + 1 else j) < l.length)
    | _, _ => false
  | _ => false

def replaceMoves (seg other : Text) (d : Json) : Bool := seg != other && aliases seg other d

/-- What leaves a child in its place leaves it there for other segments. -/
theorem follow_setChild_of_ne {other : Text} (h : follow false seg d = some (s, x))
    (hne : seg ≠ other) (halias : aliases seg other d = false) (y : Json) :
    follow false other (setChild s y d) = follow false other d := by
  obtain ⟨hs, -⟩ := follow_eq_some.mp h
  have hstep : ∀ t, resolve false other d = some t → s ≠ t := by
    rintro t ht rfl
    cases d with
    | array l =>
      rw [resolve, removeIdx_false] at hs ht
      obtain ⟨i, hi, rfl⟩ := Option.map_eq_some_iff.mp hs
      obtain ⟨j, hj, heq⟩ := Option.map_eq_some_iff.mp ht
      cases heq
      simp [aliases, hi, hj] at halias
    | object m =>
      cases hs
      cases ht
      exact hne rfl
    | _ => cases hs
  rw [follow, follow, resolve_setChild]
  cases ht : resolve false other d with
  | none => rfl
  | some t => simp only [Option.bind_some, child_setChild_ne (hstep t ht)]

/-- An edit that acts at the end of its path, with what is found there afterwards. -/
structure Scoped {α : Type} (edit : List Text → Json → Option (α × Json))
    (here : Text → Text → Json → Bool) (found : List Text → Json) : Prop where
  root : ∀ {d d' : Json} {a : α}, edit [] d = some (a, d') → ∀ tail, shownAt tail d' = found tail
  node : ∀ {seg other : Text} {d d' : Json} {a : α}, edit [seg] d = some (a, d') →
    here seg other d = false →
    (seg = other → ∀ tail, shownAt (other :: tail) d' = found tail) ∧
      (seg ≠ other → follow false other d' = follow false other d)
  deeper : ∀ (seg : Text) {rest : List Text}, rest ≠ [] → ∀ d,
    edit (seg :: rest) d = descend false seg (edit rest) d

/-- How an edit shows at a pointer: at or below it, above it, and beside it. -/
structure Shows {α : Type} (edit : List Text → Json → Option (α × Json))
    (found : List Text → Json) (path ptr : List Text) (d d' : Json) (a : α) : Prop where
  inside : ∀ tail, path = ptr ++ tail → tail ≠ [] →
    edit tail (shownAt ptr d) = some (a, shownAt ptr d')
  above : ∀ tail, ptr = path ++ tail → shownAt ptr d' = found tail
  beside : (∀ tail, path ≠ ptr ++ tail) → (∀ tail, ptr ≠ path ++ tail) →
    shownAt ptr d' = shownAt ptr d

variable {α : Type} {edit : List Text → Json → Option (α × Json)}
  {here : Text → Text → Json → Bool} {found : List Text → Json}

theorem Scoped.shows (h : Scoped edit here found) {path ptr : List Text} {a : α}
    (hedit : edit path d = some (a, d')) (hmoves : moves here path ptr d = false) :
    Shows edit found path ptr d d' a := by
  induction ptr generalizing path d d' with
  | nil =>
    refine ⟨?_, ?_, ?_⟩
    · rintro tail rfl -
      exact hedit
    · intro tail htail
      obtain ⟨rfl, rfl⟩ := List.append_eq_nil_iff.mp htail.symm
      exact h.root hedit []
    · intro hinside
      exact absurd rfl (hinside path)
  | cons other ptr ih =>
    match path with
    | [] =>
      refine ⟨by simp, ?_, ?_⟩
      · rintro tail rfl
        exact h.root hedit _
      · intro _ habove
        exact absurd rfl (habove (other :: ptr))
    | [seg] =>
      obtain ⟨hsame, hother⟩ := h.node hedit hmoves
      refine ⟨?_, ?_, ?_⟩
      · intro tail htail hne
        simp [hne] at htail
      · intro tail htail
        obtain ⟨rfl, rfl⟩ := List.cons.inj htail
        exact hsame rfl ptr
      · intro _ habove
        by_cases hseg : seg = other
        · exact absurd (by rw [hseg]; rfl) (habove ptr)
        · exact shownAt_congr (hother hseg) ptr
    | seg :: next :: rest =>
      rw [h.deeper seg (List.cons_ne_nil next rest)] at hedit
      obtain ⟨s, x, y, hfollow, hinner, rfl⟩ := descend_eq_some.mp hedit
      rw [moves.eq_2 _ _ _ _ _ _ (List.cons_ne_nil next rest), hfollow] at hmoves
      by_cases hseg : seg = other
      · subst hseg
        rw [if_pos rfl] at hmoves
        have hbefore := shownAt_cons hfollow ptr
        have hafter := shownAt_cons (follow_setChild hfollow y) ptr
        obtain ⟨inside, above, beside⟩ := ih hinner hmoves
        refine ⟨?_, ?_, ?_⟩
        · intro tail htail hne
          rw [hbefore, hafter]
          exact inside tail (List.cons.inj htail).2 hne
        · intro tail htail
          rw [hafter]
          exact above tail (List.cons.inj htail).2
        · intro hinside habove
          rw [hbefore, hafter]
          exact beside (fun tail htail => hinside tail (by rw [htail]; rfl))
            fun tail htail => habove tail (by rw [htail]; rfl)
      · rw [if_neg hseg] at hmoves
        refine ⟨?_, ?_, ?_⟩
        · intro tail htail
          exact absurd (List.cons.inj htail).1 hseg
        · intro tail htail
          exact absurd (List.cons.inj htail).1.symm hseg
        · intro _ _
          exact shownAt_congr (follow_setChild_of_ne hfollow hseg hmoves y) ptr

theorem scoped_insert (v : Json) : Scoped (insert · v) addMoves (shownAt · v) where
  root h tail := by
    cases h
    rfl
  node := by
    intro seg other d d' prev h hhere
    cases d with
    | object m =>
      cases h
      constructor
      · rintro rfl tail
        exact @shownAt_cons seg (.key seg) v _ (by simp [follow, resolve, child]) tail
      · intro hne
        simp [follow, resolve, child, Function.update_of_ne hne.symm]
    | array l =>
      obtain ⟨n, hn, hle, -, rfl⟩ := insertHere_array.mp h
      rw [addMoves, hn] at hhere
      cases hj : (parseIdx other).toOption with
      | none =>
        simp only [hj, beq_eq_false_iff_ne] at hhere
        refine ⟨fun heq => absurd heq hhere, fun _ => ?_⟩
        simp [follow, resolve, removeIdx_false, hj]
      | some j =>
        simp only [hj] at hhere
        constructor
        · rintro rfl tail
          rw [insertIdx_eq (ne_dash_of_parseIdx hj), hj] at hn
          cases hn
          refine @shownAt_cons seg (.index n) v _ ?_ tail
          simp [follow, resolve, removeIdx_false, hj, child, List.getElem?_insertIdx_self, hle]
        · intro hne
          have hside : j < n ∨ l.length < j := by
            simp [hne] at hhere
            omega
          simp only [follow, resolve, removeIdx_false, hj, child, Option.map_some, Option.bind_some]
          rcases hside with hlt | hlt
          · rw [List.getElem?_insertIdx_of_lt hlt]
          · rw [List.getElem?_insertIdx_of_gt (by omega), List.getElem?_eq_none (by omega),
              List.getElem?_eq_none (by omega)]
    | _ => cases h
  deeper := descends_insert v

theorem scoped_remove : Scoped (remove false) removeMoves fun _ => .null where
  root h := by cases h
  node := by
    intro seg other d d' v h hhere
    obtain ⟨s, hfollow, rfl⟩ := removeHere_eq_some.mp h
    obtain ⟨hs, hchild⟩ := follow_eq_some.mp hfollow
    cases d with
    | object m =>
      cases hs
      constructor
      · rintro rfl tail
        exact shownAt_none (by simp [follow, resolve, child, eraseChild]) tail
      · intro hne
        simp [follow, resolve, child, eraseChild, Function.update_of_ne hne.symm]
    | array l =>
      rw [resolve, removeIdx_false] at hs
      obtain ⟨i, hi, rfl⟩ := Option.map_eq_some_iff.mp hs
      have hlt : i < l.length := (List.getElem?_eq_some_iff.mp hchild).1
      rw [removeMoves, hi] at hhere
      cases hj : (parseIdx other).toOption with
      | none =>
        constructor
        · rintro rfl
          rw [hi] at hj
          cases hj
        · simp [follow, resolve, removeIdx_false, hj, eraseChild]
      | some j =>
        simp only [hj, Bool.and_eq_false_iff, decide_eq_false_iff_not] at hhere
        constructor
        · rintro rfl tail
          obtain rfl : i = j := Option.some.inj (hi.symm.trans hj)
          rw [if_pos rfl] at hhere
          refine shownAt_none ?_ tail
          have hnone : (l.eraseIdx i)[i]? = none :=
            List.getElem?_eq_none (by rw [List.length_eraseIdx_of_lt hlt]; omega)
          simp [follow, resolve, removeIdx_false, hj, child, eraseChild, hnone]
        · intro hne
          rw [if_neg hne] at hhere
          have hside : j < i ∨ l.length ≤ j := by omega
          simp only [follow, resolve, removeIdx_false, hj, child, eraseChild,
            Option.map_some, Option.bind_some]
          rcases hside with hside | hside
          · rw [List.getElem?_eraseIdx_of_lt hside]
          · rw [List.getElem?_eraseIdx_of_ge (by omega), List.getElem?_eq_none (by omega),
              List.getElem?_eq_none hside]
    | _ => cases hs
  deeper := descends_remove false

theorem scoped_replace (v : Json) : Scoped (replace · v) replaceMoves (shownAt · v) where
  root h tail := by
    cases h
    rfl
  node := by
    intro seg other d d' prev h hhere
    obtain ⟨s, x, y, hfollow, hy, rfl⟩ := descend_eq_some.mp h
    cases hy
    constructor
    · rintro rfl tail
      exact shownAt_cons (follow_setChild hfollow v) tail
    · intro hne
      refine follow_setChild_of_ne hfollow hne ?_ v
      simpa [replaceMoves, hne] using hhere
  deeper seg rest _ d := rfl

end StartTech.ImblValue.Json

namespace StartTech.PatchDb

open Foundation ImblValue JsonPatch
open Json (shownAt)

theorem valueBelow_denote (tail : List Text) (value : Value) :
    (valueBelow tail value).denote = shownAt tail value.denote := by
  rw [valueBelow, shownAt, ← JsonPtr.get_denote]
  cases JsonPtr.get tail value with
  | none | some x => rfl

/-- An operation that moves what a pointer leads to. A replacement of what is missing
is an addition. -/
def displaces (ptr : List Text) (d : Json) : PatchOperation → Bool
  | .add path _ => Json.moves Json.addMoves path ptr d
  | .remove path => Json.moves Json.removeMoves path ptr d
  | .replace path _ =>
    if (Json.get path d).isSome then Json.moves Json.replaceMoves path ptr d
    else Json.moves Json.addMoves path ptr d
  | _ => false

/-- An operation seen from a pointer leads from what was there to what is there. -/
def ScopedStep (x y : Json) : Option PatchOperation → Prop
  | none => y = x
  | some op => applyJson x op = some y

variable {ptr path : List Text} {value : Value} {d d' : Json}

theorem stripPrefix_eq_none {path other : List Text} (h : stripPrefix path other = none)
    (tail : List Text) : path ≠ other ++ tail := by
  intro htail
  rw [stripPrefix_eq_some.mpr htail] at h
  cases h

/-- What is missing below a pointer is missing in what the pointer shows. -/
theorem get_shownAt {tail : List Text} (hne : tail ≠ []) (h : Json.get (ptr ++ tail) d = none) :
    Json.get tail (shownAt ptr d) = none := by
  rw [Json.get_append] at h
  cases hget : Json.get ptr d with
  | none =>
    cases tail with
    | nil => exact absurd rfl hne
    | cons seg rest => simp [shownAt, hget, Json.get, Json.follow, Json.resolve]
  | some x => simpa [shownAt, hget] using h

/-- The view of a new value at a path: with the rest of the path inside, whole above,
and nothing beside. -/
theorem scopedStep_value {α : Type} {edit : List Text → Json → Option (α × Json)} {a : α}
    (hshows : Json.Shows edit (shownAt · value.denote) path ptr d d' a)
    {op : List Text → Value → PatchOperation}
    (hroot : ∀ x v, applyJson x (op [] v) = some v.denote)
    (hinner : ∀ tail, path = ptr ++ tail → tail ≠ [] →
      applyJson (shownAt ptr d) (op tail value) = some (shownAt ptr d')) :
    ScopedStep (shownAt ptr d) (shownAt ptr d') (match stripPrefix path ptr with
      | some tail => some (op tail value)
      | none => (stripPrefix ptr path).map fun tail => op [] (valueBelow tail value)) := by
  cases hinside : stripPrefix path ptr with
  | some tail =>
    have hpath := stripPrefix_eq_some.mp hinside
    by_cases htail : tail = []
    · subst htail
      rw [hshows.above [] (by simp [hpath])]
      exact hroot _ value
    · exact hinner tail hpath htail
  | none =>
    cases habove : stripPrefix ptr path with
    | some tail =>
      rw [hshows.above tail (stripPrefix_eq_some.mp habove), ← valueBelow_denote]
      exact hroot _ _
    | none => exact hshows.beside (stripPrefix_eq_none hinside) (stripPrefix_eq_none habove)

theorem scopedStep_replace (hstep : applyJson d (.replace path value) = some d')
    (hplace : displaces ptr d (.replace path value) = false) :
    ScopedStep (shownAt ptr d) (shownAt ptr d') (forPathOperation ptr (.replace path value)) := by
  have hnone := Json.replace_eq_none_iff path value.denote d
  rw [applyJson] at hstep
  cases hedit : Json.replace path value.denote d with
  | some r =>
    have hget : Json.get path d ≠ none := fun h => by simp [hnone.mpr h] at hedit
    rw [displaces, if_pos (Option.isSome_iff_ne_none.mpr hget)] at hplace
    rw [hedit] at hstep
    cases hstep
    have hshows := (Json.scoped_replace value.denote).shows hedit hplace
    refine scopedStep_value hshows (fun _ _ => rfl) fun tail hpath htail => ?_
    rw [applyJson, hshows.inside tail hpath htail]
  | none =>
    have hget := hnone.mp hedit
    rw [displaces, hget] at hplace
    rw [hedit] at hstep
    obtain ⟨⟨prev, _⟩, hinsert, rfl⟩ := Option.map_eq_some_iff.mp hstep
    have hshows := (Json.scoped_insert value.denote).shows hinsert hplace
    refine scopedStep_value hshows (fun _ _ => rfl) fun tail hpath htail => ?_
    have hmissing : Json.replace tail value.denote (shownAt ptr d) = none :=
      (Json.replace_eq_none_iff _ _ _).mpr (get_shownAt htail (hpath ▸ hget))
    rw [applyJson, hmissing, hshows.inside tail hpath htail]
    rfl

theorem scopedStep_remove (hstep : applyJson d (.remove path) = some d')
    (hplace : displaces ptr d (.remove path) = false) :
    ScopedStep (shownAt ptr d) (shownAt ptr d') (forPathOperation ptr (.remove path)) := by
  obtain ⟨⟨old, _⟩, hedit, rfl⟩ := Option.map_eq_some_iff.mp hstep
  have hshows := Json.scoped_remove.shows hedit hplace
  rw [forPathOperation]
  by_cases habove : startsWith ptr path = true
  · obtain ⟨tail, htail⟩ := startsWith_iff.mp habove
    rw [if_pos habove, hshows.above tail htail]
    rfl
  · rw [if_neg habove]
    have houtside (tail : List Text) (htail : ptr = path ++ tail) : False :=
      habove (startsWith_iff.mpr ⟨tail, htail⟩)
    cases hinside : stripPrefix path ptr with
    | some tail =>
      have hpath := stripPrefix_eq_some.mp hinside
      have htail : tail ≠ [] := by
        rintro rfl
        exact houtside [] (by simp [hpath])
      change applyJson _ _ = _
      rw [applyJson, hshows.inside tail hpath htail]
      rfl
    | none => exact hshows.beside (stripPrefix_eq_none hinside) houtside

/-- The view of an operation below a pointer does there what the operation does to the
document, unless it moves what the pointer leads to. -/
theorem forPath_step {op : PatchOperation} (hdiff : isDiffOperation op = true)
    (hstep : applyJson d op = some d') (hplace : displaces ptr d op = false) :
    ScopedStep (shownAt ptr d) (shownAt ptr d') (forPathOperation ptr op) := by
  cases op with
  | add path value =>
    obtain ⟨⟨prev, _⟩, hedit, rfl⟩ := Option.map_eq_some_iff.mp hstep
    have hshows := (Json.scoped_insert value.denote).shows hedit hplace
    refine scopedStep_value hshows (fun _ _ => rfl) fun tail hpath htail => ?_
    rw [applyJson, hshows.inside tail hpath htail]
    rfl
  | remove path => exact scopedStep_remove hstep hplace
  | replace path value => exact scopedStep_replace hstep hplace
  | _ => cases hdiff

/-- No operation of a patch moves what a pointer leads to. -/
def keepsPlace (ptr : List Text) (doc : Value) : Patch → Bool
  | [] => true
  | op :: rest =>
    !displaces ptr doc.denote op &&
      match applyOperation doc op with
      | (.ok _, doc) => keepsPlace ptr doc rest
      | (.error _, _) => true

/-- The view of a patch below a pointer leads from what was there to what is there. -/
theorem forPath_run {doc : Value} (hdoc : doc.WellFormed) {p : Patch} (hp : p.WellFormed)
    (hdiff : ∀ op ∈ p, isDiffOperation op = true) (hrun : runJson doc.denote p = some d')
    (hplace : keepsPlace ptr doc p = true) :
    runJson (shownAt ptr doc.denote) (p.filterMap (forPathOperation ptr)) =
      some (shownAt ptr d') := by
  induction p generalizing doc with
  | nil =>
    cases hrun
    rfl
  | cons op rest ih =>
    obtain ⟨d₁, hstep, hrest⟩ := Option.bind_eq_some_iff.mp hrun
    simp only [keepsPlace, Bool.and_eq_true, Bool.not_eq_true'] at hplace
    have hseen := forPath_step (hdiff op (by simp)) hstep hplace.1
    cases applyOperation_outcome hdoc (hp op (by simp)) with
    | ok u doc' hok effect wellFormed restores =>
      obtain rfl : doc'.denote = d₁ := Option.some.inj (effect.symm.trans hstep)
      simp only [hok] at hplace
      have htail := ih wellFormed hp.tail
        (fun o ho => hdiff o (by simp [ho])) hrest hplace.2
      cases hview : forPathOperation ptr op with
      | none =>
        rw [hview] at hseen
        rw [List.filterMap_cons_none hview, ← show _ = _ from hseen]
        exact htail
      | some op' =>
        rw [hview] at hseen
        rw [List.filterMap_cons_some hview, runJson, List.foldlM_cons,
          show applyJson _ _ = _ from hseen]
        exact htail
    | error e doc' herr effect wellFormed unchanged =>
      rw [effect] at hstep
      cases hstep

end StartTech.PatchDb
