import StartTech.JsonPatch.Diff
import StartTech.JsonPatch.Rewriting

/-!
# The difference of two documents turns one into the other

Each loop of the differ rewrites what it has walked over: behind the target
cursor the document is the target, ahead of the source cursor it is the source.
-/

namespace StartTech.JsonPatch

open Foundation ImblValue JsonPtr
open InOMap (keys mem_of_get get_eq_none)
open Value (eq_iff denote_object)
open Value (denote array depth eq)

/-- The differ succeeds on two values and rewrites one into the other at every path, by nothing if
they are equal. -/
def Differs (recurse : List Text → Value → Value → Option Patch) (source target : Value) : Prop :=
  ∀ path, ∃ ops, recurse path source target = some ops ∧
    Rewrites path source.denote target.denote ops ∧ (source.denote = target.denote → ops = [])

section Array

variable {path : List Text} {walked rest : List Json} {i : Nat}

private theorem insertIdx_walked (v : Json) :
    (walked ++ rest).insertIdx walked.length v = walked ++ v :: rest := by
  induction walked with
  | nil => rfl
  | cons x walked ih => simp [ih]

variable (hi : walked.length = i)
include hi

private theorem follow_decimal (x : Json) :
    Json.follow false (Text.decimal i) (.array (walked ++ x :: rest)) = some (.index i, x) := by
  refine Json.follow_eq_some.mpr ⟨?_, ?_⟩
  · rw [Json.resolve, Json.removeIdx_of_parseIdx]
    · rfl
    · rw [Json.parseIdx_decimal]
      rfl
  · subst hi
    simp [Json.child]

private theorem insertHere_decimal (v : Json) :
    Json.insertHere (Text.decimal i) v (.array (walked ++ rest)) =
      some (none, .array (walked ++ v :: rest)) := by
  have hparse := Json.parseIdx_decimal i
  have hdash : Text.decimal i ≠ dash := by
    apply Json.ne_dash_of_parseIdx
    rw [hparse]
    rfl
  have hle : i ≤ (walked ++ rest).length := by simp [← hi]
  simp only [Json.insertHere, Json.insertIdx_eq hdash, hparse, Except.toOption, Option.bind_some,
    if_pos hle]
  rw [← hi, insertIdx_walked]

theorem length_step (t : Value) : (walked ++ [t.denote]).length = i + 1 := by simp [hi]

variable {y : Json} {ops p : Patch}

theorem Rewrites.addElement {t : Value} (ht : t.WellFormed)
    (h : Rewrites path (.array (walked ++ t.denote :: rest)) y p) :
    Rewrites path (.array (walked ++ rest)) y (.add (indexPath path i) t :: p) :=
  (Rewrites.add ht (insertHere_decimal hi t.denote)).trans h

theorem Rewrites.removeElement {x : Json} (h : Rewrites path (.array (walked ++ rest)) y p) :
    Rewrites path (.array (walked ++ x :: rest)) y (.remove (indexPath path i) :: p) := by
  have hremove : Json.removeHere false (Text.decimal i) (.array (walked ++ x :: rest)) =
      some (x, .array (walked ++ rest)) := by
    rw [Json.removeHere, follow_decimal hi]
    subst hi
    simp [Json.eraseChild, List.eraseIdx_append_of_length_le]
  exact (Rewrites.remove hremove).trans h

theorem Rewrites.editElement {x x' : Json} (hops : Rewrites (indexPath path i) x x' ops)
    (h : Rewrites path (.array (walked ++ x' :: rest)) y p) :
    Rewrites path (.array (walked ++ x :: rest)) y (ops ++ p) := by
  have hfollow : Json.follow false (Text.decimal i) (.array (walked ++ x :: rest)) = _ :=
    follow_decimal hi x
  have hbelow := hops.below hfollow
  have hset : Json.setChild (.index i) x' (.array (walked ++ x :: rest)) =
      .array (walked ++ x' :: rest) := by
    subst hi
    simp [Json.setChild]
  rw [hset] at hbelow
  exact hbelow.trans h

theorem rewrites_addRest {ts : List Value} (hts : ∀ t ∈ ts, t.WellFormed) :
    Rewrites path (.array walked) (.array (walked ++ ts.map denote)) (addRest path i ts) := by
  induction ts generalizing walked i with
  | nil => simpa [addRest] using Rewrites.refl path (.array walked)
  | cons t ts ih =>
    have hrest := ih (length_step hi t) fun t ht => hts t (by simp [ht])
    have hadd : Rewrites path (.array (walked ++ [])) _ _ :=
      Rewrites.addElement hi (hts t (by simp)) hrest
    simpa [addRest] using hadd

theorem rewrites_removeRest (fs : List Value) :
    Rewrites path (.array (walked ++ fs.map denote)) (.array walked)
      (removeRest path i fs) := by
  induction fs with
  | nil => simpa [removeRest] using Rewrites.refl path (.array walked)
  | cons f fs ih => simpa [removeRest] using ih.removeElement hi

end Array

open Rewrites (refl)

section Loops

variable {ptrEq : Value → Value → Bool} {recurse : List Text → Value → Value → Option Patch}
  {path : List Text} (hptr : ∀ a b, ptrEq a b = true → a.eq b = true)
  {f t : Value} {fs ts : List Value} {walked : List Json} {i : Nat} {run : Option Patch}

/-- Two lists of values of which any two can be compared. -/
structure Mergeable (recurse : List Text → Value → Value → Option Patch)
    (fs ts : List Value) : Prop where
  source : ∀ f ∈ fs, f.WellFormed
  target : ∀ t ∈ ts, t.WellFormed
  differs : ∀ f ∈ fs, ∀ t ∈ ts, Differs recurse f t

theorem Mergeable.left (h : Mergeable recurse (f :: fs) ts) : Mergeable recurse fs ts :=
  ⟨fun x hx => h.source x (by simp [hx]), h.target, fun x hx => h.differs x (by simp [hx])⟩

theorem Mergeable.right (h : Mergeable recurse fs (t :: ts)) : Mergeable recurse fs ts :=
  ⟨h.source, fun x hx => h.target x (by simp [hx]),
    fun x hx y hy => h.differs x hx y (by simp [hy])⟩

/-- Elements that are shared are the same. -/
theorem Mergeable.shared (h : Mergeable recurse (f :: fs) (t :: ts)) (heq : f.eq t = true) :
    f.denote = t.denote :=
  (eq_iff (h.source f (by simp)) (h.target t (by simp))).mp heq

/-- A run of a loop turns what is left of the source into what is left of the target. -/
def Merges (path : List Text) (walked : List Json) (fs ts : List Value)
    (run : Option Patch) : Prop :=
  ∃ ops, run = some ops ∧ Rewrites path (.array (walked ++ fs.map denote))
    (.array (walked ++ ts.map denote)) ops

theorem Merges.add (h : Merges path (walked ++ [t.denote]) fs ts run) (ht : t.WellFormed)
    (hi : walked.length = i) :
    Merges path walked fs (t :: ts)
      (do let rest ← run; pure (.add (indexPath path i) t :: rest)) := by
  obtain ⟨ops, rfl, hops⟩ := h
  refine ⟨_, rfl, .addElement hi ht ?_⟩
  simpa using hops

theorem Merges.remove (h : Merges path walked fs ts run) (hi : walked.length = i) :
    Merges path walked (f :: fs) ts
      (do let rest ← run; pure (.remove (indexPath path i) :: rest)) := by
  obtain ⟨ops, rfl, hops⟩ := h
  exact ⟨_, rfl, .removeElement hi hops⟩

theorem Merges.keep (h : Merges path (walked ++ [t.denote]) fs ts run)
    (heq : f.denote = t.denote) : Merges path walked (f :: fs) (t :: ts) run := by
  simpa [Merges, heq] using h

theorem Merges.edit (h : Merges path (walked ++ [t.denote]) fs ts run) (hd : Differs recurse f t)
    (hi : walked.length = i) :
    Merges path walked (f :: fs) (t :: ts) (do
      let ops ← recurse (indexPath path i) f t
      let rest ← run
      pure (ops ++ rest)) := by
  obtain ⟨ops, hrun, hops, -⟩ := hd (indexPath path i)
  obtain ⟨rest, rfl, hrest⟩ := h
  refine ⟨ops ++ rest, by simp [hrun], .editElement hi hops ?_⟩
  simpa using hrest

variable (h : Mergeable recurse fs ts) (hi : walked.length = i)
include hptr h hi

theorem diffGrow_spec : Merges path walked fs ts (diffGrow ptrEq recurse path i fs ts) := by
  induction ts generalizing fs walked i with
  | nil =>
    refine ⟨removeRest path i fs, by cases fs <;> rfl, ?_⟩
    simpa using rewrites_removeRest hi fs
  | cons t ts ih =>
    have ht := h.target t (by simp)
    cases fs with
    | nil => exact (ih h.right (length_step hi t)).add ht hi
    | cons f fs =>
      rw [diffGrow]
      split
      · rename_i hshared
        exact (ih h.left.right (length_step hi t)).keep (h.shared (hptr f t hshared))
      · split
        · exact (ih h.right (length_step hi t)).add ht hi
        · exact (ih h.left.right (length_step hi t)).edit (h.differs f (by simp) t (by simp)) hi

theorem diffShrink_spec : Merges path walked fs ts (diffShrink ptrEq recurse path i fs ts) := by
  induction fs generalizing ts walked i with
  | nil =>
    refine ⟨addRest path i ts, by cases ts <;> rfl, ?_⟩
    simpa using rewrites_addRest hi h.target
  | cons f fs ih =>
    cases ts with
    | nil => exact (ih h.left hi).remove hi
    | cons t ts =>
      rw [diffShrink]
      split
      · rename_i hshared
        exact (ih h.left.right (length_step hi t)).keep (h.shared (hptr f t hshared))
      · split
        · exact (ih h.left hi).remove hi
        · exact (ih h.left.right (length_step hi t)).edit (h.differs f (by simp) t (by simp)) hi

theorem diffPairwise_spec (hlen : fs.length = ts.length) :
    Merges path walked fs ts (diffPairwise ptrEq recurse path i fs ts) := by
  induction fs generalizing ts walked i with
  | nil =>
    obtain rfl := List.length_eq_zero_iff.mp hlen.symm
    exact ⟨[], rfl, refl _ _⟩
  | cons f fs ih =>
    cases ts with
    | nil => simp at hlen
    | cons t ts =>
      have hrest := ih h.left.right (length_step hi t) (by simpa using hlen)
      by_cases hshared : ptrEq f t = true
      · simpa [diffPairwise, hshared] using hrest.keep (h.shared (hptr f t hshared))
      · simpa [diffPairwise, hshared] using hrest.edit (h.differs f (by simp) t (by simp)) hi

end Loops

section Object

variable {recurse : List Text → Value → Value → Option Patch} (path : List Text)
  {f t : InOMap Text Value}

/-- The members of a map as the document shows them. -/
def shown (o : InOMap Text Value) (key : Text) : Option Json :=
  (InOMap.get o key).map denote

variable (hf : ∀ e ∈ f, e.2.WellFormed) (ht : ∀ e ∈ t, e.2.WellFormed)
  (hrec : ∀ a ∈ f, ∀ b ∈ t, Differs recurse a.2 b.2)
include hf ht hrec

theorem diffMember_spec (key : Text) : ∃ ops, diffMember recurse path f t key = some ops ∧
      (∀ m : Text → Option Json, m key = shown f key →
        Rewrites path (.object m) (.object (Function.update m key (shown t key))) ops) ∧
      (shown f key = shown t key → ops = []) := by
  cases hfk : InOMap.get f key with
  | none =>
    cases htk : InOMap.get t key with
    | none =>
      refine ⟨[], by simp [diffMember, hfk, htk], fun m hm => ?_, fun _ => rfl⟩
      have hsame : shown t key = m key := by rw [hm, shown, shown, hfk, htk]
      rw [hsame, Function.update_eq_self]
      exact refl _ _
    | some v =>
      refine ⟨[.add (path ++ [key]) v], by simp [diffMember, hfk, htk], fun m _ => ?_,
        by simp [shown, hfk, htk]⟩
      have hnew : shown t key = some v.denote := by rw [shown, htk]; rfl
      rw [hnew]
      exact Rewrites.add (ht _ (mem_of_get htk)) rfl
  | some u =>
    have hold : shown f key = some u.denote := by rw [shown, hfk]; rfl
    have hu := mem_of_get hfk
    cases htk : InOMap.get t key with
    | none =>
      refine ⟨[.remove (path ++ [key])], by simp [diffMember, hfk, htk], fun m hm => ?_,
        by simp [shown, hfk, htk]⟩
      have hnone : shown t key = none := by rw [shown, htk]; rfl
      rw [hnone]
      refine .remove (v := u.denote) ?_
      simp [Json.removeHere, Json.follow, Json.resolve, Json.child, hm, hold, Json.eraseChild]
    | some v =>
      have hv := mem_of_get htk
      have hnew : shown t key = some v.denote := by rw [shown, htk]; rfl
      by_cases heq : u.eq v = true
      · refine ⟨[], by simp [diffMember, hfk, htk, heq], fun m hm => ?_, fun _ => rfl⟩
        have hsame : shown t key = m key := by
          rw [hm, hnew, hold, (eq_iff (hf _ hu) (ht _ hv)).mp heq]
        rw [hsame, Function.update_eq_self]
        exact refl _ _
      · obtain ⟨ops, hrun, hops, hnil⟩ := hrec _ hu _ hv (path ++ [key])
        refine ⟨ops, by simpa [diffMember, hfk, htk, heq] using hrun, fun m hm => ?_, fun h =>
          hnil (by simpa [hold, hnew] using h)⟩
        rw [hnew]
        exact hops.below (s := .key key)
          (Json.follow_eq_some.mpr ⟨rfl, hm.trans hold⟩)

/-- The keys still to come have the source's members, those behind the target's. -/
theorem diffMembers_spec {keys : List Text} (hkeys : keys.Nodup) :
    ∃ ops, diffMembers recurse path f t keys = some ops ∧
      (∀ m : Text → Option Json, (∀ k ∈ keys, m k = shown f k) → Rewrites path (.object m)
          (.object fun k => if k ∈ keys then shown t k else m k) ops) ∧
      (shown f = shown t → ops = []) := by
  induction keys with
  | nil =>
    refine ⟨[], rfl, fun m _ => ?_, fun _ => rfl⟩
    simpa using refl path (.object m)
  | cons key keys ih =>
    obtain ⟨hnew, hkeys'⟩ := List.nodup_cons.mp hkeys
    obtain ⟨ops, hrun, hops, hnil⟩ := diffMember_spec path hf ht hrec key
    obtain ⟨rest, hrun', hrest, hnil'⟩ := ih hkeys'
    refine ⟨ops ++ rest, by simp [diffMembers, hrun, hrun'], fun m hm => ?_, fun h => by
      rw [hnil (congrFun h key), hnil' h, List.append_nil]⟩
    have hahead : ∀ k ∈ keys, Function.update m key (shown t key) k = shown f k := by
      intro k hk
      have hne : k ≠ key := ne_of_mem_of_not_mem hk hnew
      rw [Function.update_of_ne hne, hm k (by simp [hk])]
    have hdone : (fun k => if k ∈ key :: keys then shown t k else m k) =
        fun k => if k ∈ keys then shown t k else Function.update m key (shown t key) k := by
      funext k
      by_cases hk : k = key
      · subst hk
        simp
      · simp [hk]
    rw [hdone]
    exact (hops m (hm key (by simp))).trans (hrest _ hahead)

/-- Visiting the keys of both objects turns one into the other. -/
theorem diffMembers_union_spec :
    ∃ ops, diffMembers recurse path f t (OrderedSet.ofList (keys f ++ keys t)) = some ops ∧
      Rewrites path (.object (shown f)) (.object (shown t)) ops ∧ (shown f = shown t → ops = []) := by
  obtain ⟨ops, hrun, hops, hnil⟩ := diffMembers_spec path hf ht hrec
    (OrderedSet.nodup_ofList (keys f ++ keys t))
  refine ⟨ops, hrun, ?_, hnil⟩
  have hall : (fun k => if k ∈ OrderedSet.ofList (keys f ++ keys t)
      then shown t k else shown f k) = shown t := by
    funext k
    split
    · rfl
    · rename_i hk
      rw [OrderedSet.mem_ofList, List.mem_append, not_or] at hk
      rw [shown, shown, get_eq_none.mpr hk.1, get_eq_none.mpr hk.2]
  have hfinal := hops (shown f) fun _ _ => rfl
  rwa [hall] at hfinal

end Object

theorem depth_le_of_mem {x : Value} {l : List Value} (h : x ∈ l) : x.depth ≤ Value.depthList l := by
  induction l with
  | nil => cases h
  | cons y l ih =>
    rcases List.mem_cons.mp h with rfl | h
    · exact Nat.le_max_left _ _
    · exact Nat.le_trans (ih h) (Nat.le_max_right _ _)

theorem depth_le_of_member {e : Text × Value} {o : List (Text × Value)} (h : e ∈ o) :
    e.2.depth ≤ Value.depthMembers o := by
  induction o with
  | nil => cases h
  | cons d o ih =>
    rcases List.mem_cons.mp h with rfl | h
    · exact Nat.le_max_left _ _
    · exact Nat.le_trans (ih h) (Nat.le_max_right _ _)

variable {source target : Value} {ptrEq : Value → Value → Bool} {path : List Text}

theorem Merges.differs {ptr ptr' : Nat} {f t : List Value} {run : Option Patch}
    (h : Merges path [] f t run) (hnil : f.map denote = t.map denote → run = some []) :
    ∃ ops, run = some ops ∧ Rewrites path (array ptr f).denote (array ptr' t).denote ops ∧
      ((array ptr f).denote = (array ptr' t).denote → ops = []) := by
  obtain ⟨ops, rfl, hops⟩ := h
  rw [Value.denote_array, Value.denote_array, Json.array.injEq]
  exact ⟨ops, rfl, hops, fun heq => Option.some.inj (hnil heq)⟩

theorem diffPairwise_of_denote_eq {recurse : List Text → Value → Value → Option Patch}
    {fs ts : List Value} {i : Nat} (hrec : ∀ f ∈ fs, ∀ t ∈ ts, Differs recurse f t)
    (h : fs.map denote = ts.map denote) :
    diffPairwise ptrEq recurse path i fs ts = some [] := by
  induction fs generalizing ts i with
  | nil =>
    cases ts with
    | nil => rfl
    | cons t ts => simp at h
  | cons f fs ih =>
    cases ts with
    | nil => simp at h
    | cons t ts =>
      rw [List.map_cons, List.map_cons, List.cons.injEq] at h
      obtain ⟨ops, hhead, -, hnil⟩ := hrec f (by simp) t (by simp) (indexPath path i)
      have htail := ih (i := i + 1) (fun a ha b hb => hrec a (by simp [ha]) b (by simp [hb])) h.2
      simp [diffPairwise, hhead, hnil h.1, htail]

/-- A bound of the depth of the source is enough for the differ to succeed. -/
theorem diffMut_spec (hptr : ∀ a b, ptrEq a b = true → a.eq b = true) {fuel : Nat}
    (hs : source.WellFormed) (ht : target.WellFormed) (hfuel : source.depth ≤ fuel) :
    Differs (diffMut ptrEq fuel) source target := by
  induction fuel generalizing source target with
  | zero => cases source <;> simp [depth] at hfuel
  | succ fuel ih =>
    intro path
    have hreplace :
        Rewrites path source.denote target.denote (replaceUnlessEq path source target) ∧
          (source.denote = target.denote → replaceUnlessEq path source target = []) := by
      rw [replaceUnlessEq]
      split
      · rename_i heq
        rw [(eq_iff hs ht).mp heq]
        exact ⟨refl _ _, fun _ => rfl⟩
      · rename_i hne
        exact ⟨.replace ht, fun h => absurd ((eq_iff hs ht).mpr h) hne⟩
    unfold diffMut
    split
    · rename_i ptr f ptr' t
      split
      · exact ⟨_, rfl, hreplace⟩
      · have hrec : ∀ a ∈ f, ∀ b ∈ t, Differs (diffMut ptrEq fuel) a.2 b.2 := by
          intro a ha b hb
          rw [depth] at hfuel
          have hdepth := depth_le_of_member ha
          exact ih (hs.members a ha) (ht.members b hb) (by omega)
        rw [denote_object, denote_object, Json.object.injEq]
        exact diffMembers_union_spec path hs.members ht.members hrec
    · rename_i ptr f ptr' t
      have hrec : ∀ a ∈ f, ∀ b ∈ t, Differs (diffMut ptrEq fuel) a b := by
        intro a ha b hb
        rw [depth] at hfuel
        have hdepth := depth_le_of_mem ha
        exact ih (hs.elements a ha) (ht.elements b hb) (by omega)
      have hmerge : Mergeable (diffMut ptrEq fuel) f t := ⟨hs.elements, ht.elements, hrec⟩
      have hlen (h : f.map denote = t.map denote) : f.length = t.length := by
        simpa using congrArg List.length h
      split
      · exact ⟨_, rfl, hreplace⟩
      · split
        · exact (diffGrow_spec hptr hmerge rfl).differs fun h => absurd (hlen h) (by omega)
        · split
          · exact (diffShrink_spec hptr hmerge rfl).differs fun h => absurd (hlen h) (by omega)
          · exact (diffPairwise_spec hptr hmerge rfl (by omega)).differs
              (diffPairwise_of_denote_eq hrec)
    · exact ⟨_, rfl, hreplace⟩

/-- The difference is a well-formed run from one document to the other. -/
theorem diff_spec (hptr : ∀ a b, ptrEq a b = true → a.eq b = true) (hs : source.WellFormed)
    (ht : target.WellFormed) :
    ∃ p, diff ptrEq source target = some p ∧ p.WellFormed ∧
      DirectRun source.denote p target.denote ∧ (source.denote = target.denote → p = []) := by
  obtain ⟨p, hrun, hp, hnil⟩ := diffMut_spec hptr hs ht Nat.le.refl []
  exact ⟨p, hrun, hp.wellFormed, hp.run source.denote rfl, hnil⟩

/-- Patching with the difference gives the target, and undoing that gives the
source back. -/
theorem diff_roundTrip (ptrEq : Value → Value → Bool)
    (hptr : ∀ a b, ptrEq a b = true → a.eq b = true) (source target : Value)
    (hs : source.WellFormed) (ht : target.WellFormed) :
    ∃ p undo doc doc₀, diff ptrEq source target = some p ∧
      patch source p = some (.ok undo, doc) ∧ doc.eq target = true ∧
      Undo.apply undo doc = some doc₀ ∧ doc₀.eq source = true := by
  obtain ⟨p, hdiff, hp, hrun, -⟩ := diff_spec hptr hs ht
  obtain ⟨undo, doc, hpatch, hdoc, heq, hrestore⟩ := patch_of_directRun hs hp hrun
  obtain ⟨doc₀, hundo, hdoc₀, heq₀⟩ := hrestore doc hdoc heq
  refine ⟨p, undo, doc, doc₀, hdiff, hpatch, ?_, hundo, ?_⟩
  · exact (eq_iff hdoc ht).mpr heq
  · exact (eq_iff hdoc₀ hs).mpr heq₀

/-- An element put in front of a shared one, with a member that changes below it. -/
theorem diff_roundTrip_grown : ∃ p undo doc doc₀,
      diff Value.eq (.array 0 [.bool true, .object 1 [(['a'], .null)]])
          (.array 2 [.null, .bool true, .object 3 [(['b'], .null)]]) = some p ∧
      patch (.array 0 [.bool true, .object 1 [(['a'], .null)]]) p = some (.ok undo, doc) ∧
      doc.eq (.array 2 [.null, .bool true, .object 3 [(['b'], .null)]]) = true ∧
      Undo.apply undo doc = some doc₀ ∧
      doc₀.eq (.array 0 [.bool true, .object 1 [(['a'], .null)]]) = true := by
  refine diff_roundTrip eq (fun _ _ h => h) _ _ (.array ?_) (.array ?_)
  · intro x hx
    rcases List.mem_cons.mp hx with rfl | hx
    · exact .bool true
    · rw [List.mem_singleton.mp hx]
      exact wellFormed_member _ _ .null
  · intro x hx
    rcases List.mem_cons.mp hx with rfl | hx
    · exact .null
    · rcases List.mem_cons.mp hx with rfl | hx
      · exact .bool true
      · rw [List.mem_singleton.mp hx]
        exact wellFormed_member _ _ .null

end StartTech.JsonPatch
