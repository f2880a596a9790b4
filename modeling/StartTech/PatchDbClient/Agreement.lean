import StartTech.PatchDb.ForPath
import StartTech.PatchDbClient.JsonPatchLib

/-!
# The client agrees with the server

The client reads the text of a server's pointer back to its segments. Where the server
can apply an operation the client throws nothing and arrives at the same document, unless
a member with the name of the prototype is on the way, which copying an object loses. So
it does over a whole patch that the server accepts.
-/

namespace StartTech.PatchDbClient

open Foundation ImblValue JsonPtr JsonPatch
open JsonPointer (parse parseLoop)
open PatchDb (Change)
open Function (update update_self)

theorem replaceChar_append (a : Char) (new s t : Text) :
    replaceChar a new (s ++ t) = replaceChar a new s ++ replaceChar a new t :=
  List.flatMap_append

/-- A segment in which only the tildes are escaped. -/
def tildes (s : Text) : Text := replaceChar '~' ['~', '0'] s

theorem tildes_cons (c : Char) (s : Text) :
    tildes (c :: s) = (if c = '~' then ['~', '0'] else [c]) ++ tildes s := by
  rfl

theorem replacePair_of_ne {a b new x : Char} (h : x ≠ a) (s : Text) :
    replacePair a b new (x :: s) = x :: replacePair a b new s := by
  cases s with
  | nil => rfl
  | cons y rest => rw [replacePair, if_neg fun hpair => h hpair.1]

theorem replacePair_match (a b new : Char) (s : Text) :
    replacePair a b new (a :: b :: s) = new :: replacePair a b new s := by
  rw [replacePair, if_pos ⟨rfl, rfl⟩]

/-- The slashes are read first, which leaves the tildes. -/
theorem replacePair_escape (s : Text) : replacePair '~' '1' '/' (escape s) = tildes s := by
  induction s with
  | nil => rfl
  | cons c s ih =>
    rw [escape_cons, tildes_cons]
    rcases escapeChar_cases c with ⟨rfl, hc⟩ | ⟨rfl, hc⟩ | ⟨hs, hc⟩
    · rw [hc, List.cons_append, List.singleton_append,
        replacePair, if_neg (by decide), replacePair_of_ne (by decide), ih]
      rfl
    · rw [hc, List.cons_append, List.singleton_append, replacePair_match, ih]
      rfl
    · have hne : c ≠ '~' := by
        rintro rfl
        cases hs
      rw [hc, if_neg hne, List.singleton_append, List.singleton_append, replacePair_of_ne hne, ih]

theorem replacePair_tildes (s : Text) : replacePair '~' '0' '~' (tildes s) = s := by
  induction s with
  | nil => rfl
  | cons c s ih =>
    rw [tildes_cons]
    by_cases hc : c = '~'
    · rw [if_pos hc, List.cons_append, List.singleton_append, replacePair_match, ih, hc]
    · rw [if_neg hc, List.singleton_append, replacePair_of_ne hc, ih]

theorem slash_not_mem_escape (s : Text) : '/' ∉ escape s := by
  rw [escape, List.mem_flatMap]
  rintro ⟨c, -, hmem⟩
  rcases escapeChar_cases c with ⟨-, hc⟩ | ⟨-, hc⟩ | ⟨hs, hc⟩
  · rw [hc] at hmem
    exact absurd hmem (by decide)
  · rw [hc] at hmem
    exact absurd hmem (by decide)
  · rw [hc] at hmem
    obtain rfl := List.mem_singleton.mp hmem
    cases hs

theorem intercalate_escape (s : Text) (l : List Text) :
    ['/'].intercalate (s :: l.map escape) = s ++ escapeAll l := by
  induction l generalizing s with
  | nil => simp [List.intercalate]
  | cons t l ih =>
    rw [List.map_cons, List.intercalate_cons_cons, ih, List.append_assoc]
    rfl

theorem split_escapeAll (l : List Text) : Text.split '/' (escapeAll l) = [] :: l.map escape := by
  rw [← List.nil_append (escapeAll l), ← intercalate_escape]
  apply List.splitOn_intercalate
  · intro s hs
    rcases List.mem_cons.mp hs with rfl | hs
    · simp
    · obtain ⟨t, -, rfl⟩ := List.mem_map.mp hs
      exact slash_not_mem_escape t
  · simp

/-- The client reads the segments of a pointer from its text. -/
theorem arrayFromPath_escapeAll (l : List Text) : arrayFromPath (escapeAll l) = l := by
  rw [arrayFromPath, split_escapeAll, List.drop_one, List.tail_cons, List.map_map]
  conv_rhs => rw [← List.map_id l]
  apply List.map_congr_left
  intro s _
  simp [replacePair_escape, replacePair_tildes, id_eq]

theorem replaceChar_tildes (s : Text) : replaceChar '/' ['~', '1'] (tildes s) = escape s := by
  induction s with
  | nil => rfl
  | cons c s ih =>
    rw [tildes_cons, replaceChar_append, ih]
    rcases escapeChar_cases c with ⟨rfl, hc⟩ | ⟨rfl, hc⟩ | ⟨hs, hc⟩
    · rfl
    · rfl
    · have htilde : c ≠ '~' := by
        rintro rfl
        cases hs
      have hslash : c ≠ '/' := by
        rintro rfl
        cases hs
      simp [hc, htilde, hslash, replaceChar]

/-- The client writes a pointer as the server does. -/
theorem pathFromArray_eq (l : List Text) : pathFromArray l = escapeAll l := by
  cases l with
  | nil => rfl
  | cons s l =>
    have hmap : (s :: l).map (fun a => replaceChar '/' ['~', '1'] (replaceChar '~' ['~', '0'] a)) =
        escape s :: l.map escape := by
      exact List.map_congr_left fun a _ => replaceChar_tildes a
    rw [pathFromArray, hmap, intercalate_escape, escapeAll_cons]

/-- The client reads back the segments that it writes. So does the server, unless some segment has a
character of several bytes in front of its first escape or of its end. -/
theorem pathFromArray_roundTrip (l : List Text) :
    arrayFromPath (pathFromArray l) = l ∧
      ((∃ p, parse (pathFromArray l) = some (.ok p) ∧ p.iter = some l) ↔
        ∀ s ∈ l, endsInByte (plainHead s) = true) := by
  rw [pathFromArray_eq]
  exact ⟨arrayFromPath_escapeAll l, JsonPointer.iter_parse_iff l⟩

/-- Every tilde is followed by a zero or a one. -/
def tildesEscaped : Text → Bool
  | '~' :: '0' :: s | '~' :: '1' :: s => tildesEscaped s
  | '~' :: _ => false
  | _ :: s => tildesEscaped s
  | [] => true

theorem tildesEscaped_append (s t : Text) : tildesEscaped (escape s ++ t) = tildesEscaped t := by
  induction s with
  | nil => rfl
  | cons c s ih =>
    rw [escape_cons, List.append_assoc, ← ih]
    rcases escapeChar_cases c with ⟨rfl, hc⟩ | ⟨rfl, hc⟩ | ⟨hs, hc⟩
    · rfl
    · rfl
    · rw [hc, List.singleton_append, tildesEscaped.eq_4]
      all_goals
        intros
        subst_vars
        cases hs

theorem tildesEscaped_escapeAll (l : List Text) (t : Text) :
    tildesEscaped (escapeAll l ++ t) = tildesEscaped t := by
  induction l with
  | nil => rfl
  | cons s l ih =>
    rw [escapeAll_cons, List.cons_append, List.append_assoc, ← ih]
    exact tildesEscaped_append s _

theorem takeWhile_escape (s : Text) : (escape s).takeWhile (· != '~') = plainHead s := by
  induction s with
  | nil => rfl
  | cons c s ih =>
    rcases escapeChar_cases c with ⟨rfl, -⟩ | ⟨rfl, -⟩ | ⟨hs, hc⟩
    · rfl
    · rfl
    · have hne : c ≠ '~' := by
        rintro rfl
        cases hs
      simp [hc, hs, hne, ih, plainHead]

theorem tilde_mem_escape (s : Text) : '~' ∈ escape s ↔ s.any isSpecial = true := by
  rw [escape, List.mem_flatMap, List.any_eq_true]
  refine exists_congr fun c => and_congr_right fun _ => ?_
  rcases escapeChar_cases c with ⟨rfl, -⟩ | ⟨rfl, -⟩ | ⟨hs, hc⟩
  · decide
  · decide
  · rw [hc, hs, List.mem_singleton]
    exact ⟨fun h => (h ▸ hs : isSpecial '~' = false).symm, fun h => nomatch h⟩

theorem all_readable_iff (l : List Text) : l.all readable = true ↔
      ∀ t ∈ l, t.any isSpecial = true → endsInByte (plainHead t) = true := by
  rw [List.all_eq_true]
  refine forall₂_congr fun t _ => ?_
  rw [readable]
  cases t.any isSpecial <;> simp

/-- The parser reads what the standard accepts, and rejects everything else. -/
def ReadsStandard (s : Text) : Prop :=
  (∃ r, parse s = some r) ∧
    ((∃ p, parse s = some (.ok p)) ↔ s = [] ∨ s.head? = some '/' ∧ tildesEscaped s = true) ∧
    ∀ p, parse s = some (.ok p) → p.iter = some (arrayFromPath s)

/-- A text that starts with a slash has no open escape at its end, and each of its pieces ends, in
front of its first escape, in a character of one byte. Behind a wrong escape nothing is asked for,
and in front of one only of pieces with an escape. -/
def Parsable (s : Text) : Prop :=
  s.head? = some '/' → s ≠ wellEscaped s ++ ['~'] ∧
    ∀ piece ∈ Text.split '/' (wellEscaped s), wellEscaped s = s ∨ '~' ∈ piece →
      endsInByte (piece.takeWhile (· != '~')) = true

theorem readsStandard_of_head {s : Text} (h : s.head? ≠ some '/') : ReadsStandard s := by
  cases s with
  | nil =>
    refine ⟨⟨_, rfl⟩, ⟨fun _ => .inl rfl, fun _ => ⟨_, rfl⟩⟩, fun p hp => ?_⟩
    cases hp
    rfl
  | cons c rest =>
    have hc : c ≠ '/' := fun hc => h (congrArg some hc)
    have hparse : parse (c :: rest) = some (.error .noLeadingSlash) := if_neg hc
    rw [ReadsStandard, hparse]
    simp [hc]

theorem readsStandard_segments (s : Text) (l : List Text) :
    ReadsStandard (escapeAll (s :: l)) ↔ ∀ t ∈ s :: l, endsInByte (plainHead t) = true := by
  have hstd : tildesEscaped (escapeAll (s :: l)) = true := by
    rw [← List.append_nil (escapeAll _), tildesEscaped_escapeAll]
    rfl
  rw [← JsonPointer.iter_parse_iff]
  constructor
  · rintro ⟨-, haccept, hiter⟩
    obtain ⟨p, hp⟩ := haccept.mpr (.inr ⟨rfl, hstd⟩)
    exact ⟨p, hp, arrayFromPath_escapeAll (s :: l) ▸ hiter p hp⟩
  · rintro ⟨p, hp, hiter⟩
    refine ⟨⟨_, hp⟩, ⟨fun _ => .inr ⟨rfl, hstd⟩, fun _ => ⟨p, hp⟩⟩, fun q hq => ?_⟩
    cases hp.symm.trans hq
    rw [hiter, arrayFromPath_escapeAll]

/-- An open escape is accepted, if the parser gets that far. -/
theorem not_readsStandard_open (s : Text) (l : List Text) :
    ¬ ReadsStandard (escapeAll (s :: l) ++ ['~']) := by
  rintro ⟨⟨r, hr⟩, haccept, -⟩
  obtain ⟨idx, before, last, -, hparse⟩ := JsonPointer.parse_segments s l ['~']
  rw [hparse] at hr haccept
  split at hr
  · obtain hnil | ⟨-, hstd⟩ := haccept.mp ⟨_, if_pos ‹_›⟩
    · cases hnil
    · rw [tildesEscaped_escapeAll] at hstd
      cases hstd
  · cases hr

/-- A wrong escape is rejected, if the parser gets that far. -/
theorem readsStandard_wrong (s : Text) (l : List Text) {c : Char} (rest : Text) (hzero : c ≠ '0')
    (hone : c ≠ '1') : ReadsStandard (escapeAll (s :: l) ++ '~' :: c :: rest) ↔
      ∀ t ∈ s :: l, t.any isSpecial = true → endsInByte (plainHead t) = true := by
  have hstd : tildesEscaped ('~' :: c :: rest) = false := by
    rw [tildesEscaped.eq_3]
    · rintro _ ⟨⟩
      exact hzero rfl
    · rintro _ ⟨⟩
      exact hone rfl
  obtain ⟨idx, before, last, -, hparse⟩ := JsonPointer.parse_segments s l ('~' :: c :: rest)
  rw [show parseLoop _ idx _ before last false = some (.error (.invalidEscape c)) by
    simp [parseLoop]] at hparse
  rw [ReadsStandard, hparse, tildesEscaped_escapeAll, hstd, ← all_readable_iff]
  split
  · simp [*, Except.map]
  · simp [*]

/-- The server's parser accepts the pointers of the standard, and reads the parts that the
client reads, exactly for texts that are parsable. -/
theorem parse_standard_iff (s : Text) : ReadsStandard s ↔ Parsable s := by
  by_cases hhead : s.head? = some '/'
  · obtain ⟨rest, rfl⟩ := List.head?_eq_some_iff.mp hhead
    obtain ⟨t, l, wrong, hwell, hrest, hwrong⟩ := exists_segments rest
    have hseg : wellEscaped ('/' :: rest) = escapeAll (t :: l) := congrArg _ hwell
    have htext : '/' :: rest = escapeAll (t :: l) ++ wrong := by
      rw [← hseg]
      exact congrArg _ hrest
    rw [Parsable, hseg, split_escapeAll, List.forall_mem_cons, List.forall_mem_map, htext]
    simp only [takeWhile_escape, tilde_mem_escape]
    rcases hwrong with rfl | rfl | ⟨c, rest, rfl, hzero, hone⟩
    · rw [List.append_nil, readsStandard_segments]
      simp [endsInByte]
    · exact iff_of_false (not_readsStandard_open t l) fun h => (h rfl).1 rfl
    · rw [readsStandard_wrong t l rest hzero hone]
      simp
  · exact iff_of_true (readsStandard_of_head hhead) fun h => absurd h hhead

/-- A tilde at the end is accepted. -/
theorem parse_open_escape :
    JsonPointer.parse ['/', '~'] = some (.ok ⟨['/', '~'], 0, [.unescaped ⟨1, 1⟩]⟩) := rfl

variable (js : Runtime) {op : PatchOp} {value : Json} {seg : Text} {rest path : List Text}
  {d d' x y v : Json} {s : Step} {prev : Option Json}

/-- An index that the server accepts is the same number for the client. -/
theorem resolveArrayIndex_eq {len n : Nat} (h : (insertIdx seg len).toOption = some n) :
    resolveArrayIndex js seg len = .ok n := by
  rw [resolveArrayIndex]
  by_cases hdash : seg = ['-']
  · rw [insertIdx, if_pos (show seg = dash from hdash)] at h
    rw [if_pos hdash, Option.some.inj h]
  · rw [insertIdx, if_neg (show ¬ seg = dash from hdash), parseIdx] at h
    rw [if_neg hdash, number]
    split at h
    · cases h
    · cases hparse : Text.parseDecimal seg with
      | none =>
        rw [hparse] at h
        cases h
      | some k =>
        rw [hparse] at h
        rw [Option.some.inj h]

/-- Copying an object keeps its members and its prototype for an operation at a segment. Only
a primitive can be removed from the name of the prototype. -/
def copiedWell (op : PatchOp) (seg : Text) (rest : List Text) : Json → Bool
  | .object m =>
    if seg = protoName then op == .remove && rest.isEmpty && (m protoName).all isPrimitive
    else (m protoName).isNone
  | _ => true

/-- Every object on the way of an operation is copied well. -/
def copiesWell (op : PatchOp) : List Text → Json → Bool
  | [], _ => true
  | seg :: rest, d =>
    copiedWell op seg rest d && ((Json.follow false seg d).map Prod.snd).all (copiesWell op rest)

theorem copyMembers_of_none {m : Text → Option Json} (h : m protoName = none) :
    copyMembers m = .ok m := by
  rw [copyMembers, h]

/-- A copy has no member with the name of the prototype. -/
theorem copyMembers_proto {m result : Text → Option Json} (h : copyMembers m = .ok result) :
    result protoName = none := by
  rw [copyMembers] at h
  split at h
  · rename_i hnone
    cases h
    exact hnone
  · rw [assignMember, if_pos rfl] at h
    split at h
    · cases h
      exact update_self ..
    · cases h

section Members

variable {m : Text → Option Json}

/-- A member is set in the copy of an object as on the server, exactly if its name and those of the
other members are not the one of the prototype. -/
theorem assigned_iff : ((copyMembers m).bind fun result =>
      (assignMember result seg x).map fun result => Updated.value (.object result)) =
        .ok (.value (.object (update m seg (some y)))) ↔
      seg ≠ protoName ∧ m protoName = none ∧ x = y := by
  constructor
  · intro h
    obtain ⟨result, hcopy, h⟩ := Fallible.bind_eq_ok.mp h
    have hproto := copyMembers_proto hcopy
    rw [assignMember] at h
    split at h
    · -- the copy has no such member, and the server has
      rename_i hseg
      subst hseg
      split at h
      · obtain rfl : result = update m protoName (some y) := by
          simpa [Except.map] using h
        rw [update_self] at hproto
        cases hproto
      · cases h
    · rename_i hseg
      have hresult : update result seg (some x) = update m seg (some y) := by
        simpa [Except.map] using h
      have hxy := congrFun hresult seg
      have hm := congrFun hresult protoName
      rw [update_self, update_self] at hxy
      rw [Function.update_of_ne (Ne.symm hseg), Function.update_of_ne (Ne.symm hseg), hproto] at hm
      exact ⟨hseg, hm.symm, Option.some.inj hxy⟩
  · rintro ⟨hseg, hm, rfl⟩
    rw [copyMembers_of_none hm]
    simp [Except.bind, assignMember, hseg, Except.map]

theorem copiedWell_iff (h : ¬ (rest = [] ∧ op = .remove)) :
    copiedWell op seg rest (.object m) = true ↔ seg ≠ protoName ∧ m protoName = none := by
  rw [copiedWell]
  split
  · rename_i hseg
    refine iff_of_false (fun hwell => h ?_) (fun hne => hne.1 hseg)
    simpa [and_comm] using (Bool.and_eq_true_iff.mp hwell).1
  · rename_i hseg
    simp [hseg]

theorem removed_iff : ((copyMembers m).map fun result =>
      Updated.value (.object (update result seg none))) =
        .ok (.value (.object (update m seg none))) ↔
      copiedWell .remove seg [] (.object m) = true := by
  rw [copiedWell]
  cases hm : m protoName with
  | none =>
    rw [copyMembers_of_none hm]
    simp [Except.map]
  | some d =>
    have hcopy : copyMembers m =
        if isPrimitive d then .ok (update m protoName none)
        else .error .otherPrototype := by
      simp [copyMembers, hm, assignMember]
    rw [hcopy]
    by_cases hseg : seg = protoName
    · subst hseg
      cases hd : isPrimitive d <;> simp [Except.map, hd]
    · rw [if_neg hseg]
      refine iff_of_false (fun h => ?_) (by simp)
      split at h
      · have hother := congrFun (show update (update m protoName none) seg none =
          update m seg none by simpa [Except.map] using h) protoName
        rw [Function.update_of_ne (Ne.symm hseg), Function.update_of_ne (Ne.symm hseg),
          update_self, hm] at hother
        cases hother
      · cases h

end Members

/-- On the way to its target an operation replaces the child that it goes through, exactly if the
node is copied well and the child is what it should be. -/
theorem recursiveApply_descend (hrest : rest ≠ [] ∨ op = .replace)
    (hfollow : Json.follow false seg d = some (s, x))
    (hinner : recursiveApply js op value rest (.json x) = .ok (.value y) ↔
      copiesWell op rest x = true) :
    recursiveApply js op value (seg :: rest) (.json d) = .ok (.value (Json.setChild s y d)) ↔
      copiesWell op (seg :: rest) d = true := by
  have hadd : ¬ (rest = [] ∧ op = .add) := by
    rintro ⟨hnil, rfl⟩
    exact hrest.elim (absurd hnil) (by simp)
  have hremove : ¬ (rest = [] ∧ op = .remove) := by
    rintro ⟨hnil, rfl⟩
    exact hrest.elim (absurd hnil) (by simp)
  rw [copiesWell, Bool.and_eq_true, hfollow, Option.map_some, Option.all_some, ← hinner]
  obtain ⟨hs, hchild⟩ := Json.follow_eq_some.mp hfollow
  cases d with
  | object m =>
    cases hs
    rw [copiedWell_iff hremove, recursiveApply, member, show m seg = some x from hchild]
    cases hr : recursiveApply js op value rest (.json x) with
    | error e => simp
    | ok updated =>
      cases updated with
      | value z => simpa [and_assoc, Json.setChild] using assigned_iff
      | removeSentinel =>
        refine iff_of_false (fun h => ?_) (by simp)
        cases hcopy : copyMembers m with
        | error e =>
          rw [hcopy] at h
          cases h
        | ok result =>
          rw [hcopy] at h
          have hseg := congrFun (show update result seg none =
            update m seg (some y) by simpa [Except.map, Json.setChild] using h) seg
          rw [update_self, update_self] at hseg
          cases hseg
  | array l =>
    rw [Json.resolve, Json.removeIdx_false] at hs
    obtain ⟨i, hi, rfl⟩ := Option.map_eq_some_iff.mp hs
    have hget : l[i]? = some x := hchild
    have hlt : i < l.length := (List.getElem?_eq_some_iff.mp hget).1
    have hindex : (insertIdx seg l.length).toOption = some i := by
      rw [Json.insertIdx_eq (Json.ne_dash_of_parseIdx hi), hi]
    have helement : element l i = .json x := by rw [element, hget]
    simp only [recursiveApply, resolveArrayIndex_eq js hindex, if_neg hadd, if_neg hremove,
      helement, copiedWell, true_and]
    cases hr : recursiveApply js op value rest (.json x) with
    | error e => simp
    | ok updated =>
      cases updated with
      | value z =>
        have hset : l.set i z = l.set i y ↔ z = y := by
          refine ⟨fun h => ?_, fun h => by rw [h]⟩
          have := congrArg (fun l : List Json => l[i]?) h
          simpa [hlt] using this
        simp [setElement, hlt, Except.map, Json.setChild, hset]
      | removeSentinel =>
        have hne : l.eraseIdx i ≠ l.set i y := by
          intro h
          have := congrArg List.length h
          rw [List.length_eraseIdx_of_lt hlt, List.length_set] at this
          omega
        simp [Json.setChild, hne]
  | _ => cases hs

theorem copiesWell_last (op : PatchOp) (seg : Text) (d : Json) :
    copiesWell op [seg] d = copiedWell op seg [] d := by
  rw [copiesWell]
  cases (Json.follow false seg d).map Prod.snd <;> simp [copiesWell]

/-- A value that is put into an object. -/
theorem recursiveApply_member (hop : op ≠ .remove) (m : Text → Option Json) :
    recursiveApply js op v [seg] (.json (.object m)) =
        .ok (.value (.object (update m seg (some v)))) ↔
      copiesWell op [seg] (.object m) = true := by
  rw [copiesWell_last, copiedWell_iff fun h => hop h.2, recursiveApply, recursiveApply.eq_1,
    if_neg hop]
  exact assigned_iff.trans (by simp)

theorem recursiveApply_add (h : Json.insert path v d = some (prev, d')) :
    recursiveApply js .add v path (.json d) = .ok (.value d') ↔ copiesWell .add path d = true := by
  induction path generalizing d d' with
  | nil =>
    cases h
    exact iff_of_true rfl rfl
  | cons seg rest ih =>
    cases rest with
    | nil =>
      cases d with
      | object m =>
        cases h
        exact recursiveApply_member js (by simp) m
      | array l =>
        obtain ⟨n, hn, hle, -, rfl⟩ := Json.insertHere_array.mp h
        rw [copiesWell_last]
        simp [recursiveApply, resolveArrayIndex_eq js hn, Nat.min_eq_left hle, copiedWell]
      | _ => cases h
    | cons next rest =>
      obtain ⟨s, x, y, hfollow, hinner, rfl⟩ := Json.descend_eq_some.mp h
      exact recursiveApply_descend js (.inl (by simp)) hfollow (ih hinner)

theorem recursiveApply_remove (value : Json) {old : Json}
    (h : Json.remove false path d = some (old, d')) :
    recursiveApply js .remove value path (.json d) = .ok (.value d') ↔
      copiesWell .remove path d = true := by
  induction path generalizing d d' with
  | nil => cases h
  | cons seg rest ih =>
    cases rest with
    | nil =>
      obtain ⟨s, hfollow, rfl⟩ := Json.removeHere_eq_some.mp h
      obtain ⟨hs, -⟩ := Json.follow_eq_some.mp hfollow
      rw [copiesWell_last]
      cases d with
      | object m =>
        cases hs
        exact removed_iff
      | array l =>
        rw [Json.resolve, Json.removeIdx_false] at hs
        obtain ⟨i, hi, rfl⟩ := Option.map_eq_some_iff.mp hs
        have hindex : (insertIdx seg l.length).toOption = some i := by
          rw [Json.insertIdx_eq (Json.ne_dash_of_parseIdx hi), hi]
        simp [recursiveApply, resolveArrayIndex_eq js hindex, copiedWell, Json.eraseChild]
      | _ => cases hs
    | cons next rest =>
      obtain ⟨s, x, y, hfollow, hinner, rfl⟩ := Json.descend_eq_some.mp h
      exact recursiveApply_descend js (.inl (by simp)) hfollow (ih hinner)

theorem recursiveApply_replace {old : Json} (h : Json.replace path v d = some (old, d')) :
    recursiveApply js .replace v path (.json d) = .ok (.value d') ↔
      copiesWell .replace path d = true := by
  induction path generalizing d d' with
  | nil =>
    cases h
    exact iff_of_true rfl rfl
  | cons seg rest ih =>
    obtain ⟨s, x, y, hfollow, hinner, rfl⟩ := Json.descend_eq_some.mp h
    exact recursiveApply_descend js (.inr rfl) hfollow (ih hinner)

/-- A replacement of what is missing is an addition, at the end of an array if in one. -/
theorem recursiveApply_replace_missing (hmissing : Json.get path d = none)
    (h : Json.insert path v d = some (prev, d')) :
    recursiveApply js .replace v path (.json d) = .ok (.value d') ↔
      copiesWell .replace path d = true := by
  induction path generalizing d d' with
  | nil => cases hmissing
  | cons seg rest ih =>
    cases rest with
    | nil =>
      cases d with
      | object m =>
        cases h
        exact recursiveApply_member js (by simp) m
      | array l =>
        obtain ⟨n, hn, hle, -, rfl⟩ := Json.insertHere_array.mp h
        obtain rfl : n = l.length := by
          by_contra hne
          have hlt : n < l.length := by omega
          have hdash : seg ≠ dash := by
            rintro rfl
            exact hne (Option.some.inj hn).symm
          rw [Json.insertIdx_eq hdash] at hn
          simp [Json.get, Json.follow, Json.resolve, Json.removeIdx_false, hn, Json.child,
            List.getElem?_eq_getElem hlt] at hmissing
        rw [copiesWell_last]
        refine iff_of_true ?_ rfl
        simp only [recursiveApply, resolveArrayIndex_eq js hn, reduceCtorEq, and_false,
          if_false, setElement, Nat.lt_irrefl, if_true, List.insertIdx_length_self]
        rfl
      | _ => cases h
    | cons next rest =>
      obtain ⟨s, x, y, hfollow, hinner, rfl⟩ := Json.descend_eq_some.mp h
      rw [Json.get_cons hfollow] at hmissing
      exact recursiveApply_descend js (.inl (by simp)) hfollow (ih hmissing hinner)

/-- What the client is told of a change. -/
def opOf : Change → PatchOp × Json
  | .add value => (.add, value.denote)
  | .remove => (.remove, .null)
  | .replace value => (.replace, value.denote)

/-- An operation as the server sends it, with the text of its pointer. -/
def ofServer (op : Standing × Change) : Operation :=
  ⟨(opOf op.2).1, op.1.pointer.asRef, (opOf op.2).2⟩

/-- A pointer's text is that of its segments; parsing leaves an open escape at the end of it. -/
def textExact (op : Standing × Change) : Prop := op.1.pointer.asRef = escapeAll op.1.list

/-- Where an operation has an effect on a document, the client has it too, exactly if the objects on
the way are copied well. -/
theorem applyOperation_iff {op : Standing × Change} (htext : textExact op)
    (h : applyJson d (op.2.operation op.1.list) = some d') :
    applyOperation js (.json d) (ofServer op) = .ok (.json d') ↔
      copiesWell (opOf op.2).1 op.1.list d = true := by
  obtain ⟨ptr, change⟩ := op
  have hdone : applyOperation js (.json d) (ofServer (ptr, change)) = .ok (.json d') ↔
      recursiveApply js (opOf change).1 (opOf change).2 ptr.list (.json d) = .ok (.value d') := by
    rw [applyOperation, show (ofServer (ptr, change)).path = _ from htext, arrayFromPath_escapeAll]
    cases hr : recursiveApply js (opOf change).1 (opOf change).2 ptr.list (.json d) with
    | error e => simp [ofServer, hr, Except.map]
    | ok updated => cases updated <;> simp [ofServer, hr, Except.map]
  refine hdone.trans ?_
  cases change with
  | add value =>
    obtain ⟨⟨prev, _⟩, hinsert, rfl⟩ := Option.map_eq_some_iff.mp h
    exact recursiveApply_add js hinsert
  | remove =>
    obtain ⟨⟨old, _⟩, hremove, rfl⟩ := Option.map_eq_some_iff.mp h
    exact recursiveApply_remove js .null hremove
  | replace value =>
    rw [Change.operation, applyJson] at h
    cases hreplace : Json.replace ptr.list value.denote d with
    | some r =>
      rw [hreplace] at h
      cases h
      exact recursiveApply_replace js hreplace
    | none =>
      rw [hreplace] at h
      obtain ⟨⟨prev, _⟩, hinsert, rfl⟩ := Option.map_eq_some_iff.mp h
      have hmissing := (Json.replace_eq_none_iff ptr.list value.denote d).mp hreplace
      exact recursiveApply_replace_missing js hmissing hinsert

/-- The operations of the server. -/
def operations (ops : List (Standing × Change)) : Patch :=
  ops.map fun op => op.2.operation op.1.list

/-- Every operation copies its objects well in the document that it meets. -/
def copiesWellAlong : Value → List (Standing × Change) → Bool
  | _, [] => true
  | doc, op :: rest =>
    copiesWell (opOf op.2).1 op.1.list doc.denote &&
      match JsonPatch.applyOperation doc (op.2.operation op.1.list) with
      | (.ok _, doc) => copiesWellAlong doc rest
      | (.error _, _) => true

theorem applyAll_iff {doc : Value} (hdoc : doc.WellFormed) {ops : List (Standing × Change)}
    (htext : ∀ op ∈ ops, textExact op) (hvalues : (operations ops).WellFormed)
    (h : runJson doc.denote (operations ops) = some d') :
    (∀ n dn, runJson doc.denote (operations (ops.take n)) = some dn →
      applyAll js (.json doc.denote) ((ops.take n).map ofServer) = .ok (.json dn)) ↔
    copiesWellAlong doc ops = true := by
  induction ops generalizing doc with
  | nil =>
    refine iff_of_true (fun n dn hdn => ?_) rfl
    rw [List.take_nil] at hdn ⊢
    cases hdn
    rfl
  | cons op rest ih =>
    obtain ⟨d₁, hstep, hrest⟩ := Option.bind_eq_some_iff.mp h
    have hop := applyOperation_iff js (htext op (by simp)) hstep
    cases applyOperation_outcome hdoc (hvalues _ (List.mem_cons_self ..)) with
    | error e doc₁ run effect => cases hstep.symm.trans effect
    | ok u doc₁ run effect wellFormed restores =>
      cases hstep.symm.trans effect
      have hnext := ih wellFormed (fun o ho => htext o (by simp [ho]))
        (fun o ho => hvalues o (List.mem_cons_of_mem _ ho)) hrest
      simp only [copiesWellAlong, run, Bool.and_eq_true]
      rw [← hop, ← hnext]
      constructor
      · intro hall
        have hone : runJson doc.denote (operations ((op :: rest).take 1)) = some doc₁.denote :=
          Option.bind_eq_some_iff.mpr ⟨_, hstep, rfl⟩
        obtain ⟨_, hfirst, hdone⟩ := Fallible.bind_eq_ok.mp (hall 1 _ hone)
        cases hdone
        refine ⟨hfirst, fun n dn hdn => ?_⟩
        obtain ⟨_, hv, hvd⟩ := Fallible.bind_eq_ok.mp
          (hall (n + 1) dn (Option.bind_eq_some_iff.mpr ⟨_, hstep, hdn⟩))
        cases hfirst.symm.trans hv
        exact hvd
      · rintro ⟨hfirst, hall⟩ n dn hdn
        cases n with
        | zero =>
          cases hdn
          rfl
        | succ n =>
          obtain ⟨_, hstep₂, hdn⟩ := Option.bind_eq_some_iff.mp hdn
          cases hstep.symm.trans hstep₂
          exact Fallible.bind_ok hfirst (hall n dn hdn)

/-- A list of additions, removals and replacements that the server accepts, at pointers with exact
texts. Through it and every first part of it the client throws nothing and arrives at the server's
document, exactly if every operation copies its objects well. -/
theorem client_follows_server_iff (js : Runtime) (doc : Value) (hdoc : doc.WellFormed)
    (ops : List (Standing × Change)) (htext : ∀ op ∈ ops, textExact op)
    (hvalues : (operations ops).WellFormed) (undo : Undo) (doc' : Value)
    (haccepts : patch doc (operations ops) = some (.ok undo, doc')) :
    (∀ n undo docn, patch doc (operations (ops.take n)) = some (.ok undo, docn) →
      applyAll js (.json doc.denote) ((ops.take n).map ofServer) = .ok (.json docn.denote)) ↔
    copiesWellAlong doc ops = true := by
  have hpart (n : Nat) : (operations (ops.take n)).WellFormed := fun op hop =>
    hvalues op (List.map_subset _ (List.take_subset n ops) hop)
  rw [← applyAll_iff js hdoc htext hvalues (runJson_of_applyPatches hdoc hvalues haccepts)]
  constructor
  · intro h n dn hdn
    obtain ⟨us, docn, hrun, -, rfl⟩ := applyPatches_ok hdoc (hpart n) hdn []
    exact h n us docn hrun
  · intro h n us docn hrun
    exact h n docn.denote (runJson_of_applyPatches hdoc (hpart n) hrun)

/-- A runtime whose objects inherit nothing, and in which only digits make numbers. -/
def plainRuntime : Runtime := ⟨fun _ => .undefined, fun _ => none⟩

/-- An element is appended to the array of a member with a slash in its name, and the
first one is removed. -/
theorem client_follows_server_append : applyAll plainRuntime
        (.json (Value.object 0 [(['a', '/', 'b'], .array 1 [.bool true])]).denote)
        [⟨.add, ['/', 'a', '~', '1', 'b', '/', '-'], .null⟩,
          ⟨.remove, ['/', 'a', '~', '1', 'b', '/', '0'], .null⟩] =
      .ok (.json (Value.object 0 [(['a', '/', 'b'], .array 1 [.null])]).denote) := by
  refine (client_follows_server_iff plainRuntime
    (.object 0 [(['a', '/', 'b'], .array 1 [.bool true])]) (wellFormed_member _ _ (.array ?_))
    [(.ofList [['a', '/', 'b'], ['-']], .add .null), (.ofList [['a', '/', 'b'], ['0']], .remove)]
    ?_ ?_ _ _ rfl).mpr rfl 2 _ _ rfl
  · intro x hx
    rw [List.mem_singleton.mp hx]
    exact .bool true
  · intro op hop
    rcases List.mem_cons.mp hop with rfl | hop
    · rfl
    · rw [List.mem_singleton.mp hop]
      rfl
  · intro op hop
    rcases List.mem_cons.mp hop with rfl | hop
    · exact .null
    · rw [List.mem_singleton.mp hop]
      trivial

/-- A member with the name of the prototype is lost when another one is added beside it. Of a text
with an open escape, the client reads another segment than the server. -/
theorem client_loses_member :
    (∃ undo doc', patch (.object 0 [(protoName, .bool true)]) [.add [['b']] .null] =
        some (.ok undo, doc') ∧
      applyAll plainRuntime (.json (Value.object 0 [(protoName, .bool true)]).denote)
        [ofServer (.ofList [['b']], .add .null)] ≠ .ok (.json doc'.denote)) ∧
    ∃ p, parse ['/', 'a', '~'] = some (.ok p) ∧ p.iter = some [['a']] ∧
      arrayFromPath p.asRef = [['a', '~']] := by
  refine ⟨⟨_, _, rfl, fun h => ?_⟩, _, rfl, rfl, rfl⟩
  have hvalues : Patch.WellFormed [.add [['b']] .null] := by
    simp [Patch.WellFormed, PatchOperation.WellFormed, Value.WellFormed.null]
  have hrun := @runJson_of_applyPatches _ [] _ _ _ (wellFormed_member 0 protoName (.bool true))
    hvalues rfl
  rw [runJson, List.foldlM_cons] at hrun
  obtain ⟨_, hstep, hsame⟩ := Option.bind_eq_some_iff.mp hrun
  cases hsame
  obtain ⟨_, hfirst, hdone⟩ := Fallible.bind_eq_ok.mp h
  cases hdone
  have hwell := (@applyOperation_iff plainRuntime _ _ (.ofList [['b']], .add .null) rfl hstep).mp
    hfirst
  exact absurd hwell (by decide)

end StartTech.PatchDbClient
