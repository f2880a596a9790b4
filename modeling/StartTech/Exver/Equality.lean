import StartTech.Exver.Constructors

/-!
# Equality and hashing of versions

Equality leaves out the zeros at the end of the numbers, which the order reads as
there. A hasher is fed what equality looks at, and a number in a prerelease as its
digits, in whichever form it is stored.
-/

namespace StartTech.Exver

open Foundation
open PreReleaseSegment (key)

/-- What a hasher is fed. Slices and vectors start with their length. -/
inductive HashInput
  | byte (value : Nat)
  | word (value : Nat)
  | text (value : Text)
  deriving DecidableEq

namespace PreReleaseSegment

def eq (a b : PreReleaseSegment) : Bool := cmp a b == .eq

def hash : PreReleaseSegment → List HashInput
  | .number value => [.byte 0, .text (Text.decimal value)]
  | .bigNumber value => [.byte 0, .text value]
  | .string value => [.byte 1, .text value]

theorem cmpKey_eq_iff {a b : Bool × Nat × Text} : cmpKey a b = .eq ↔ a = b := by
  simp [cmpKey, compareLex, compareOn, Prod.ext_iff]

instance : Std.LawfulEqCmp cmpKey where
  eq_of_compare := cmpKey_eq_iff.mp

theorem flatMap_hash (l : List PreReleaseSegment) :
    l.flatMap hash = (l.map key).flatMap fun k => [.byte k.1.toNat, .text k.2.2] := by
  rw [List.flatMap_map]
  congr
  funext a
  cases a <;> rfl

/-- Lists of segments are equal in the order when their keys are. -/
theorem compareLex_eq_iff {l m : List PreReleaseSegment} :
    List.compareLex cmp l m = .eq ↔ l.map key = m.map key := by
  have hkeys : List.compareLex cmp (l.map id) (m.map id) =
      List.compareLex cmpKey (l.map key) (m.map key) :=
    Comparator.compareLex_map fun a _ b _ => cmp_eq_cmpKey a b
  rw [List.map_id, List.map_id] at hkeys
  rw [hkeys]
  exact Std.LawfulEqCmp.compare_eq_iff_eq

theorem isEqv_iff {l m : List PreReleaseSegment} : l.isEqv m eq = true ↔ l.map key = m.map key := by
  induction l generalizing m with
  | nil => cases m <;> simp [List.isEqv]
  | cons a l ih =>
    cases m with
    | nil => simp [List.isEqv]
    | cons b m => simp [List.isEqv, ih, eq, cmp_eq_cmpKey]

end PreReleaseSegment

namespace Version

/-- Equality, where both versions have a number. -/
def eq (a b : Version) : Option Bool := do
  let l ← a.semanticNumber
  let r ← b.semanticNumber
  some (l == r && a.prerelease.isEqv b.prerelease PreReleaseSegment.eq)

def hash (v : Version) : Option (List HashInput) := do
  let number ← v.semanticNumber
  some (.word number.length :: number.map .word ++
    .word v.prerelease.length :: v.prerelease.flatMap PreReleaseSegment.hash)

theorem rdropWhile_cons (p : Nat → Bool) (n : Nat) (rest : List Nat) : (n :: rest).rdropWhile p =
      if (rest.rdropWhile p).isEmpty && p n then [] else n :: rest.rdropWhile p := by
  rw [List.rdropWhile, List.rdropWhile, List.reverse_cons, List.dropWhile_append]
  cases rest.reverse.dropWhile p with
  | nil => cases hp : p n <;> simp [hp]
  | cons m l => simp

/-- Numbers are equal in the order when they are without the zeros at their end. -/
theorem cmpNumber_eq_iff (l m : List Nat) :
    cmpNumber l m = .eq ↔ l.rdropWhile (· == 0) = m.rdropWhile (· == 0) := by
  induction l generalizing m with
  | nil =>
    induction m with
    | nil => simp [cmpNumber, zipLongest, cmpPairs]
    | cons n m ih =>
      rw [cmpNumber_unfold, Ordering.then_eq_eq, List.tail_nil, List.tail_cons, ih, rdropWhile_cons]
      generalize m.rdropWhile (· == 0) = y
      cases y <;> simp [@eq_comm _ 0]
  | cons n l ih =>
    rw [cmpNumber_unfold, Ordering.then_eq_eq, List.tail_cons, ih, rdropWhile_cons]
    generalize l.rdropWhile (· == 0) = x
    cases m with
    | nil => cases x <;> simp
    | cons k m =>
      rw [rdropWhile_cons, List.tail_cons]
      generalize m.rdropWhile (· == 0) = y
      by_cases hn : n = 0 <;> by_cases hk : k = 0 <;> cases x <;> cases y <;>
        simp [hn, hk, @eq_comm _ 0]

theorem cmp_eq_iff (a b : Version) : a.cmp b = .eq ↔ cmpNumber a.number b.number = .eq ∧
      a.prerelease.map key = b.prerelease.map key := by
  rw [cmp, cmpPrerelease, Ordering.then_eq_eq, Ordering.then_eq_eq,
    PreReleaseSegment.compareLex_eq_iff]
  refine and_congr_right fun _ => and_iff_right_of_imp fun h => ?_
  have hempty := congrArg List.isEmpty h
  rw [List.isEmpty_map, List.isEmpty_map] at hempty
  rw [hempty, compare_eq_iff_eq]

theorem semanticNumber_eq {v : Version} (h : v.number ≠ []) : ∃ n rest, v.number = n :: rest ∧
      v.semanticNumber = some (n :: rest.rdropWhile (· == 0)) := by
  obtain ⟨number, prerelease⟩ := v
  obtain ⟨n, rest, rfl⟩ := List.exists_cons_of_ne_nil h
  exact ⟨n, rest, rfl, semanticNumber_cons n rest prerelease⟩

variable {a b : Version}

/-- Numbers that are equal in the order are the same without the zeros at their end. -/
theorem semanticNumber_eq_iff (ha : a.number ≠ []) (hb : b.number ≠ []) :
    a.semanticNumber = b.semanticNumber ↔ cmpNumber a.number b.number = .eq := by
  obtain ⟨n, l, hl, hsem⟩ := semanticNumber_eq ha
  obtain ⟨k, m, hm, hsem'⟩ := semanticNumber_eq hb
  rw [hl, hm, hsem, hsem', cmpNumber_unfold, Ordering.then_eq_eq, List.tail_cons, List.tail_cons,
    cmpNumber_eq_iff, List.headD_cons, List.headD_cons, compare_eq_iff_eq, Option.some.injEq,
    List.cons.injEq]

theorem eq_eq (ha : a.number ≠ []) (hb : b.number ≠ []) : a.eq b = some (a.cmp b == .eq) := by
  have hnum := semanticNumber_eq_iff ha hb
  obtain ⟨n, l, -, hsem⟩ := semanticNumber_eq ha
  obtain ⟨k, m, -, hsem'⟩ := semanticNumber_eq hb
  rw [hsem, hsem', Option.some.injEq] at hnum
  rw [eq, hsem, hsem']
  refine congrArg some (Bool.eq_iff_iff.mpr ?_)
  rw [Bool.and_eq_true, PreReleaseSegment.isEqv_iff, beq_iff_eq, beq_iff_eq, cmp_eq_iff, hnum]

theorem hash_eq (ha : a.number ≠ []) (hb : b.number ≠ []) (h : a.cmp b = .eq) :
    a.hash = b.hash := by
  obtain ⟨hnum, hkeys⟩ := (cmp_eq_iff a b).mp h
  have hlen := congrArg List.length hkeys
  rw [List.length_map, List.length_map] at hlen
  rw [hash, hash, (semanticNumber_eq_iff ha hb).mpr hnum, hlen,
    PreReleaseSegment.flatMap_hash, hkeys, ← PreReleaseSegment.flatMap_hash]

/-- The order is total. Two versions with a number are equal when the order says so, and
then a hasher is fed the same. The order of extended versions is total on one flavor, and
compares no others. -/
theorem order_eq_hash_agree : (∀ a b c : Version, a.cmp a = .eq ∧ a.cmp b = (b.cmp a).swap ∧
      ((a.cmp b).isLE = true → (b.cmp c).isLE = true → (a.cmp c).isLE = true)) ∧
    (∀ a b : Version, a.number ≠ [] → b.number ≠ [] →
      a.eq b = some (a.cmp b == .eq) ∧ (a.eq b = some true → a.hash = b.hash)) ∧
    ∀ a b c : ExtendedVersion, (a.flavor ≠ b.flavor → a.partialCmp b = none) ∧
      (a.flavor = b.flavor → ∃ o, a.partialCmp b = some o ∧ b.partialCmp a = some o.swap ∧
        (b.flavor = c.flavor → ∃ o' o'', b.partialCmp c = some o' ∧ a.partialCmp c = some o'' ∧
          (o.isLE = true → o'.isLE = true → o''.isLE = true))) := by
  refine ⟨fun a b c => ⟨Std.ReflCmp.compare_self, Std.OrientedCmp.eq_swap, Std.TransCmp.isLE_trans⟩,
    fun a b ha hb => ⟨eq_eq ha hb, ?_⟩, fun a b c => ⟨fun h => if_neg h, fun h => ?_⟩⟩
  · intro heq
    rw [eq_eq ha hb, Option.some.injEq, beq_iff_eq] at heq
    exact hash_eq ha hb heq
  · let order : ExtendedVersion → ExtendedVersion → Ordering :=
      compareLex (Comparator.on cmp ExtendedVersion.upstream)
        (Comparator.on cmp ExtendedVersion.downstream)
    have htrans : Std.TransCmp order := inferInstanceAs (Std.TransCmp (compareLex _ _))
    refine ⟨order a b, if_pos h, ?_, fun h' => ⟨order b c, order a c, if_pos h', if_pos (h.trans h'),
      htrans.isLE_trans⟩⟩
    rw [← htrans.eq_swap]
    exact if_pos h.symm

end Version

end StartTech.Exver
