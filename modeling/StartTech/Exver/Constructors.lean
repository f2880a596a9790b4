import StartTech.Exver.Range
import Mathlib.Data.List.DropRight

/-!
# Building ranges and judging releases

The constructors of the crate leave out what decides nothing, and write carets
and tildes out as bounds. A release declares several versions; a negation looks
at all of them at once.

## Implementation notes

Adding one to a machine word wraps around, as it does without overflow checks.
Taking the significant numbers of a version without numbers slices out of
bounds, which is `none` here.
-/

namespace StartTech.Exver

open Foundation

/-- How many numbers there are up to the last one that is not zero, at least one. -/
def semLen (number : List Nat) : Nat :=
  match number.zipIdx.reverse.find? fun p => p.1 != 0 with
  | some (_, l) => l + 1
  | none => 1

/-- The numbers up to the last one that is not zero, and at least one. -/
def Version.semanticNumber (v : Version) : Option (List Nat) :=
  if semLen v.number ≤ v.number.length then some (v.number.take (semLen v.number)) else none

theorem semLen_concat (l : List Nat) (m : Nat) :
    semLen (l ++ [m]) = if m = 0 then semLen l else l.length + 1 := by
  have hzip : (l ++ [m]).zipIdx.reverse = (m, l.length) :: l.zipIdx.reverse := by
    simp [List.zipIdx_append]
  rw [semLen, hzip]
  by_cases hm : m = 0
  · simp [hm, semLen]
  · simp [hm]

/-- The zeros at the end are left out, but for the first number. -/
theorem Version.semanticNumber_cons (n : Nat) (rest : List Nat)
    (prerelease : List PreReleaseSegment) :
    semanticNumber ⟨n :: rest, prerelease⟩ = some (n :: rest.rdropWhile (· == 0)) := by
  suffices h : semLen (n :: rest) ≤ rest.length + 1 ∧
      (n :: rest).take (semLen (n :: rest)) = n :: rest.rdropWhile (· == 0) by
    simp [semanticNumber, h.1, h.2]
  induction rest using List.reverseRecOn with
  | nil => by_cases hn : n = 0 <;> simp [semLen, hn]
  | append_singleton rest m ih =>
    rw [← List.cons_append, semLen_concat]
    by_cases hm : m = 0
    · rw [if_pos hm, List.take_append_of_le_length ih.1, ih.2, hm,
        List.rdropWhile_concat_pos _ _ _ rfl]
      exact ⟨ih.1.trans (by simp), rfl⟩
    · rw [if_neg hm, List.rdropWhile_concat_neg _ _ _ (by simpa using hm)]
      exact ⟨by simp, List.take_of_length_le (by simp)⟩

/-- The first number that is not zero, or the last one. -/
def majorIdx (number : List Nat) : Nat :=
  (number.findIdx? (· != 0)).getD (number.length - 1)

theorem majorIdx_lt {ms : List Nat} (h : ms ≠ []) : majorIdx ms < ms.length := by
  have hpos := List.length_pos_of_ne_nil h
  rw [majorIdx]
  cases hidx : ms.findIdx? (· != 0) with
  | none => simp; omega
  | some i => simpa using (List.findIdx?_eq_some_iff_findIdx_eq.mp hidx).1

def wordSucc (n : Nat) : Nat := (n + 1) % Text.wordLimit

namespace VersionRange

/-- The constructor `and`, which leaves out identities and annihilators. -/
def smartAnd (a b : VersionRange) : VersionRange :=
  match a, b with
  | .any, b => b
  | a, .any => a
  | .none, _ => .none
  | _, .none => .none
  | a, b => .and a b

/-- The constructor `or`, which leaves out identities and annihilators. -/
def smartOr (a b : VersionRange) : VersionRange :=
  match a, b with
  | .any, _ => .any
  | _, .any => .any
  | .none, b => b
  | a, .none => a
  | a, b => .or a b

/-- The constructor `not`, which takes a negation back. -/
def smartNot (a : VersionRange) : VersionRange :=
  match a with
  | .anchor op v =>
    if op = EQ then .anchor NEQ v else if op = NEQ then .anchor EQ v else .not (.anchor op v)
  | .not a => a
  | .any => .none
  | .none => .any
  | a => .not a

/-- The exclusive upper bound of a caret range. -/
def caretMax (version : ExtendedVersion) : Option ExtendedVersion := do
  let semanticNumber ← version.upstream.semanticNumber
  let idx := majorIdx semanticNumber
  let number := semanticNumber.take idx ++ (semanticNumber[idx]?.map wordSucc).toList
  some ⟨version.flavor, ⟨number, version.upstream.prerelease⟩, .default⟩

/-- The exclusive upper bound of a tilde range. -/
def tildeMax (version : ExtendedVersion) : Option ExtendedVersion := do
  let semanticNumber ← version.upstream.semanticNumber
  let idx := majorIdx semanticNumber
  let number := semanticNumber.take idx ++ semanticNumber[idx]?.toList ++
    [wordSucc (semanticNumber[idx + 1]?.getD 0)]
  some ⟨version.flavor, ⟨number, version.upstream.prerelease⟩, .default⟩

def caret (version : ExtendedVersion) : Option VersionRange :=
  (caretMax version).map fun max => smartAnd (.anchor GTE version) (.anchor LT max)

def tilde (version : ExtendedVersion) : Option VersionRange :=
  (tildeMax version).map fun max => smartAnd (.anchor GTE version) (.anchor LT max)

/-- What a range that is neither a negation nor split up says about each
declared version. -/
def releaseWhole (r : VersionRange) (versions : List ExtendedVersion) (negated : Bool) :
    List Bool :=
  if negated then List.replicate versions.length !versions.any fun v => v.satisfies r
  else versions.map fun v => v.satisfies r

def releaseMatches (versions : List ExtendedVersion) : VersionRange → Bool → List Bool
  | .not a, negated => releaseMatches versions a !negated
  | .anchor op v, negated =>
    if op = NEQ then releaseWhole (.anchor EQ v) versions !negated
    else releaseWhole (.anchor op v) versions negated
  | .and a b, false =>
    List.zipWith (· && ·) (releaseMatches versions a false) (releaseMatches versions b false)
  | .or a b, false =>
    List.zipWith (· || ·) (releaseMatches versions a false) (releaseMatches versions b false)
  | r, negated => releaseWhole r versions negated

def satisfiedByRelease (r : VersionRange) (versions : List ExtendedVersion) : Bool :=
  (releaseMatches versions r false).any id

end VersionRange

end StartTech.Exver
