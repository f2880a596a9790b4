import StartTech.Foundation.Comparator
import StartTech.Foundation.Fallible

/-!
# Versions, their order and their text

A version is a list of numbers with an optional prerelease list. The order
reads missing numbers as zero and puts a prerelease before its release, so
versions that differ in trailing zeros are equal in the order without being
equal as data.

## Implementation notes

Machine words are natural numbers; only parsing checks that they fit. Interned
strings are their texts. Comparing characters by code point agrees with
comparing UTF-8 bytes.
-/

namespace StartTech.Exver

open Foundation Std

/-- The part of the parse error that version parsing reports. -/
inductive ParseError
  | invalidVersion (input : Text) (reason : String)
  | invalidVersionRange (input : Text)
  deriving DecidableEq, Repr

inductive PreReleaseSegment
  | number (value : Nat)
  | bigNumber (value : Text)
  | string (value : Text)
  deriving DecidableEq, Repr

namespace PreReleaseSegment

def cmpNumeric (left right : Text) : Ordering :=
  (compare left.byteLen right.byteLen).then (compare left right)

def cmp : PreReleaseSegment → PreReleaseSegment → Ordering
  | .number left, .number right => compare left right
  | .bigNumber left, .bigNumber right => cmpNumeric left right
  | .number left, .bigNumber right => cmpNumeric (Text.decimal left) right
  | .bigNumber left, .number right => cmpNumeric left (Text.decimal right)
  | .string left, .string right => compare left right
  | .number _, .string _ | .bigNumber _, .string _ => .lt
  | .string _, _ => .gt

/-- What the order looks at: numeric segments first, then their length. -/
def key : PreReleaseSegment → Bool × Nat × Text
  | .number value => (false, (Text.decimal value).byteLen, Text.decimal value)
  | .bigNumber value => (false, value.byteLen, value)
  | .string value => (true, 0, value)

def cmpKey (a b : Bool × Nat × Text) : Ordering :=
  compareLex (compareOn Prod.fst)
    (compareLex (compareOn fun k => k.2.1) (compareOn fun k => k.2.2)) a b

instance : TransCmp cmpKey :=
  inferInstanceAs (TransCmp (compareLex _ (compareLex _ _)))

/-- The stored form of a numeric segment does not matter to the order. -/
theorem cmp_eq_cmpKey (a b : PreReleaseSegment) : cmp a b = cmpKey a.key b.key := by
  cases a with
  | number n =>
    cases b with
    | number m =>
      simp only [key, cmpKey, compareLex, compareOn]
      rw [Text.compare_decimal n m]
      rfl
    | bigNumber t => simp [cmp, key, cmpKey, compareLex, compareOn, cmpNumeric]
    | string t => rfl
  | bigNumber s =>
    cases b with
    | number m => simp [cmp, key, cmpKey, compareLex, compareOn, cmpNumeric]
    | bigNumber t => simp [cmp, key, cmpKey, compareLex, compareOn, cmpNumeric]
    | string t => rfl
  | string s =>
    cases b with
    | number m => rfl
    | bigNumber t => rfl
    | string t => simp [cmp, key, cmpKey, compareLex, compareOn]

instance : TransCmp cmp := by
  have h : cmp = Comparator.on cmpKey key := by
    funext a b
    exact cmp_eq_cmpKey a b
  rw [h]
  infer_instance

end PreReleaseSegment

structure Version where
  number : List Nat
  prerelease : List PreReleaseSegment
  deriving DecidableEq, Repr

namespace Version

def default : Version := ⟨[0], []⟩

/-- Pair up both number lists, reading the shorter one as zeros at its end. -/
def zipLongest : List Nat → List Nat → List (Nat × Nat)
  | [], rs => rs.map fun r => (0, r)
  | l :: ls, [] => (l, 0) :: zipLongest ls []
  | l :: ls, r :: rs => (l, r) :: zipLongest ls rs

/-- The loop over the paired numbers, left at the first difference. -/
def cmpPairs : List (Nat × Nat) → Ordering
  | [] => .eq
  | (l, r) :: rest =>
    match compare l r with
    | .eq => cmpPairs rest
    | o => o

def cmpNumber (left right : List Nat) : Ordering := cmpPairs (zipLongest left right)

/-- Prereleases of the same numbers: none at all comes last. -/
def cmpPrerelease (left right : List PreReleaseSegment) : Ordering :=
  (compare left.isEmpty right.isEmpty).then
    (List.compareLex PreReleaseSegment.cmp left right)

def cmp (a b : Version) : Ordering :=
  (cmpNumber a.number b.number).then (cmpPrerelease a.prerelease b.prerelease)

theorem cmpNumber_eq_padded : cmpNumber = Comparator.padded compare 0 := by
  have hstep (l r : Nat) (rest : List (Nat × Nat)) :
      cmpPairs ((l, r) :: rest) = (compare l r).then (cmpPairs rest) := by
    rw [cmpPairs]
    cases compare l r <;> rfl
  funext a b
  induction a generalizing b with
  | nil =>
    induction b with
    | nil => rfl
    | cons r rs ih =>
      have hround : cmpNumber [] (r :: rs) = (compare 0 r).then (cmpNumber [] rs) :=
        hstep 0 r _
      rw [hround, ih]
      rfl
  | cons l ls ih =>
    have hround : cmpNumber (l :: ls) b = (compare l (b.headD 0)).then (cmpNumber ls b.tail) := by
      cases b <;> exact hstep l _ _
    rw [hround, ih]
    rfl

/-- One round of the number loop, whatever the lengths. -/
theorem cmpNumber_unfold (a b : List Nat) :
    cmpNumber a b = (compare (a.headD 0) (b.headD 0)).then (cmpNumber a.tail b.tail) := by
  rw [cmpNumber_eq_padded]
  exact Comparator.padded_unfold a b

instance : TransCmp cmpNumber := by
  rw [cmpNumber_eq_padded]
  infer_instance

instance : TransCmp cmpPrerelease :=
  inferInstanceAs (TransCmp (compareLex (compareOn List.isEmpty)
    (List.compareLex PreReleaseSegment.cmp)))

instance : TransCmp cmp :=
  inferInstanceAs (TransCmp (compareLex (Comparator.on cmpNumber Version.number)
    (Comparator.on cmpPrerelease Version.prerelease)))

/-- One dot-separated piece of a prerelease. -/
def parsePrereleaseSegment (input seg : Text) : Except ParseError PreReleaseSegment :=
  if seg.isEmpty then
    .error (.invalidVersion input "prerelease identifier may not be empty")
  else if seg.all Char.isDigit then
    if seg.byteLen > 1 && seg.head? == some '0' then
      .error (.invalidVersion input "numeric prerelease identifier may not have leading zero")
    else
      match Text.parseUsize seg with
      | some n => .ok (.number n)
      | none => .ok (.bigNumber seg)
  else if seg.any fun c => !(c.isDigit || c.isLower || c.isUpper || c == '-') then
    .error (.invalidVersion input "invalid character in prerelease identifier")
  else .ok (.string seg)

def parseNumber (input number : Text) : Except ParseError (List Nat) :=
  match (Text.split '.' number).mapM Text.parseUsize with
  | some number => .ok number
  | none => .error (.invalidVersion input "invalid numeric identifier")

def parsePrerelease (input : Text) : Option Text → Except ParseError (List PreReleaseSegment)
  | some prerelease => (Text.split '.' prerelease).mapM (parsePrereleaseSegment input)
  | none => .ok []

/-- The text before the first dash, and the text after it if there is one. -/
def splitPrerelease (s : Text) : Text × Option Text :=
  match Text.splitOnce '-' s with
  | some (v, p) => (v, some p)
  | none => (s, none)

def fromStr (s : Text) : Except ParseError Version := do
  let number ← parseNumber s (splitPrerelease s).1
  let prerelease ← parsePrerelease s (splitPrerelease s).2
  .ok ⟨number, prerelease⟩

theorem fromStr_eq_ok {s : Text} {v : Version} (h : fromStr s = .ok v) :
    (Text.split '.' (splitPrerelease s).1).mapM Text.parseUsize = some v.number ∧
      parsePrerelease s (splitPrerelease s).2 = .ok v.prerelease := by
  obtain ⟨number, hnum, h⟩ := Fallible.bind_eq_ok.mp h
  obtain ⟨prerelease, hpre, h⟩ := Fallible.bind_eq_ok.mp h
  cases h
  rw [parseNumber] at hnum
  split at hnum
  · cases hnum
    exact ⟨‹_›, hpre⟩
  · cases hnum

theorem exists_of_parsePrerelease {input : Text} {p : Option Text} {l : List PreReleaseSegment}
    {seg : PreReleaseSegment} (h : parsePrerelease input p = .ok l) (hseg : seg ∈ l) :
    ∃ text, parsePrereleaseSegment input text = .ok seg := by
  cases p with
  | none =>
    cases h
    cases hseg
  | some p =>
    obtain ⟨text, -, hok⟩ := Fallible.exists_of_mapM_ok h hseg
    exact ⟨text, hok⟩

end Version

/-- An upstream version with the revision of its packaging, per flavor. -/
structure ExtendedVersion where
  flavor : Option Text
  upstream : Version
  downstream : Version
  deriving DecidableEq, Repr

namespace ExtendedVersion

/-- Versions of different flavors are not comparable. -/
def partialCmp (a b : ExtendedVersion) : Option Ordering :=
  if a.flavor = b.flavor then
    some ((a.upstream.cmp b.upstream).then (a.downstream.cmp b.downstream))
  else none

/-- The flavor prefix, when the text starts with a hash and has a colon after it. -/
def splitFlavor (s : Text) : Option Text × Text :=
  match s with
  | '#' :: rest =>
    match Text.splitOnce ':' rest with
    | some (f, t) => (some f, t)
    | none => (none, s)
  | _ => (none, s)

def checkFlavor (input : Text) (flavor : Option Text) : Except ParseError Unit :=
  match flavor with
  | some f =>
    if f.all Char.isLower then .ok ()
    else .error (.invalidVersion input "invalid flavor (must be ascii lowercase)")
  | none => .ok ()

def splitDownstream (input rest : Text) : Except ParseError (Text × Text) :=
  match Text.splitOnce ':' rest with
  | some parts => .ok parts
  | none => .error (.invalidVersion input "missing downstream version")

def fromStr (s : Text) : Except ParseError ExtendedVersion := do
  checkFlavor s (splitFlavor s).1
  let parts ← splitDownstream s (splitFlavor s).2
  .ok ⟨(splitFlavor s).1, ← Version.fromStr parts.1, ← Version.fromStr parts.2⟩

theorem fromStr_eq_ok {s : Text} {v : ExtendedVersion} (h : fromStr s = .ok v) :
    checkFlavor s v.flavor = .ok () ∧ v.flavor = (splitFlavor s).1 ∧
      ∃ parts, Text.splitOnce ':' (splitFlavor s).2 = some parts ∧
        Version.fromStr parts.1 = .ok v.upstream ∧ Version.fromStr parts.2 = .ok v.downstream := by
  obtain ⟨_, hflavor, h⟩ := Fallible.bind_eq_ok.mp h
  obtain ⟨parts, hparts, h⟩ := Fallible.bind_eq_ok.mp h
  obtain ⟨u, hu, h⟩ := Fallible.bind_eq_ok.mp h
  obtain ⟨d, hd, h⟩ := Fallible.bind_eq_ok.mp h
  cases h
  rw [splitDownstream] at hparts
  split at hparts
  · cases hparts
    exact ⟨hflavor, rfl, parts, ‹_›, hu, hd⟩
  · cases hparts

end ExtendedVersion

end StartTech.Exver
