import StartTech.JsonPtr.Standing

/-!
# Sequences of operations on an owned pointer

Every operation on a pointer has one on lists beside it. A pointer that was parsed
goes on to be the exact pointer to what the list operations give, as long as none of
the operations meets an offset that it does not take into account.
-/

namespace StartTech.JsonPtr

open Foundation Text

/-- The operations that make an owned pointer of one. A slice of segments is cut
somewhere in memory. -/
inductive PtrOperation
  | pushEnd (segment : Text)
  | pushEndIdx (segment : Nat)
  | pushStart (segment : Text)
  | pushStartIdx (segment : Nat)
  | popEnd
  | popStart
  | truncate (newLen : Nat)
  | append (suffix : JsonPointer)
  | prepend (other : JsonPointer)
  | add (rhs : JsonPointer)
  | slice (cut : Nat) (lower upper : Bound)
  | stripPrefix (cut : Nat) (other : JsonPointer)
  | commonPrefix (cut : Nat) (other : JsonPointer)

namespace JsonPointer

/-- The pointer after an operation; it stays when the operation yields no pointer. -/
def step (p : JsonPointer) : PtrOperation → Option JsonPointer
  | .pushEnd segment => some (p.pushEnd segment)
  | .pushEndIdx segment => some (p.pushEndIdx segment)
  | .pushStart segment => some (p.pushStart segment)
  | .pushStartIdx segment => some (p.pushStartIdx segment)
  | .popEnd => p.popEnd
  | .popStart => p.popStart
  | .truncate newLen => p.truncate newLen
  | .append suffix => p.append suffix
  | .prepend other => p.prepend other
  | .add rhs => p.add rhs
  | .slice cut lower upper => (p.slice cut lower upper).map fun r => r.getD p
  | .stripPrefix cut other => (p.stripPrefix cut other).map fun r => r.getD p
  | .commonPrefix cut other => p.commonPrefix cut other

def run (p : JsonPointer) (ops : List PtrOperation) : Option JsonPointer := ops.foldlM step p

/-- The segments of a pointer, where iterating does not panic. -/
def list (p : JsonPointer) : List Text := p.iter.getD []

def isExact (p : JsonPointer) : Bool := decide (p = exact p.offset p.list)

/-- The condition for an operation to be right on an exact pointer. -/
def stepFits (p : JsonPointer) : PtrOperation → Bool
  | .pushEnd _ | .pushEndIdx _ | .pushStart _ | .pushStartIdx _ => p.offset == 0
  | .popEnd => p.offset == 0 || p.len == 0
  | .popStart => p.len == 0 || p.offset == 0 && p.len == 1
  | .truncate newLen => p.offset == 0 || decide (p.len ≤ newLen)
  | .append other | .prepend other => other.iter.isSome && (p.offset == 0 || other.len == 0)
  | .add rhs => rhs.isExact
  | .slice cut lower upper =>
    decide (lower.startIdx ≤ upper.endIdx p.len) &&
      (decide (p.len < upper.endIdx p.len) || decide (lower.startIdx < p.len) ||
        decide (p.len ≤ cut))
  | .stripPrefix _ other =>
    other.iter.isSome &&
      (p.offset == 0 || !other.list.isPrefixOf p.list || other.len == p.len)
  | .commonPrefix _ other => other.iter.isSome

/-- Every operation of a sequence meets the condition where it is made. -/
def runFits (p : JsonPointer) : List PtrOperation → Bool
  | [] => true
  | op :: rest =>
    p.stepFits op &&
      match p.step op with
      | some p => p.runFits rest
      | none => true

end JsonPointer

/-- The operations on lists. -/
def PtrOperation.onList (l : List Text) : PtrOperation → List Text
  | .pushEnd segment => l ++ [segment]
  | .pushEndIdx segment => l ++ [decimal segment]
  | .pushStart segment => segment :: l
  | .pushStartIdx segment => decimal segment :: l
  | .popEnd => l.dropLast
  | .popStart => l.tail
  | .truncate newLen => l.take newLen
  | .append suffix => l ++ suffix.list
  | .prepend other => other.list ++ l
  | .add rhs => l ++ rhs.list
  | .slice _ lower upper =>
    if upper.endIdx l.length ≤ l.length then
      (l.take (upper.endIdx l.length)).drop lower.startIdx
    else l
  | .stripPrefix _ other =>
    if other.list.isPrefixOf l then l.drop other.list.length else l
  | .commonPrefix _ other => l.take (JsonPointer.commonLen l other.list)

open PtrOperation (onList)

namespace JsonPointer

theorem list_of_iter {p : JsonPointer} (h : p.iter.isSome = true) : p.iter = some p.list := by
  obtain ⟨l, hl⟩ := Option.isSome_iff_exists.mp h
  rw [list, hl]
  rfl

@[simp] theorem list_exact (offset : Nat) (l : List Text) : (exact offset l).list = l := by
  rw [list, iter_exact]
  rfl

theorem offset_exact (offset : Nat) (l : List Text) : (exact offset l).offset = offset := rfl

section

variable (offset : Nat) (l : List Text)
include offset l

theorem truncate_step {n : Nat} (h : offset = 0 ∨ l.length ≤ n) :
    ∃ offset', (exact offset l).truncate n = some (exact offset' (l.take n)) := by
  rcases h with rfl | h
  · exact ⟨0, truncate_exact l n⟩
  · refine ⟨offset, ?_⟩
    have hbehind : (exact offset l).len ≤ n := by rwa [len_exact]
    rw [truncate, List.getElem?_eq_none hbehind, List.take_of_length_le h]

theorem popStart_step (h : l.length = 0 ∨ offset = 0 ∧ l.length = 1) :
    ∃ offset', (exact offset l).popStart = some (exact offset' l.tail) := by
  rcases h with h | ⟨rfl, h⟩
  · obtain rfl := List.length_eq_zero_iff.mp h
    exact ⟨offset, rfl⟩
  · obtain ⟨s, rfl⟩ := List.length_eq_one_iff.mp h
    exact ⟨0, popStart_exact s⟩

theorem stripPrefix_step (cut : Nat) {other : JsonPointer} (hother : other.iter = some other.list)
    (h : (offset = 0 ∨ other.list.isPrefixOf l = false) ∨ other.list.length = l.length) :
    ∃ offset', (exact offset l).step (.stripPrefix cut other) =
      some (exact offset' (onList l (.stripPrefix cut other))) := by
  rw [step, onList]
  cases hstarting : other.list.isPrefixOf l with
  | false =>
    rw [stripPrefix_none (iter_exact offset l) cut hother hstarting]
    exact ⟨offset, rfl⟩
  | true =>
    obtain ⟨tail, htail⟩ := List.isPrefixOf_iff_prefix.mp hstarting
    have hdrop : l.drop other.list.length = tail := by rw [← htail, List.drop_left]
    rw [hdrop]
    rcases h with (rfl | h) | h
    · rw [stripPrefix_exact l cut hother htail.symm]
      exact ⟨_, rfl⟩
    · rw [hstarting] at h
      cases h
    · have hnil : tail = [] := by
        have := congrArg List.length htail
        rw [List.length_append] at this
        exact List.length_eq_zero_iff.mp (by omega)
      rw [hnil, List.append_nil] at htail
      rw [stripPrefix_self (iter_exact offset l) cut (htail ▸ hother), hnil]
      exact ⟨0, rfl⟩

/-- An operation that meets the condition leads from an exact pointer to the exact
pointer to what the operation on lists gives. -/
theorem step_exact {op : PtrOperation} (hfits : (exact offset l).stepFits op = true) :
    ∃ offset', (exact offset l).step op = some (exact offset' (op.onList l)) := by
  have hseveral {other : JsonPointer}
      (h : (other.iter.isSome && ((exact offset l).offset == 0 || other.len == 0)) = true) :
      other.iter = some other.list ∧ (offset = 0 ∨ other.list = []) := by
    simp only [Bool.and_eq_true, Bool.or_eq_true, beq_iff_eq] at h
    have hother := list_of_iter h.1
    rw [len_of_iter hother, List.length_eq_zero_iff] at h
    exact ⟨hother, h.2⟩
  cases op with
  | pushEnd segment =>
    obtain rfl : offset = 0 := eq_of_beq hfits
    exact ⟨0, congrArg some (pushEnd_exact l segment)⟩
  | pushEndIdx segment =>
    obtain rfl : offset = 0 := eq_of_beq hfits
    exact ⟨0, congrArg some ((pushEndIdx_eq _ segment).trans (pushEnd_exact l _))⟩
  | pushStart segment =>
    obtain rfl : offset = 0 := eq_of_beq hfits
    exact ⟨0, congrArg some (pushStart_exact l segment)⟩
  | pushStartIdx segment =>
    obtain rfl : offset = 0 := eq_of_beq hfits
    exact ⟨0, congrArg some ((pushStartIdx_eq _ segment).trans (pushStart_exact l _))⟩
  | popEnd =>
    simp only [stepFits, offset_exact, len_exact, Bool.or_eq_true, beq_iff_eq] at hfits
    rw [step, popEnd_eq, len_exact, onList, List.dropLast_eq_take]
    exact truncate_step offset l (hfits.imp_right fun h => by omega)
  | popStart =>
    simp only [stepFits, offset_exact, len_exact, Bool.or_eq_true, Bool.and_eq_true,
      beq_iff_eq] at hfits
    exact popStart_step offset l hfits
  | truncate newLen =>
    simp only [stepFits, offset_exact, len_exact, Bool.or_eq_true, beq_iff_eq,
      decide_eq_true_eq] at hfits
    exact truncate_step offset l hfits
  | append suffix =>
    obtain ⟨hsuffix, hmany⟩ := hseveral hfits
    rw [step, onList]
    rcases hmany with rfl | hnil
    · exact ⟨0, by rw [append, hsuffix, Option.map_some, foldl_pushEnd_exact]⟩
    · refine ⟨offset, ?_⟩
      rw [append, hsuffix, hnil, List.append_nil]
      rfl
  | prepend other =>
    obtain ⟨hother, hmany⟩ := hseveral hfits
    rw [step, onList]
    rcases hmany with rfl | hnil
    · exact ⟨0, by
        rw [prepend, hother, Option.map_some, foldl_pushStart_exact, List.reverse_reverse]⟩
    · refine ⟨offset, ?_⟩
      rw [prepend, hother, hnil]
      rfl
  | add rhs =>
    have hrhs : rhs = exact rhs.offset rhs.list := of_decide_eq_true hfits
    refine ⟨offset, ?_⟩
    rw [step, onList, hrhs, add_exact, list_exact]
  | slice cut lower upper =>
    simp only [stepFits, len_exact, Bool.and_eq_true, Bool.or_eq_true, decide_eq_true_eq] at hfits
    obtain ⟨hle, hfits⟩ := hfits
    rw [step, onList]
    by_cases hend : upper.endIdx l.length ≤ l.length
    · rw [if_pos hend, slice_exact offset l hle hend (by omega)]
      exact ⟨_, rfl⟩
    · rw [if_neg hend, slice_exact_none offset l cut lower (by omega)]
      exact ⟨offset, rfl⟩
  | stripPrefix cut other =>
    simp only [stepFits, offset_exact, len_exact, list_exact, Bool.and_eq_true, Bool.or_eq_true,
      Bool.not_eq_true', beq_iff_eq] at hfits
    have hother := list_of_iter hfits.1
    rw [len_of_iter hother] at hfits
    exact stripPrefix_step offset l cut hother hfits.2
  | commonPrefix cut other =>
    exact ⟨offset, commonPrefix_exact offset l cut (list_of_iter hfits)⟩

end

theorem run_exact {offset : Nat} {l : List Text} {ops : List PtrOperation}
    (hfits : (exact offset l).runFits ops = true) :
    ∃ offset', (exact offset l).run ops = some (exact offset' (ops.foldl onList l)) := by
  induction ops generalizing offset l with
  | nil => exact ⟨offset, rfl⟩
  | cons op rest ih =>
    simp only [runFits, Bool.and_eq_true] at hfits
    obtain ⟨offset₁, hstep⟩ := step_exact offset l hfits.1
    rw [hstep] at hfits
    obtain ⟨offset', hrun⟩ := ih hfits.2
    refine ⟨offset', ?_⟩
    rw [run, List.foldlM_cons, hstep]
    exact hrun

/-- A pointer that is parsed from the text of a list, with single bytes in front of the
first escape and the end of every segment, goes through any operations that fit as the
list does, without a panic. -/
theorem pointer_follows_list (l : List Text)
    (hmarks : ∀ s ∈ l, endsInByte (plainHead s) = true ∧ endsInByte s = true)
    (p : JsonPointer) (hparse : parse (escapeAll l) = some (.ok p)) (ops : List PtrOperation)
    (hfits : p.runFits ops = true) :
    ∃ p', p.run ops = some p' ∧ p'.iter = some (ops.foldl PtrOperation.onList l) ∧
      p'.asRef = escapeAll (ops.foldl PtrOperation.onList l) := by
  rw [parse_exact hmarks] at hparse
  cases hparse
  obtain ⟨offset, hrun⟩ := run_exact hfits
  exact ⟨_, hrun, iter_exact offset _, rfl⟩

/-- A slice of a parsed pointer with another pointer added to it. -/
theorem pointer_follows_list_slice : ∃ p', (exact 0 [['a'], ['b', '/'], ['c']]).run
        [.slice 3 (.included 1) .unbounded, .add (exact 0 [['d']]), .truncate 7] = some p' ∧
      p'.iter = some [['b', '/'], ['c'], ['d']] ∧
      p'.asRef = ['/', 'b', '~', '1', '/', 'c', '/', 'd'] :=
  pointer_follows_list [['a'], ['b', '/'], ['c']] (by decide) (exact 0 [['a'], ['b', '/'], ['c']])
    rfl [.slice 3 (.included 1) .unbounded, .add (exact 0 [['d']]), .truncate 7] (by decide)

/-- What goes wrong otherwise. Removing the first of two segments leaves the range of the
second where it was, and iterating panics. A segment pushed onto a slice gets the range of
another, popping from the slice leaves all of its text, and what is left of it behind a
prefix has the wrong text. An escape that is left open is accepted, and the text is not
that of the segments. -/
theorem pointer_loses_list :
    (∃ p p', parse ['/', 'a', '/', 'b'] = some (.ok p) ∧ p.popStart = some p' ∧ p'.iter = none) ∧
      (∃ p q, parse ['/', 'a', '/', 'b'] = some (.ok p) ∧
        p.slice 2 (.included 1) .unbounded = some (some q) ∧ q.iter = some [['b']] ∧
        (q.pushEnd ['c']).iter = some [['b'], ['b']] ∧
        q.popEnd = some ⟨['/', 'b'], 2, []⟩) ∧
      (∃ p q r, parse ['/', 'a', '/', 'b', '/', 'c'] = some (.ok p) ∧
        p.slice 3 (.included 1) .unbounded = some (some q) ∧ q.iter = some [['b'], ['c']] ∧
        q.stripPrefix 2 (exact 0 [['b']]) = some (some r) ∧ r.iter = none) ∧
      ∃ p, parse ['/', 'a', '~'] = some (.ok p) ∧ p.iter = some [['a']] ∧
        p.asRef ≠ escapeAll [['a']] := by
  exact ⟨⟨_, _, rfl, rfl, rfl⟩, ⟨_, _, rfl, rfl, rfl, rfl, rfl⟩,
    ⟨_, _, _, rfl, rfl, rfl, rfl, rfl⟩, _, rfl, rfl, by decide⟩

end JsonPointer

end StartTech.JsonPtr
