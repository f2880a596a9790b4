import StartTech.Foundation.Text

/-!
# Parsing expressions

A parser takes a part off the front of a text or fails. Choice is ordered: the
second alternative is tried only when the first one fails, and from the same
place. Repetition takes as many parts as there are and never gives one back.

## Implementation notes

A parser is a function of the text, in the state monad over `Option`. The number
of repetitions is bounded by the length of the text, which is no restriction
for a parser that takes at least one character.
-/

namespace StartTech.Foundation

abbrev Peg (α : Type) := StateT Text Option α

namespace Peg

variable {α β : Type} {p q : Peg α} {f : α → Peg β} {s rest t : Text} {a : α} {c : Char}
  {ps : List (Peg α)} {lang : Text → α → Prop} {as : List α} {r : α × Text} {cls : Char → Bool}

def fail : Peg α := fun _ => none

/-- The second parser where the first one fails. -/
def choice (p q : Peg α) : Peg α := fun s =>
  match p s with
  | some r => some r
  | none => q s

/-- The first alternative that succeeds. -/
def oneOf (ps : List (Peg α)) : Peg α := ps.foldr choice fail

def char (c : Char) : Peg Unit
  | [] => none
  | d :: rest => if d = c then some ((), rest) else none

/-- One character of a class. -/
def satisfy (cls : Char → Bool) : Peg Char
  | [] => none
  | d :: rest => if cls d then some (d, rest) else none

def literal : Text → Peg Unit
  | [] => pure ()
  | c :: cs => do
    char c
    literal cs

/-- The longest run of characters of a class, which may be empty. -/
def span (cls : Char → Bool) : Peg Text := fun s => some (s.takeWhile cls, s.dropWhile cls)

/-- A run of characters of a class that is not empty. -/
def span1 (cls : Char → Bool) : Peg Text := do
  let t ← span cls
  if t.isEmpty then fail else pure t

def optional (p : Peg α) : Peg (Option α) := fun s =>
  match p s with
  | some (a, rest) => some (some a, rest)
  | none => some (none, s)

def manyUpTo (p : Peg α) : Nat → Peg (List α)
  | 0 => pure []
  | fuel + 1 => fun s =>
    match p s with
    | some (a, rest) => (manyUpTo p fuel rest).map fun r => (a :: r.1, r.2)
    | none => some ([], s)

def many (p : Peg α) : Peg (List α) := fun s => manyUpTo p s.length s

/-- Parts with a separator between them. -/
def sepBy1 (sep : Char) (p : Peg α) : Peg (List α) := do
  let first ← p
  let rest ← many (do char sep; p)
  pure (first :: rest)

/-- The text that a parser takes off. -/
def consumed (p : Peg α) : Peg Text := fun s =>
  match p s with
  | some (_, rest) => some (s.take (s.length - rest.length), rest)
  | none => none

/-- The result of a parser that takes the whole text. -/
def parseAll (p : Peg α) (s : Text) : Option α :=
  match p s with
  | some (a, []) => some a
  | _ => none

theorem bind_eq_some {r : β × Text} :
    (p >>= f) s = some r ↔ ∃ a rest, p s = some (a, rest) ∧ f a rest = some r := by
  change (p s).bind (fun x => f x.1 x.2) = some r ↔ _
  rw [Option.bind_eq_some_iff]
  simp

theorem bind_of_eq_some (h : p s = some (a, rest)) : (p >>= f) s = f a rest := by
  change (p s).bind (fun x => f x.1 x.2) = _
  rw [h]
  rfl

theorem bind_of_eq_none (h : p s = none) : (p >>= f) s = none := by
  change (p s).bind (fun x => f x.1 x.2) = _
  rw [h]
  rfl

theorem pure_eq_some {b : α} : (pure a : Peg α) s = some (b, rest) ↔ a = b ∧ s = rest := by
  change some (a, s) = some (b, rest) ↔ _
  simp

theorem char_eq_some {u : Unit} : char c s = some (u, rest) ↔ s = c :: rest := by
  cases s with
  | nil => simp [char]
  | cons d s =>
    simp only [char]
    by_cases h : d = c <;> simp [h]

theorem char_bind_eq_some {f : Unit → Peg β} {r : β × Text} :
    (char c >>= f) s = some r ↔ ∃ u, s = c :: u ∧ f () u = some r := by
  simp only [bind_eq_some, char_eq_some]
  exact ⟨fun ⟨_, h⟩ => h, fun h => ⟨(), h⟩⟩

theorem optional_eq_some {o : Option α} (h : optional p s = some (o, rest)) :
    (o = none ∧ rest = s ∧ p s = none) ∨ ∃ a, o = some a ∧ p s = some (a, rest) := by
  unfold optional at h
  split at h
  · cases h
    exact .inr ⟨_, rfl, ‹_›⟩
  · cases h
    exact .inl ⟨rfl, rfl, ‹_›⟩

theorem parseAll_eq_some : parseAll p s = some a ↔ p s = some (a, []) := by
  rw [parseAll]
  split
  · rename_i heq
    simp [heq]
  · rename_i hne
    simpa using hne a

/-- A parser takes off texts of a language only, and its value belongs to the
text. -/
def Reads (p : Peg α) (lang : Text → α → Prop) : Prop :=
  ∀ s a rest, p s = some (a, rest) → ∃ t, s = t ++ rest ∧ lang t a

theorem reads_span (cls : Char → Bool) :
    Reads (span cls) fun t a => a = t ∧ ∀ c ∈ t, cls c = true := by
  intro s a rest h
  cases h
  exact ⟨s.takeWhile cls, List.takeWhile_append_dropWhile.symm, rfl,
    fun c hc => List.all_eq_true.mp List.all_takeWhile c hc⟩

theorem reads_span1 (cls : Char → Bool) :
    Reads (span1 cls) fun t a => a = t ∧ t ≠ [] ∧ ∀ c ∈ t, cls c = true := by
  intro s a rest h
  obtain ⟨t, mid, hspan, hs⟩ := bind_eq_some.mp h
  obtain ⟨u, rfl, rfl, hall⟩ := reads_span cls _ _ _ hspan
  split at hs
  · cases hs
  · rename_i hne
    obtain ⟨rfl, rfl⟩ := pure_eq_some.mp hs
    exact ⟨_, rfl, rfl, by simpa using hne, hall⟩

theorem reads_char (c : Char) : Reads (char c) fun t _ => t = [c] := by
  intro s a rest h
  exact ⟨[c], char_eq_some.mp h, rfl⟩

theorem reads_pure (h : lang [] a) : Reads (pure a) lang := by
  intro s b rest hs
  obtain ⟨rfl, rfl⟩ := pure_eq_some.mp hs
  exact ⟨[], rfl, h⟩

/-- What two parsers take off one after the other is one text. -/
theorem Reads.bind {lang' : Text → β → Prop} (h : Reads p lang)
    (hf : ∀ a, Reads (f a) fun t b => ∀ u, lang u a → lang' (u ++ t) b) :
    Reads (p >>= f) lang' := by
  intro s b rest hs
  obtain ⟨a, mid, hp, hfa⟩ := bind_eq_some.mp hs
  obtain ⟨u, rfl, hu⟩ := h _ _ _ hp
  obtain ⟨t, rfl, ht⟩ := hf a _ _ _ hfa
  exact ⟨u ++ t, by simp, ht u hu⟩

theorem reads_mark (h : lang [c] a) : Reads (do char c; pure a) lang := by
  apply (reads_char c).bind
  intro _
  apply reads_pure
  rintro _ rfl
  exact h

theorem Reads.optional {lang' : Text → Option α → Prop} (h : Reads p lang) (hnone : lang' [] none)
    (hsome : ∀ t a, lang t a → lang' t (some a)) : Reads (optional p) lang' := by
  intro s o rest hs
  rcases optional_eq_some hs with ⟨rfl, rfl, -⟩ | ⟨a, rfl, ha⟩
  · exact ⟨[], rfl, hnone⟩
  · obtain ⟨t, rfl, ht⟩ := h _ _ _ ha
    exact ⟨t, rfl, hsome t a ht⟩

theorem reads_literal (u : Text) : Reads (literal u) fun t _ => t = u := by
  induction u with
  | nil => exact reads_pure rfl
  | cons c u ih =>
    apply (reads_char c).bind
    rintro _ s a rest h
    obtain ⟨t, rfl, rfl⟩ := ih _ _ _ h
    exact ⟨t, rfl, by simp⟩

theorem reads_word (h : lang t a) : Reads (do literal t; pure a) lang := by
  apply (reads_literal t).bind
  intro _
  apply reads_pure
  simpa using h

theorem reads_oneOf (h : ∀ p ∈ ps, Reads p lang) : Reads (oneOf ps) lang := by
  induction ps with
  | nil =>
    intro s a rest hs
    cases hs
  | cons p ps ih =>
    intro s a rest hs
    change choice p (oneOf ps) s = some (a, rest) at hs
    unfold choice at hs
    split at hs
    · rename_i hp
      cases hs
      exact h p (by simp) _ _ _ hp
    · exact ih (fun q hq => h q (List.mem_cons_of_mem _ hq)) _ _ _ hs

/-- The parts that a parser takes off one after the other. -/
inductive Steps (p : Peg α) : Text → List α → Text → Prop
  | nil (s : Text) : Steps p s [] s
  | cons {s mid rest : Text} {a : α} {as : List α} (h : p s = some (a, mid))
      (tail : Steps p mid as rest) : Steps p s (a :: as) rest

theorem Steps.append {mid : Text} {bs : List α} (h : Steps p s as mid) (h' : Steps p mid bs rest) :
    Steps p s (as ++ bs) rest := by
  induction h with
  | nil => exact h'
  | cons hstep _ ih => exact .cons hstep (ih h')

theorem steps_of_many (h : many p s = some (as, rest)) :
    Steps p s as rest ∧ as.length ≤ s.length := by
  have hupTo (fuel : Nat) {s : Text} {as : List α} (h : manyUpTo p fuel s = some (as, rest)) :
      Steps p s as rest ∧ as.length ≤ fuel := by
    induction fuel generalizing s as with
    | zero =>
      obtain ⟨rfl, rfl⟩ := pure_eq_some.mp h
      exact ⟨.nil s, by simp⟩
    | succ fuel ih =>
      simp only [manyUpTo] at h
      split at h
      · rename_i a mid hp
        obtain ⟨⟨bs, rest'⟩, hm, heq⟩ := Option.map_eq_some_iff.mp h
        cases heq
        exact ⟨.cons hp (ih hm).1, by simpa using (ih hm).2⟩
      · cases h
        exact ⟨.nil _, by simp⟩
  exact hupTo s.length h

theorem many_of_steps (h : Steps p s as rest) (hlen : as.length ≤ s.length) (hend : p rest = none) :
    many p s = some (as, rest) := by
  have hupTo (fuel : Nat) (hfuel : as.length ≤ fuel) : manyUpTo p fuel s = some (as, rest) := by
    clear hlen
    induction h generalizing fuel with
    | nil s =>
      cases fuel with
      | zero => rfl
      | succ fuel => simp [manyUpTo, hend]
    | cons h _ ih =>
      cases fuel with
      | zero => simp at hfuel
      | succ fuel => simp [manyUpTo, h, ih hend fuel (by simpa using hfuel)]
  exact hupTo s.length hlen

theorem Reads.steps (h : Reads p lang) (hs : Steps p s as rest) :
    ∃ ts, s = ts.flatten ++ rest ∧ List.Forall₂ lang ts as := by
  induction hs with
  | nil s => exact ⟨[], rfl, .nil⟩
  | cons hp _ ih =>
    obtain ⟨t, rfl, ht⟩ := h _ _ _ hp
    obtain ⟨ts, rfl, hts⟩ := ih
    exact ⟨t :: ts, by simp, .cons ht hts⟩

/-- Parts with a separator between them are the first part and, for each later
one, the separator and the part. -/
theorem intercalate_cons (sep : Char) (t : Text) (ts : List Text) :
    [sep].intercalate (t :: ts) = t ++ (ts.map (sep :: ·)).flatten := by
  induction ts generalizing t with
  | nil => simp [List.intercalate]
  | cons u us ih =>
    have hstep : [sep].intercalate (t :: u :: us) = t ++ sep :: [sep].intercalate (u :: us) := by
      simp [List.intercalate]
    rw [hstep, ih u]
    simp

/-- They are also the earlier parts, each with the separator behind it, and the last one. -/
theorem intercalate_concat (sep : Char) (ts : List Text) (t : Text) :
    [sep].intercalate (ts ++ [t]) = (ts.map (· ++ [sep])).flatten ++ t := by
  cases ts with
  | nil => simp [List.intercalate]
  | cons u us =>
    rw [List.cons_append, intercalate_cons]
    induction us generalizing u with
    | nil => simp
    | cons w us ih => simpa using ih w

theorem reads_sepBy1 (h : Reads p lang) (sep : Char) : Reads (sepBy1 sep p) fun t as =>
      ∃ ts, ts ≠ [] ∧ t = [sep].intercalate ts ∧ List.Forall₂ lang ts as := by
  have hnext : Reads (do char sep; p) fun t a => ∃ u, t = sep :: u ∧ lang u a := by
    intro s a rest hs
    obtain ⟨mid, rfl, hp⟩ := char_bind_eq_some.mp hs
    obtain ⟨t, rfl, ht⟩ := h _ _ _ hp
    exact ⟨sep :: t, rfl, t, rfl, ht⟩
  intro s as rest hs
  obtain ⟨a, mid, hfirst, hs⟩ := bind_eq_some.mp hs
  obtain ⟨bs, rest', hrest, hs⟩ := bind_eq_some.mp hs
  obtain ⟨rfl, rfl⟩ := pure_eq_some.mp hs
  obtain ⟨t, rfl, ht⟩ := h _ _ _ hfirst
  obtain ⟨us, rfl, hus⟩ := hnext.steps (steps_of_many hrest).1
  have hsplit : ∀ {us : List Text} {bs : List α},
      List.Forall₂ (fun t a => ∃ u, t = sep :: u ∧ lang u a) us bs →
        ∃ ts, us = ts.map (sep :: ·) ∧ List.Forall₂ lang ts bs := by
    intro us bs hus
    induction hus with
    | nil => exact ⟨[], rfl, .nil⟩
    | cons hhead _ ih =>
      obtain ⟨v, rfl, hv⟩ := hhead
      obtain ⟨ts, rfl, hts⟩ := ih
      exact ⟨v :: ts, rfl, .cons hv hts⟩
  obtain ⟨ts, rfl, hts⟩ := hsplit hus
  exact ⟨t ++ (ts.map (sep :: ·)).flatten, by simp, t :: ts, by simp,
    (intercalate_cons sep t ts).symm, .cons ht hts⟩

theorem bind_apply (p : Peg α) (f : α → Peg β) (s : Text) :
    (p >>= f) s = (p s).bind fun r => f r.1 r.2 := rfl

theorem map_apply (f : α → β) (p : Peg α) (s : Text) :
    (f <$> p) s = (p s).map fun r => (f r.1, r.2) := by
  change (p s).bind _ = _
  cases p s <;> rfl

theorem char_cons (c d : Char) (rest : Text) :
    char c (d :: rest) = if d = c then some ((), rest) else none := rfl

theorem char_self (c : Char) (rest : Text) : char c (c :: rest) = some ((), rest) := by
  simp [char]

theorem char_of_head_ne (h : s.head? ≠ some c) : char c s = none := by
  cases s with
  | nil => rfl
  | cons d s => simpa [char] using h

theorem char_bind {f : Unit → Peg β} : (char c >>= f) (c :: rest) = f () rest :=
  bind_of_eq_some (char_self c rest)

theorem char_bind_of_ne {f : Unit → Peg β} (h : s.head? ≠ some c) : (char c >>= f) s = none :=
  bind_of_eq_none (char_of_head_ne h)

theorem optional_of_eq_some (h : p s = some (a, rest)) : optional p s = some (some a, rest) := by
  simp [optional, h]

theorem optional_of_eq_none (h : p s = none) : optional p s = some (none, s) := by
  simp [optional, h]

theorem choice_of_eq_some (h : p s = some r) : choice p q s = some r := by
  simp [choice, h]

theorem choice_of_eq_none (h : p s = none) : choice p q s = q s := by
  simp [choice, h]

theorem oneOf_of_eq_some (h : p s = some r) : oneOf (p :: ps) s = some r := choice_of_eq_some h

theorem oneOf_of_eq_none (h : p s = none) : oneOf (p :: ps) s = oneOf ps s := choice_of_eq_none h

theorem oneOf_eq_some (h : oneOf (p :: ps) s = some r) :
    p s = some r ∨ (p s = none ∧ oneOf ps s = some r) := by
  cases hp : p s with
  | none => exact .inr ⟨rfl, (oneOf_of_eq_none hp).symm.trans h⟩
  | some x => exact .inl ((oneOf_of_eq_some hp).symm.trans h)

/-- A run of a class ends where the text goes on with another character. -/
theorem span_append (ht : ∀ c ∈ t, cls c = true) (hrest : ∀ c ∈ rest.head?, cls c = false) :
    span cls (t ++ rest) = some (t, rest) := by
  have hdrop : rest.takeWhile cls = [] ∧ rest.dropWhile cls = rest := by
    cases rest with
    | nil => simp
    | cons c rest => simp [hrest c rfl]
  simp [span, List.takeWhile_append_of_pos ht, List.dropWhile_append_of_pos ht, hdrop]

theorem span1_append (hne : t ≠ []) (ht : ∀ c ∈ t, cls c = true)
    (hrest : ∀ c ∈ rest.head?, cls c = false) : span1 cls (t ++ rest) = some (t, rest) := by
  rw [span1, bind_of_eq_some (span_append ht hrest), if_neg (by simpa using hne)]
  rfl

theorem consumed_append (h : p (t ++ rest) = some (a, rest)) :
    consumed p (t ++ rest) = some (t, rest) := by
  simp [consumed, h]

variable {ι : Type} {text : ι → Text} {value : ι → α}

/-- Parts that are each read from where they stand are read one after the other. -/
theorem many_eq_some (items : List ι) (hstep : ∀ init i tail, items = init ++ i :: tail →
      p (text i ++ ((tail.map text).flatten ++ rest)) =
        some (value i, (tail.map text).flatten ++ rest))
    (hne : ∀ i ∈ items, text i ≠ []) (hend : p rest = none) :
    many p ((items.map text).flatten ++ rest) = some (items.map value, rest) := by
  have hsteps : Steps p ((items.map text).flatten ++ rest) (items.map value) rest := by
    clear hne
    induction items with
    | nil => exact .nil rest
    | cons i items ih =>
      have htail := ih fun init j tail heq => hstep (i :: init) j tail (by simp [heq])
      rw [List.map_cons, List.flatten_cons, List.append_assoc]
      exact .cons (hstep [] i items rfl) htail
  have hlen : items.length ≤ (items.map text).flatten.length := by
    clear hstep hsteps
    induction items with
    | nil => simp
    | cons i items ih =>
      have hi := List.length_pos_of_ne_nil (hne i (by simp))
      have htail := ih fun j hj => hne j (by simp [hj])
      simp only [List.map_cons, List.flatten_cons, List.length_append, List.length_cons]
      omega
  apply many_of_steps hsteps _ hend
  rw [List.length_map, List.length_append]
  omega

/-- Parts with a separator between them, of which none goes beyond its end. -/
theorem sepBy1_append {p : Peg Text} {sep : Char} {ts : List Text} (hne : ts ≠ [])
    (hp : ∀ t ∈ ts, ∀ u, (u = rest ∨ u.head? = some sep) → p (t ++ u) = some (t, u))
    (hrest : rest.head? ≠ some sep) :
    sepBy1 sep p ([sep].intercalate ts ++ rest) = some (ts, rest) := by
  obtain ⟨t, us, rfl⟩ := List.exists_cons_of_ne_nil hne
  have hnext (tail : List Text) : (tail.map (sep :: ·)).flatten ++ rest = rest ∨
      ((tail.map (sep :: ·)).flatten ++ rest).head? = some sep := by
    cases tail with
    | nil => exact .inl rfl
    | cons u tail => exact .inr rfl
  have hmany : many (do char sep; p) ((us.map (sep :: ·)).flatten ++ rest) =
      some (us.map id, rest) := by
    apply many_eq_some
    · intro init u tail heq
      have hu : u ∈ t :: us := by simp [heq]
      rw [List.cons_append, char_bind]
      exact hp u hu _ (hnext tail)
    · simp
    · exact char_bind_of_ne hrest
  rw [intercalate_cons, List.append_assoc, sepBy1,
    bind_of_eq_some (hp t (by simp) _ (hnext us)), bind_of_eq_some hmany, List.map_id]
  rfl

/-- A parser takes off at least a number of characters. -/
def Takes (k : Nat) (p : Peg α) : Prop :=
  ∀ s a rest, p s = some (a, rest) → rest.length + k ≤ s.length

variable {k : Nat}

theorem Takes.mono {j : Nat} (h : Takes k p) (hle : j ≤ k) : Takes j p := by
  intro s a rest hs
  have := h s a rest hs
  omega

theorem Takes.zero (h : Takes k p) : Takes 0 p := h.mono (Nat.zero_le k)

theorem takes_pure (a : α) : Takes 0 (pure a : Peg α) := by
  intro s b rest h
  obtain ⟨-, rfl⟩ := pure_eq_some.mp h
  simp

theorem Takes.bind (h : Takes k p) (hf : ∀ a, Takes 0 (f a)) : Takes k (p >>= f) := by
  intro s b rest hs
  obtain ⟨a, mid, hp, hfa⟩ := bind_eq_some.mp hs
  have h1 := h _ _ _ hp
  have h2 := hf a _ _ _ hfa
  omega

/-- What comes second takes the characters off. -/
theorem takes_bind (h : Takes 0 p) (hf : ∀ a, Takes k (f a)) : Takes k (p >>= f) := by
  intro s b rest hs
  obtain ⟨a, mid, hp, hfa⟩ := bind_eq_some.mp hs
  have h1 := h _ _ _ hp
  have h2 := hf a _ _ _ hfa
  omega

theorem takes_char (c : Char) : Takes 1 (char c) := by
  intro s a rest h
  rw [char_eq_some] at h
  simp [h]

theorem takes_satisfy (cls : Char → Bool) : Takes 1 (satisfy cls) := by
  intro s a rest h
  cases s with
  | nil => cases h
  | cons d s =>
    simp only [satisfy] at h
    split at h
    · cases h
      simp
    · cases h

theorem takes_literal (t : Text) : Takes 0 (literal t) := by
  induction t with
  | nil => exact takes_pure ()
  | cons c t ih => exact ((takes_char c).bind fun _ => ih).mono (by omega)

theorem takes_word (t : Text) (a : α) : Takes 0 (do literal t; pure a) :=
  (takes_literal t).bind fun _ => takes_pure a

theorem takes_span (cls : Char → Bool) : Takes 0 (span cls) := by
  intro s a rest h
  cases h
  simpa using (List.dropWhile_sublist cls).length_le

theorem takes_span1 (cls : Char → Bool) : Takes 1 (span1 cls) := by
  intro s a rest h
  obtain ⟨t, rfl, rfl, hne, -⟩ := reads_span1 _ _ _ _ h
  have := List.length_pos_of_ne_nil hne
  rw [List.length_append]
  omega

theorem Takes.optional (h : Takes 0 p) : Takes 0 (Peg.optional p) := by
  intro s o rest hs
  rcases optional_eq_some hs with ⟨-, rfl, -⟩ | ⟨a, -, ha⟩
  · simp
  · exact h _ _ _ ha

theorem Takes.choice (hp : Takes k p) (hq : Takes k q) : Takes k (Peg.choice p q) := by
  intro s a rest hs
  unfold Peg.choice at hs
  split at hs
  · rename_i heq
    exact hp _ _ _ (heq.trans hs)
  · exact hq _ _ _ hs

theorem takes_oneOf {ps : List (Peg α)} (h : ∀ p ∈ ps, Takes k p) : Takes k (oneOf ps) := by
  induction ps with
  | nil =>
    intro s a rest hs
    cases hs
  | cons p ps ih => exact (h p (by simp)).choice (ih fun q hq => h q (by simp [hq]))

theorem Takes.steps (h : Takes k p) {s rest : Text} {as : List α} (hs : Steps p s as rest) :
    rest.length + k * as.length ≤ s.length := by
  induction hs with
  | nil s => simp
  | cons hp _ ih =>
    have := h _ _ _ hp
    rw [List.length_cons, Nat.mul_add]
    omega

theorem Takes.many (h : Takes 0 p) : Takes 0 (Peg.many p) := by
  intro s as rest hs
  simpa using h.steps (steps_of_many hs).1

theorem Takes.sepBy1 (h : Takes k p) (sep : Char) : Takes k (Peg.sepBy1 sep p) := by
  apply h.bind
  intro a
  have hnext : Takes 0 (do char sep; p) :=
    (takes_char sep).zero.bind fun _ => h.zero
  exact hnext.many.bind fun as => takes_pure _

theorem Takes.consumed (h : Takes k p) : Takes k (Peg.consumed p) := by
  intro s t rest hs
  unfold Peg.consumed at hs
  split at hs
  · rename_i heq
    cases hs
    exact h _ _ _ heq
  · cases hs

/-- What a parser leaves does not start with a character of the class. -/
def Leaves (cls : Char → Bool) (p : Peg α) : Prop :=
  ∀ s a rest, p s = some (a, rest) → ∀ c ∈ rest.head?, cls c = false

theorem leaves_span (cls : Char → Bool) : Leaves cls (span cls) := by
  intro s a rest h c hc
  cases h
  induction s with
  | nil => cases hc
  | cons d s ih =>
    cases hd : cls d with
    | true =>
      rw [List.dropWhile_cons_of_pos hd] at hc
      exact ih hc
    | false =>
      rw [List.dropWhile_cons_of_neg (by simp [hd])] at hc
      cases hc
      exact hd

theorem leaves_span1 (cls : Char → Bool) : Leaves cls (span1 cls) := by
  intro s a rest h
  obtain ⟨t, mid, hspan, hs⟩ := bind_eq_some.mp h
  split at hs
  · cases hs
  · obtain ⟨-, rfl⟩ := pure_eq_some.mp hs
    exact leaves_span cls s t mid hspan

theorem Leaves.sepBy1 (h : Leaves cls p) (sep : Char) : Leaves cls (Peg.sepBy1 sep p) := by
  have hmany {s rest : Text} {as : List α} (hsteps : Steps (do char sep; p) s as rest)
      (hstart : ∀ c ∈ s.head?, cls c = false) : ∀ c ∈ rest.head?, cls c = false := by
    induction hsteps with
    | nil => exact hstart
    | cons hstep _ ih =>
      apply ih
      obtain ⟨_, mid, -, hp⟩ := bind_eq_some.mp hstep
      exact h _ _ _ hp
  intro s as rest hs
  obtain ⟨a, mid, ha, hs⟩ := bind_eq_some.mp hs
  obtain ⟨bs, mid', hbs, hs⟩ := bind_eq_some.mp hs
  obtain ⟨-, rfl⟩ := pure_eq_some.mp hs
  exact hmany (steps_of_many hbs).1 (h s a mid ha)

variable {n : Nat}

/-- Two parsers that do the same on texts up to a length. -/
def Agree (n : Nat) (p q : Peg α) : Prop := ∀ s : Text, s.length ≤ n → p s = q s

theorem Agree.refl (n : Nat) (p : Peg α) : Agree n p p := fun _ _ => rfl

theorem Agree.bind {f g : α → Peg β} (hp : Agree n p q) (htakes : Takes 0 p)
    (hf : ∀ a, Agree n (f a) (g a)) : Agree n (p >>= f) (q >>= g) := by
  intro s hs
  have hq := (hp s hs).symm
  cases hps : p s with
  | none => rw [bind_of_eq_none hps, bind_of_eq_none (hq.trans hps)]
  | some r =>
    have hlen := htakes s r.1 r.2 hps
    rw [bind_of_eq_some hps, bind_of_eq_some (hq.trans hps)]
    exact hf r.1 r.2 (by omega)

/-- Behind a character the texts are shorter. -/
theorem agree_char_bind (c : Char) {f g : Unit → Peg β} (hf : ∀ a, Agree n (f a) (g a)) :
    Agree (n + 1) (char c >>= f) (char c >>= g) := by
  intro s hs
  cases hc : char c s with
  | none => rw [bind_of_eq_none hc, bind_of_eq_none hc]
  | some r =>
    have hlen := takes_char c s r.1 r.2 hc
    rw [bind_of_eq_some hc, bind_of_eq_some hc]
    exact hf r.1 r.2 (by omega)

theorem Agree.many (hp : Agree n p q) (htakes : Takes 0 p) : Agree n (Peg.many p) (Peg.many q) := by
  have hupTo (fuel : Nat) (s : Text) (hs : s.length ≤ n) :
      manyUpTo p fuel s = manyUpTo q fuel s := by
    induction fuel generalizing s with
    | zero => rfl
    | succ fuel ih =>
      simp only [manyUpTo, ← hp s hs]
      cases hps : p s with
      | none => rfl
      | some r =>
        have hlen := htakes s r.1 r.2 hps
        simp [ih r.2 (by omega)]
  exact fun s hs => hupTo s.length s hs

theorem agree_oneOf {ps qs : List (Peg α)} (h : List.Forall₂ (Agree n) ps qs) :
    Agree n (oneOf ps) (oneOf qs) := by
  induction h with
  | nil => exact .refl n _
  | cons hp _ ih =>
    intro s hs
    change choice _ (oneOf _) s = choice _ (oneOf _) s
    simp [choice, hp s hs, ih s hs]

end Peg

end StartTech.Foundation
