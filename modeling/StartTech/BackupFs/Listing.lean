import StartTech.BackupFs.Readdir

/-!
# What the pages of a directory list

The full listing is the two special names followed by the names of the snapshot.
A call that starts at the end of an earlier page continues the listing there, if
the cursor of that page is still held and no name sorts before it that comes after
it in the listing.
-/

namespace StartTech.BackupFs

open Function (update update_self update_of_ne)
open Prod (fst)

/-- The entries with the offsets behind them, from an offset on. -/
def number (offset : Nat) : List (Name × DirectoryEntry) → List Sent
  | [] => []
  | (name, entry) :: rest => { name, entry, offset := offset + 1 } :: number (offset + 1) rest

section

variable (l : List (Name × DirectoryEntry))
include l

theorem number_drop (offset k : Nat) :
    (number offset l).drop k = number (offset + k) (l.drop k) := by
  induction l generalizing offset k with
  | nil => simp [number]
  | cons e rest ih =>
    cases k with
    | zero => rfl
    | succ k => simp [number, ih, Nat.add_assoc, Nat.add_comm 1 k]

theorem number_take (offset k : Nat) : (number offset l).take k = number offset (l.take k) := by
  induction l generalizing offset k with
  | nil => simp [number]
  | cons e rest ih =>
    cases k with
    | zero => rfl
    | succ k => simp [number, ih]

theorem map_name_number (offset : Nat) : (number offset l).map Sent.name = l.map fst := by
  induction l generalizing offset with
  | nil => rfl
  | cons e rest ih => simp [number, ih]

theorem getLast?_number (offset : Nat) :
    ((number offset l).getLast?.map Sent.offset).getD offset = offset + l.length := by
  induction l generalizing offset with
  | nil => rfl
  | cons e rest ih =>
    cases rest with
    | nil => rfl
    | cons e' rest =>
      have hrest := ih (offset + 1)
      simp only [number, List.getLast?_cons_cons, List.length_cons] at hrest ⊢
      rw [List.getLast?_eq_some_getLast (List.cons_ne_nil _ _)] at hrest ⊢
      simp only [Option.map_some, Option.getD_some] at hrest ⊢
      omega

end

def Bucket.listing (b : Bucket) (attrs : Attributes) : List (Name × DirectoryEntry) :=
  (dot, selfEntry attrs) :: (dotdot, parentEntry attrs) :: b.entries

def Bucket.names (b : Bucket) : List Name := dot :: dotdot :: b.entries.map fst

theorem Bucket.map_fst_listing (b : Bucket) (attrs : Attributes) :
    (b.listing attrs).map fst = b.names := rfl

/-- A call of `readdir`. -/
structure Request where
  attrs : Attributes
  offset : Nat
  room : Nat

/-- The next entries of the listing, as many as there is room for. -/
def Bucket.page (b : Bucket) (r : Request) : List Sent :=
  ((number 0 (b.listing r.attrs)).drop r.offset).take r.room

theorem Bucket.page_eq (b : Bucket) (r : Request) :
    b.page r = number r.offset (((b.listing r.attrs).drop r.offset).take r.room) := by
  rw [Bucket.page, number_drop, number_take, Nat.zero_add]

/-- The loop takes what there is room for and remembers the last name of it. -/
theorem readdirLoop_plain (room offset : Nat) (sent : List Sent) (cur : Option Name)
    (l : List (Name × DirectoryEntry)) :
    readdirLoop handlePlain { room, sent } offset cur l =
      { state := { room := room - l.length, sent := sent ++ number offset (l.take room) }
        offset := offset + (l.take room).length
        cur := ((l.take room).getLast?.map fst).or cur
        res := .ok (decide (room < l.length))
        rest := l.drop (room + 1) } := by
  induction l generalizing room offset sent cur with
  | nil => simp [readdirLoop, number]
  | cons e rest ih =>
    obtain ⟨name, entry⟩ := e
    cases room with
    | zero => simp [readdirLoop, handlePlain, Reply.add, number]
    | succ room =>
      have hstep : readdirLoop handlePlain { room := room + 1, sent } offset cur
          ((name, entry) :: rest) =
          readdirLoop handlePlain { room, sent := sent ++ [⟨name, entry, offset + 1⟩] }
            (offset + 1) (some name) rest := by
        simp [readdirLoop, handlePlain, Reply.add]
      have hcur : (((name, entry) :: rest.take room).getLast?.map fst).or cur =
          ((rest.take room).getLast?.map fst).or (some name) := by
        rw [List.getLast?_cons]
        cases (rest.take room).getLast? <;> rfl
      rw [hstep, ih, List.take_succ_cons, hcur]
      simp [number, Nat.add_assoc, Nat.add_comm 1]

/-- Every cursor stands under its place in the listing. -/
def DirHandle.Consistent (h : DirHandle) : Prop :=
  ∀ offset cursor, h.cursors offset = some cursor →
    0 < offset ∧ h.entries.names[offset - 1]? = some cursor

/-- A call starts at the beginning or at a cursor that is held, with no name before it
if it is one of the special names. -/
def DirHandle.inStep (h : DirHandle) (r : Request) : Bool :=
  r.attrs.isDir &&
    (r.offset == 0 ||
      match h.cursors r.offset with
      | none => false
      | some cursor =>
        (cursor != dot && cursor != dotdot) ||
          h.entries.entries.all fun e => decide (cursor < e.1))

/-- Behind an element of a sorted list comes what is greater. -/
theorem filter_lt_getElem {l : List (Name × DirectoryEntry)}
    (h : l.Pairwise fun a b => a.1 < b.1) {i : Nat} {e : Name × DirectoryEntry}
    (hi : l[i]? = some e) : (l.filter fun x => decide (e.1 < x.1)) = l.drop (i + 1) := by
  induction l generalizing i with
  | nil => simp at hi
  | cons a rest ih =>
    obtain ⟨ha, hrest⟩ := List.pairwise_cons.mp h
    cases i with
    | zero =>
      obtain rfl : a = e := by simpa using hi
      rw [List.filter_cons_of_neg (by simp)]
      exact List.filter_eq_self.mpr fun x hx => by simpa using ha x hx
    | succ i =>
      have hmem : e ∈ rest := List.mem_of_getElem? (by simpa using hi)
      rw [List.filter_cons_of_neg (by simpa using (ha e hmem).le)]
      exact ih hrest (by simpa using hi)

variable {h : DirHandle} {r : Request} {α : Type} {offset : Nat}
  {page : List (Name × DirectoryEntry)} {calls : List (Attributes × Nat)}

/-- From a cursor in step on, a call sees the rest of the listing. -/
theorem DirHandle.Consistent.range (hc : h.Consistent) (hstep : h.inStep r = true) :
    special r.attrs (h.cursors r.offset) ++ h.entries.range (h.cursors r.offset) =
      (h.entries.listing r.attrs).drop r.offset := by
  rw [DirHandle.inStep, Bool.and_eq_true, Bool.or_eq_true, beq_iff_eq] at hstep
  cases hcursor : h.cursors r.offset with
  | none =>
    have hzero : r.offset = 0 := hstep.2.resolve_right (by simp [hcursor])
    rw [hzero]
    rfl
  | some cursor =>
    obtain ⟨hpos, hname⟩ := hc _ _ hcursor
    obtain ⟨k, hk⟩ : ∃ k, r.offset = k + 1 := ⟨r.offset - 1, by omega⟩
    have hall : cursor = dot ∨ cursor = dotdot → ∀ e ∈ h.entries.entries, cursor < e.1 := by
      intro hspecial
      have hnames := hstep.2.resolve_left (by omega)
      rw [hcursor] at hnames
      rcases hspecial with rfl | rfl <;> simpa using hnames
    rw [hk] at hname
    rw [hk]
    rcases k with _ | _ | k
    · obtain rfl : dot = cursor := by simpa [Bucket.names] using hname
      have hrange : h.entries.range (some dot) = h.entries.entries :=
        List.filter_eq_self.mpr fun e he => by simpa using hall (.inl rfl) e he
      rw [hrange]
      rfl
    · obtain rfl : dotdot = cursor := by simpa [Bucket.names] using hname
      have hrange : h.entries.range (some dotdot) = h.entries.entries :=
        List.filter_eq_self.mpr fun e he => by simpa using hall (.inr rfl) e he
      rw [hrange]
      rfl
    · have hmap : (h.entries.entries.map fst)[k]? = some cursor := by
        simpa [Bucket.names] using hname
      rw [List.getElem?_map, Option.map_eq_some_iff] at hmap
      obtain ⟨e, he, rfl⟩ := hmap
      have hmem : e ∈ h.entries.entries := List.mem_of_getElem? he
      have hnot : ¬(e.1 = dot ∨ e.1 = dotdot) := fun hspecial =>
        lt_irrefl _ (hall hspecial e hmem)
      rw [not_or] at hnot
      have hspecial : special r.attrs (some e.1) = [] := by simp [special, hnot.1]
      rw [hspecial, Bucket.range, filter_lt_getElem h.entries.sorted he]
      rfl

/-- The handle after a call that reached an offset with a cursor. -/
def DirHandle.moved (h : DirHandle) (offset reached : Nat) (cur : Option Name) : DirHandle :=
  { h with
    cursors :=
      match cur with
      | some cur => update (update h.cursors offset none) reached (some cur)
      | none => update h.cursors offset none }

/-- The cursor behind a page is its last name, or the one it started from. -/
theorem DirHandle.Consistent.behind (hc : h.Consistent) (r : Request) {cursor : Name}
    (hpage : page = ((h.entries.listing r.attrs).drop r.offset).take r.room)
    (hcur : (page.getLast?.map fst).or (h.cursors r.offset) = some cursor) :
    0 < r.offset + page.length ∧ h.entries.names[r.offset + page.length - 1]? = some cursor := by
  cases hlast : page.getLast? with
  | none =>
    rw [hlast] at hcur
    rw [List.getLast?_eq_none_iff] at hlast
    rw [hlast]
    exact hc _ _ hcur
  | some e =>
    rw [hlast, Option.map_some, Option.some_or] at hcur
    subst hpage
    have hpos : 0 < (((h.entries.listing r.attrs).drop r.offset).take r.room).length := by
      rw [List.length_pos_iff]
      rintro hnil
      simp [hnil] at hlast
    have hlen := List.length_take_le r.room ((h.entries.listing r.attrs).drop r.offset)
    rw [List.getLast?_eq_getElem?, List.getElem?_take_of_lt (by omega), List.getElem?_drop,
      ← Nat.add_sub_assoc hpos] at hlast
    refine ⟨by omega, ?_⟩
    rw [← h.entries.map_fst_listing r.attrs, List.getElem?_map, hlast, Option.map_some, hcur]

theorem readdir_eq (hdir : r.attrs.isDir = true) (hpage : page =
      (special r.attrs (h.cursors r.offset) ++ h.entries.range (h.cursors r.offset)).take r.room) :
    readdir h r.attrs r.offset r.room = (.ok (number r.offset page),
        h.moved r.offset (r.offset + page.length)
          ((page.getLast?.map fst).or (h.cursors r.offset))) := by
  simp only [readdir, Handler.readdir, hdir, readdirLoop_plain, ← hpage]
  rfl

theorem DirHandle.Consistent.moved (hc : h.Consistent) {reached : Nat} {cur : Option Name}
    (hcur : ∀ cursor, cur = some cursor →
      0 < reached ∧ h.entries.names[reached - 1]? = some cursor) :
    (h.moved offset reached cur).Consistent := by
  have hremoved : ∀ o cursor, update h.cursors offset none o = some cursor →
      0 < o ∧ h.entries.names[o - 1]? = some cursor := by
    intro o cursor ho
    by_cases hoffset : o = offset
    · rw [hoffset, update_self] at ho
      cases ho
    · rw [update_of_ne hoffset] at ho
      exact hc o cursor ho
  cases cur with
  | none => exact hremoved
  | some name =>
    intro o cursor ho
    change update (update h.cursors offset none) reached (some name) o =
      some cursor at ho
    by_cases hreached : o = reached
    · rw [hreached, update_self] at ho
      rw [hreached]
      exact hcur cursor ho
    · rw [update_of_ne hreached] at ho
      exact hremoved o cursor ho

/-- A call in step sends the next page, and its handle stays consistent and holds the
cursor behind the page. -/
theorem DirHandle.Consistent.readdir (hc : h.Consistent) (hstep : h.inStep r = true) :
    ∃ h', BackupFs.readdir h r.attrs r.offset r.room = (.ok (h.entries.page r), h') ∧
      h'.Consistent ∧ h'.entries = h.entries ∧
      ∀ reached, reached = r.offset +
          (((h.entries.listing r.attrs).drop r.offset).take r.room).length →
        0 < reached → (h'.cursors reached).isSome = true := by
  have hrange := hc.range hstep
  rw [DirHandle.inStep, Bool.and_eq_true] at hstep
  obtain ⟨hdir, hstart⟩ := hstep
  rw [h.entries.page_eq r]
  generalize hpage : ((h.entries.listing r.attrs).drop r.offset).take r.room = page
  refine ⟨_, readdir_eq hdir (by rw [hrange, hpage]), hc.moved ?_, rfl, ?_⟩
  · intro cursor hcur
    exact hc.behind r hpage.symm hcur
  · rintro reached rfl hpos
    cases hcur : (page.getLast?.map fst).or (h.cursors r.offset) with
    | some cursor => simp [DirHandle.moved]
    | none =>
      rw [Option.or_eq_none_iff, Option.map_eq_none_iff, List.getLast?_eq_none_iff] at hcur
      rw [hcur.1, List.length_nil] at hpos
      rw [hcur.2, Bool.or_false, beq_iff_eq] at hstart
      omega

/-- The pages that calls on a handle send. -/
def pages (h : DirHandle) : List Request → List (Except Errno (List Sent))
  | [] => []
  | r :: rest =>
    let p := readdir h r.attrs r.offset r.room
    p.1 :: pages p.2 rest

def runInStep (h : DirHandle) : List Request → Bool
  | [] => true
  | r :: rest => h.inStep r && runInStep (readdir h r.attrs r.offset r.room).2 rest

theorem pages_eq (hc : h.Consistent) {requests : List Request}
    (hstep : runInStep h requests = true) :
    pages h requests = requests.map fun r => .ok (h.entries.page r) := by
  induction requests generalizing h with
  | nil => rfl
  | cons r rest ih =>
    rw [runInStep, Bool.and_eq_true] at hstep
    obtain ⟨h', hread, hc', hents, -⟩ := hc.readdir hstep.1
    rw [hread] at hstep
    rw [pages, hread, List.map_cons, ih hc' hstep.2, hents]

/-- Read on from the last offset that was returned. -/
def follow (h : DirHandle) (offset : Nat) : List (Attributes × Nat) → List (List Sent)
  | [] => []
  | (attrs, room) :: rest =>
    match readdir h attrs offset room with
    | (.error _, _) => []
    | (.ok page, h) => page :: follow h ((page.getLast?.map Sent.offset).getD offset) rest

/-- How many entries there is room for. -/
def totalRoom : List (Attributes × Nat) → Nat
  | [] => 0
  | (_, room) :: rest => room + totalRoom rest

theorem consistent_opendir (inode : Nat) (b : Bucket) : (opendir inode b).Consistent := by
  intro offset cursor h
  cases h

theorem drop_length_take (l : List α) (k : Nat) : l.drop (l.take k).length = l.drop k := by
  rcases Nat.le_total k l.length with hk | hk
  · rw [List.length_take_of_le hk]
  · rw [List.take_of_length_le hk, List.drop_length, List.drop_of_length_le hk]

/-- Where every name comes after the special ones, a cursor that is held is in step. -/
theorem DirHandle.Consistent.inStep (hnames : ∀ e ∈ h.entries.entries, dotdot < e.1)
    (hdir : r.attrs.isDir = true) (hstart : r.offset = 0 ∨ (h.cursors r.offset).isSome = true) :
    h.inStep r = true := by
  rw [DirHandle.inStep, hdir, Bool.true_and, Bool.or_eq_true, beq_iff_eq]
  refine hstart.imp_right fun hsome => ?_
  obtain ⟨cursor, hcursor⟩ := Option.isSome_iff_exists.mp hsome
  rw [hcursor]
  by_cases hspecial : cursor = dot ∨ cursor = dotdot
  · have hle : cursor ≤ dotdot := by
      rcases hspecial with rfl | rfl
      · decide
      · exact le_refl _
    simp only [Bool.or_eq_true, List.all_eq_true, decide_eq_true_eq]
    exact .inr fun e he => lt_of_le_of_lt hle (hnames e he)
  · rw [not_or] at hspecial
    simp [hspecial]

theorem follow_names (hc : h.Consistent) (hnames : ∀ e ∈ h.entries.entries, dotdot < e.1)
    (hstart : offset = 0 ∨ (h.cursors offset).isSome = true)
    (hdir : ∀ c ∈ calls, c.1.isDir = true) :
    (follow h offset calls).flatten.map Sent.name =
      (h.entries.names.drop offset).take (totalRoom calls) := by
  induction calls generalizing h offset with
  | nil => simp [follow, totalRoom]
  | cons c rest ih =>
    obtain ⟨attrs, room⟩ := c
    have hstep : h.inStep ⟨attrs, offset, room⟩ = true :=
      DirHandle.Consistent.inStep hnames (hdir _ List.mem_cons_self) hstart
    obtain ⟨h', hread, hc', hents, hheld⟩ := hc.readdir hstep
    rw [h.entries.page_eq] at hread
    generalize hpage : ((h.entries.listing attrs).drop offset).take room = page at hread hheld
    have hnext : (follow h' (offset + page.length) rest).flatten.map Sent.name =
        (h'.entries.names.drop (offset + page.length)).take (totalRoom rest) :=
      ih hc' (by rwa [hents]) (Nat.eq_zero_or_pos _ |>.imp_right (hheld _ rfl))
        fun c hmem => hdir c (by simp [hmem])
    have hpageNames : page.map fst = (h.entries.names.drop offset).take room := by
      rw [← hpage, List.map_take, List.map_drop, h.entries.map_fst_listing]
    have hlen : page.length = ((h.entries.names.drop offset).take room).length := by
      rw [← hpageNames, List.length_map]
    rw [follow, hread]
    simp only [List.flatten_cons, List.map_append, map_name_number, getLast?_number]
    rw [hnext, hents, hpageNames, totalRoom, List.take_add, hlen, ← List.drop_drop,
      drop_length_take]

theorem length_le_totalRoom (h : ∀ c ∈ calls, 0 < c.2) : calls.length ≤ totalRoom calls := by
  induction calls with
  | nil => exact Nat.le_refl 0
  | cons c rest ih =>
    have hhead := h c List.mem_cons_self
    have hrest := ih fun c hc => h c (by simp [hc])
    simp only [List.length_cons, totalRoom]
    omega

/-- Calls that start at held cursors, none of them behind a name that the directory has,
send the next entries of the listing. If all names come after the special ones,
following the offsets lists every name once, and ends. -/
theorem listing_paged (inode : Nat) (b : Bucket) (requests : List Request)
    (hstep : runInStep (opendir inode b) requests = true) :
    pages (opendir inode b) requests = (requests.map fun r => .ok (b.page r)) ∧
      ((∀ e ∈ b.entries, dotdot < e.1) → ∀ calls : List (Attributes × Nat),
        (∀ c ∈ calls, c.1.isDir = true) → (follow (opendir inode b) 0 calls).flatten.map Sent.name =
              b.names.take (totalRoom calls) ∧
            ((∀ c ∈ calls, 0 < c.2) → b.names.length ≤ calls.length →
              (follow (opendir inode b) 0 calls).flatten.map Sent.name = b.names)) := by
  refine ⟨pages_eq (consistent_opendir inode b) hstep, ?_⟩
  intro hnames calls hdir
  have hfollow := follow_names (consistent_opendir inode b) hnames (.inl rfl) hdir
  refine ⟨hfollow, fun hroom hlen => ?_⟩
  have htotal := length_le_totalRoom hroom
  rw [hfollow]
  exact List.take_of_length_le (hlen.trans htotal)

/-- A directory with one name. -/
def single (name : Name) : Bucket := ⟨[(name, ⟨2, .regularFile⟩)], List.pairwise_singleton ..⟩

/-- The root, which is its own parent. -/
def rootAttributes : Attributes := ⟨1, true, none⟩

/-- The name `a`, listed in pages of one and then from the start in one page. -/
theorem listing_paged_single : pages (opendir 1 (single [97]))
        [⟨rootAttributes, 0, 1⟩, ⟨rootAttributes, 1, 1⟩, ⟨rootAttributes, 2, 1⟩,
          ⟨rootAttributes, 0, 9⟩] =
      [.ok [⟨dot, ⟨1, .directory⟩, 1⟩], .ok [⟨dotdot, ⟨1, .directory⟩, 2⟩],
        .ok [⟨[97], ⟨2, .regularFile⟩, 3⟩],
        .ok [⟨dot, ⟨1, .directory⟩, 1⟩, ⟨dotdot, ⟨1, .directory⟩, 2⟩,
          ⟨[97], ⟨2, .regularFile⟩, 3⟩]] :=
  (listing_paged 1 (single [97]) [⟨rootAttributes, 0, 1⟩, ⟨rootAttributes, 1, 1⟩,
    ⟨rootAttributes, 2, 1⟩, ⟨rootAttributes, 0, 9⟩] (by decide)).1

/-- The name `-a` sorts before the special names and is not listed when a page ends at
one of them. An offset from within a page, and one that was used before, start the
listing over. -/
theorem listing_not_paged :
    follow (opendir 1 (single [45, 97])) 0 [(rootAttributes, 1), (rootAttributes, 9),
        (rootAttributes, 9)] =
      [[⟨dot, ⟨1, .directory⟩, 1⟩], [⟨dotdot, ⟨1, .directory⟩, 2⟩], []] ∧
    (single [45, 97]).page ⟨rootAttributes, 1, 9⟩ =
      [⟨dotdot, ⟨1, .directory⟩, 2⟩, ⟨[45, 97], ⟨2, .regularFile⟩, 3⟩] ∧
    pages (opendir 1 (single [97])) [⟨rootAttributes, 0, 9⟩, ⟨rootAttributes, 1, 1⟩] =
      [.ok [⟨dot, ⟨1, .directory⟩, 1⟩, ⟨dotdot, ⟨1, .directory⟩, 2⟩,
        ⟨[97], ⟨2, .regularFile⟩, 3⟩], .ok [⟨dot, ⟨1, .directory⟩, 2⟩]] ∧
    pages (opendir 1 (single [97])) [⟨rootAttributes, 0, 2⟩, ⟨rootAttributes, 2, 1⟩,
        ⟨rootAttributes, 2, 1⟩] =
      [.ok [⟨dot, ⟨1, .directory⟩, 1⟩, ⟨dotdot, ⟨1, .directory⟩, 2⟩],
        .ok [⟨[97], ⟨2, .regularFile⟩, 3⟩], .ok [⟨dot, ⟨1, .directory⟩, 3⟩]] := by
  refine ⟨by decide, by decide, ?_, ?_⟩ <;> rfl

end StartTech.BackupFs
