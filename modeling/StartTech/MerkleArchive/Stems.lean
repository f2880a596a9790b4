import StartTech.MerkleArchive.Archive
import Mathlib.Data.List.DropRight

/-!
# Files by their stems

The files with a stem are looked for right behind it in the order of names, and the search
stops at the first name with another stem. Such a name may stand between the stem and a file
that has it: `icon-large.png` is before `icon.png`.

## Implementation notes

A path is the directory of its file and the name of it. The set of expected files is a
parameter, with what it answers when a file is added.
-/

namespace StartTech.MerkleArchive

open Foundation Fallible
open OrderedMap (Sorted)

/-- The last component of a path, if it is a name. -/
def fileName (path : Path) : Option Bytes :=
  match ((path.splitOn 47).filter fun s => s ≠ [] ∧ s ≠ [46]).getLast? with
  | some [46, 46] => none
  | last => last

/-- What is before the last dot and what is behind it. -/
def rsplitFileAtDot (file : Bytes) : Option Bytes × Option Bytes :=
  match file.rdropWhile (· ≠ 46) with
  | [] => (none, some file)
  | [_] => (some file, none)
  | before => (some before.dropLast, some (file.rtakeWhile (· ≠ 46)))

def fileStem (path : Path) : Option Bytes :=
  ((fileName path).map rsplitFileAtDot).bind fun parts => parts.1.or parts.2

def extension (path : Path) : Option Bytes :=
  ((fileName path).map rsplitFileAtDot).bind fun parts => parts.1.bind fun _ => parts.2

def ascii (s : String) : Bytes := s.toList.map fun c => UInt8.ofNat c.toNat

def mimeTypes : List (String × String) :=
  [("apng", "image/apng"), ("avif", "image/avif"), ("flif", "image/flif"), ("gif", "image/gif"),
    ("jpg", "image/jpeg"), ("jpeg", "image/jpeg"), ("jfif", "image/jpeg"),
    ("pjpeg", "image/jpeg"), ("pjp", "image/jpeg"), ("jxl", "image/jxl"), ("png", "image/png"),
    ("svg", "image/svg+xml"), ("webp", "image/webp"), ("mng", "image/x-mng"),
    ("x-mng", "image/x-mng"), ("css", "text/css"), ("csv", "text/csv"), ("html", "text/html"),
    ("php", "text/php"), ("plain", "text/plain"), ("md", "text/plain"), ("txt", "text/plain"),
    ("xml", "text/xml"), ("js", "text/javascript"), ("wasm", "application/wasm")]

def mime (extension : Bytes) : Option String :=
  (mimeTypes.find? fun e => ascii e.1 = extension).map Prod.snd

/-- The extension of an image. -/
def isImage (extension : Option Bytes) : Bool :=
  (extension.bind mime).any fun m => "image/".toList.isPrefixOf m.toList

variable {S K : Type}

def EntryOf.isFile (e : Entry S) : Bool := e.contents.kind = .file

def DirectoryOf.withStem (d : DirectoryContents S) (stem : Name) : List (Name × Entry S) :=
  ((d.get stem).map fun e => (stem, e)).toList ++
    (d.contents.filter fun e => compare stem e.1 = .lt).takeWhile fun e =>
      fileStem e.1.bytes = some stem.bytes

def displayPath (parent : List Name) (file : Name) : String :=
  "/".intercalate ((parent ++ [file]).map Name.text)

/-- Keep the first name with a valid extension, and refuse a second. -/
def pickName (display : String) (validExtension : Option Bytes → Bool)
    (acc : Except Error Name) (name : Name) : Except Error (Except Error Name) :=
  if validExtension (extension name.bytes) then
    match acc with
    | .ok _ => .error ⟨.parseS9pk, "more than one file matching " ++ display ++
        " with valid extension in archive"⟩
    | .error _ => .ok (.ok name)
  else .ok acc

/-- The directory of a path. -/
def DirectoryOf.lookupParent (dir : DirectoryContents S) (parent : List Name) :
    Except Error (DirectoryContents S) :=
  if parent = [] then .ok dir
  else match dir.getPath parent with
    | some ⟨_, .directory d⟩ => .ok d
    | _ => .error ⟨.parseS9pk, "directory " ++ "/".intercalate (parent.map Name.text) ++
        " missing from archive"⟩

def checkStem (insertPath : List Name → Name → Except Error K) (dir : DirectoryContents S)
    (parent : List Name) (stem : Name) (validExtension : Option Bytes → Bool) : Except Error K := do
  let dir ← dir.lookupParent parent
  let names := ((dir.withStem stem).filter fun e => e.2.isFile).map Prod.fst
  let found ← names.foldlM (pickName (displayPath parent stem) validExtension)
    (.error ⟨.parseS9pk, "file " ++ displayPath parent stem ++
      " with valid extension missing from archive"⟩)
  let name ← found
  insertPath parent name

/-- The greatest file so far, and the first of these. -/
def bestIcon [FileSource S] (best : Option (Nat × (Name × Entry S))) (e : Name × Entry S) :
    Option (Nat × (Name × Entry S)) :=
  let size := e.2.contents.storedSize
  some ((best.filter fun b => b.1 ≥ size).getD (size, e))

def iconName : Name := ⟨[105, 99, 111, 110], by decide⟩

def icon [FileSource S] (d : DirectoryContents S) : Except Error (Name × Entry S) :=
  match ((d.withStem iconName).filter fun e => isImage (extension e.1.bytes) && e.2.isFile).foldl
    bestIcon none with
  | some (_, a) => .ok a
  | none => .error ⟨.parseS9pk, "no icon found in archive"⟩

/-- The files of a directory with a stem and a valid extension. -/
def DirectoryOf.candidates (d : DirectoryContents S) (stem : Name)
    (validExtension : Option Bytes → Bool) : List (Name × Entry S) :=
  (d.contents.filter fun e => fileStem e.1.bytes = some stem.bytes).filter fun e =>
    validExtension (extension e.1.bytes) && e.2.isFile

/-- The names with the stem start at the stem and stand together: an entry with the stem as its name
has the stem, no name before the stem has it, and a name between the stem and one that has it has
it too. -/
structure DirectoryOf.Unbroken (d : DirectoryContents S) (stem : Name) : Prop where
  self : ∀ e ∈ d.contents, e.1 = stem → fileStem e.1.bytes = some stem.bytes
  behind : ∀ e ∈ d.contents, fileStem e.1.bytes = some stem.bytes → compare e.1 stem ≠ .lt
  between : ∀ a ∈ d.contents, ∀ b ∈ d.contents, compare stem a.1 = .lt → compare a.1 b.1 = .lt →
    fileStem b.1.bytes = some stem.bytes → fileStem a.1.bytes = some stem.bytes

theorem takeWhile_eq_filter {α : Type*} {p : α → Bool} {l : List α}
    (h : l.Pairwise fun a b => p b = true → p a = true) : l.takeWhile p = l.filter p := by
  induction l with
  | nil => rfl
  | cons a rest ih =>
    obtain ⟨hhead, htail⟩ := List.pairwise_cons.mp h
    by_cases ha : p a = true
    · rw [List.takeWhile_cons_of_pos ha, List.filter_cons_of_pos ha, ih htail]
    · rw [List.takeWhile_cons_of_neg ha, List.filter_cons_of_neg ha]
      exact (List.filter_eq_nil_iff.mpr fun b hb hp => ha (hhead b hb hp)).symm

/-- In a sorted list, what is not behind an element that is taken is taken too. -/
theorem of_mem_takeWhile {α : Type*} {r : α → α → Prop} {p : α → Bool} {l : List α}
    (hsorted : l.Pairwise r) {a b : α} (ha : a ∈ l) (hb : b ∈ l.takeWhile p) (hnot : ¬ r b a) :
    p a = true := by
  induction l with
  | nil => cases ha
  | cons c rest ih =>
    obtain ⟨hhead, htail⟩ := List.pairwise_cons.mp hsorted
    by_cases hc : p c = true
    · rw [List.takeWhile_cons_of_pos hc, List.mem_cons] at hb
      rcases List.mem_cons.mp ha with rfl | hrest
      · exact hc
      · rcases hb with rfl | hb
        · exact absurd (hhead a hrest) hnot
        · exact ih htail hrest hb
    · rw [List.takeWhile_cons_of_neg hc] at hb
      cases hb

variable {d : DirectoryContents S} {stem : Name}

theorem mem_withStem (hsorted : Sorted d.contents) {e : Name × Entry S} : e ∈ d.withStem stem ↔
    e ∈ d.contents ∧ e.1 = stem ∨ e ∈ (d.contents.filter fun e => compare stem e.1 = .lt).takeWhile
      fun e => fileStem e.1.bytes = some stem.bytes := by
  have hcenter : e ∈ ((d.get stem).map fun e => (stem, e)).toList ↔
      e ∈ d.contents ∧ e.1 = stem := by
    obtain ⟨name, e⟩ := e
    rw [Option.mem_toList, Option.map_eq_some_iff, hsorted.mem_iff_get]
    constructor
    · rintro ⟨_, hget, heq⟩
      cases heq
      exact ⟨hget, rfl⟩
    · rintro ⟨hget, rfl⟩
      exact ⟨e, hget, rfl⟩
  rw [DirectoryOf.withStem, List.mem_append, hcenter]

theorem withStem_sorted (hsorted : Sorted d.contents) : Sorted (d.withStem stem) := by
  refine List.pairwise_append.mpr
    ⟨?_, (hsorted.filter _).sublist (List.takeWhile_sublist _), fun a ha b hb => ?_⟩
  · cases d.get stem with
    | none => exact .nil
    | some e => exact List.pairwise_singleton _ _
  · obtain ⟨_, -, rfl⟩ := Option.map_eq_some_iff.mp (Option.mem_toList.mp ha)
    exact of_decide_eq_true (List.mem_filter.mp ((List.takeWhile_sublist _).mem hb)).2

theorem DirectoryOf.Unbroken.withStem_eq (h : d.Unbroken stem) (hsorted : Sorted d.contents) :
    d.withStem stem = d.contents.filter fun e => fileStem e.1.bytes = some stem.bytes := by
  have htogether : (d.contents.filter fun e => compare stem e.1 = .lt).takeWhile
      (fun e => fileStem e.1.bytes = some stem.bytes) =
      (d.contents.filter fun e => compare stem e.1 = .lt).filter
        fun e => fileStem e.1.bytes = some stem.bytes := by
    refine takeWhile_eq_filter ((hsorted.filter _).imp_of_mem fun {a b} ha hb hlt hb' => ?_)
    obtain ⟨ha, hbehind⟩ := List.mem_filter.mp ha
    simp only [decide_eq_true_eq] at hbehind hb' ⊢
    exact h.between a ha b (List.mem_of_mem_filter hb) hbehind hlt hb'
  refine (withStem_sorted hsorted).eq_of_mem_iff (hsorted.filter _) fun e => ?_
  rw [mem_withStem hsorted, htogether, List.mem_filter, List.mem_filter, List.mem_filter]
  simp only [decide_eq_true_eq]
  constructor
  · rintro (⟨he, heq⟩ | ⟨⟨he, -⟩, hstem⟩)
    · exact ⟨he, h.self e he heq⟩
    · exact ⟨he, hstem⟩
  · rintro ⟨he, hstem⟩
    cases hcmp : compare stem e.1 with
    | lt => exact .inr ⟨⟨he, rfl⟩, hstem⟩
    | eq => exact .inl ⟨he, (Std.LawfulEqOrd.eq_of_compare hcmp).symm⟩
    | gt => exact absurd (Std.OrientedCmp.lt_of_gt hcmp) (h.behind e he hstem)

theorem unbroken_of_withStem (hsorted : Sorted d.contents)
    (h : d.withStem stem = d.contents.filter fun e => fileStem e.1.bytes = some stem.bytes) :
    d.Unbroken stem := by
  have hmem (e : Name × Entry S) : (e ∈ d.contents ∧ e.1 = stem ∨
      e ∈ (d.contents.filter fun e => compare stem e.1 = .lt).takeWhile
        fun e => fileStem e.1.bytes = some stem.bytes) ↔
      e ∈ d.contents ∧ fileStem e.1.bytes = some stem.bytes := by
    rw [← mem_withStem hsorted, h, List.mem_filter, decide_eq_true_eq]
  refine ⟨fun e he heq => ((hmem e).mp (.inl ⟨he, heq⟩)).2, fun e he hstem hlt => ?_, ?_⟩
  · rcases (hmem e).mpr ⟨he, hstem⟩ with ⟨-, heq⟩ | htaken
    · rw [heq, Std.ReflOrd.compare_self] at hlt
      cases hlt
    · have hbehind := of_decide_eq_true
        (List.mem_filter.mp ((List.takeWhile_sublist _).mem htaken)).2
      exact absurd hlt (Std.OrientedCmp.not_lt_of_lt hbehind)
  · intro a ha b hb hbehind hlt hstem
    rcases (hmem b).mpr ⟨hb, hstem⟩ with ⟨-, heq⟩ | htaken
    · exact absurd (heq ▸ hlt) (Std.OrientedCmp.not_lt_of_lt hbehind)
    · refine of_decide_eq_true (of_mem_takeWhile (hsorted.filter _) ?_ htaken
        (Std.OrientedCmp.not_lt_of_lt hlt))
      exact List.mem_filter.mpr ⟨ha, decide_eq_true hbehind⟩

variable {display : String} {validExtension : Option Bytes → Bool} {names : List Name} {name : Name}

theorem foldlM_pickName_ok (n : Name) :
    names.foldlM (pickName display validExtension) (.ok n) = .ok (.ok name) ↔
      (names.filter fun n => validExtension (extension n.bytes)) = [] ∧ n = name := by
  induction names with
  | nil => simp [pure, Except.pure]
  | cons m rest ih =>
    rw [List.foldlM_cons, pickName]
    by_cases hm : validExtension (extension m.bytes) = true
    · simp [hm, bind, Except.bind]
    · rw [if_neg hm, ok_bind, ih]
      simp [hm]

/-- One name with a valid extension is picked, and no other number of them. -/
theorem foldlM_pickName {e : Error} :
    names.foldlM (pickName display validExtension) (.error e) = .ok (.ok name) ↔
      (names.filter fun n => validExtension (extension n.bytes)) = [name] := by
  induction names with
  | nil => simp [pure, Except.pure]
  | cons m rest ih =>
    rw [List.foldlM_cons, pickName]
    by_cases hm : validExtension (extension m.bytes) = true
    · rw [if_pos hm, ok_bind, foldlM_pickName_ok]
      simp [hm, and_comm]
    · rw [if_neg hm, ok_bind, ih]
      simp [hm]

theorem foldl_bestIcon_isSome [FileSource S] (l : List (Name × Entry S))
    (best : Option (Nat × (Name × Entry S))) (h : best.isSome ∨ l ≠ []) :
    (l.foldl bestIcon best).isSome := by
  induction l generalizing best with
  | nil => simpa using h
  | cons e rest ih => exact ih _ (.inl rfl)

/-- The search yields exactly the entries with a stem, a file is accepted exactly if it is the only
one with the stem and a valid extension, and an icon is missed only if there is none, if and only
if the names with the stem stand together. -/
theorem stem_lookup_complete_iff [FileSource S] (hsorted : Sorted d.contents) :
    (d.withStem stem = d.contents.filter (fun e => fileStem e.1.bytes = some stem.bytes) ∧
    (∀ (insertPath : List Name → Name → Except Error K) (dir : DirectoryContents S)
      (parent : List Name) (validExtension : Option Bytes → Bool),
      dir.lookupParent parent = .ok d → (∀ name, ∃ kept, insertPath parent name = .ok kept) →
        ((∃ kept, checkStem insertPath dir parent stem validExtension = .ok kept) ↔
          (d.candidates stem validExtension).length = 1)) ∧
    (stem = iconName → ∀ e, icon d = .error e → d.candidates stem isImage = [])) ↔
      d.Unbroken stem := by
  refine ⟨fun h => unbroken_of_withStem hsorted h.1, fun h => ?_⟩
  have hstem := h.withStem_eq hsorted
  refine ⟨hstem, fun insertPath dir parent validExtension hparent hinsert => ?_, ?_⟩
  · have hnames : (((d.withStem stem).filter fun e => e.2.isFile).map Prod.fst).filter
        (fun n => validExtension (extension n.bytes)) =
        (d.candidates stem validExtension).map Prod.fst := by
      rw [hstem, List.filter_map, List.filter_filter]
      rfl
    rw [← List.length_map Prod.fst, ← hnames, List.length_eq_one_iff]
    constructor
    · rintro ⟨kept, hkept⟩
      obtain ⟨d', hd', hkept⟩ := bind_eq_ok.mp hkept
      cases hparent.symm.trans hd'
      obtain ⟨found, hfound, hkept⟩ := bind_eq_ok.mp hkept
      obtain ⟨name, rfl, -⟩ := bind_eq_ok.mp hkept
      exact ⟨name, foldlM_pickName.mp hfound⟩
    · rintro ⟨name, hname⟩
      obtain ⟨kept, hkept⟩ := hinsert name
      exact ⟨kept, bind_ok hparent (bind_ok (foldlM_pickName.mpr hname) (bind_ok rfl hkept))⟩
  · rintro rfl e hicon
    by_contra hsome
    obtain ⟨best, hbest⟩ := Option.isSome_iff_exists.mp
      (foldl_bestIcon_isSome _ none (.inr hsome))
    rw [DirectoryOf.candidates] at hbest
    rw [icon, hstem, hbest] at hicon
    cases hicon

/-- A directory of empty files. -/
def filesOf (names : List Name) : DirectoryContents Bytes :=
  ⟨names.map fun name => (name, ⟨none, .file []⟩), 0, none⟩

def iconPng : Name := ⟨ascii "icon.png", by decide +kernel⟩

def iconLargePng : Name := ⟨ascii "icon-large.png", by decide +kernel⟩

def iconTxt : Name := ⟨ascii "icon.txt", by decide +kernel⟩

def licenseMd : Name := ⟨ascii "license.md", by decide +kernel⟩

/-- Of two files with the stem one is an image. Both are found, and the image is accepted. -/
theorem stem_lookup_complete_icon :
    ((filesOf [iconPng, iconTxt, licenseMd]).withStem iconName).map Prod.fst = [iconPng, iconTxt] ∧
    (∃ kept, checkStem (fun _ name => .ok name) (filesOf [iconPng, iconTxt, licenseMd]) [] iconName
      isImage = .ok kept) ∧
    ∀ e, icon (filesOf [iconPng, iconTxt, licenseMd]) ≠ .error e := by
  have hsorted : Sorted (filesOf [iconPng, iconTxt, licenseMd]).contents := by decide +kernel
  have hunbroken : (filesOf [iconPng, iconTxt, licenseMd]).Unbroken iconName :=
    ⟨by decide +kernel, by decide +kernel, by decide +kernel⟩
  obtain ⟨hstem, hcheck, hicon⟩ :=
    (stem_lookup_complete_iff (K := Name) hsorted).mpr hunbroken
  refine ⟨?_, (hcheck _ _ [] isImage rfl fun name => ⟨name, rfl⟩).mpr (by decide +kernel), ?_⟩
  · rw [hstem]
    decide +kernel
  · intro e he
    exact absurd (hicon rfl e he) (by decide +kernel)

/-- The file is there, and it is not found. -/
theorem icon_hidden_by_other_name :
    Sorted (filesOf [iconLargePng, iconPng]).contents ∧
    ((filesOf [iconLargePng, iconPng]).candidates iconName isImage).map Prod.fst = [iconPng] ∧
    ((filesOf [iconLargePng, iconPng]).withStem iconName).map Prod.fst = [] ∧
    (checkStem (fun _ _ => .ok ()) (filesOf [iconLargePng, iconPng]) [] iconName
      isImage).toBool = false ∧
    (icon (filesOf [iconLargePng, iconPng])).toBool = false := by
  decide +kernel

end StartTech.MerkleArchive
