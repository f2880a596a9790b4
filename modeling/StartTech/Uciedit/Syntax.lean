import Mathlib.Data.List.DropRight
import StartTech.Foundation.Fallible
import StartTech.Foundation.Text

/-!
# Router configuration as text

A configuration is a list of lines that belong to sections. Each line is printed on a line of its
own and is read without regard to the others, and a value is quoted in one of two ways. A value that
is printed should be read as itself, and everything beside it as before.

## Implementation notes

Tokens are read by a third-party crate. A quoted token goes up to its closing quote, where a
backslash keeps the next character from closing it, any other one up to white space. What is a
letter and how texts are escaped is a parameter. The texts of the crate's errors are left out.
-/

namespace StartTech.Uciedit

open Foundation Fallible

/-- White space, as Unicode has it. -/
def isWhitespace (c : Char) : Bool :=
  (9 ≤ c.toNat && c.toNat ≤ 13) || (0x2000 ≤ c.toNat && c.toNat ≤ 0x200A) ||
    [0x20, 0x85, 0xA0, 0x1680, 0x2028, 0x2029, 0x202F, 0x205F, 0x3000].contains c.toNat

/-- A text without the white space around it. -/
def trim (s : Text) : Text := (s.dropWhile isWhitespace).rdropWhile isWhitespace

/-- What stands before a closing quote and what stands behind it. -/
def upTo (quote : Char) : Text → Option (Text × Text)
  | [] => none
  | c :: rest =>
    if c = quote then some ([], rest)
    else if c = '\\' then
      match rest with
      | [] => none
      | d :: rest => (upTo quote rest).map fun r => (c :: d :: r.1, r.2)
    else (upTo quote rest).map fun r => (c :: r.1, r.2)

/-- Letters, and the escapes of the standard library with their inverse. -/
structure Escapes where
  isAlphanumeric : Char → Bool
  debug : Text → Text
  unescape : Text → Text
  alphanumeric : ∀ c, isAlphanumeric c = true → isWhitespace c = false ∧ c ≠ '"' ∧ c ≠ '\''
  unescape_debug : ∀ s, unescape (debug s) = s
  unescape_plain : ∀ s, '\\' ∉ s → unescape s = s
  debug_line : ∀ s, '\n' ∉ debug s
  debug_upTo : ∀ s rest, upTo '"' (debug s ++ '"' :: rest) = some (debug s, rest)

/-- A word: in double quotes, in single quotes, or bare. -/
inductive Token
  | q (inner : Text)
  | sq (inner : Text)
  | w (inner : Text)
  deriving DecidableEq

namespace Token

/-- A token as it is printed, with its quotes. -/
def display : Token → Text
  | q inner => '"' :: inner ++ ['"']
  | sq inner => '\'' :: inner ++ ['\'']
  | w inner => inner

/-- A quoted token off the front of a text. -/
def quoted : Text → Option (Token × Text)
  | [] => none
  | c :: rest =>
    if c = '"' then (upTo c rest).map fun r => (.q r.1, r.2)
    else if c = '\'' then (upTo c rest).map fun r => (.sq r.1, r.2)
    else none

/-- A bare token, up to white space. -/
def word (s : Text) : Option (Token × Text) :=
  if s.isEmpty then none
  else some (.w (s.takeWhile fun c => !isWhitespace c), s.dropWhile fun c => !isWhitespace c)

/-- A token off the front of a text, with the white space before it. -/
def read (s : Text) : Option (Token × Text) :=
  let s := s.dropWhile isWhitespace
  (quoted s).or (word s)

end Token

variable (e : Escapes)

/-- The text that a token stands for. -/
def Escapes.asStr : Token → Text
  | .q inner => e.unescape inner
  | .sq inner => e.unescape inner
  | .w inner => inner

/-- The token of a value: escaped if it has a single quote, else as it is in single quotes. -/
def Escapes.fromString (s : Text) : Token := if s.contains '\'' then .q (e.debug s) else .sq s

/-- The token of a name: bare if it can be. -/
def Escapes.fromStr (s : Text) : Token :=
  if s.any fun c => !(e.isAlphanumeric c || ['_', '-', '.'].contains c) then .q (e.debug s)
  else .w s

/-- What may stand behind the tokens of a line. -/
inductive LineComment
  | none
  | commented (text : Text)
  deriving DecidableEq

def LineComment.display : LineComment → Text
  | none => []
  | commented text => ' ' :: '#' :: text

def LineComment.read (s : Text) : Option LineComment :=
  match s.dropWhile isWhitespace with
  | [] => some .none
  | c :: text => if c = '#' then some (.commented text) else Option.none

/-- A line of a configuration. -/
inductive Line
  | empty
  | comment (indent : Bool) (text : Text)
  | header (ty : Token) (name : Option Token) (comment : LineComment)
  | option (option value : Token) (comment : LineComment)
  | list (list item : Token) (comment : LineComment)
  | skip
  deriving DecidableEq

def configWord : Text := ['c', 'o', 'n', 'f', 'i', 'g']

def optionWord : Text := ['o', 'p', 't', 'i', 'o', 'n']

def listWord : Text := ['l', 'i', 's', 't']

/-- A line as it is printed, with its end. -/
def Line.display : Line → Text
  | empty => ['\n']
  | comment false text => '#' :: text ++ ['\n']
  | comment true text => '\t' :: '#' :: text ++ ['\n']
  | header ty none tail => configWord ++ ' ' :: ty.display ++ tail.display ++ ['\n']
  | header ty (some name) tail =>
    configWord ++ ' ' :: ty.display ++ ' ' :: name.display ++ tail.display ++ ['\n']
  | option name value tail =>
    '\t' :: optionWord ++ ' ' :: name.display ++ ' ' :: value.display ++ tail.display ++ ['\n']
  | list name item tail =>
    '\t' :: listWord ++ ' ' :: name.display ++ ' ' :: item.display ++ tail.display ++ ['\n']
  | skip => []

def Line.isHeader : Line → Bool
  | header _ _ _ => true
  | _ => false

/-- A line that has to stand in a section. -/
def Line.isItem : Line → Bool
  | option _ _ _ | list _ _ _ => true
  | _ => false

/-- Why a line is not read. -/
inductive LineError
  | badSection
  | badOption
  | badList
  | unknownKeyword (found : Text)
  /-- The branch that the source takes to be out of reach. -/
  | unreachable
  deriving DecidableEq

/-- Two tokens and a comment. -/
def readPair (s : Text) : Option (Token × Token × LineComment) := do
  let (first, s) ← Token.read s
  let (second, s) ← Token.read s
  let comment ← LineComment.read s
  some (first, second, comment)

/-- One token and a comment. -/
def readSingle (s : Text) : Option (Token × LineComment) := do
  let (first, s) ← Token.read s
  let comment ← LineComment.read s
  some (first, comment)

/-- The rest of a line, given its first word. -/
def readKeyword (keyword rest : Text) : Except LineError Line :=
  if keyword = configWord then
    match readPair rest, readSingle rest with
    | some (ty, name, comment), _ => .ok (.header ty (some name) comment)
    | none, some (ty, comment) => .ok (.header ty none comment)
    | none, none => .error .badSection
  else if keyword = optionWord then
    match readPair rest with
    | some (option, value, comment) => .ok (.option option value comment)
    | none => .error .badOption
  else if keyword = listWord then
    match readPair rest with
    | some (list, item, comment) => .ok (.list list item comment)
    | none => .error .badList
  else .error (.unknownKeyword keyword)

/-- A line from its text. -/
def Escapes.readLine (line : Text) : Except LineError Line :=
  let rest := trim line
  if rest.isEmpty then .ok .empty
  else if rest.head? = some '#' then .ok (.comment (line.head?.any isWhitespace) rest.tail)
  else
    match Token.read rest with
    | some (keyword, rest) => readKeyword (e.asStr keyword) rest
    | none => .error .unreachable

/-- The option of a name and a value. -/
def Escapes.optionFrom (option value : Text) : Line :=
  .option (e.fromStr option) (e.fromString value) .none

/-- The item of a list of that name. -/
def Escapes.listFrom (list item : Text) : Line := .list (e.fromStr list) (e.fromString item) .none

/-- A text up to and with each end of a line. -/
def pieces : Text → List Text
  | [] => []
  | c :: rest =>
    if c = '\n' then [c] :: pieces rest
    else
      match pieces rest with
      | [] => [[c]]
      | piece :: more => (c :: piece) :: more

/-- A line without its end. -/
def chomp (piece : Text) : Text :=
  if piece.getLast? ≠ some '\n' then piece
  else if piece.dropLast.getLast? ≠ some '\r' then piece.dropLast
  else piece.dropLast.dropLast

/-- The lines of a text. -/
def lines (s : Text) : List Text := (pieces s).map chomp

/-- The lines before the first section, and the sections. -/
structure Config where
  prefixLines : List Line
  sections : List (List Line)
  deriving DecidableEq

def Config.lines (c : Config) : List Line := c.prefixLines ++ c.sections.flatten

/-- Empty lines are left out until something is written. -/
def Config.dumpStr (c : Config) : Text :=
  c.prefixLines.flatMap Line.display ++
    (if c.prefixLines.isEmpty then c.sections.flatten.dropWhile (· = .empty)
      else c.sections.flatten).flatMap Line.display

/-- The sections that were read, the last one apart. -/
structure Reading where
  closed : List (List Line)
  current : List Line

/-- The lines before a header that go with it. -/
def goesAlong (hasSection : Bool) : Line → Bool
  | .comment false _ => true
  | .empty => hasSection
  | _ => false

/-- A header opens a section, and takes with it the lines before it that go along. -/
def Reading.push (r : Reading) (line : Line) : Reading :=
  if line.isHeader then
    let along := goesAlong !r.closed.isEmpty
    ⟨r.closed ++ [r.current.rdropWhile along], r.current.rtakeWhile along ++ [line]⟩
  else { r with current := r.current ++ [line] }

/-- Why a configuration is not read. -/
inductive Error
  | line (number : Nat) (cause : LineError)
  | expectedSection (number : Nat)
  deriving DecidableEq

/-- Read lines, counted from a number. -/
def Escapes.parseLines : Nat → Reading → List Text → Except Error Reading
  | _, r, [] => .ok r
  | n, r, line :: rest => do
    let line ← (e.readLine line).mapError (Error.line n)
    parseLines (n + 1) (r.push line) rest

/-- Read a configuration; items before the first section are refused. -/
def Escapes.parseStr (text : Text) : Except Error Config := do
  let r ← e.parseLines 0 ⟨[], []⟩ (lines text)
  match r.closed ++ [r.current] with
  | [] => .ok ⟨[], []⟩
  | prefixLines :: sections =>
    match prefixLines.findIdx? Line.isItem with
    | some n => .error (.expectedSection n)
    | none => .ok ⟨prefixLines, sections⟩

variable {e} {s rest name v : Text} {quote : Char}

/-- A character that is part of a word and does not start a quoted token. -/
def Plain (c : Char) : Prop := isWhitespace c = false ∧ c ≠ '"' ∧ c ≠ '\''

theorem Token.read_word (hne : s ≠ []) (h : ∀ c ∈ s, Plain c) (rest : Text) :
    Token.read (s ++ ' ' :: rest) = some (.w s, ' ' :: rest) := by
  obtain ⟨c, s, rfl⟩ := List.exists_cons_of_ne_nil hne
  obtain ⟨hspace, hdouble, hsingle⟩ := h c List.mem_cons_self
  have hword : ∀ d ∈ c :: s, (!isWhitespace d) = true := fun d hd => by simp [(h d hd).1]
  have hdrop : ((c :: s) ++ ' ' :: rest).dropWhile isWhitespace = (c :: s) ++ ' ' :: rest := by
    simp [hspace]
  have hblank : isWhitespace ' ' = true := by decide
  rw [Token.read, hdrop]
  simp only [word, List.takeWhile_append_of_pos hword, List.dropWhile_append_of_pos hword]
  simp [quoted, hdouble, hsingle, hblank]

/-- Every backslash has a character behind it. -/
def escapesClosed : Text → Bool
  | [] => true
  | c :: rest =>
    if c = '\\' then
      match rest with
      | [] => false
      | _ :: rest => escapesClosed rest
    else escapesClosed rest

/-- A text is read up to the quote behind it if no backslash keeps the quote from closing it. -/
theorem upTo_closing (hquote : '\'' ∉ v) :
    upTo '\'' (v ++ ['\'']) = if escapesClosed v then some (v, []) else none := by
  fun_induction escapesClosed v with
  | case1 => simp [upTo]
  | case2 => simp [upTo]
  | case3 d rest ih =>
    have hrest := ih fun hmem => hquote (by simp [hmem])
    rw [List.cons_append, List.cons_append]
    unfold upTo
    rw [if_neg (by decide), if_pos rfl]
    dsimp only
    rw [hrest]
    split <;> rfl
  | case4 c rest hc ih =>
    rw [List.mem_cons, not_or] at hquote
    rw [List.cons_append]
    unfold upTo
    rw [if_neg (Ne.symm hquote.1), if_neg hc, ih hquote.2]
    split <;> rfl

/-- A value that is escaped, or that stands on one line and has nothing to be unescaped. -/
def Escapes.Quotable (e : Escapes) (v : Text) : Prop :=
  '\'' ∈ v ∨ '\n' ∉ v ∧ escapesClosed v = true ∧ e.unescape v = v

/-- A value with neither an end of a line nor a backslash. -/
theorem Escapes.quotable_of_plain (hline : '\n' ∉ v) (hbackslash : '\\' ∉ v) : e.Quotable v := by
  refine .inr ⟨hline, ?_, e.unescape_plain v hbackslash⟩
  clear hline
  induction v with
  | nil => rfl
  | cons c v ih =>
    rw [List.mem_cons, not_or] at hbackslash
    unfold escapesClosed
    rw [if_neg (Ne.symm hbackslash.1)]
    exact ih hbackslash.2

theorem Escapes.fromString_cases (h : e.Quotable v) : e.fromString v = .q (e.debug v) ∨
    e.fromString v = .sq v ∧ '\'' ∉ v ∧ '\n' ∉ v ∧ escapesClosed v = true := by
  unfold fromString
  split
  · exact .inl rfl
  · rename_i hquote
    rw [List.contains_iff_mem] at hquote
    exact .inr ⟨rfl, hquote, (h.resolve_left hquote).1, (h.resolve_left hquote).2.1⟩

/-- The value of a line is read off as it was printed. -/
theorem Escapes.read_fromString (h : e.Quotable v) :
    Token.read (' ' :: (e.fromString v).display) = some (e.fromString v, []) := by
  have hblank : isWhitespace ' ' = true ∧ isWhitespace '"' = false ∧ isWhitespace '\'' = false := by
    decide
  rcases e.fromString_cases h with heq | ⟨heq, hquote, -, hclosed⟩
  · have hclose := e.debug_upTo v []
    simp [heq, Token.read, Token.display, Token.quoted, hblank, hclose]
  · have hclose := upTo_closing hquote
    rw [if_pos hclosed] at hclose
    simp [heq, Token.read, Token.display, Token.quoted, hblank, hclose]

theorem Escapes.display_fromString (e : Escapes) (v : Text) : ∃ init quote,
    (e.fromString v).display = init ++ [quote] ∧ isWhitespace quote = false := by
  unfold fromString
  split
  · exact ⟨'"' :: e.debug v, '"', rfl, by decide⟩
  · exact ⟨'\'' :: v, '\'', rfl, by decide⟩

theorem Escapes.newline_fromString (h : e.Quotable v) : '\n' ∉ (e.fromString v).display := by
  rcases e.fromString_cases h with heq | ⟨heq, -, hline, -⟩
  · simp [heq, Token.display, e.debug_line]
  · simp [heq, Token.display, hline]

/-- An item without the end of its line. -/
def Escapes.itemText (e : Escapes) (word name v : Text) : Text :=
  '\t' :: (word ++ ' ' :: (name ++ ' ' :: (e.fromString v).display))

theorem Escapes.trim_itemText {word : Text} (hne : word ≠ []) (h : ∀ c ∈ word, Plain c) :
    trim (e.itemText word name v) = word ++ ' ' :: (name ++ ' ' :: (e.fromString v).display) := by
  obtain ⟨init, quote, hdisplay, hquote⟩ := e.display_fromString v
  obtain ⟨c, word, rfl⟩ := List.exists_cons_of_ne_nil hne
  have htab : isWhitespace '\t' = true := by decide
  have hc := (h c List.mem_cons_self).1
  have hlast : (c :: word) ++ ' ' :: (name ++ ' ' :: (init ++ [quote])) =
      ((c :: word) ++ ' ' :: (name ++ ' ' :: init)) ++ [quote] := by simp
  rw [itemText, trim, hdisplay, List.dropWhile_cons_of_pos htab, List.cons_append,
    List.dropWhile_cons_of_neg (by simp [hc]), ← List.cons_append, hlast,
    List.rdropWhile_concat_neg _ _ _ (by simp [hquote])]

/-- The name of an item is read, and then its value. -/
theorem readPair_item (hname : name ≠ []) (hplain : ∀ c ∈ name, Plain c) (rest : Text) :
    readPair (' ' :: (name ++ ' ' :: rest)) = (Token.read (' ' :: rest)).bind fun r =>
      (LineComment.read r.2).map fun comment => (.w name, r.1, comment) := by
  have hblank (s : Text) : Token.read (' ' :: s) = Token.read s := by
    rw [Token.read, List.dropWhile_cons_of_pos (by decide), ← Token.read]
  rw [readPair, hblank, Token.read_word hname hplain]
  simp only [Option.bind_eq_bind, Option.bind_some, Option.map_eq_bind]
  rfl

theorem Escapes.readLine_itemText {word : Text} (hword : word = optionWord ∨ word = listWord) :
    e.readLine (e.itemText word name v) =
      readKeyword word (' ' :: (name ++ ' ' :: (e.fromString v).display)) := by
  have hne : word ≠ [] ∧ word.head? ≠ some '#' ∧ ∀ c ∈ word, Plain c := by
    unfold Plain
    rw [← List.forall_iff_forall_mem]
    rcases hword with rfl | rfl <;> decide
  rw [readLine, e.trim_itemText hne.1 hne.2.2, Token.read_word hne.1 hne.2.2]
  rcases hword with rfl | rfl <;> rfl

/-- The item of a keyword. -/
def itemOf (word : Text) (name value : Token) : Line :=
  if word = optionWord then .option name value .none else .list name value .none

theorem readKeyword_item {word : Text} (hword : word = optionWord ∨ word = listWord)
    {name value : Token} : readKeyword word rest = .ok (itemOf word name value) ↔
      readPair rest = some (name, value, .none) := by
  have hne : listWord ≠ configWord ∧ listWord ≠ optionWord ∧ optionWord ≠ configWord := by decide
  rcases hword with rfl | rfl
  · rw [readKeyword, if_neg hne.2.2, if_pos rfl, itemOf, if_pos rfl]
    cases readPair rest <;> simp [Prod.ext_iff]
  · rw [readKeyword, if_neg hne.1, if_neg hne.2.1, if_pos rfl, itemOf, if_neg hne.2.1]
    cases readPair rest <;> simp [Prod.ext_iff]

variable {t : Text}

/-- A text of whole lines. -/
def Whole (s : Text) : Prop := ∀ c ∈ s.getLast?, c = '\n'

theorem pieces_ne_nil (h : s ≠ []) : pieces s ≠ [] := by
  obtain ⟨c, s, rfl⟩ := List.exists_cons_of_ne_nil h
  unfold pieces
  split
  · exact List.cons_ne_nil _ _
  · split <;> exact List.cons_ne_nil _ _

theorem pieces_append (h : Whole s) (t : Text) : pieces (s ++ t) = pieces s ++ pieces t := by
  induction s with
  | nil => rfl
  | cons c s ih =>
    by_cases hc : c = '\n'
    · have hs : Whole s := by
        cases s with
        | nil => exact fun d hd => by cases hd
        | cons d s => exact h
      simp [pieces, hc, ih hs]
    · obtain ⟨d, s, rfl⟩ : ∃ d s', s = d :: s' := by
        cases s with
        | nil => exact absurd (h c rfl) hc
        | cons d s => exact ⟨d, s, rfl⟩
      obtain ⟨piece, more, heq⟩ :=
        List.exists_cons_of_ne_nil (pieces_ne_nil (List.cons_ne_nil d s))
      rw [List.cons_append, pieces, pieces, ih h, heq, if_neg hc, if_neg hc]
      rfl

theorem lines_append (h : Whole s) (t : Text) : lines (s ++ t) = lines s ++ lines t := by
  rw [lines, pieces_append h, List.map_append, lines, lines]

theorem lines_line (h : '\n' ∉ t) (hlast : t.getLast? ≠ some '\r') : lines (t ++ ['\n']) = [t] := by
  have hpieces : pieces (t ++ ['\n']) = [t ++ ['\n']] := by
    clear hlast
    induction t with
    | nil => rfl
    | cons c t ih =>
      rw [List.mem_cons, not_or] at h
      rw [List.cons_append, pieces, ih h.2, if_neg (Ne.symm h.1)]
  simp [lines, hpieces, chomp, hlast]

theorem whole_line (s : Text) : Whole (s ++ ['\n']) := fun c hc => by simpa [eq_comm] using hc

theorem whole_flatMap (ls : List Line) : Whole (ls.flatMap Line.display) := by
  induction ls using List.reverseRecOn with
  | nil => exact fun c hc => by cases hc
  | append_singleton ls line ih =>
    rw [List.flatMap_append, List.flatMap_singleton]
    rcases line with _ | ⟨_ | _, _⟩ | ⟨_, _ | _, _⟩ | _ | _ | _
    · exact whole_line _
    iterate 6 exact (List.append_assoc _ _ _) ▸ whole_line _
    simpa [Line.display] using ih

theorem whole_dumpStr (c : Config) : Whole c.dumpStr := by
  rw [Config.dumpStr, ← List.flatMap_append]
  exact whole_flatMap _

/-- What is printed of the lines before a place and of those behind it. -/
theorem dumpStr_split {P pre : List Line} {before : List (List Line)}
    (h : Config.dumpStr ⟨P, before ++ [pre]⟩ ≠ []) (more : List Line) (after : List (List Line)) :
    Config.dumpStr ⟨P, before ++ (pre ++ more) :: after⟩ =
      Config.dumpStr ⟨P, before ++ [pre]⟩ ++ (more ++ after.flatten).flatMap Line.display := by
  have hflat : (before ++ (pre ++ more) :: after).flatten =
      (before ++ [pre]).flatten ++ (more ++ after.flatten) := by simp
  unfold Config.dumpStr at h ⊢
  rw [hflat]
  split
  · rename_i hP
    rw [List.isEmpty_iff.mp hP] at h
    rw [List.dropWhile_append, if_neg fun hempty => h (by rw [List.isEmpty_iff.mp hempty]; rfl)]
    simp
  · simp

variable {ls : List Line} {line : Line}

theorem parseLines_eq_ok {n : Nat} {r r' : Reading} {texts : List Text} :
    e.parseLines n r texts = .ok r' ↔
      ∃ ls, texts.mapM e.readLine = .ok ls ∧ r' = ls.foldl Reading.push r := by
  induction texts generalizing n r with
  | nil => simp [Escapes.parseLines, pure, Except.pure, eq_comm]
  | cons text texts ih =>
    rw [Escapes.parseLines, List.mapM_cons]
    cases hread : e.readLine text with
    | error cause => simp [Except.mapError, bind, Except.bind]
    | ok line => simp [Except.mapError, ih, bind_eq_ok, pure, Except.pure]

def Reading.lines (r : Reading) : List Line := r.closed.flatten ++ r.current

theorem lines_foldl_push (ls : List Line) (r : Reading) :
    (ls.foldl Reading.push r).lines = r.lines ++ ls := by
  induction ls generalizing r with
  | nil => simp
  | cons line ls ih =>
    rw [List.foldl_cons, ih]
    unfold Reading.push Reading.lines
    split
    · simp only [List.flatten_append, List.flatten_singleton, List.append_assoc]
      rw [← List.append_assoc (List.rdropWhile _ _), List.rdropWhile_append_rtakeWhile,
        List.singleton_append]
    · simp

/-- Sections that are closed stay as they are. -/
theorem closed_foldl_push (ls : List Line) (r : Reading) :
    r.closed <+: (ls.foldl Reading.push r).closed := by
  induction ls generalizing r with
  | nil => exact List.prefix_refl _
  | cons line ls ih =>
    refine .trans ?_ (ih (r.push line))
    unfold Reading.push
    split
    · exact List.prefix_append _ _
    · exact List.prefix_refl _

theorem exists_rdropWhile {p : Line → Bool} (hline : p line = false) (own rest : List Line) :
    ∃ rest', (own ++ line :: rest).rdropWhile p = own ++ line :: rest' := by
  induction rest using List.reverseRecOn with
  | nil => exact ⟨[], List.rdropWhile_concat_neg _ _ _ (by simp [hline])⟩
  | append_singleton rest last ih =>
    rw [← List.cons_append, ← List.append_assoc]
    by_cases hlast : p last
    · rwa [List.rdropWhile_concat_pos _ _ _ hlast]
    · exact ⟨rest ++ [last], by rw [List.rdropWhile_concat_neg _ _ _ hlast]; simp⟩

/-- A section keeps an item and what stands before it. -/
theorem exists_of_foldl_push (hitem : line.isItem = true) {closed : List (List Line)}
    {own rest : List Line} {r : Reading}
    (hr : ls.foldl Reading.push ⟨closed, own ++ line :: rest⟩ = r) :
    ∃ rest' later, r.closed ++ [r.current] = closed ++ (own ++ line :: rest') :: later := by
  induction ls generalizing rest with
  | nil => exact ⟨rest, [], by rw [← hr, List.foldl_nil]⟩
  | cons next ls ih =>
    rw [List.foldl_cons, Reading.push] at hr
    split at hr
    · have hline : goesAlong (!closed.isEmpty) line = false := by
        cases line <;> first | rfl | cases hitem
      obtain ⟨rest', hrest⟩ := exists_rdropWhile hline own rest
      obtain ⟨later, hlater⟩ := hr ▸ closed_foldl_push ls _
      dsimp only at hlater
      rw [hrest] at hlater
      exact ⟨rest', later ++ [r.current], by simp [← hlater]⟩
    · exact @ih (rest ++ [next]) (by simpa using hr)

variable {r : Reading} {d : Config}

/-- A line stands in a section, behind everything that was read before it, and everything else is
read as without it. -/
structure AddedTo (line : Line) (before d d' : Config) : Prop where
  lines : ∃ rest, d.lines = before.lines ++ rest ∧ d'.lines = before.lines ++ line :: rest
  place : d'.prefixLines = before.prefixLines ∧ ∃ earlier own rest later,
    before.sections = earlier ++ [own] ∧ d'.sections = earlier ++ (own ++ line :: rest) :: later

theorem parseStr_eq_ok {text : Text} : e.parseStr text = .ok d ↔
    ∃ ls, (lines text).mapM e.readLine = .ok ls ∧ ∃ r, ls.foldl Reading.push ⟨[], []⟩ = r ∧
      r.closed ++ [r.current] = d.prefixLines :: d.sections ∧
        d.prefixLines.findIdx? Line.isItem = none := by
  rw [Escapes.parseStr, bind_eq_ok]
  simp only [parseLines_eq_ok]
  constructor
  · rintro ⟨_, ⟨ls, hls, rfl⟩, h⟩
    refine ⟨ls, hls, _, rfl, ?_⟩
    split at h
    · rename_i hnil
      cases List.append_ne_nil_of_right_ne_nil _ (List.cons_ne_nil _ _) hnil
    · rename_i hall
      split at h
      · cases h
      · rename_i hnone
        cases h
        exact ⟨hall, hnone⟩
  · rintro ⟨ls, hls, _, rfl, hall, hnone⟩
    refine ⟨_, ⟨ls, hls, rfl⟩, ?_⟩
    rw [hall]
    dsimp only
    rw [hnone]

theorem lines_of_arranged (h : ls.foldl Reading.push ⟨[], []⟩ = r)
    (hall : r.closed ++ [r.current] = d.prefixLines :: d.sections) : d.lines = ls := by
  have hlines := lines_foldl_push ls ⟨[], []⟩
  rw [h] at hlines
  calc
    d.lines = (r.closed ++ [r.current]).flatten := by rw [hall, List.flatten_cons, Config.lines]
    _ = ls := by simpa [Reading.lines] using hlines

theorem mapM_append_eq_ok {texts texts' : List Text} :
    (texts ++ texts').mapM e.readLine = .ok ls ↔ ∃ ls₁, texts.mapM e.readLine = .ok ls₁ ∧
      ∃ ls₂, texts'.mapM e.readLine = .ok ls₂ ∧ ls₁ ++ ls₂ = ls := by
  simp [bind_eq_ok, pure, Except.pure, Except.ok.injEq]

/-- A text that is not empty is read as a line or more. -/
theorem ne_nil_of_read (hne : t ≠ []) (h : (lines t).mapM e.readLine = .ok ls) : ls ≠ [] := by
  obtain ⟨piece, more, hpieces⟩ := List.exists_cons_of_ne_nil (pieces_ne_nil hne)
  rw [lines, hpieces, List.map_cons, List.mapM_cons] at h
  obtain ⟨line, -, h⟩ := bind_eq_ok.mp h
  obtain ⟨rest, -, h⟩ := bind_eq_ok.mp h
  cases h
  exact List.cons_ne_nil _ _

section Item

variable (hname : name ≠ []) (hletters : ∀ c ∈ name, e.isAlphanumeric c ∨ c = '_')
  (hline : line = e.optionFrom name v ∨ line = e.listFrom name v)
include hletters

theorem Escapes.plain_name : ∀ c ∈ name, Plain c := fun c hc =>
  (hletters c hc).elim (e.alphanumeric c) fun heq => heq ▸ by unfold Plain; decide

include hline

theorem Escapes.display_item : ∃ word, (word = optionWord ∨ word = listWord) ∧
    line.display = e.itemText word name v ++ ['\n'] ∧
      line = itemOf word (.w name) (e.fromString v) := by
  have hfrom : e.fromStr name = .w name := by
    refine if_neg ?_
    rw [List.any_eq_true]
    rintro ⟨c, hc, hnot⟩
    rcases hletters c hc with hletter | rfl <;> simp_all
  rcases hline with rfl | rfl
  · exact ⟨optionWord, .inl rfl, by
      simp [optionFrom, Line.display, itemText, hfrom, Token.display, LineComment.display], by
      rw [optionFrom, hfrom, itemOf, if_pos rfl]⟩
  · exact ⟨listWord, .inr rfl, by
      simp [listFrom, Line.display, itemText, hfrom, Token.display, LineComment.display], by
      rw [listFrom, hfrom, itemOf, if_neg (by decide)]⟩

/-- An end of a line in a value makes two lines of one. -/
theorem Escapes.newline_of_read (hquote : '\'' ∉ v)
    (hread : (lines line.display).mapM e.readLine = .ok [line]) : '\n' ∉ v := by
  intro hmem
  obtain ⟨a, b, rfl⟩ := List.append_of_mem hmem
  obtain ⟨word, -, htext, -⟩ := display_item hletters hline
  have hfrom : e.fromString (a ++ '\n' :: b) = .sq (a ++ '\n' :: b) :=
    if_neg (by simpa [List.contains_iff_mem] using hquote)
  have hsplit : line.display = (('\t' :: (word ++ ' ' :: (name ++ ' ' :: '\'' :: a))) ++ ['\n']) ++
      (b ++ ['\'', '\n']) := by
    simp [htext, itemText, hfrom, Token.display]
  rw [hsplit, lines_append (whole_line _)] at hread
  obtain ⟨first, hfirst, second, hsecond, heq⟩ := mapM_append_eq_ok.mp hread
  have hne := ne_nil_of_read (by simp) hfirst
  have hne' := ne_nil_of_read (by simp) hsecond
  simp [List.append_eq_singleton_iff, hne, hne'] at heq

include hname

/-- A line whose value has no end of a line in it is read as itself exactly if its value is. -/
theorem Escapes.read_display (hnewline : '\n' ∉ (e.fromString v).display) :
    (lines line.display).mapM e.readLine = .ok [line] ↔ ∃ rest,
      Token.read (' ' :: (e.fromString v).display) = some (e.fromString v, rest) ∧
        LineComment.read rest = some .none := by
  have hplain := plain_name hletters
  obtain ⟨word, hword, htext, hitem⟩ := display_item hletters hline
  have hwordline : '\n' ∉ word := by rcases hword with rfl | rfl <;> decide
  have hnameline : '\n' ∉ name := fun hmem => absurd (hplain _ hmem).1 (by decide)
  obtain ⟨init, quote, hdisplay, hquote⟩ := e.display_fromString v
  have hlast : quote ≠ '\r' := by
    rintro rfl
    cases hquote
  have htail : e.itemText word name v =
      ('\t' :: (word ++ ' ' :: (name ++ ' ' :: init))) ++ [quote] := by simp [itemText, hdisplay]
  have hlines : lines line.display = [e.itemText word name v] := by
    rw [htext, lines_line]
    · simp [itemText, hwordline, hnameline, hnewline]
    · rw [htail, List.getLast?_concat]
      exact fun heq => hlast (Option.some.inj heq)
  have hone : ([e.itemText word name v].mapM e.readLine = .ok [line]) ↔
      e.readLine (e.itemText word name v) = .ok line := by
    simp [bind_eq_ok, pure, Except.pure]
  rw [hlines, hone, readLine_itemText hword, hitem, readKeyword_item hword,
    readPair_item hname hplain]
  simp only [Option.bind_eq_some_iff, Option.map_eq_some_iff, Prod.mk.injEq, true_and]
  constructor
  · rintro ⟨⟨_, rest⟩, hread, _, hcomment, rfl, rfl⟩
    exact ⟨rest, hread, hcomment⟩
  · rintro ⟨rest, hread, hcomment⟩
    exact ⟨_, hread, _, hcomment, rfl, rfl⟩

end Item

/-- A value that is read back stands on one line, and its quote closes it. -/
theorem Escapes.quotable_of_read (hname : name ≠ [])
    (hletters : ∀ c ∈ name, e.isAlphanumeric c ∨ c = '_')
    (hline : line = e.optionFrom name v ∨ line = e.listFrom name v)
    (hread : (lines line.display).mapM e.readLine = .ok [line])
    (hstr : e.asStr (e.fromString v) = v) : e.Quotable v := by
  by_cases hquote : '\'' ∈ v
  · exact .inl hquote
  have hfrom : e.fromString v = .sq v := if_neg (by simpa [List.contains_iff_mem] using hquote)
  have hnewline := newline_of_read hletters hline hquote hread
  rw [hfrom] at hstr
  refine .inr ⟨hnewline, ?_, hstr⟩
  obtain ⟨rest, htoken, -⟩ := (read_display hname hletters hline
    (by simp [hfrom, Token.display, hnewline])).mp hread
  by_contra hopen
  have hclose := upTo_closing hquote
  rw [if_neg hopen] at hclose
  have hblank : isWhitespace ' ' = true ∧ isWhitespace '\'' = false := by decide
  simp [hfrom, Token.read, Token.display, Token.quoted, Token.word, hblank, hclose] at htoken

theorem Escapes.asStr_fromString (h : e.Quotable v) : e.asStr (e.fromString v) = v := by
  unfold fromString
  split
  · exact e.unescape_debug v
  · rename_i hquote
    rw [List.contains_iff_mem] at hquote
    exact (h.resolve_left hquote).2.2

/-- A line and its value are read back as they are exactly if the value is escaped, or stands on one
line and has nothing to be unescaped. -/
theorem Escapes.read_display_iff (hname : name ≠ [])
    (hletters : ∀ c ∈ name, e.isAlphanumeric c ∨ c = '_')
    (hline : line = e.optionFrom name v ∨ line = e.listFrom name v) :
    e.asStr (e.fromString v) = v ∧ (lines line.display).mapM e.readLine = .ok [line] ↔
      e.Quotable v :=
  ⟨fun h => quotable_of_read hname hletters hline h.2 h.1,
    fun h => ⟨asStr_fromString h,
      (read_display hname hletters hline (newline_fromString h)).mpr ⟨[], read_fromString h, rfl⟩⟩⟩

/-- A value is read back as itself from the place where it was printed, and everything else is read
as without it, exactly if the value is escaped, or stands on one line and has nothing to be
unescaped. -/
theorem value_is_read_back_iff (e : Escapes) {P : List Line} {before after : List (List Line)}
    {pre post : List Line} {d₀ d : Config}
    (hbefore : e.parseStr (Config.dumpStr ⟨P, before ++ [pre]⟩) = .ok d₀)
    (hsection : d₀.sections ≠ [])
    (hd : e.parseStr (Config.dumpStr ⟨P, before ++ (pre ++ post) :: after⟩) = .ok d)
    {name v : Text} (hname : name ≠ []) (hletters : ∀ c ∈ name, e.isAlphanumeric c ∨ c = '_')
    {line : Line} (hline : line = e.optionFrom name v ∨ line = e.listFrom name v) :
    (e.asStr (e.fromString v) = v ∧ ∃ d', AddedTo line d₀ d d' ∧
      e.parseStr (Config.dumpStr ⟨P, before ++ (pre ++ line :: post) :: after⟩) = .ok d') ↔
      e.Quotable v := by
  rw [← Escapes.read_display_iff hname hletters hline]
  have hitem : line.isItem = true ∧ line.isHeader = false := by
    rcases hline with rfl | rfl <;> exact ⟨rfl, rfl⟩
  have hprinted : Config.dumpStr ⟨P, before ++ [pre]⟩ ≠ [] := by
    intro hempty
    rw [hempty] at hbefore
    cases hbefore
    exact hsection rfl
  rw [dumpStr_split hprinted, parseStr_eq_ok, lines_append (whole_dumpStr _)] at hd
  obtain ⟨ls, hls, r, hr, hall, -⟩ := hd
  obtain ⟨ls₁, hls₁, ls₂, hls₂, rfl⟩ := mapM_append_eq_ok.mp hls
  obtain ⟨ls₁', hls₁', r₁, hr₁, hall₁, hitems⟩ := parseStr_eq_ok.mp hbefore
  obtain rfl : ls₁ = ls₁' := Except.ok.inj (hls₁.symm.trans hls₁')
  have hsplit : lines (Config.dumpStr ⟨P, before ++ (pre ++ line :: post) :: after⟩) =
      lines (Config.dumpStr ⟨P, before ++ [pre]⟩) ++ (lines line.display ++
        lines ((post ++ after.flatten).flatMap Line.display)) := by
    rw [dumpStr_split hprinted, List.cons_append, List.flatMap_cons, lines_append (whole_dumpStr _),
      lines_append (by simpa using whole_flatMap [line])]
  refine and_congr_right fun _ => ⟨?_, fun hread => ?_⟩
  · rintro ⟨d', hadded, hparse⟩
    obtain ⟨ls', hls', r', hr', hall', -⟩ := parseStr_eq_ok.mp hparse
    rw [hsplit] at hls'
    obtain ⟨_, hls₁', _, hmore, rfl⟩ := mapM_append_eq_ok.mp hls'
    obtain ⟨own, hown, _, hls₂', rfl⟩ := mapM_append_eq_ok.mp hmore
    cases hls₁.symm.trans hls₁'
    cases hls₂.symm.trans hls₂'
    obtain ⟨rest, hrest, hlines⟩ := hadded.lines
    rw [lines_of_arranged hr hall, lines_of_arranged hr₁ hall₁] at hrest
    rw [lines_of_arranged hr' hall', lines_of_arranged hr₁ hall₁] at hlines
    rw [← List.append_cancel_left hrest, List.append_cancel_left_eq] at hlines
    have hone : own = [line] := (List.append_left_inj ls₂).mp hlines
    rw [hown, hone]
  · obtain ⟨_ | ⟨first, closed⟩, own⟩ := r₁
    · exact absurd (List.cons.inj hall₁).2.symm hsection
    obtain ⟨rfl, hsections⟩ := List.cons.inj hall₁
    -- The line goes to the section that is open, and what follows cannot take it away.
    have hpush : (ls₁ ++ line :: ls₂).foldl Reading.push ⟨[], []⟩ =
        ls₂.foldl Reading.push ⟨d₀.prefixLines :: closed, own ++ [line]⟩ := by
      rw [List.foldl_append, hr₁, List.foldl_cons, Reading.push, if_neg (by simp [hitem.2])]
    obtain ⟨rest, later, hadded⟩ := exists_of_foldl_push hitem.1 hpush.symm
    refine ⟨⟨d₀.prefixLines, closed ++ (own ++ line :: rest) :: later⟩,
      ⟨⟨ls₂, ?_, ?_⟩, rfl, closed, own, rest, later, hsections.symm, rfl⟩,
      parseStr_eq_ok.mpr ⟨_, ?_, _, rfl, hadded, hitems⟩⟩
    · rw [lines_of_arranged hr hall, lines_of_arranged hr₁ hall₁]
    · rw [lines_of_arranged rfl hadded, lines_of_arranged hr₁ hall₁]
    · rw [hsplit]
      exact mapM_append_eq_ok.mpr ⟨ls₁, hls₁, _,
        mapM_append_eq_ok.mpr ⟨[line], hread, ls₂, hls₂, rfl⟩, rfl⟩

def escapeChar (c : Char) : Text :=
  if c = '\\' then ['\\', '\\'] else if c = '"' then ['\\', '"']
  else if c = '\n' then ['\\', 'n'] else [c]

def unescapeText : Text → Text
  | [] => []
  | c :: rest =>
    if c = '\\' then
      match rest with
      | [] => [c]
      | d :: rest => (if d = 'n' then '\n' else d) :: unescapeText rest
    else c :: unescapeText rest

/-- The escapes of a backslash, of a quote and of the end of a line. -/
def sampleEscapes : Escapes where
  isAlphanumeric c := c.isAlpha && !isWhitespace c
  debug s := s.flatMap escapeChar
  unescape := unescapeText
  alphanumeric c hc := by
    obtain ⟨halpha, hspace⟩ := Bool.and_eq_true_iff.mp hc
    refine ⟨by simpa using hspace, ?_, ?_⟩
    all_goals
      rintro rfl
      exact absurd halpha (by decide)
  unescape_debug s := by
    induction s with
    | nil => rfl
    | cons c s ih =>
      rw [List.flatMap_cons, escapeChar]
      split_ifs with h₁ h₂ h₃
      all_goals
        unfold unescapeText
        simp_all
  unescape_plain s hs := by
    induction s with
    | nil => rfl
    | cons c s ih =>
      rw [List.mem_cons, not_or] at hs
      unfold unescapeText
      rw [if_neg (Ne.symm hs.1), ih hs.2]
  debug_line s := by
    grind [escapeChar]
  debug_upTo s rest := by
    induction s with
    | nil =>
      unfold upTo
      simp
    | cons c s ih =>
      rw [List.flatMap_cons, escapeChar]
      split_ifs with h₁ h₂ h₃
      all_goals
        unfold upTo
        simp_all

/-- A configuration of one section. -/
def sampleConfig : Config := ⟨[], [[.header (.w ['r']) none .none]]⟩

/-- The line is read back behind the header, and its value as it was. -/
def ReadsBack (line : Line) (value : Text) : Prop :=
  sampleEscapes.asStr (sampleEscapes.fromString value) = value ∧
    ∃ d', AddedTo line sampleConfig sampleConfig d' ∧ sampleEscapes.parseStr
      (Config.dumpStr ⟨[], [[.header (.w ['r']) none .none, line]]⟩) = .ok d'

/-- An option with a quote and an end of a line in its value, which is escaped, and an item of a
list with white space in it. -/
theorem value_is_read_back_sample :
    ReadsBack (sampleEscapes.optionFrom ['x'] ['a', '\'', '\n']) ['a', '\'', '\n'] ∧
      ReadsBack (sampleEscapes.listFrom ['x'] ['b', ' ', 'c']) ['b', ' ', 'c'] := by
  have hparse : sampleEscapes.parseStr sampleConfig.dumpStr = .ok sampleConfig := rfl
  have hletters : ∀ c ∈ ['x'], sampleEscapes.isAlphanumeric c ∨ c = '_' :=
    fun c hc => .inl (List.mem_singleton.mp hc ▸ rfl)
  have hread {line : Line} {v : Text} (hline : line = sampleEscapes.optionFrom ['x'] v ∨
      line = sampleEscapes.listFrom ['x'] v) := @value_is_read_back_iff sampleEscapes [] [] [] _ []
    _ _ hparse (by decide) hparse ['x'] v (by decide) hletters line hline
  exact ⟨(hread (.inl rfl)).mpr (.inl (by decide)),
    (hread (.inr rfl)).mpr (Escapes.quotable_of_plain (by decide) (by decide))⟩

/-- A value of two lines brings a section with it. -/
theorem value_opens_section : ¬∃ d', AddedTo
      (sampleEscapes.optionFrom ['x'] ('0' :: '\n' :: configWord ++ [' ', 'a']))
      sampleConfig sampleConfig d' ∧
    sampleEscapes.parseStr (Config.dumpStr ⟨[], [[.header (.w ['r']) none .none,
      sampleEscapes.optionFrom ['x'] ('0' :: '\n' :: configWord ++ [' ', 'a'])]]⟩) = .ok d' := by
  rintro ⟨d', hadded, hparse⟩
  obtain ⟨rest, hrest, hlines⟩ := hadded.lines
  obtain rfl : rest = [] := List.append_cancel_left hrest.symm
  cases hparse
  exact absurd (congrArg List.length hlines) (by decide)

end StartTech.Uciedit
