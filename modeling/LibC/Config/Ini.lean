/-
LibC.Config.Ini — what a configuration file says.

A text is a list of lines, and `lookup` reads it so: the lines of a section stand between
its header and the next line that begins with a bracket; the first of them that begins with
the item, and with one of the bytes that may follow it, has the value behind its first
equals sign. There are no pointers here, and nothing is looked for behind the end of a line.

`IniSection` is a part of a file, and `render` writes it down. A semicolon in a value is
written twice, and a value is written behind a space, which is skipped; so a value may
begin with a semicolon.

No `sorry`, no `axiom`, no `native_decide`.
-/
import LibC.Config.IniFile

namespace LibC.Ini

open LibC.Lib

/-! ## Reading -/

/-- The header of a section: a line that begins with its name in brackets. -/
def IsHeader (sec l : Bytes) : Prop := 91 :: (sec ++ [93]) <+: l

/-- A line that begins a section. -/
def Opens (l : Bytes) : Prop := [91] <+: l

/-- A line of the item. -/
def IsItem (item l : Bytes) : Prop :=
  item ++ [32] <+: l ∨ item ++ [61] <+: l ∨ item ++ [9] <+: l

instance (sec l : Bytes) : Decidable (IsHeader sec l) := inferInstanceAs (Decidable (_ <+: _))

instance (l : Bytes) : Decidable (Opens l) := inferInstanceAs (Decidable (_ <+: _))

instance (item l : Bytes) : Decidable (IsItem item l) := inferInstanceAs (Decidable (_ ∨ _ ∨ _))

/-- The lines of the first section of a name. -/
def sectionLines (sec : Bytes) (lines : List Bytes) : List Bytes :=
  (lines.dropWhile fun l => ¬ IsHeader sec l).tail.takeWhile fun l => ¬ Opens l

/-- The value that a line gives its item, for an array of some bytes. -/
def lineValue (iValueLen : Nat) (l : Bytes) : Option Bytes :=
  if 61 ∈ l then some (trimString (copyValue iValueLen (l.dropWhile (· ≠ 61)).tail 0 []))
  else none

/-- The value of an item of a section, for an array of some bytes. -/
def lookup (sec item : Bytes) (iValueLen : Nat) (lines : List Bytes) : Option Bytes :=
  ((sectionLines sec lines).find? fun l => IsItem item l).bind (lineValue iValueLen)

/-- The answer of `GetString`, and the string in the array: the value, or else the default. -/
def answer (szDefault : Bytes) : Option Bytes → Int × Option Bytes
  | none => (eIniFile, some szDefault)
  | some value => (0, some value)

/-! ## Writing -/

/-- A line of a section. -/
inductive IniLine where
  | item (name value : Bytes)
  | comment (text : Bytes)

/-- A section: its name, and its lines. -/
structure IniSection where
  name : Bytes
  lines : List IniLine

/-- A value, with its semicolons doubled. -/
def escape (value : Bytes) : Bytes := value.flatMap fun c => if c = 59 then [59, 59] else [c]

/-- A line of the file, without its end. -/
def IniLine.render : IniLine → Bytes
  | .item name value => name ++ 61 :: 32 :: escape value
  | .comment text => 59 :: text

/-- The lines of a section. -/
def IniSection.render (s : IniSection) : List Bytes :=
  (91 :: (s.name ++ [93])) :: s.lines.map IniLine.render

/-- The lines of a file. -/
def fileLines (secs : List IniSection) : List Bytes := secs.flatMap IniSection.render

/-- The file. -/
def render (secs : List IniSection) : Bytes := unlines 10 (fileLines secs)

/-- The value of the first line of an item. -/
def valueOf (item : Bytes) : List IniLine → Option Bytes
  | [] => none
  | .item name value :: lines => if name = item then some value else valueOf item lines
  | .comment _ :: lines => valueOf item lines

/-- The value of an item in the first section of a name. -/
def find (sec item : Bytes) (secs : List IniSection) : Option Bytes :=
  (secs.find? fun s => s.name = sec).bind fun s => valueOf item s.lines

/-! ## What can be written -/

/-- A name of a section. -/
structure SectionName (name : Bytes) : Prop where
  ne : name ≠ []
  plain : ∀ c ∈ name, c ≠ 0 ∧ c ≠ 10 ∧ c ≠ 91 ∧ c ≠ 93

/-- A name of an item. -/
structure ItemName (name : Bytes) : Prop where
  ne : name ≠ []
  plain : ∀ c ∈ name, c ≠ 0 ∧ c ≠ 10 ∧ c ≠ 61 ∧ c ≠ 32 ∧ c ≠ 9
  start : ∀ c ∈ name.head?, c ≠ 91 ∧ c ≠ 59

/-- A value: no line ends in it, and it neither begins nor ends with a blank. -/
structure Value (value : Bytes) : Prop where
  plain : ∀ c ∈ value, c ≠ 0 ∧ c ≠ 10 ∧ c ≠ 13
  first : ∀ c ∈ value.head?, isBlank c = false
  last : ∀ c ∈ value.getLast?, isBlank c = false

-- the tests run over the bytes of the text, not over all bytes
instance (name : Bytes) : Decidable (SectionName name) :=
  decidable_of_iff (name ≠ [] ∧ name.all fun c => decide (c ≠ 0 ∧ c ≠ 10 ∧ c ≠ 91 ∧ c ≠ 93))
    ⟨fun h => ⟨h.1, by simpa using h.2⟩, fun h => ⟨h.1, by simpa using h.2⟩⟩

instance (name : Bytes) : Decidable (ItemName name) :=
  decidable_of_iff (name ≠ [] ∧
      (name.all fun c => decide (c ≠ 0 ∧ c ≠ 10 ∧ c ≠ 61 ∧ c ≠ 32 ∧ c ≠ 9)) ∧
      name.head?.all fun c => decide (c ≠ 91 ∧ c ≠ 59))
    ⟨fun h => ⟨h.1, by simpa using h.2.1, by simpa [Option.all_eq_true] using h.2.2⟩,
      fun h => ⟨h.1, by simpa using h.2, by simpa [Option.all_eq_true] using h.3⟩⟩

instance (value : Bytes) : Decidable (Value value) :=
  decidable_of_iff ((value.all fun c => decide (c ≠ 0 ∧ c ≠ 10 ∧ c ≠ 13)) ∧
      (value.head?.all fun c => !isBlank c) ∧ value.getLast?.all fun c => !isBlank c)
    ⟨fun h => ⟨by simpa using h.1, by simpa [Option.all_eq_true] using h.2.1,
        by simpa [Option.all_eq_true] using h.2.2⟩,
      fun h => ⟨by simpa using h.1, by simpa [Option.all_eq_true] using h.2,
        by simpa [Option.all_eq_true] using h.3⟩⟩

/-- A line that can be written. -/
def IniLine.Ok : IniLine → Prop
  | .item name value => ItemName name ∧ Value value
  | .comment text => ∀ c ∈ text, c ≠ 0 ∧ c ≠ 10

instance : (l : IniLine) → Decidable l.Ok
  | .item name value => inferInstanceAs (Decidable (ItemName name ∧ Value value))
  | .comment text =>
      decidable_of_iff (text.all fun c => decide (c ≠ 0 ∧ c ≠ 10)) (by simp [IniLine.Ok])

/-- A section that can be written. -/
structure IniSection.Ok (s : IniSection) : Prop where
  name : SectionName s.name
  lines : ∀ l ∈ s.lines, l.Ok

instance (s : IniSection) : Decidable s.Ok :=
  decidable_of_iff (SectionName s.name ∧ ∀ l ∈ s.lines, l.Ok)
    ⟨fun h => ⟨h.1, h.2⟩, fun h => ⟨h.1, h.2⟩⟩

end LibC.Ini
