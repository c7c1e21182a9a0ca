/-
LibC.Config.IniFile — the configuration file: `CIniFile` of
`bis/src/server/include/ini_file.cpp`, which is `bis/src/proxy/include/ini_file.cpp` as well.

The functions walk through the buffer with pointers, which are numbers here. The
buffer ends with a zero byte that is not part of it; reading before its beginning
or behind that byte is `none`, and so is a loop that does not end. The section,
the item and the default are C strings: they hold no zero byte.

`strncpy` writes no zero byte when the default fills the array. Such an array is
no string, and reading it as one is `none`.

A conversion of digits whose result does not fit is `none` where the library leaves
it undefined, which is in `atoi` and `sscanf`; `strtoull` answers the largest number.

No `sorry`, no `axiom`, no `native_decide`.
-/
import LibC.Lib.Text
import LibC.Proxy.MqMgr
import LibC.Server.Handlers
import Mathlib.Data.List.DropRight

namespace LibC

open LibC.Lib

/-- `E_INI_FILE`. -/
def eIniFile : Int := -401

/-- `CIniFile`. -/
structure IniFile where
  szBuffer : Option Bytes

/-! ## C strings -/

/-- `' '`, `'\t'`, `'\r'` or `'\n'`. -/
def isBlank (c : UInt8) : Bool := c = 32 ∨ c = 9 ∨ c = 13 ∨ c = 10

/-- `TrimString`. -/
def trimString (s : Bytes) : Bytes := (s.rdropWhile isBlank).dropWhile isBlank

/-- `strncpy` into an array of some bytes, as a string. -/
def strncpy (src : Bytes) (n : Nat) : Option Bytes := if src.length < n then some src else none

namespace IniFile

/-- The constructor: `stat` answers the size of the file, `malloc` and `fopen` may fail, and
`content` is what the file holds when it is read. -/
def new (stat : Option Int32) (malloc fopen : Bool) (content : Bytes) : Option IniFile :=
  match stat with
  | none => some ⟨none⟩
  | some size =>
      if size ≤ 0 ∨ malloc = false then some ⟨none⟩
      else if fopen = false then none
      else
        let n := size.toInt.toNat
        some ⟨some (content.take n ++ List.replicate (n - content.length) 0)⟩

/-- `IsValid`, with the buffer. -/
def isValid (ini : IniFile) : Option Bytes :=
  match ini.szBuffer with
  | none => none
  | some buf => if buf.length = 0 then none else some buf

end IniFile

namespace Ini

/-- The byte at a pointer. -/
def peek (buf : Bytes) (i : Int) : Option UInt8 :=
  if 0 ≤ i ∧ i ≤ buf.length then some (buf.getD i.toNat 0) else none

/-- `strstr` from a pointer on. -/
def strstr (buf : Bytes) (p : Nat) (pat : Bytes) : Option Nat :=
  (findStr pat (cString (buf.drop p))).map (p + ·)

/-- Where a loop of `GetString` leads: `return E_INI_FILE`, a `break`, or its end. -/
inductive Located where
  | error
  | found (p : Nat)
  | past

/-- The loop that locates the section. -/
def locateSection (buf szSection : Bytes) : Nat → Nat → Option Located
  | 0, _ => none
  | fuel + 1, pszTemp =>
      if pszTemp < buf.length then
        match strstr buf pszTemp szSection with
        | none => some .error
        | some pszSection => do
            if pszSection = 0 then some .error
            else
              let next := pszSection + szSection.length
              if (← peek buf (pszSection - 1)) ≠ 91 ∨ (← peek buf next) ≠ 93 then
                locateSection buf szSection fuel next
              -- the section name must be at the beginning of the line
              else if pszSection > 1 then
                if (← peek buf (pszSection - 2)) ≠ 10 then locateSection buf szSection fuel next
                else some (.found pszSection)
              else some (.found pszSection)
      else some .past

/-- The loop that locates the next section. -/
def locateNext (buf : Bytes) : Nat → Nat → Option Nat
  | 0, _ => none
  | fuel + 1, pszTestSection =>
      match strstr buf pszTestSection [91] with
      | none => some buf.length
      | some pszNextSection => do
          if (← peek buf (pszNextSection - 1)) = 10 then some pszNextSection
          else locateNext buf fuel (pszNextSection + 1)

/-- The loop that locates the item, up to the extraction of its value. -/
def locateItem (buf szItem : Bytes) (pszNextSection : Nat) : Nat → Nat → Option Located
  | 0, _ => none
  | fuel + 1, pszTemp =>
      if pszTemp < buf.length then
        match strstr buf pszTemp szItem with
        | none => some .error
        | some pszItem => do
            if pszItem ≥ pszNextSection then some .error
            else
              let next := pszItem + szItem.length
              if (← peek buf (pszItem - 1)) ≠ 10 then
                locateItem buf szItem pszNextSection fuel next
              else
                let c ← peek buf next
                if c ≠ 32 ∧ c ≠ 61 ∧ c ≠ 9 then locateItem buf szItem pszNextSection fuel next
                else some (.found pszItem)
      else some .past

/-- The loop that copies the value, from the `n`-th byte on, with what it has copied; the end
of the text is the zero byte. -/
def copyValue (iValueLen : Nat) : Bytes → Nat → Bytes → Bytes
  | [], _, szValue => szValue
  | c :: text, n, szValue =>
      if szValue.length < iValueLen - 1 ∧ c ≠ 13 ∧ c ≠ 10 ∧ c ≠ 0 then
        if (c = 32 ∨ c = 9) ∧ szValue.length = 0 then copyValue iValueLen text (n + 1) szValue
        else if c = 59 then
          if n > 0 then
            match text with
            | [] => szValue
            | c' :: text' =>
                if c' = 59 then copyValue iValueLen text' (n + 2) (szValue ++ [c]) else szValue
          else szValue
        else copyValue iValueLen text (n + 1) (szValue ++ [c])
      else szValue

end Ini

namespace IniFile

open Ini

/-- `GetString` into an array of `iValueLen` bytes: the return value, and the string in the
array. -/
def getString (szSection szItem szDefault : Bytes) (iValueLen : Nat) (ini : IniFile) :
    Option (Int × Option Bytes) :=
  let szValue := strncpy szDefault iValueLen
  match ini.isValid with
  | none => some (eIniFile, szValue)
  | some buf => do
      match ← locateSection buf szSection (buf.length + 1) 0 with
      | .error => some (eIniFile, szValue)
      | .past =>
          -- the loops that follow have nothing to search
          some (0, some (trimString (← szValue)))
      | .found pszTemp =>
          let pszNextSection ← locateNext buf (buf.length + 1) pszTemp
          match ← locateItem buf szItem pszNextSection (buf.length + 1) pszTemp with
          | .error => some (eIniFile, szValue)
          | .past => some (0, some (trimString (← szValue)))
          | .found pszItem =>
              match strstr buf pszItem [61] with
              | none => some (eIniFile, szValue)
              | some pszEqual =>
                  let pszValue := pszEqual + 1
                  if pszValue ≥ buf.length then some (eIniFile, szValue)
                  else some (0, some (trimString (copyValue iValueLen (buf.drop pszValue) 0 [])))

/-- `GetString` that appends to a string. -/
def getStdString (szSection szItem szDefault strValue : Bytes) (ini : IniFile) :
    Option (Int × Bytes) := do
  let (ret, buffer) ← ini.getString szSection szItem szDefault 2048
  some (ret, strValue ++ (← buffer))

end IniFile

/-! ## Numbers -/

/-- `isspace`. -/
def isSpace (c : UInt8) : Bool := c = 32 ∨ 9 ≤ c ∧ c ≤ 13

/-- The value of a digit. -/
def digit? (base : Nat) (c : UInt8) : Option Nat :=
  let d :=
    if 48 ≤ c ∧ c ≤ 57 then c.toNat - 48
    else if 97 ≤ c ∧ c ≤ 102 then c.toNat - 87
    else if 65 ≤ c ∧ c ≤ 70 then c.toNat - 55
    else base
  if d < base then some d else none

/-- The digits at the beginning of a string, after those of a number. -/
def digitsFrom (base : Nat) : Bytes → Nat → Nat
  | [], v => v
  | c :: s, v =>
      match digit? base c with
      | none => v
      | some d => digitsFrom base s (base * v + d)

/-- A sign, and what follows. -/
def takeSign : Bytes → Int × Bytes
  | [] => (1, [])
  | c :: s => if c = 45 then (-1, s) else if c = 43 then (1, s) else (1, c :: s)

/-- `atoi`. -/
def atoi (s : Bytes) : Option Int :=
  let (sign, s) := takeSign (s.dropWhile isSpace)
  checkedInt (sign * digitsFrom 10 s 0)

/-- `strtoull` in base 10. -/
def strtoull (s : Bytes) : UInt64 :=
  let (sign, s) := takeSign (s.dropWhile isSpace)
  let v := digitsFrom 10 s 0
  if v < 2 ^ 64 then UInt64.ofInt (sign * v) else UInt64.ofNat (2 ^ 64 - 1)

/-- `sscanf` with `%x`, which stores an `unsigned int` in an `int` that was `i`. -/
def sscanfHex (s : Bytes) (i : Int) : Option Int :=
  let (sign, s) := takeSign (s.dropWhile isSpace)
  let s := if s.take 2 = ascii "0x" ∨ s.take 2 = ascii "0X" then s.drop 2 else s
  match s with
  | [] => some i
  | c :: _ =>
      match digit? 16 c with
      | none => some i
      | some _ =>
          let v := digitsFrom 16 s 0
          if v < 2 ^ 32 then some ((sign * v).bmod (2 ^ 32)) else none

namespace IniFile

/-- `GetInt`: the return value, and what `*piValue` is then. -/
def getInt (szSection szItem : Bytes) (iDefault piValue : Int) (ini : IniFile) :
    Option (Int × Int) :=
  match ini.isValid with
  | none => some (eIniFile, piValue)
  | some _ => do
      let (ret, szInt) ← ini.getString szSection szItem [] 32
      if ret ≠ 0 then some (eIniFile, iDefault)
      else
        let szInt ← szInt
        let value ←
          if szInt.take 2 = ascii "0x" ∨ szInt.take 2 = ascii "0X" then
            sscanfHex (szInt.drop 2) piValue
          else atoi szInt
        some (0, value)

/-- `GetULongLong`. -/
def getULongLong (szSection szItem : Bytes) (ullDefault pullValue : UInt64) (ini : IniFile) :
    Option (Int × UInt64) :=
  match ini.isValid with
  | none => some (eIniFile, pullValue)
  | some _ => do
      let (ret, szULongLong) ← ini.getString szSection szItem [] 32
      if ret ≠ 0 then some (eIniFile, ullDefault)
      else
        let szULongLong ← szULongLong
        some (0, strtoull szULongLong)

end IniFile

end LibC
