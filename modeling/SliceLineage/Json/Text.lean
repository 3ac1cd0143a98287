import SliceLineage.Json.Basic

/-!
# JSON text

* `Json.compact`: a value on one line.
* `Json.pretty`: one member or element a line, indented by two spaces for each level.
* `Json.parse`: reads a value. Of two members with the same name the later one counts.

Control characters, quotes and backslashes are escaped in strings; all other characters stand for
themselves.
-/

namespace SliceLineage

namespace Json

/-! ## Writing -/

/-- A hexadecimal digit. -/
def hexDigit (n : Nat) : Char := if n < 10 then Char.ofNat (48 + n) else Char.ofNat (87 + n)

/-- How a character is written inside a string. -/
def escape (c : Char) : String :=
  if c = '\x22' then "\\\""
  else if c = '\x5c' then "\\\\"
  else if c = '\x08' then "\\b"
  else if c = '\x09' then "\\t"
  else if c = '\x0a' then "\\n"
  else if c = '\x0c' then "\\f"
  else if c = '\x0d' then "\\r"
  else if c.toNat < 32 then
    ("\\u00".push (hexDigit (c.toNat / 16))).push (hexDigit (c.toNat % 16))
  else c.toString

/-- A string in quotes. -/
def quote (s : String) : String :=
  "\"" ++ String.join (s.toList.map escape) ++ "\""

mutual

/-- A value on one line, without blanks. -/
def compact : Json → String
  | null => "null"
  | bool b => if b then "true" else "false"
  | int n => n.repr
  | real d => d.text
  | str s => quote s
  | arr items => "[" ++ ",".intercalate (compactItems items) ++ "]"
  | obj members => "\x7b" ++ ",".intercalate (compactMembers members) ++ "\x7d"

def compactItems : List Json → List String
  | [] => []
  | j :: rest => j.compact :: compactItems rest

def compactMembers : List (String × Json) → List String
  | [] => []
  | (name, j) :: rest => (quote name ++ ":" ++ j.compact) :: compactMembers rest

end

/-- Lines between an opening and a closing bracket. -/
def bracketed (indent opening closing : String) (lines : List String) : String :=
  match lines with
  | [] => opening ++ closing
  | _ =>
      opening ++ "\n" ++ ",\n".intercalate (lines.map (indent ++ "  " ++ ·)) ++ "\n" ++ indent
        ++ closing

mutual

/-- A value on several lines, after an indentation. -/
def prettyFrom (indent : String) : Json → String
  | arr items => bracketed indent "[" "]" (prettyItems (indent ++ "  ") items)
  | obj members => bracketed indent "\x7b" "\x7d" (prettyMembers (indent ++ "  ") members)
  | null => "null"
  | bool b => if b then "true" else "false"
  | int n => n.repr
  | real d => d.text
  | str s => quote s

def prettyItems (indent : String) : List Json → List String
  | [] => []
  | j :: rest => j.prettyFrom indent :: prettyItems indent rest

def prettyMembers (indent : String) : List (String × Json) → List String
  | [] => []
  | (name, j) :: rest => (quote name ++ ": " ++ j.prettyFrom indent) :: prettyMembers indent rest

end

/-- A value on several lines. -/
def pretty (j : Json) : String := j.prettyFrom ""

/-! ## Reading -/

def isBlankChar (c : Char) : Bool := c = ' ' || c = '\t' || c = '\n' || c = '\r'

def skipBlanks (cs : List Char) : List Char := cs.dropWhile isBlankChar

/-- The value of decimal digits. -/
def digitsValue (ds : List Char) : Nat := ds.foldl (fun n d => 10 * n + (d.toNat - 48)) 0

def hexValue? (c : Char) : Option Nat :=
  if '0' ≤ c ∧ c ≤ '9' then some (c.toNat - 48)
  else if 'a' ≤ c ∧ c ≤ 'f' then some (c.toNat - 87)
  else if 'A' ≤ c ∧ c ≤ 'F' then some (c.toNat - 55)
  else none

/-- Four hexadecimal digits. -/
def hex4? : List Char → Option (Nat × List Char)
  | a :: b :: c :: d :: rest => do
      let a ← hexValue? a
      let b ← hexValue? b
      let c ← hexValue? c
      let d ← hexValue? d
      return (((a * 16 + b) * 16 + c) * 16 + d, rest)
  | _ => none

/-- The characters of the short escapes. -/
def shortEscape? : Char → Option Char
  | '\x22' => some '\x22'
  | '\x5c' => some '\x5c'
  | '/' => some '/'
  | 'b' => some '\x08'
  | 'f' => some '\x0c'
  | 'n' => some '\x0a'
  | 'r' => some '\x0d'
  | 't' => some '\x09'
  | _ => none

/-- The character of a numeric escape; two escapes for the halves of a surrogate pair make one
character, and a half alone makes none. -/
def numericEscape? (cs : List Char) : Option (Char × List Char) := do
  let (high, rest) ← hex4? cs
  if high < 0xD800 ∨ 0xDFFF < high then return (Char.ofNat high, rest)
  if 0xDBFF < high then none
  match rest with
  | '\x5c' :: 'u' :: rest =>
      let (low, rest) ← hex4? rest
      if low < 0xDC00 ∨ 0xDFFF < low then none
      return (Char.ofNat (0x10000 + (high - 0xD800) * 0x400 + (low - 0xDC00)), rest)
  | _ => none

/-- The rest of a string after its opening quote; `fuel` bounds the number of characters. -/
def stringBody? (fuel : Nat) (read : List Char) (cs : List Char) : Option (String × List Char) :=
  match fuel, cs with
  | 0, _ => none
  | _, [] => none
  | _, '\x22' :: rest => some (String.ofList read.reverse, rest)
  | fuel + 1, '\x5c' :: 'u' :: rest => do
      let (c, rest) ← numericEscape? rest
      stringBody? fuel (c :: read) rest
  | fuel + 1, '\x5c' :: e :: rest => do
      stringBody? fuel ((← shortEscape? e) :: read) rest
  | fuel + 1, c :: rest =>
      if c.toNat < 32 ∨ c = '\x5c' then none else stringBody? fuel (c :: read) rest

/-- The digits after a decimal point, if there is one. -/
def fraction? : List Char → Option (Option (List Char) × List Char)
  | '.' :: rest =>
      let digits := rest.takeWhile Char.isDigit
      if digits.isEmpty then none else some (some digits, rest.dropWhile Char.isDigit)
  | cs => some (none, cs)

/-- The exponent, if there is one. -/
def exponent? (cs : List Char) : Option (Option Int × List Char) :=
  let signed (sign : Int) (cs : List Char) : Option (Option Int × List Char) :=
    let digits := cs.takeWhile Char.isDigit
    if digits.isEmpty then none
    else some (some (sign * digitsValue digits), cs.dropWhile Char.isDigit)
  match cs with
  | 'e' :: '-' :: rest | 'E' :: '-' :: rest => signed (-1) rest
  | 'e' :: '+' :: rest | 'E' :: '+' :: rest => signed 1 rest
  | 'e' :: rest | 'E' :: rest => signed 1 rest
  | _ => some (none, cs)

/-- A number without its sign. A leading zero stands alone, and zero with a minus sign is no
integer. -/
def unsigned? (negative : Bool) (cs : List Char) : Option (Json × List Char) := do
  let whole := cs.takeWhile Char.isDigit
  if whole.isEmpty ∨ (whole.head? = some '0' ∧ whole.length ≠ 1) then none
  let (fraction, rest) ← fraction? (cs.dropWhile Char.isDigit)
  let (exponent, rest) ← exponent? rest
  let value := digitsValue whole
  match fraction, exponent with
  | none, none =>
      if negative ∧ value = 0 then return (real ⟨true, 0, 0⟩, rest)
      return (int (if negative then -value else value), rest)
  | _, _ =>
      let places := fraction.getD []
      return (real ⟨negative, digitsValue (whole ++ places),
        exponent.getD 0 - places.length⟩, rest)

/-- Puts a member at the end, or in the place of an earlier one with the same name. -/
def putMember (name : String) (j : Json) : List (String × Json) → List (String × Json)
  | [] => [(name, j)]
  | (other, k) :: rest =>
      if other = name then (name, j) :: rest else (other, k) :: putMember name j rest

mutual

/-- Reads a value; `fuel` bounds the number of values, members and separators. -/
def value? (fuel : Nat) (cs : List Char) : Option (Json × List Char) :=
  match fuel, skipBlanks cs with
  | 0, _ => none
  | fuel + 1, '[' :: rest =>
      match skipBlanks rest with
      | ']' :: rest => some (arr [], rest)
      | rest => itemsFrom? fuel [] rest
  | fuel + 1, '\x7b' :: rest =>
      match skipBlanks rest with
      | '\x7d' :: rest => some (obj [], rest)
      | rest => membersFrom? fuel [] rest
  | _, '\x22' :: rest => do
      let (s, rest) ← stringBody? (rest.length + 1) [] rest
      return (str s, rest)
  | _, 'n' :: 'u' :: 'l' :: 'l' :: rest => some (null, rest)
  | _, 't' :: 'r' :: 'u' :: 'e' :: rest => some (bool true, rest)
  | _, 'f' :: 'a' :: 'l' :: 's' :: 'e' :: rest => some (bool false, rest)
  | _, '-' :: rest => unsigned? true rest
  | _, cs => unsigned? false cs

/-- Reads the elements of an array up to its end. -/
def itemsFrom? (fuel : Nat) (read : List Json) (cs : List Char) : Option (Json × List Char) :=
  match fuel with
  | 0 => none
  | fuel + 1 => do
      let (j, rest) ← value? fuel cs
      match skipBlanks rest with
      | ',' :: rest => itemsFrom? fuel (j :: read) rest
      | ']' :: rest => return (arr (j :: read).reverse, rest)
      | _ => none

/-- Reads the members of an object up to its end. -/
def membersFrom? (fuel : Nat) (read : List (String × Json)) (cs : List Char) :
    Option (Json × List Char) :=
  match fuel, skipBlanks cs with
  | fuel + 1, '\x22' :: rest => do
      let (name, rest) ← stringBody? (rest.length + 1) [] rest
      match skipBlanks rest with
      | ':' :: rest =>
          let (j, rest) ← value? fuel rest
          match skipBlanks rest with
          | ',' :: rest => membersFrom? fuel (putMember name j read) rest
          | '\x7d' :: rest => return (obj (putMember name j read), rest)
          | _ => none
      | _ => none
  | _, _ => none

end

/-- Reads a text that is one JSON value. -/
def parse (text : String) : Option Json := do
  let cs := text.toList
  let (j, rest) ← value? (cs.length + 1) cs
  if (skipBlanks rest).isEmpty then return j else none

end Json

end SliceLineage
