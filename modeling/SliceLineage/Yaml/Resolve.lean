import SliceLineage.Json.Basic
import SliceLineage.Yaml.Scalar

/-!
# What plain scalars stand for

A plain scalar may be a number, a truth value or nothing; a scalar in any other style is only a
text.

* `natural?`, `truth?`, `isNullText`: what a text stands for as a plain scalar.
* `isReserved`: the texts that are not written plain, because some reader takes them for something
  other than a text. To some readers a leading zero is the mark of an octal number.
-/

namespace SliceLineage.Yaml

/-! ## Numbers -/

/-- A number in digits of a base; at least one digit. -/
def digits? (base : Nat) (cs : List Char) : Option Nat :=
  if cs.isEmpty then none
  else cs.foldlM (fun n c => ((hexDigit? c).filter (· < base)).map (base * n + ·)) 0

/-- Digits with a superfluous zero in front. -/
def hasLeadingZero : List Char → Bool
  | '0' :: c :: rest => (c :: rest).all Char.isDigit
  | _ => false

/-- A number in hexadecimal, octal or binary digits. -/
def radixNumber? : List Char → Option Nat
  | '0' :: 'x' :: rest => digits? 16 rest
  | '0' :: 'o' :: rest => digits? 8 rest
  | '0' :: 'b' :: rest => digits? 2 rest
  | _ => none

/-- Without a leading plus sign. -/
def dropPlus : List Char → List Char
  | '+' :: rest => rest
  | cs => cs

/-- Without a leading sign. -/
def dropSign : List Char → List Char
  | '+' :: rest => rest
  | '-' :: rest => rest
  | cs => cs

/-- The natural number that a text stands for. -/
def natural? (text : String) : Option Nat :=
  let cs := dropPlus text.toList
  match radixNumber? cs with
  | some n => some n
  | none => if hasLeadingZero cs then none else digits? 10 cs

/-- Digits as the value of a decimal number; no digits are zero. -/
def decimalValue (ds : List Char) : Nat := ds.foldl (fun n d => 10 * n + (d.toNat - 48)) 0

/-- An exponent: empty, or a mark, an optional sign and digits. -/
def exponentPart? : List Char → Option Int
  | [] => some 0
  | c :: rest =>
      if c = 'e' || c = 'E' then
        (digits? 10 (dropSign rest)).map fun n => if rest.head? = some '-' then -(n : Int) else n
      else none

/-- A number in decimal notation without sign, with an optional point and an optional exponent. -/
def unsignedDecimal? (cs : List Char) : Option Decimal := do
  let whole := cs.takeWhile Char.isDigit
  let rest := cs.dropWhile Char.isDigit
  let (places, rest) := match rest with
    | '.' :: rest => (rest.takeWhile Char.isDigit, rest.dropWhile Char.isDigit)
    | rest => ([], rest)
  guard !(whole ++ places).isEmpty
  let exponent ← exponentPart? rest
  return ⟨false, decimalValue (whole ++ places), exponent - places.length⟩

/-- The number rounds to a finite number of double precision. -/
def isFinite (d : Decimal) : Bool :=
  let magnitude := d.digits.repr.length + d.exponent
  let bound := Nat.pow 2 1024 - Nat.pow 2 970
  if d.digits = 0 || magnitude < 300 then true
  else if 310 < magnitude then false
  else if 0 ≤ d.exponent then d.digits * Nat.pow 10 d.exponent.toNat < bound
  else d.digits < bound * Nat.pow 10 d.exponent.natAbs

/-- Infinity and the number that is none. -/
def isSpecialNumber (text : String) : Bool :=
  [".inf", ".Inf", ".INF", "+.inf", "+.Inf", "+.INF", "-.inf", "-.Inf", "-.INF", ".nan", ".NaN",
    ".NAN"].contains text

/-- The text is a number in some notation. -/
def isNumber (text : String) : Bool :=
  let cs := text.toList
  (radixNumber? (dropPlus cs)).any (· < Nat.pow 2 128)
    || (cs.head? == some '-' && (radixNumber? cs.tail).any (· ≤ Nat.pow 2 127))
    || (unsignedDecimal? (dropSign cs)).any isFinite
    || isSpecialNumber text

/-! ## Truth values and nothing -/

def truth? (text : String) : Option Bool :=
  if ["true", "True", "TRUE"].contains text then some true
  else if ["false", "False", "FALSE"].contains text then some false
  else none

def isNullText (text : String) : Bool := ["", "~", "null", "Null", "NULL"].contains text

/-- The text must be quoted to be a text for every reader. -/
def isReserved (text : String) : Bool :=
  (truth? text).isSome || isNullText text || hasLeadingZero (dropSign text.toList)
    || isNumber text

/-! ## Values of nodes -/

namespace Node

/-- The text of a scalar in any style. -/
def string? : Node → Option String
  | scalar text _ => some text
  | _ => none

/-- A number below a bound. -/
def natBelow? (bound : Nat) : Node → Option Nat
  | scalar text .plain => (natural? text).filter (· < bound)
  | _ => none

/-- A number of 32 bits. -/
def word32? (n : Node) : Option UInt32 := (n.natBelow? UInt32.size).map UInt32.ofNat

/-- A number of 64 bits. -/
def word64? (n : Node) : Option UInt64 := (n.natBelow? UInt64.size).map UInt64.ofNat

def bool? : Node → Option Bool
  | scalar text .plain => truth? text
  | _ => none

/-- Nothing, or a node that is decoded. -/
def nullable? {α : Type} (decode : Node → Option α) : Node → Option (Option α)
  | scalar text .plain =>
      if isNullText text then some none else (decode (scalar text .plain)).map some
  | n => (decode n).map some

/-- The items of a sequence, decoded. A node that is not written has no items. -/
def list? {α : Type} (decode : Node → Option α) : Node → Option (List α)
  | sequence items => items.mapM decode
  | scalar "" .plain => some []
  | _ => none

/-- The members of a mapping by name. -/
abbrev Fields := List (String × Node)

/-- The members of a mapping whose keys are different names from a list. A node that is not written
has no members. -/
def fields? (names : List String) : Node → Option Fields
  | mapping entries => do
      let fields ← entries.mapM fun (key, value) => key.string?.map (·, value)
      let keys := fields.map Prod.fst
      if keys.all names.contains && decide keys.Nodup then return fields else none
  | scalar "" .plain => some []
  | _ => none

namespace Fields

/-- A member that must be there. -/
def get? {α : Type} (fields : Fields) (name : String) (decode : Node → Option α) : Option α :=
  (fields.lookup name).bind decode

/-- A member with a default. -/
def getD? {α : Type} (fields : Fields) (name : String) (default : α)
    (decode : Node → Option α) : Option α :=
  match fields.lookup name with
  | none => some default
  | some n => decode n

/-- A member that may be absent or nothing. -/
def getOpt? {α : Type} (fields : Fields) (name : String) (decode : Node → Option α) :
    Option (Option α) :=
  fields.getD? name none (nullable? decode)

end Fields

end Node

end SliceLineage.Yaml
