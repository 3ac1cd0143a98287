/-!
# JSON values

Trees, graphs, summaries and reports are exchanged as JSON. Integers are kept apart from numbers
written with a fraction or an exponent, because only the former are identifiers and counts.

* `Json`: a value; the members of an object keep their order.
* `Json.member?`, `Json.items?`: access with proof that the part is smaller than the whole, for
  recursion over values.
-/

namespace SliceLineage

/-- A decimal number: digits and the power of ten that they count. -/
structure Decimal where
  negative : Bool
  digits : Nat
  exponent : Int
  deriving DecidableEq, Inhabited

namespace Decimal

def ofInt (n : Int) : Decimal := ⟨n < 0, n.natAbs, 0⟩

/-- Positional notation with at least one digit on either side of the point. -/
def text (d : Decimal) : String :=
  let sign := if d.negative then "-" else ""
  if 0 ≤ d.exponent then sign ++ (d.digits * Nat.pow 10 d.exponent.toNat).repr ++ ".0"
  else
    let places := d.exponent.natAbs
    let unit := Nat.pow 10 places
    let fraction := (d.digits % unit).repr
    let zeros := "".pushn '0' (places - fraction.length)
    sign ++ (d.digits / unit).repr ++ "." ++ zeros ++ fraction

end Decimal

/-- A JSON value. -/
inductive Json where
  | null
  | bool (b : Bool)
  | int (n : Int)
  | real (d : Decimal)
  | str (s : String)
  | arr (items : List Json)
  | obj (members : List (String × Json))

namespace Json

instance : Inhabited Json := ⟨null⟩

/-- A number of things. -/
def nat (n : Nat) : Json := .int n

/-- A list, element by element. -/
def list {α : Type} (encode : α → Json) (items : List α) : Json := .arr (items.map encode)

/-- Something that may be absent. -/
def opt {α : Type} (encode : α → Json) : Option α → Json
  | none => null
  | some a => encode a

/-- The member of an object with this name. -/
def member? (j : Json) (name : String) : Option Json :=
  match j with
  | obj members => members.lookup name
  | _ => none

theorem sizeOf_lt_of_lookup {members : List (String × Json)} {name : String} {k : Json}
    (h : members.lookup name = some k) : sizeOf k < sizeOf members := by
  induction members with
  | nil => simp at h
  | cons entry rest ih =>
      obtain ⟨key, value⟩ := entry
      simp only [List.lookup_cons] at h
      split at h
      · cases h
        simp
        omega
      · have := ih h
        simp
        omega

theorem sizeOf_lt_of_member? {j k : Json} {name : String} (h : j.member? name = some k) :
    sizeOf k < sizeOf j := by
  cases j with
  | obj members =>
      have := sizeOf_lt_of_lookup h
      simp
      omega
  | _ => simp [member?] at h

/-- The member of an object, with a default for an absent one. -/
def memberD (j : Json) (name : String) (default : Json) : Json :=
  (j.member? name).getD default

/-- The text of a string value. -/
def string? : Json → Option String
  | str s => some s
  | _ => none

def bool? : Json → Option Bool
  | bool b => some b
  | _ => none

/-- A natural number below a bound. -/
def natBelow? (bound : Nat) : Json → Option Nat
  | int n => if 0 ≤ n ∧ n.toNat < bound then some n.toNat else none
  | _ => none

/-- A number of 32 bits. -/
def word32? (j : Json) : Option UInt32 := (j.natBelow? UInt32.size).map UInt32.ofNat

/-- A number of 64 bits. -/
def word64? (j : Json) : Option UInt64 := (j.natBelow? UInt64.size).map UInt64.ofNat

/-- Any number. -/
def decimal? : Json → Option Decimal
  | int n => some (.ofInt n)
  | real d => some d
  | _ => none

/-- Nothing, for an absent or null value. -/
def ofNullable? {α : Type} (decode : Json → Option α) : Json → Option (Option α)
  | null => some none
  | j => (decode j).map some

/-- Decodes a member that must be there. -/
def get? {α : Type} (j : Json) (name : String)
    (decode : (k : Json) → sizeOf k < sizeOf j → Option α) : Option α :=
  match h : j.member? name with
  | some k => decode k (sizeOf_lt_of_member? h)
  | none => none

/-- Decodes a member that may be absent or null. -/
def getOpt? {α : Type} (j : Json) (name : String)
    (decode : (k : Json) → sizeOf k < sizeOf j → Option α) : Option (Option α) :=
  match h : j.member? name with
  | none => some none
  | some null => some none
  | some k => (decode k (sizeOf_lt_of_member? h)).map some

/-- Decodes a member that stands for a default if it is absent. -/
def getD? {α : Type} (j : Json) (name : String) (default : α) (decode : Json → Option α) :
    Option α :=
  match j.member? name with
  | none => some default
  | some k => decode k

/-- Decodes the elements of an array. -/
def items? {α : Type} (j : Json) (decode : (k : Json) → sizeOf k < sizeOf j → Option α) :
    Option (List α) :=
  match j with
  | arr items => items.attach.mapM fun k => decode k.val (by
      have := List.sizeOf_lt_of_mem k.property
      simp
      omega)
  | _ => none

/-- Decodes an array of exactly two elements. -/
def pair? {α : Type} (j : Json) (decode : (k : Json) → sizeOf k < sizeOf j → Option α) :
    Option (α × α) :=
  match j.items? decode with
  | some [a, b] => some (a, b)
  | _ => none

/-- Decodes the member `kind`, which names a variant without parts, or is an object whose only
member is named for a variant and holds its parts. -/
def getKind? {α : Type} (j : Json) (plain : String → Option α)
    (withParts : String → (parts : Json) → sizeOf parts < sizeOf j → Option α) : Option α :=
  j.get? "kind" fun kind h =>
    match kind, h with
    | str name, _ => plain name
    | obj [(name, parts)], h => withParts name parts (by simp at h; omega)
    | _, _ => none

/-- An array of strings. -/
def strings? (j : Json) : Option (List String) := j.items? fun k _ => k.string?

/-- The value is an object without members other than these. -/
def hasOnly (j : Json) (names : List String) : Bool :=
  match j with
  | obj members => members.all fun entry => names.contains entry.1
  | _ => false

end Json

end SliceLineage
