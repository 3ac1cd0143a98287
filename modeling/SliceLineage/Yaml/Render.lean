import SliceLineage.Yaml.Resolve

/-!
# Writing documents

Documents are written in block style: mappings are indented by two spaces, sequences stand at the
column of the key that they belong to.

* `styleFor`: the style in which a text is written.
* `Node.render`: the text of a document.
-/

namespace SliceLineage.Yaml

/-! ## The style of a text -/

/-- Characters that need no escape: those of the basic plane that have a shape, spaces and line
feeds. Line and paragraph separators are escaped, as they end a line for some readers. -/
def isPrintable (c : Char) : Bool :=
  c = '\n' || (' ' ≤ c && c ≤ '~')
    || ('\u00a0' ≤ c && c ≤ '\ufffd' && !(['\u2028', '\u2029', '\ufeff'].contains c))

/-- The start of the text would be taken for an indicator or a document mark. -/
def startsReserved : List Char → Bool
  | [] => false
  | c :: rest =>
      ['#', ',', '[', ']', '\x7b', '\x7d', '&', '*', '!', '|', '>', '\x27', '\x22', '%', '@',
        '\x60'].contains c
      || (['?', ':', '-'].contains c && endsWord rest)
      || "---".toList.isPrefixOf (c :: rest) || "...".toList.isPrefixOf (c :: rest)

/-- A colon at the end of a word, or a number sign at the start of one. -/
def holdsReserved : List Char → Bool
  | [] => false
  | [c] => c = ':'
  | c :: d :: rest =>
      (c = ':' && isGap d) || (isGap c && d = '#') || holdsReserved (d :: rest)

/-- The text may be written plain, if it stands for nothing else then. -/
def plainAllowed (cs : List Char) : Bool :=
  cs.head? != some ' ' && cs.getLast? != some ' ' && cs.all (fun c => isPrintable c && c != '\n')
    && !startsReserved cs && !holdsReserved cs

/-- The text ends with a space, or has one before a line break. -/
def hasTrailingSpace : List Char → Bool
  | [] => false
  | [c] => c = ' '
  | c :: d :: rest => (c = ' ' && d = '\n') || hasTrailingSpace (d :: rest)

/-- The style in which a text is written. -/
def styleFor (text : String) : ScalarStyle :=
  let cs := text.toList
  if !cs.all isPrintable then .doubleQuoted
  else if isReserved text then .singleQuoted
  else if cs.contains '\n' then (if hasTrailingSpace cs then .doubleQuoted else .literal)
  else if plainAllowed cs then .plain
  else .singleQuoted

/-! ## Scalars -/

/-- A quote inside single quotes is written twice. -/
def singleQuoted (text : String) : String :=
  "'" ++ String.join (text.toList.map fun c => if c = '\x27' then "''" else c.toString) ++ "'"

/-- The last `width` hexadecimal digits of a number. -/
def hexDigits (n : Nat) : Nat → String
  | 0 => ""
  | width + 1 => (hexDigits (n / 16) width).push (n % 16).digitChar.toUpper

/-- How a character is written between double quotes. -/
def escapeChar (c : Char) : String :=
  match c with
  | '\x00' => "\\0"
  | '\x07' => "\\a"
  | '\x08' => "\\b"
  | '\t' => "\\t"
  | '\n' => "\\n"
  | '\x0b' => "\\v"
  | '\x0c' => "\\f"
  | '\r' => "\\r"
  | '\x1b' => "\\e"
  | '\x22' => "\\\""
  | '\x5c' => "\\\\"
  | '\u0085' => "\\N"
  | '\u2028' => "\\L"
  | '\u2029' => "\\P"
  | c =>
      if isPrintable c then c.toString
      else if c.toNat ≤ 0xff then "\\x" ++ hexDigits c.toNat 2
      else if c.toNat ≤ 0xffff then "\\u" ++ hexDigits c.toNat 4
      else "\\U" ++ hexDigits c.toNat 8

def doubleQuoted (text : String) : String :=
  "\"" ++ String.join (text.toList.map escapeChar) ++ "\""

/-- The indicators of a literal block: the indentation if the text starts with a gap, and what
becomes of the line breaks at the end. -/
def literalHeader (cs : List Char) : String :=
  let indentation := if cs.head?.any fun c => c = ' ' || c = '\n' then "2" else ""
  let chomping := match cs.reverse with
    | ['\n'] => "+"
    | '\n' :: '\n' :: _ => "+"
    | '\n' :: _ => ""
    | _ => "-"
  "|" ++ indentation ++ chomping

/-- The lines of a literal block; the last line break ends the last line. -/
def literalLines (cs : List Char) : List String :=
  let lines := splitLines cs
  let lines := if cs.getLast? = some '\n' then lines.dropLast else lines
  literalHeader cs :: lines.map String.ofList

def scalarLines (text : String) : ScalarStyle → List String
  | .plain => [text]
  | .singleQuoted => [singleQuoted text]
  | .doubleQuoted => [doubleQuoted text]
  | .literal | .folded => literalLines text.toList

/-! ## Collections -/

/-- Indents a line, unless it is empty. -/
def indentLine (line : String) : String := if line = "" then "" else "  " ++ line

/-- Puts a text before the first line and indents the others. -/
def hang (first : String) : List String → List String
  | [] => [first]
  | line :: lines => (first ++ line) :: lines.map indentLine

/-- The lines of an entry of a mapping. -/
def entryLines (key : String) (value : Node) (lines : List String) : List String :=
  match value with
  | .sequence (_ :: _) => (key ++ ":") :: lines
  | .mapping (_ :: _) => (key ++ ":") :: lines.map indentLine
  | _ => hang (key ++ ": ") lines

mutual

/-- The lines of a node. -/
def Node.lines : Node → List String
  | .scalar text style => scalarLines text style
  | .sequence [] => ["[]"]
  | .sequence (n :: items) => itemsLines (n :: items)
  | .mapping [] => ["\x7b\x7d"]
  | .mapping (e :: entries) => entriesLines (e :: entries)

/-- The lines of the items of a sequence. -/
def itemsLines : List Node → List String
  | [] => []
  | n :: items => hang "- " n.lines ++ itemsLines items

/-- The lines of the entries of a mapping. -/
def entriesLines : List (Node × Node) → List String
  | [] => []
  | (key, value) :: entries =>
      entryLines (String.join key.lines) value value.lines ++ entriesLines entries

end

namespace Node

/-- The text of a document. -/
def render (n : Node) : String := String.join (n.lines.map (· ++ "\n"))

/-- A text, in the style that suits it. -/
def ofString (text : String) : Node := scalar text (styleFor text)

def ofNat (n : Nat) : Node := plain n.repr

def ofBool (b : Bool) : Node := plain (if b then "true" else "false")

/-- Nothing, or a node. -/
def ofOption {α : Type} (encode : α → Node) : Option α → Node
  | none => plain "null"
  | some a => encode a

def ofList {α : Type} (encode : α → Node) (items : List α) : Node := sequence (items.map encode)

/-- A mapping with these members. -/
def ofFields (fields : Fields) : Node :=
  mapping (fields.map fun (name, n) => (ofString name, n))

end Node

end SliceLineage.Yaml
