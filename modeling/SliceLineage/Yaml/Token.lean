import SliceLineage.Yaml.Scalar

/-!
# Tokens of a YAML text

`Token.scan` splits a text into tokens. Indentation becomes explicit: every block collection has a
token where it starts and one where it ends. The key of a mapping is known as such only when the
colon after it is met; the scan remembers the place where a key may have started (`KeyPlace`) and
puts the tokens for the mapping and the key there afterwards.
-/

namespace SliceLineage.Yaml

/-- A token. -/
inductive Token where
  | documentStart
  | documentEnd
  | blockSequenceStart
  | blockMappingStart
  | blockEnd
  | flowSequenceStart
  | flowSequenceEnd
  | flowMappingStart
  | flowMappingEnd
  /-- The dash before an item of a block sequence. -/
  | blockEntry
  /-- The comma between entries in brackets. -/
  | flowEntry
  | key
  | value
  | anchor (name : String)
  | reference (name : String)
  | scalar (text : String) (style : ScalarStyle)
  deriving DecidableEq

/-- A place where the key of a mapping may have started. -/
structure KeyPlace where
  /-- Number of tokens before it. -/
  index : Nat
  line : Nat
  column : Nat
  offset : Nat
  /-- Nothing but a key can stand there. -/
  required : Bool

/-- How far a text is scanned. -/
structure Scan where
  rest : List Char
  line : Nat := 0
  column : Nat := 0
  offset : Nat := 0
  /-- The columns of the open block collections, innermost first. -/
  indents : List Nat := []
  /-- A key may start here. -/
  keyAllowed : Bool := true
  /-- Where a key may have started, in the innermost bracket. -/
  keyPlace : Option KeyPlace := none
  /-- The same for each enclosing bracket, innermost first. -/
  outerKeys : List (Option KeyPlace) := []
  tokens : List Token := []

namespace Scan

/-! ## Moving on -/

/-- Between brackets, indentation does not count. -/
def inFlow (s : Scan) : Bool := !s.outerKeys.isEmpty

/-- Passes over characters. -/
def advance (s : Scan) : Nat → Scan
  | 0 => s
  | n + 1 =>
      match s.rest with
      | [] => s
      | c :: rest =>
          let s := { s with rest, offset := s.offset + 1 }
          let s := if c = '\n' then { s with line := s.line + 1, column := 0 }
            else { s with column := s.column + 1 }
          s.advance n

/-- Passes over all characters before `rest`. -/
def moveTo (s : Scan) (rest : List Char) : Scan := s.advance (s.rest.length - rest.length)

def push (s : Scan) (t : Token) : Scan := { s with tokens := s.tokens ++ [t] }

/-- Puts a token after the first `index` tokens. -/
def insertAt (s : Scan) (index : Nat) (t : Token) : Scan :=
  { s with tokens := s.tokens.take index ++ t :: s.tokens.drop index }

/-- Passes over blanks, comments and line breaks. A tab may only stand where it cannot be taken for
indentation. A line break outside brackets allows a key. -/
def filler (flow : Bool) (keyAllowed comment : Bool) : List Char → Bool × List Char
  | [] => (keyAllowed, [])
  | c :: rest =>
      if c = '\n' then filler flow (keyAllowed || !flow) false rest
      else if comment then filler flow keyAllowed true rest
      else if c = ' ' || (c = '\t' && (flow || !keyAllowed)) then filler flow keyAllowed false rest
      else if c = '#' then filler flow keyAllowed true rest
      else (keyAllowed, c :: rest)

/-- The mark that may stand at the start of a text. -/
def byteOrderMark : Char := '\ufeff'

/-- Goes to the start of the next token. A byte order mark at the start of the text is passed over
and takes up a column. -/
def skipFiller (s : Scan) : Scan :=
  let s := if s.offset = 0 && s.rest.head? = some byteOrderMark then s.advance 1 else s
  let (keyAllowed, rest) := filler s.inFlow s.keyAllowed false s.rest
  { s.moveTo rest with keyAllowed }

/-! ## Keys and indentation -/

/-- Gives up the place where a key may have started; `none` if a key was required there. -/
def dropKey? (s : Scan) : Option Scan :=
  if s.keyPlace.any (·.required) then none else some { s with keyPlace := none }

/-- A key may start here, if one is allowed. -/
def markKey? (s : Scan) : Option Scan :=
  if s.keyAllowed then do
    let s ← s.dropKey?
    let required := !s.inFlow && s.indents.head? == some s.column
    return { s with
      keyPlace := some ⟨s.tokens.length, s.line, s.column, s.offset, required⟩ }
  else some s

/-- A key lies on one line and is not longer than 1024 characters. -/
def isStale (s : Scan) (k : KeyPlace) : Bool := k.line < s.line || k.offset + 1024 < s.offset

/-- Gives up the places from where no key can reach the current character. -/
def dropStaleKeys? (s : Scan) : Option Scan :=
  if (s.keyPlace :: s.outerKeys).any (·.any fun k => s.isStale k && k.required) then none
  else
    let keep (place : Option KeyPlace) := place.filter fun k => !s.isStale k
    some { s with keyPlace := keep s.keyPlace, outerKeys := s.outerKeys.map keep }

/-- Ends the block collections that are indented more than `column`; all of them without one. -/
def unroll (s : Scan) (column : Option Nat) : Scan :=
  if s.inFlow then s
  else
    let closed := s.indents.takeWhile fun i => column.all (· < i)
    { s with
      indents := s.indents.drop closed.length
      tokens := s.tokens ++ List.replicate closed.length .blockEnd }

/-- Starts a block collection at a column, unless it is open already. -/
def roll (s : Scan) (column index : Nat) (t : Token) : Scan :=
  if !s.inFlow && s.indents.head?.all (· < column) then
    { s.insertAt index t with indents := column :: s.indents }
  else s

/-! ## Tokens -/

/-- A mark between documents. -/
def documentMark? (s : Scan) (t : Token) : Option Scan := do
  let s ← (s.unroll none).dropKey?
  return ({ s with keyAllowed := false }.push t).advance 3

/-- An opening bracket. -/
def openBracket? (s : Scan) (t : Token) : Option Scan := do
  let s ← s.markKey?
  return ({ s with
    outerKeys := s.keyPlace :: s.outerKeys, keyPlace := none, keyAllowed := true }.push t).advance 1

/-- A closing bracket. -/
def closeBracket? (s : Scan) (t : Token) : Option Scan := do
  let s ← s.dropKey?
  let s := match s.outerKeys with
    | [] => s
    | place :: outerKeys => { s with keyPlace := place, outerKeys }
  return ({ s with keyAllowed := false }.push t).advance 1

/-- A comma between entries. -/
def flowEntry? (s : Scan) : Option Scan := do
  let s ← s.dropKey?
  return ({ s with keyAllowed := true }.push .flowEntry).advance 1

/-- The dash before an item. -/
def blockEntry? (s : Scan) : Option Scan := do
  guard (s.inFlow || s.keyAllowed)
  let s ← (s.roll s.column s.tokens.length .blockSequenceStart).dropKey?
  return ({ s with keyAllowed := true }.push .blockEntry).advance 1

/-- The question mark before a key. -/
def explicitKey? (s : Scan) : Option Scan := do
  guard (s.inFlow || s.keyAllowed)
  let s ← (s.roll s.column s.tokens.length .blockMappingStart).dropKey?
  return ({ s with keyAllowed := !s.inFlow }.push .key).advance 1

/-- The colon before a value. If a key may have started earlier, it did start there. -/
def valueMark? (s : Scan) : Option Scan :=
  match s.keyPlace with
  | some k =>
      let s := (s.insertAt k.index .key).roll k.column k.index .blockMappingStart
      some (({ s with keyPlace := none, keyAllowed := false }.push .value).advance 1)
  | none => do
      guard (s.inFlow || s.keyAllowed)
      let s := s.roll s.column s.tokens.length .blockMappingStart
      return ({ s with keyAllowed := !s.inFlow }.push .value).advance 1

def isAnchorChar (c : Char) : Bool := c.isAlphanum || c = '_' || c = '-'

/-- An anchor or a reference to one, after its indicator. -/
def anchor? (s : Scan) (make : String → Token) : Option Scan := do
  let s ← s.markKey?
  let name := s.rest.tail.takeWhile isAnchorChar
  let after := s.rest.tail.dropWhile isAnchorChar
  let ends := endsWord after
    || after.head?.any fun c => ['?', ':', ',', ']', '\x7d', '%', '@', '\x60'].contains c
  guard (!name.isEmpty && ends)
  return { s with keyAllowed := false }.push (make (String.ofList name)) |>.moveTo after

/-- A block scalar. A line starts after it. -/
def blockScalar? (s : Scan) (style : ScalarStyle) : Option Scan := do
  let s ← s.dropKey?
  let (text, after) ← Yaml.blockScalar? (style = .folded) s.indents.head? s.rest.tail
  return ({ s with keyAllowed := true }.push (.scalar text style)).moveTo after

/-- A quoted scalar. -/
def quotedScalar? (s : Scan) (style : ScalarStyle) : Option Scan := do
  let s ← s.markKey?
  let (text, after) ← match style with
    | .singleQuoted => singleQuoted? [] s.rest.tail
    | _ => doubleQuoted? false [] s.rest.tail
  return ({ s with keyAllowed := false }.push (.scalar (String.ofList text) style)).moveTo after

/-- A plain scalar. -/
def plainToken? (s : Scan) : Option Scan := do
  let s ← s.markKey?
  let indent := s.indents.head?.elim 0 (· + 1)
  let (text, after, newLine) ← plainScalar? s.inFlow indent s.rest
  return ({ s with keyAllowed := newLine }.push (.scalar text .plain)).moveTo after

/-- Characters with which a plain scalar does not start. -/
def isIndicator (c : Char) : Bool :=
  ['-', '?', ':', ',', '[', ']', '\x7b', '\x7d', '#', '&', '*', '!', '|', '>', '\x27', '\x22', '%',
    '@', '\x60'].contains c

/-- A plain scalar may start here. A dash, question mark or colon is part of a word if one follows.
-/
def startsPlain (s : Scan) : Bool :=
  match s.rest with
  | [] => false
  | c :: rest =>
      !(isGap c || isIndicator c) || (c = '-' && !rest.head?.any isBlank)
        || (!s.inFlow && (c = '?' || c = ':') && !endsWord rest)

/-- Scans the token that starts here. Directives and tags are not supported. -/
def token? (s : Scan) : Option Scan :=
  match s.rest with
  | [] => none
  | c :: rest =>
      if s.column = 0 && c = '%' then none
      else if s.column = 0 && atMarker s.rest then
        s.documentMark? (if c = '-' then .documentStart else .documentEnd)
      else if c = '[' then s.openBracket? .flowSequenceStart
      else if c = '\x7b' then s.openBracket? .flowMappingStart
      else if c = ']' then s.closeBracket? .flowSequenceEnd
      else if c = '\x7d' then s.closeBracket? .flowMappingEnd
      else if c = ',' then s.flowEntry?
      else if c = '-' && endsWord rest then s.blockEntry?
      else if c = '?' && (s.inFlow || endsWord rest) then s.explicitKey?
      else if c = ':' && (s.inFlow || endsWord rest) then s.valueMark?
      else if c = '*' then s.anchor? .reference
      else if c = '&' then s.anchor? .anchor
      else if c = '|' && !s.inFlow then s.blockScalar? .literal
      else if c = '>' && !s.inFlow then s.blockScalar? .folded
      else if c = '\x27' then s.quotedScalar? .singleQuoted
      else if c = '\x22' then s.quotedScalar? .doubleQuoted
      else if s.startsPlain then s.plainToken?
      else none

/-- Ends what is open at the end of the text. -/
def finish? (s : Scan) : Option (List Token) := do
  let s ← (s.unroll none).dropKey?
  return s.tokens

/-- Scans the tokens up to the end. A token takes up at least one character. -/
def run? (s : Scan) : Option (List Token) :=
  match s.skipFiller.dropStaleKeys? with
  | none => none
  | some start =>
      if start.rest.isEmpty then start.finish?
      else
        match (start.unroll (some start.column)).token? with
        | none => none
        | some next => if next.rest.length < s.rest.length then next.run? else none
termination_by s.rest.length

end Scan

/-- Carriage returns, alone or before a line feed, and next-line characters end a line. -/
def normalizeBreaks : List Char → List Char
  | [] => []
  | '\r' :: '\n' :: rest => '\n' :: normalizeBreaks rest
  | c :: rest => (if c = '\r' || c = '\u0085' then '\n' else c) :: normalizeBreaks rest

/-- Control characters other than tabs and line breaks are not allowed, nor are the two numbers at
the end of the basic plane. -/
def isAllowed (c : Char) : Bool :=
  c = '\t' || c = '\n' || c = '\r' || (' ' ≤ c && c ≤ '~') || c = '\u0085'
    || ('\u00a0' ≤ c && c ≤ '\ufffd') || 0x10000 ≤ c.toNat

/-- The tokens of a text. -/
def Token.scan (text : String) : Option (List Token) :=
  let cs := text.toList
  if cs.all isAllowed then Scan.run? { rest := normalizeBreaks cs } else none

end SliceLineage.Yaml
