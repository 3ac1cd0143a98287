import SliceLineage.Yaml.Node

/-!
# Texts of scalars

Readers for the five styles of scalars. Each takes the characters from the scalar on and gives its
text and the characters that follow. Line breaks are `\n` throughout.

Within plain and quoted scalars, blanks around a line break do not count: one line break folds into
a space, and of several the first is dropped (`fold`).
-/

namespace SliceLineage.Yaml

/-! ## Characters -/

def isBlank (c : Char) : Bool := c = ' ' || c = '\t'

/-- A blank or a line break. -/
def isGap (c : Char) : Bool := isBlank c || c = '\n'

/-- A gap, or the end of the text, follows. -/
def endsWord : List Char → Bool
  | [] => true
  | c :: _ => isGap c

/-- The characters start with three dashes or three dots that stand alone, which at the start of a
line is the mark between documents. -/
def atMarker : List Char → Bool
  | '-' :: '-' :: '-' :: rest => endsWord rest
  | '.' :: '.' :: '.' :: rest => endsWord rest
  | _ => false

/-- The brackets and the comma of collections between brackets. -/
def isFlowMark (c : Char) : Bool := [',', '[', ']', '\x7b', '\x7d'].contains c

/-- What a gap inside a scalar stands for. -/
def fold (gap : List Char) : List Char :=
  match gap.count '\n' with
  | 0 => gap
  | 1 => [' ']
  | n + 2 => List.replicate (n + 1) '\n'

/-- Number of characters after the last line break. -/
def lastColumn (gap : List Char) : Nat := (gap.reverse.takeWhile (· ≠ '\n')).length

/-- A tab stands to the left of the column `indent`, on any line after the first one. The current
column is counted from the first line break on. -/
def strayTab (indent : Nat) (column : Option Nat) : List Char → Bool
  | [] => false
  | c :: rest =>
      if c = '\n' then strayTab indent (some 0) rest
      else (c == '\t' && column.any (· < indent)) || strayTab indent (column.map (· + 1)) rest

/-! ## Plain scalars -/

/-- Reads up to the next gap or the next character that ends a plain scalar. In collections between
brackets, a colon right before a bracket or a comma is refused. -/
def plainWord? (flow : Bool) : List Char → Option (List Char × List Char)
  | [] => some ([], [])
  | c :: rest =>
      if isGap c || (c == ':' && endsWord rest) || (flow && isFlowMark c) then some ([], c :: rest)
      else if flow && c == ':' && rest.head?.any (fun d => isFlowMark d || d == '?') then none
      else (plainWord? flow rest).map fun (word, rest) => (c :: word, rest)

theorem plainWord?_append {flow : Bool} {cs word rest : List Char}
    (h : plainWord? flow cs = some (word, rest)) : cs = word ++ rest := by
  induction cs generalizing word with
  | nil => simp_all [plainWord?]
  | cons c cs ih =>
      rw [plainWord?] at h
      split at h
      · simp_all
      · split at h
        · simp at h
        · obtain ⟨⟨word', rest'⟩, hw, he⟩ := Option.map_eq_some_iff.mp h
          cases he
          simp [ih hw]

/-- The scalar ends after the gap: nothing follows, or a comment, a document mark or a line that is
not indented enough. -/
def plainStops (flow : Bool) (indent : Nat) (gap rest : List Char) : Bool :=
  let column := lastColumn gap
  rest.isEmpty || rest.head? == some '#'
    || (gap.contains '\n' && ((!flow && column < indent) || (column == 0 && atMarker rest)))

/-- Reads the words that follow the first one. The result also says whether the reader went on to a
new line in search of more. -/
def plainWords? (flow : Bool) (indent : Nat) (text cs : List Char) :
    Option (List Char × List Char × Bool) :=
  let gap := cs.takeWhile isGap
  let rest := cs.dropWhile isGap
  if gap.isEmpty then some (text, rest, false)
  else if strayTab indent none gap then none
  else if plainStops flow indent gap rest then some (text, rest, gap.contains '\n')
  else
    match _ : plainWord? flow rest with
    | none => none
    | some ([], _) => some (text, rest, gap.contains '\n')
    | some (c :: word, after) => plainWords? flow indent (text ++ fold gap ++ c :: word) after
termination_by cs.length
decreasing_by
  have hrest : (cs.dropWhile isGap).length = _ :=
    congrArg List.length (plainWord?_append ‹plainWord? _ _ = some (_ :: _, _)›)
  have hcs := (List.dropWhile_suffix isGap (l := cs)).length_le
  simp only [List.length_append, List.length_cons] at hrest
  omega

/-- Reads a plain scalar; lines after the first must be indented by `indent`. -/
def plainScalar? (flow : Bool) (indent : Nat) (cs : List Char) :
    Option (String × List Char × Bool) := do
  let (word, rest) ← plainWord? flow cs
  let (text, rest, newLine) ← plainWords? flow indent word rest
  return (String.ofList text, rest, newLine)

/-! ## Quoted scalars -/

/-- Puts characters before what a reader has found. -/
def putBefore (cs : List Char) (found : List Char × List Char) : List Char × List Char :=
  (cs ++ found.1, found.2)

/-- Reads a single-quoted scalar after its first quote; `gap` was read but not yet put down. -/
def singleQuoted? (gap : List Char) : List Char → Option (List Char × List Char)
  | [] => none
  | '\x27' :: '\x27' :: rest => (singleQuoted? [] rest).map (putBefore (fold gap ++ ['\x27']))
  | c :: rest =>
      if c = '\x27' then some (fold gap, rest)
      else if isGap c then
        if c = '\n' && atMarker rest then none else singleQuoted? (gap ++ [c]) rest
      else (singleQuoted? [] rest).map (putBefore (fold gap ++ [c]))

/-- What one character after a backslash stands for. -/
def shortEscape? : Char → Option Char
  | '0' => some '\x00'
  | 'a' => some '\x07'
  | 'b' => some '\x08'
  | 't' => some '\t'
  | '\t' => some '\t'
  | 'n' => some '\n'
  | 'v' => some '\x0b'
  | 'f' => some '\x0c'
  | 'r' => some '\r'
  | 'e' => some '\x1b'
  | ' ' => some ' '
  | '\x22' => some '\x22'
  | '/' => some '/'
  | '\x5c' => some '\x5c'
  | 'N' => some '\u0085'
  | '_' => some '\u00a0'
  | 'L' => some '\u2028'
  | 'P' => some '\u2029'
  | _ => none

def hexDigit? (c : Char) : Option Nat :=
  if '0' ≤ c ∧ c ≤ '9' then some (c.toNat - 48)
  else if 'a' ≤ c ∧ c ≤ 'f' then some (c.toNat - 87)
  else if 'A' ≤ c ∧ c ≤ 'F' then some (c.toNat - 55)
  else none

/-- The character with this number in hexadecimal digits. -/
def codePoint? (digits : List Char) : Option Char := do
  let n ← digits.foldlM (fun n d => (hexDigit? d).map (16 * n + ·)) 0
  if n.isValidChar then return Char.ofNat n else none

/-- What a gap inside a double-quoted scalar stands for. If the line break before it was escaped,
blanks at the start of the line do not count. -/
def settle (joined : Bool) (gap : List Char) : List Char :=
  if joined then List.replicate (gap.count '\n') '\n' else fold gap

/-- Reads a double-quoted scalar after its first quote; `gap` was read but not yet put down, and
`joined` says that an escaped line break comes before it. -/
def doubleQuoted? (joined : Bool) (gap : List Char) : List Char → Option (List Char × List Char)
  | [] => none
  | '\x5c' :: '\n' :: rest =>
      if atMarker rest then none
      else (doubleQuoted? true [] rest).map (putBefore (settle joined gap))
  | '\x5c' :: 'x' :: a :: b :: rest => do
      let c ← codePoint? [a, b]
      (doubleQuoted? false [] rest).map (putBefore (settle joined gap ++ [c]))
  | '\x5c' :: 'u' :: a :: b :: c :: d :: rest => do
      let c ← codePoint? [a, b, c, d]
      (doubleQuoted? false [] rest).map (putBefore (settle joined gap ++ [c]))
  | '\x5c' :: 'U' :: a :: b :: c :: d :: e :: f :: g :: h :: rest => do
      let c ← codePoint? [a, b, c, d, e, f, g, h]
      (doubleQuoted? false [] rest).map (putBefore (settle joined gap ++ [c]))
  | '\x5c' :: c :: rest => do
      let c ← shortEscape? c
      (doubleQuoted? false [] rest).map (putBefore (settle joined gap ++ [c]))
  | c :: rest =>
      if c = '\x22' then some (settle joined gap, rest)
      else if isGap c then
        if c = '\n' && atMarker rest then none else doubleQuoted? joined (gap ++ [c]) rest
      else (doubleQuoted? false [] rest).map (putBefore (settle joined gap ++ [c]))

/-! ## Block scalars -/

/-- What becomes of the line breaks at the end of a block scalar. -/
inductive Chomping where
  /-- None is kept. -/
  | strip
  /-- One is kept. -/
  | clip
  /-- All are kept. -/
  | keep
  deriving DecidableEq

/-- The part of a block scalar's first line that says how to read the others. -/
structure BlockHeader where
  chomping : Chomping := .clip
  /-- The indentation, counted from that of the enclosing collection. -/
  increment : Option Nat := none

def chomping? : Char → Option Chomping
  | '+' => some .keep
  | '-' => some .strip
  | _ => none

def increment? (c : Char) : Option Nat :=
  if '1' ≤ c ∧ c ≤ '9' then some (c.toNat - 48) else none

/-- Reads the two indicators of a header, in any order. -/
def blockIndicators (cs : List Char) : BlockHeader × List Char :=
  match cs with
  | [] => ({}, [])
  | a :: rest =>
      match chomping? a, increment? a with
      | some chomping, _ =>
          match rest.head?.bind increment? with
          | some n => ({ chomping, increment := some n }, rest.tail)
          | none => ({ chomping }, rest)
      | none, some n =>
          match rest.head?.bind chomping? with
          | some chomping => ({ chomping, increment := some n }, rest.tail)
          | none => ({ increment := some n }, rest)
      | none, none => ({}, cs)

/-- Reads a header to the end of its line; only a comment may follow the indicators. -/
def blockHeader? (cs : List Char) : Option (BlockHeader × List Char) :=
  let (header, rest) := blockIndicators cs
  let rest := rest.dropWhile isBlank
  let rest := if rest.head? = some '#' then rest.dropWhile (· ≠ '\n') else rest
  match rest with
  | [] => some (header, [])
  | '\n' :: rest => some (header, rest)
  | _ => none

/-- The lines of a text; a text that ends with a line break has an empty last line. -/
def splitLines : List Char → List (List Char)
  | [] => [[]]
  | c :: rest =>
      if c = '\n' then [] :: splitLines rest
      else match splitLines rest with
        | [] => [[c]]
        | line :: lines => (c :: line) :: lines

/-- The text with these lines. -/
def joinLines (lines : List (List Char)) : List Char := ['\n'].intercalate lines

/-- The indentation of the first line that is not blank, or that of a longer blank line before it. A
tab must not stand where the indentation is looked for. -/
def detectIndent? (least : Nat) : List (List Char) → Option Nat
  | [] => some least
  | line :: rest =>
      let spaces := (line.takeWhile (· = ' ')).length
      match line.drop spaces with
      | [] => detectIndent? (max least spaces) rest
      | c :: _ => if c = '\t' then none else some (max least spaces)

/-- What has been read of a block scalar so far, as far as it matters for the rest. -/
structure BlockState where
  /-- The last line with text ended with a line break. -/
  broken : Bool := false
  /-- The last line with text started with a blank. -/
  startsBlank : Bool := false
  /-- Number of blank lines after it. -/
  blankLines : Nat := 0

/-- The line breaks before the next line with text. A single line break between two lines that start
with text folds. -/
def BlockState.gap (s : BlockState) (isFolded startsBlank : Bool) : List Char :=
  let first := if isFolded && s.broken && !s.startsBlank && !startsBlank
    then (if s.blankLines = 0 then [' '] else [])
    else (if s.broken then ['\n'] else [])
  first ++ List.replicate s.blankLines '\n'

/-- The line breaks at the end. -/
def BlockState.ending (s : BlockState) (chomping : Chomping) : List Char :=
  (if chomping ≠ .strip && s.broken then ['\n'] else [])
    ++ (if chomping = .keep then List.replicate s.blankLines '\n' else [])

/-- Reads the lines of a block scalar that is indented by `indent`. -/
def blockLines? (isFolded : Bool) (chomping : Chomping) (indent : Nat) (s : BlockState) :
    List (List Char) → Option (List Char × List (List Char))
  | [] => some (s.ending chomping, [])
  | line :: rest =>
      let spaces := min indent (line.takeWhile (· = ' ')).length
      let body := line.drop spaces
      if body.isEmpty && !rest.isEmpty then
        blockLines? isFolded chomping indent { s with blankLines := s.blankLines + 1 } rest
      else if spaces < indent then
        if body.head? = some '\t' then none else some (s.ending chomping, line :: rest)
      else if body.isEmpty then some (s.ending chomping, line :: rest)
      else do
        let startsBlank := body.head?.any isBlank
        let (text, rest') ← blockLines? isFolded chomping indent
          { broken := !rest.isEmpty, startsBlank } rest
        return (s.gap isFolded startsBlank ++ body ++ text, rest')

/-- Reads a block scalar after its first indicator. The enclosing collection is indented by
`parent`, if there is one. -/
def blockScalar? (isFolded : Bool) (parent : Option Nat) (cs : List Char) :
    Option (String × List Char) := do
  let (header, rest) ← blockHeader? cs
  let lines := splitLines rest
  let indent ← match header.increment with
    | some n => some (parent.getD 0 + n)
    | none => detectIndent? (max 1 (parent.elim 0 (· + 1))) lines
  let (text, lines) ← blockLines? isFolded header.chomping indent {} lines
  return (String.ofList text, joinLines lines)

end SliceLineage.Yaml
