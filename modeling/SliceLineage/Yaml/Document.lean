import SliceLineage.Yaml.Token

/-!
# From tokens to a document

`Node.parse` reads a text that holds at most one document. A node that is announced but not written
is the empty plain scalar, and so is the whole document if the text has no tokens.

The readers take as many steps as there are tokens, times a constant; `Node.ofTokens?` supplies that
number.
-/

namespace SliceLineage.Yaml

/-- The tokens that are left, and the nodes that have a name. -/
structure TokenStream where
  tokens : List Token
  anchors : List (String × Node) := []

/-- Reads from a token stream. -/
abbrev Parse := StateT TokenStream Option

namespace Parse

def peek : Parse (Option Token) := return (← get).tokens.head?

def skip : Parse Unit := modify fun s => { s with tokens := s.tokens.tail }

/-- The next token is one of these. -/
def atOneOf (stops : List Token) : Parse Bool := return (← peek).any stops.contains

/-- Skips a token that must be there. -/
def expect (t : Token) : Parse Unit := do
  guard (← atOneOf [t])
  skip

/-- The node with a name. -/
def named (name : String) : Parse Node := do (← get).anchors.lookup name

/-- Gives a node a name, from here on. -/
def nameIt (name : String) (n : Node) : Parse Unit :=
  modify fun s => { s with anchors := (name, n) :: s.anchors }

mutual

/-- Reads a node. Block collections are allowed if `block` is set, sequences at the column of the
enclosing mapping if `indentless` is. -/
def node (block indentless : Bool) : Nat → Parse Node
  | 0 => failure
  | fuel + 1 => do
      match ← peek with
      | some (.reference name) =>
          skip
          named name
      | some (.anchor name) =>
          skip
          let n ← content block indentless true fuel
          nameIt name n
          return n
      | _ => content block indentless false fuel

/-- Reads a node after its anchor. Only a node with an anchor may be left out. -/
def content (block indentless anchored : Bool) : Nat → Parse Node
  | 0 => failure
  | fuel + 1 => do
      let absent : Parse Node := if anchored then pure .empty else failure
      match ← peek with
      | some (.scalar text style) =>
          skip
          return .scalar text style
      | some .flowSequenceStart =>
          skip
          return .sequence (← flowItems true fuel)
      | some .flowMappingStart =>
          skip
          return .mapping (← flowEntries true fuel)
      | some .blockEntry => if indentless then return .sequence (← indentlessItems fuel) else absent
      | some .blockSequenceStart =>
          if block then
            skip
            return .sequence (← blockItems fuel)
          else absent
      | some .blockMappingStart =>
          if block then
            skip
            return .mapping (← blockEntries fuel)
          else absent
      | _ => absent

/-- Reads a node, which is left out if one of `stops` follows. -/
def nodeUnless (stops : List Token) (block indentless : Bool) : Nat → Parse Node
  | 0 => failure
  | fuel + 1 => do
      if ← atOneOf stops then return .empty
      node block indentless fuel

/-- Reads a value after a key, if the colon is there. -/
def valueUnless (stops : List Token) (block indentless : Bool) : Nat → Parse Node
  | 0 => failure
  | fuel + 1 => do
      if ← atOneOf [.value] then
        skip
        nodeUnless stops block indentless fuel
      else return .empty

/-- Reads the items of a block sequence. -/
def blockItems : Nat → Parse (List Node)
  | 0 => failure
  | fuel + 1 => do
      if ← atOneOf [.blockEnd] then
        skip
        return []
      expect .blockEntry
      let item ← nodeUnless [.blockEntry, .blockEnd] true false fuel
      return item :: (← blockItems fuel)

/-- Reads the items of a sequence at the column of the enclosing mapping. -/
def indentlessItems : Nat → Parse (List Node)
  | 0 => failure
  | fuel + 1 => do
      if ← atOneOf [.blockEntry] then
        skip
        let item ← nodeUnless [.blockEntry, .key, .value, .blockEnd] true false fuel
        return item :: (← indentlessItems fuel)
      else return []

/-- Reads the entries of a block mapping. -/
def blockEntries : Nat → Parse (List (Node × Node))
  | 0 => failure
  | fuel + 1 => do
      if ← atOneOf [.blockEnd] then
        skip
        return []
      expect .key
      let key ← nodeUnless [.key, .value, .blockEnd] true true fuel
      let value ← valueUnless [.key, .value, .blockEnd] true true fuel
      return (key, value) :: (← blockEntries fuel)

/-- Reads the items of a sequence in brackets. A key makes an item a mapping of one entry. -/
def flowItems (first : Bool) : Nat → Parse (List Node)
  | 0 => failure
  | fuel + 1 => do
      unless first || (← atOneOf [.flowSequenceEnd]) do
        expect .flowEntry
      if ← atOneOf [.flowSequenceEnd] then
        skip
        return []
      if ← atOneOf [.key] then
        skip
        let key ← nodeUnless [.value, .flowEntry, .flowSequenceEnd] false false fuel
        let value ← valueUnless [.flowEntry, .flowSequenceEnd] false false fuel
        return .mapping [(key, value)] :: (← flowItems false fuel)
      let item ← node false false fuel
      return item :: (← flowItems false fuel)

/-- Reads the entries of a mapping in braces. An entry without key mark has no value. -/
def flowEntries (first : Bool) : Nat → Parse (List (Node × Node))
  | 0 => failure
  | fuel + 1 => do
      unless first || (← atOneOf [.flowMappingEnd]) do
        expect .flowEntry
      if ← atOneOf [.flowMappingEnd] then
        skip
        return []
      if ← atOneOf [.key] then
        skip
        let key ← nodeUnless [.value, .flowEntry, .flowMappingEnd] false false fuel
        let value ← valueUnless [.flowEntry, .flowMappingEnd] false false fuel
        return (key, value) :: (← flowEntries false fuel)
      let key ← node false false fuel
      return (key, .empty) :: (← flowEntries false fuel)

end

/-- Reads the only document of a stream. -/
def document (fuel : Nat) : Parse Node := do
  let marked ← atOneOf [.documentStart]
  if marked then
    skip
  if (← peek).isNone then return .empty
  if marked && (← atOneOf [.documentStart, .documentEnd]) then return .empty
  node true false fuel

end Parse

namespace Node

/-- The only document of a token stream. End marks may follow it. -/
def ofTokens? (tokens : List Token) : Option Node := do
  let (n, s) ← (Parse.document (4 * tokens.length + 4)).run { tokens }
  if s.tokens.all (· = .documentEnd) then return n else none

/-- The only document of a text. -/
def parse (text : String) : Option Node := (Token.scan text).bind ofTokens?

end Node

end SliceLineage.Yaml
