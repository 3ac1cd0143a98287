/-!
# YAML nodes

A document is a tree of scalars, sequences and mappings. The style in which a scalar is written
matters: only a plain scalar can stand for a number, a truth value or nothing.
-/

namespace SliceLineage.Yaml

/-- How a scalar is written. -/
inductive ScalarStyle where
  | plain
  | singleQuoted
  | doubleQuoted
  /-- A block in which line breaks stand for themselves. -/
  | literal
  /-- A block in which a single line break stands for a space. -/
  | folded
  deriving DecidableEq, Inhabited

/-- A node of a document. -/
inductive Node where
  | scalar (text : String) (style : ScalarStyle)
  | sequence (items : List Node)
  | mapping (entries : List (Node × Node))

namespace Node

/-- The node that is not written at all. -/
def empty : Node := scalar "" .plain

instance : Inhabited Node := ⟨empty⟩

/-- A plain scalar. -/
def plain (text : String) : Node := scalar text .plain

end Node

end SliceLineage.Yaml
