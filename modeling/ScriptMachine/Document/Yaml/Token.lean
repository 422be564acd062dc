/-!
# Tokens of YAML

What the characters and the layout of a file amount to, in order. Indentation is told by tokens of
its own: the beginning of a block collection and its end.
-/

set_option autoImplicit false

namespace ScriptMachine.Yaml

inductive Token where
  | documentStart
  | documentEnd
  /-- A list or a map begins by its indentation. -/
  | blockList
  | blockMap
  | blockEnd
  | openList
  | closeList
  | openMap
  | closeMap
  | separator
  /-- A dash before an item. -/
  | item
  /-- A name follows; written as a question mark or seen from the colon behind the name. -/
  | name
  /-- A colon before a value. -/
  | value
  | scalar (text : String) (quoted : Bool)
deriving DecidableEq, Repr, Inhabited

end ScriptMachine.Yaml
