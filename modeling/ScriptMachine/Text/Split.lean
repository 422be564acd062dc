/-!
# Cutting texts

Texts as rows of parts with a separator between them.
-/

set_option autoImplicit false

namespace ScriptMachine.Text

/-- Cuts a text at every occurrence of a character. -/
def splitAt (mark : Char) : List Char → List (List Char)
  | [] => [[]]
  | c :: rest =>
    if c = mark then [] :: splitAt mark rest
    else
      match splitAt mark rest with
      | part :: parts => (c :: part) :: parts
      | [] => [[c]]

end ScriptMachine.Text
