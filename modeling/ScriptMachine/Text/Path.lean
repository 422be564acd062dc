import ScriptMachine.Text.Split

/-!
# Paths of files

A path is a row of components between slashes. Empty components and single dots say nothing.
-/

set_option autoImplicit false

namespace ScriptMachine.Text.Path

def components (path : String) : List String :=
  ((splitAt '/' path.toList).map String.ofList).filter fun part => part ≠ "" ∧ part ≠ "."

def goesUp (path : String) : Bool := (components path).contains ".."

/-- The part of a file name behind its last dot. A dot at the head of the name does not count. -/
def nameExtension? (name : String) : Option String :=
  match (splitAt '.' name.toList).reverse with
  | last :: before :: earlier =>
    if before.isEmpty ∧ earlier.isEmpty then none else some (String.ofList last)
  | _ => none

def extension? (path : String) : Option String :=
  ((components path).getLast?.filter (· ≠ "..")).bind nameExtension?

end ScriptMachine.Text.Path
