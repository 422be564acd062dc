import ScriptMachine.Text.Split
import ScriptMachine.Value.Error

/-!
# Reports of errors

The report of an error that ended the runner names the outermost context first and then lists the
causes below it, numbered if there are several. Every line of a cause is indented.
-/

set_option autoImplicit false

namespace ScriptMachine.Report

def linesOf (text : String) : List String := (Text.splitAt '\n' text.toList).map String.ofList

def indented (first others : String) : List String → List String
  | [] => []
  | line :: rest => (first ++ line) :: rest.map (others ++ ·)

/-- The number of a cause, in five columns. -/
def ordinal (n : Nat) : String :=
  let digits := Nat.toDigits 10 n
  String.ofList (List.replicate (5 - digits.length) ' ' ++ digits) ++ ": "

/-- The lines of the causes below the outermost context. -/
def causes : List String → List String
  | [] => []
  | [cause] => ["", "Caused by:"] ++ indented "    " "    " (linesOf cause)
  | several =>
    ["", "Caused by:"] ++ several.zipIdx.flatMap fun (cause, n) =>
      indented (ordinal n) "       " (linesOf cause)

def lines (e : Error) : List String :=
  match e.chain with
  | [] => []
  | outermost :: rest => indented "Error: " "" (linesOf outermost) ++ causes rest

end ScriptMachine.Report
