import ScriptMachine.Text.Visible

/-!
# Quoted text

Two ways to put a text between double quotes. `inspected` is for people: it escapes quotes,
backslashes, control characters, combining marks and everything else that would not be visible.
`interchange` is the form of data files: it escapes quotes, backslashes and the control characters
below the blank, and nothing else.
-/

set_option autoImplicit false

namespace ScriptMachine.Text

/-- Lower-case hexadecimal digits without leading zeros. -/
def hexDigits (n : Nat) : List Char := Nat.toDigits 16 n

def inspectedChar (c : Char) : List Char :=
  match c with
  | '"' => ['\\', '"']
  | '\\' => ['\\', '\\']
  | '\n' => ['\\', 'n']
  | '\r' => ['\\', 'r']
  | '\t' => ['\\', 't']
  | c =>
    if c.toNat = 0 then ['\\', '0']
    else if isHidden c then ['\\', 'u', '\x7b'] ++ hexDigits c.toNat ++ ['\x7d']
    else [c]

def inspected (s : String) : String :=
  String.ofList ('"' :: s.toList.flatMap inspectedChar ++ ['"'])

/-- One character as data files hold it. -/
def interchangeChar (c : Char) : List Char :=
  match c with
  | '"' => ['\\', '"']
  | '\\' => ['\\', '\\']
  | '\n' => ['\\', 'n']
  | '\r' => ['\\', 'r']
  | '\t' => ['\\', 't']
  | c =>
    if c.toNat = 8 then ['\\', 'b']
    else if c.toNat = 12 then ['\\', 'f']
    else if c.toNat < 32 then
      let digits := hexDigits c.toNat
      ['\\', 'u'] ++ List.replicate (4 - digits.length) '0' ++ digits
    else [c]

def interchange (s : String) : String :=
  String.ofList ('"' :: s.toList.flatMap interchangeChar ++ ['"'])

end ScriptMachine.Text
