/-!
# Places in a YAML file

The characters of a file, the ends of its lines, and a place in it. A place knows its line and
column, because both have a meaning.
-/

set_option autoImplicit false

namespace ScriptMachine.Yaml

/-! ## Characters -/

def isAdmitted (c : Char) : Bool :=
  let n := c.toNat
  n = 0x09 ∨ n = 0x0A ∨ n = 0x0D ∨ (0x20 ≤ n ∧ n ≤ 0x7E) ∨ n = 0x85 ∨ (0xA0 ≤ n ∧ n ≤ 0xFFFD)
    ∨ 0x10000 ≤ n

def isBlank (c : Char) : Bool := c = ' ' ∨ c = '\t'

/-- Whether a character ends a line: a line feed, or one of the two separators that stay what they
are inside scalars. -/
def isBreak (c : Char) : Bool := c = '\n' ∨ c = '\u2028' ∨ c = '\u2029'

/-- Writes a carriage return, one before a line feed, and a next-line character as a line feed.
`read` holds the characters so far, last one first. -/
def unifyBreaks (read : List Char) : List Char → List Char
  | '\r' :: '\n' :: rest => unifyBreaks ('\n' :: read) rest
  | c :: rest => unifyBreaks ((if c = '\r' ∨ c = '\u0085' then '\n' else c) :: read) rest
  | [] => read.reverse

def wordEnds : List Char → Bool
  | [] => true
  | c :: _ => isBlank c || isBreak c

/-! ## Places -/

structure Cursor where
  rest : List Char
  line : Nat := 0
  column : Nat := 0
deriving Repr, Inhabited

namespace Cursor

def forward (here : Cursor) (count : Nat) : Cursor :=
  { here with rest := here.rest.drop count, column := here.column + count }

/-- Whether a mark of three characters stands alone at the beginning of the line. -/
def atMark (mark : String) (here : Cursor) : Bool :=
  here.column == 0 && mark.toList.isPrefixOf here.rest && wordEnds (here.rest.drop 3)

def atDocumentMark (here : Cursor) : Bool := here.atMark "---" || here.atMark "..."

end Cursor

end ScriptMachine.Yaml
