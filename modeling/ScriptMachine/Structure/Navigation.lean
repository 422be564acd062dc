import ScriptMachine.Structure.Basic

/-!
# Moving along the keys of a structure

Ordered reading of a structure: its least and greatest key, the neighbours of a probe, the keys used
to append and prepend, and taking entries off either end. A reading may bring the index of a table
up to date, so the structure comes back with the answer.
-/

set_option autoImplicit false

namespace ScriptMachine.Structure

def readKeyed {α β : Type} (s : Structure) (answer : α × Table String) (f : α → β) :
    β × Structure :=
  (f answer.1, { s with storage := .keyed answer.2 })

def readMixed {α : Type} (s : Structure) (answer : α × Table Key) : α × Structure :=
  (answer.1, { s with storage := .mixed answer.2 })

def firstKey? (s : Structure) : Option Key × Structure :=
  match s.storage with
  | .dense d => (d.firstKey?, s)
  | .keyed t => s.readKeyed t.firstKey? (·.map .str)
  | .mixed t => s.readMixed t.firstKey?
  | .ring r => (r.firstKey?, s)

def lastKey? (s : Structure) : Option Key × Structure :=
  match s.storage with
  | .dense d => (d.lastKey?, s)
  | .keyed t => s.readKeyed t.lastKey? (·.map .str)
  | .mixed t => s.readMixed t.lastKey?
  | .ring r => (r.lastKey?, s)

/-- Least key above a probe. In a table of texts every text comes after the keys of lower kind; a
positional layout only answers integers. -/
def nextKey? (s : Structure) (key : Key) : Option Key × Structure :=
  match s.storage, key with
  | .dense d, key => (d.nextKey? key, s)
  | .keyed t, .str k => s.readKeyed (t.nextKey? k) (·.map .str)
  | .keyed t, key =>
    if (compare key (.str "")).isLT then s.readKeyed t.firstKey? (·.map .str) else (none, s)
  | .mixed t, key => s.readMixed (t.nextKey? key)
  | .ring r, key => (r.nextKey? key, s)

def prevKey? (s : Structure) (key : Key) : Option Key × Structure :=
  match s.storage, key with
  | .dense d, key => (d.prevKey? key, s)
  | .keyed t, .str k => s.readKeyed (t.prevKey? k) (·.map .str)
  | .keyed t, key =>
    if (compare key (.str "")).isGT then s.readKeyed t.lastKey? (·.map .str) else (none, s)
  | .mixed t, key => s.readMixed (t.prevKey? key)
  | .ring r, key => (r.prevKey? key, s)

def keys (s : Structure) : List Key × Structure :=
  match s.storage with
  | .dense d => (d.entries.map Prod.fst, s)
  | .keyed t => s.readKeyed t.keys (·.map .str)
  | .mixed t => s.readMixed t.keys
  | .ring r => (r.entries.map Prod.fst, s)

def wordAfter (w : Int64) : Int64 := (Word.ofInt? (w.toInt + 1)).getD w

def wordBefore (w : Int64) : Int64 := (Word.ofInt? (w.toInt - 1)).getD w

/-- Key for an appended value: one past the greatest integer key. Only a mixed table stops at the
greatest word. -/
def appendKey (s : Structure) : Key × Structure :=
  match s.storage with
  | .dense d => (.int (((d.lastKey?.bind Key.int?).map (· + 1)).getD 0), s)
  | .ring r => (.int (((r.lastKey?.bind Key.int?).map (· + 1)).getD 0), s)
  | .keyed _ => (.int 0, s)
  | .mixed t =>
    let (top, s) := s.readMixed (t.ordered fun keys => keys.reverse.findSome? Key.int?)
    (.int ((top.map wordAfter).getD 0), s)

/-- Key for a prepended value: one below the least integer key. Only a mixed table stops at the
least word. -/
def prependKey (s : Structure) : Key × Structure :=
  match s.storage with
  | .dense d => (.int (((d.firstKey?.bind Key.int?).map (· - 1)).getD 0), s)
  | .ring r => (.int (((r.firstKey?.bind Key.int?).map (· - 1)).getD 0), s)
  | .keyed _ => (.int 0, s)
  | .mixed t =>
    let (low, s) := s.readMixed (t.ordered fun keys => keys.findSome? Key.int?)
    (.int ((low.map wordBefore).getD 0), s)

def popFront (s : Structure) : Option Value × Structure :=
  match s.storage with
  | .ring r =>
    let (v, after) := r.popFront
    (v.map detach, { s with storage := .ring after })
  | _ =>
    match s.firstKey? with
    | (none, s) => (none, s)
    | (some key, s) => s.delete key

/-- Takes the entry under the greatest key out. -/
def popBack (s : Structure) : Option Value × Structure :=
  match s.storage with
  | .ring r =>
    let (v, after) := r.popBack
    (v.map detach, { s with storage := .ring after })
  | _ =>
    match s.lastKey? with
    | (none, s) => (none, s)
    | (some key, s) => s.delete key

end ScriptMachine.Structure
