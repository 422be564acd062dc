import ScriptMachine.Structure.Navigation

/-!
# Stores

What all layouts, and the structures made of them, have in common: entries under keys that can be
read, changed, taken out, and visited in key order. A visit may bring an index up to date, so the
store comes back with the answer.
-/

set_option autoImplicit false

namespace ScriptMachine

/-- Entries under keys of type `κ`, visited in key order. -/
class Store (σ : Type) (κ : outParam Type) where
  /-- Entries in key order. -/
  entries : σ → List (κ × Value)
  get? : σ → κ → Option Value
  /-- Changes the value under a key in place. -/
  update : σ → κ → (Value → Value) → σ
  remove : σ → κ → Option Value × σ
  firstKey? : σ → Option κ × σ
  lastKey? : σ → Option κ × σ
  nextKey? : σ → κ → Option κ × σ
  prevKey? : σ → κ → Option κ × σ

instance : Store Dense Key where
  entries := Dense.entries
  get? := Dense.get?
  update := Dense.update
  remove := Dense.remove
  firstKey? d := (d.firstKey?, d)
  lastKey? d := (d.lastKey?, d)
  nextKey? d key := (d.nextKey? key, d)
  prevKey? d key := (d.prevKey? key, d)

instance : Store Ring Key where
  entries := Ring.entries
  get? := Ring.get?
  update := Ring.update
  remove := Ring.remove
  firstKey? r := (r.firstKey?, r)
  lastKey? r := (r.lastKey?, r)
  nextKey? r key := (r.nextKey? key, r)
  prevKey? r key := (r.prevKey? key, r)

instance {κ : Type} [Ord κ] : Store (Table κ) κ where
  entries := Table.entries
  get? := Table.get?
  update := Table.update
  remove := Table.remove
  firstKey? := Table.firstKey?
  lastKey? := Table.lastKey?
  nextKey? := Table.nextKey?
  prevKey? := Table.prevKey?

instance : Store Structure Key where
  entries := Structure.entries
  get? := Structure.get?
  update := Structure.update
  remove := Structure.delete
  firstKey? := Structure.firstKey?
  lastKey? := Structure.lastKey?
  nextKey? := Structure.nextKey?
  prevKey? := Structure.prevKey?

end ScriptMachine
