import Assembler6502.Fault

/-!
# Character maps

String literals become data byte by byte through a character map, which says for each of the 256
bytes what is stored in its place.

## Main definitions

* `Charmap`: a map from bytes to bytes
* `Charmap.ofBytes?`, `Charmap.replace?`: a map read whole, and a map with new entries
-/

namespace Assembler6502

/-- What is stored in place of each byte. -/
structure Charmap where
  entries : Vector UInt8 256

namespace Charmap

/-- Stores every byte as it is. -/
def identity : Charmap :=
  ⟨Vector.ofFn fun i => UInt8.ofNat i⟩

instance : Inhabited Charmap := ⟨identity⟩

/-- What is stored in place of a byte. -/
def translate (m : Charmap) (b : UInt8) : UInt8 :=
  m.entries.get b.toFin

/-- A map given by all its entries. -/
def ofBytes? (bytes : List UInt8) : Option Charmap :=
  if h : bytes.length = 256 then some ⟨⟨bytes.toArray, by simpa using h⟩⟩ else none

/-- The map with the entries from `base` on replaced. The new entries have to be bytes and have to
fit into the map. -/
def replace? (m : Charmap) (base : Value) (values : List Value) : Except ParseError Charmap :=
  if values.any fun v => v < 0 || 255 < v then .error .illegalCharmapValue
  else if base < 0 ∨ 256 < base.toInt.toNat + values.length then .error .charmapOutOfRange
  else
    let start := base.toInt.toNat
    .ok ⟨Vector.ofFn fun i : Fin 256 =>
      match values[i.val - start]? with
      | some v => if start ≤ i.val then UInt8.ofNat v.toInt.toNat else m.entries.get i
      | none => m.entries.get i⟩

end Charmap
end Assembler6502
