import Restake.Json.Record
import Restake.Json.Shape
import Restake.OperatorSet
import Restake.Shares
import Restake.Text.Radix

/-!
Byte strings, addresses, operator sets and shares as JSON. Bytes are written in hexadecimal and
may be read from an array of numbers as well. Shares are written in hexadecimal with no more digits
than needed; they are read from any marked radix, or from an integer of 64 bits.
-/
namespace Restake

namespace Bytes

def byte? (v : Json) : Option UInt8 := (v.nat? UInt8.size).map .ofNat

def ofJson? : Json → Option Bytes
  | .str s => Hex.read? s
  | .arr items => items.mapM byte?
  | _ => none

/-- Exactly `width` bytes; in an array an item that is no byte is passed over after them. -/
def fixed? (width : Nat) : Json → Option Bytes
  | .str s => (Hex.read? s).filter (·.length = width)
  | .arr items => do
    let bs ← (items.take width).mapM byte?
    if bs.length = width ∧ items.length ≤ width + 1 ∧ (items.drop width).all fun v => (byte? v).isNone
    then return bs
    else none
  | _ => none

def toJson (bs : Bytes) : Json := .str (Hex.render bs)

theorem ofJson?_toJson (bs : Bytes) : ofJson? (toJson bs) = some bs := Hex.read?_render bs

end Bytes

namespace Address

def shape : Json.Shape := .bytes 20

def ofJson? (v : Json) : Option Address := (Bytes.fixed? 20 v).bind ofBytes?

def toJson (a : Address) : Json := a.bytes.toJson

theorem ofJson?_toJson (a : Address) : ofJson? (toJson a) = some a := by
  have hbytes : Bytes.fixed? 20 a.bytes.toJson = some a.bytes := by
    simp [Bytes.fixed?, Bytes.toJson, Hex.read?_render, bytes]
  rw [ofJson?, toJson, hbytes]
  exact ofBytes?_bytes a

end Address

namespace OperatorSet

def shape : Json.Shape := .record [("avs", Address.shape), ("id", .free)]

def ofJson? (v : Json) : Option OperatorSet := do
  match ← v.fields? shape.names with
  | [avs, id] => return ⟨← Json.required Address.ofJson? avs, ← Json.required Json.uint32? id⟩
  | _ => none

def toJson (s : OperatorSet) : Json := .obj [("avs", s.avs.toJson), ("id", .ofUInt32 s.id)]

end OperatorSet

namespace Shares

def ofNat? (n : Nat) : Option Shares := if n < 1 <<< 256 then some (.ofNat 256 n) else none

def ofText? (s : String) : Option Shares := (Radix.read? s).bind ofNat?

def ofJson? : Json → Option Shares
  | .str s => ofText? s
  | v => (v.nat? UInt64.size).map (.ofNat 256)

def toJson (s : Shares) : Json := .str (Hex.renderNat s.toNat)

end Shares

end Restake
