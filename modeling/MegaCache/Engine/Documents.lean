import MegaCache.Engine.Types
import MegaCache.Lib.JsonLoads

/-!
# Values that an engine stores

Bytes are stored as they are, and so is a text; any other value is dumped to JSON and loaded
again.
-/

namespace MegaCache

/-- A cached value as the encoder tells them apart: bytes, or anything that JSON can
carry. -/
inductive SnapshotValue
  | bytes (data : List UInt8)
  | json (data : Json)

def secondsDocument : Option ℚ → Json
  | none => .null
  | some x => .float x

section

variable (floats : Json.FloatText)

/-- `_snapshot_value` -/
def snapshotDocument : SnapshotValue → Option SnapshotValue
  | .bytes data => some (.bytes data)
  | .json (.str s) => some (.json (.str s))
  | .json data => (Json.loads floats (Json.utf8 (Json.dumps floats.repr data))).map .json

/-- The bytes that `_entry_size` counts for a value. -/
def documentBytes : SnapshotValue → ℕ
  | .bytes data => data.length
  | .json (.str s) => s.utf8ByteSize
  | .json data => (Json.utf8 (Json.dumps floats.repr data)).length

/-- The objects of a value are in order. -/
def SnapshotValue.Ordered : SnapshotValue → Prop
  | .bytes _ => True
  | .json data => data.Ordered

variable {floats}

theorem snapshotDocument_ordered {v w : SnapshotValue} (h : snapshotDocument floats v = some w) :
    w.Ordered := by
  unfold snapshotDocument at h
  split at h
  · rw [← Option.some.inj h]
    trivial
  · rw [← Option.some.inj h]
    trivial
  · obtain ⟨data, hdata, rfl⟩ := Option.map_eq_some_iff.mp h
    exact Json.loads_ordered hdata

theorem snapshotDocument_of_ordered {v : SnapshotValue} (h : v.Ordered) :
    snapshotDocument floats v = some v := by
  unfold snapshotDocument
  split
  · rfl
  · rfl
  · exact congrArg (Option.map SnapshotValue.json) (Json.loads_dumps h)

variable (floats)

/-- The codec of an engine for such values. -/
def documentCodec : Codec SnapshotValue where
  snapshotValue := snapshotDocument floats
  valueBytes v := some (documentBytes floats v)
  snapshotValue_idem h := snapshotDocument_of_ordered (snapshotDocument_ordered h)

end
end MegaCache
