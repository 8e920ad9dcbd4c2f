import Wjetcd.Lib.Utf8
import Wjetcd.Lib.Float64
import Wjetcd.Kv.Command

/-! Commands as JSON.

The leader applies the command it was given; everybody else, and recovery, gets it
as a JSON object decoded into `map[string]interface{}`. There every number is a
float and every string has been through the encoder, which keeps only valid
UTF-8. `wire` is the command that comes out when the converters put it together
again. -/
namespace Wjetcd

/-- A JSON value as `encoding/json` decodes it into an empty interface; the numbers
of a command are integers. -/
inductive Value where
  | bool (b : Bool)
  | float64 (x : Int)
  | string (s : Bytes)
  /-- Null, an array or an object. -/
  | other
deriving Repr, DecidableEq

namespace Value

def toString : Option Value → Bytes
  | some (.string s) => s
  | _ => []

def toInt64 : Option Value → Int
  | some (.float64 x) => Float64.toInt64 x
  | _ => 0

/-- An `int` has 64 bits as well. -/
def toInt : Option Value → Int
  | some (.float64 x) => Float64.toInt64 x
  | _ => 0

def toBool : Option Value → Bool
  | some (.bool b) => b
  | some (.float64 x) => x != 0
  | _ => false

end Value

namespace Command

/-- The object `json.Marshal` writes for a command, as it is read back. -/
def marshalled (cmd : Command) : GoMap Bytes Value :=
  ((((((((((∅ : GoMap Bytes Value).insert (ascii "Type") (.float64 (Float64.round cmd.type.toInt))).insert
    (ascii "Key") (.string (Utf8.coerce cmd.key))).insert
    (ascii "Value") (.string (Utf8.coerce cmd.value))).insert
    (ascii "LeaseID") (.float64 (Float64.round cmd.leaseID))).insert
    (ascii "TTL") (.float64 (Float64.round cmd.ttl))).insert
    (ascii "ExpireAt") (.float64 (Float64.round cmd.expireAt))).insert
    (ascii "Revision") (.float64 (Float64.round cmd.revision))).insert
    (ascii "Tombstone") (.bool cmd.tombstone)).insert
    (ascii "ExpectedRev") (.float64 (Float64.round cmd.expectedRev))).insert
    (ascii "Prefix") (.string (Utf8.coerce cmd.keyPrefix))

/-- The conversion in `applyLoop` and, word for word, in `commandFromValue`. -/
def ofMap (m : GoMap Bytes Value) : Command :=
  { type := CommandType.ofInt (Value.toInt m[ascii "Type"]?)
    key := Value.toString m[ascii "Key"]?
    value := Value.toString m[ascii "Value"]?
    leaseID := Value.toInt64 m[ascii "LeaseID"]?
    ttl := Value.toInt64 m[ascii "TTL"]?
    expireAt := Value.toInt64 m[ascii "ExpireAt"]?
    revision := Value.toInt64 m[ascii "Revision"]?
    tombstone := Value.toBool m[ascii "Tombstone"]?
    expectedRev := Value.toInt64 m[ascii "ExpectedRev"]?
    keyPrefix := Value.toString m[ascii "Prefix"]? }

/-- A command as a replica that did not lead receives it. -/
def wire (cmd : Command) : Command := ofMap cmd.marshalled

/-- Field by field: strings coerced, numbers through a float. -/
theorem wire_eq (cmd : Command) :
    cmd.wire =
      { type := CommandType.ofInt (Float64.through cmd.type.toInt)
        key := Utf8.coerce cmd.key
        value := Utf8.coerce cmd.value
        leaseID := Float64.through cmd.leaseID
        ttl := Float64.through cmd.ttl
        expireAt := Float64.through cmd.expireAt
        revision := Float64.through cmd.revision
        tombstone := cmd.tombstone
        expectedRev := Float64.through cmd.expectedRev
        keyPrefix := Utf8.coerce cmd.keyPrefix } := by
  simp only [wire, ofMap, marshalled, GoMap.get_insert]
  simp +decide only [if_true, if_false]
  rfl

section Fields
variable (cmd : Command)

theorem wire_key : cmd.wire.key = Utf8.coerce cmd.key := by rw [wire_eq]
theorem wire_value : cmd.wire.value = Utf8.coerce cmd.value := by rw [wire_eq]
theorem wire_leaseID : cmd.wire.leaseID = Float64.through cmd.leaseID := by rw [wire_eq]
theorem wire_ttl : cmd.wire.ttl = Float64.through cmd.ttl := by rw [wire_eq]
theorem wire_expireAt : cmd.wire.expireAt = Float64.through cmd.expireAt := by rw [wire_eq]
theorem wire_expectedRev : cmd.wire.expectedRev = Float64.through cmd.expectedRev := by
  rw [wire_eq]
theorem wire_keyPrefix : cmd.wire.keyPrefix = Utf8.coerce cmd.keyPrefix := by rw [wire_eq]

end Fields

/-- The ten types arrive as they are, and nothing else arrives as one of them. -/
theorem wire_type (cmd : Command) :
    cmd.wire.type = cmd.type ∨ (¬cmd.type.Known ∧ ¬cmd.wire.type.Known) := by
  rw [wire_eq]
  show CommandType.ofInt (Float64.through cmd.type.toInt) = cmd.type ∨ _
  cases ht : cmd.type with
  | other n hn =>
    refine Or.inr ⟨id, ?_⟩
    show ¬(CommandType.ofInt (Float64.through n)).Known
    apply CommandType.not_known_ofInt
    by_cases hsmall : -2 ^ 53 < n ∧ n < 2 ^ 53
    · rw [Float64.exact_small hsmall.1 hsmall.2]
      exact hn
    · have hlarge := @Float64.through_large n (by omega)
      omega
  | _ => exact Or.inl (by decide)

theorem wire_known {cmd : Command} (h : cmd.type.Known) : cmd.wire.type = cmd.type := by
  rcases cmd.wire_type with heq | ⟨hc, _⟩
  · exact heq
  · exact absurd h hc

end Command
end Wjetcd
