import Wjetcd.Lib.JsonReader
import Wjetcd.Server.Wire
import Wjetcd.Storage.Wal

/-! The records of the journal, as commands.

`WriteEntry` marshals a command, `decodeEntries` unmarshals every line into an empty
interface, and `commandFromValue` makes a command of what it finds there. So a command
takes the way through JSON once, and what comes back is `wire` of it. That is the
command itself exactly if its strings are UTF-8 and its integers fit in a float64
(`journal_round_trip`). -/
namespace Wjetcd

/-- A value as it is in an empty interface. -/
def Value.ofScalar : Json.Scalar → Value
  | .string s => .string s
  | .number n => .float64 (Float64.round n)
  | .bool b => .bool b

theorem CommandType.toInt_ofInt (n : Int) : (ofInt n).toInt = n := by
  unfold ofInt
  repeat' split
  all_goals first | rfl | exact Eq.symm ‹_›

namespace Command

/-- The object of these members; the last one of a name counts. -/
def unmarshalled (members : List (Bytes × Json.Scalar)) : GoMap Bytes Value :=
  members.foldl (fun m member => m.insert member.1 (Value.ofScalar member.2)) ∅

/-- `commandFromValue` of a line; `none` if it is not the text of a flat object. -/
def ofRecord (text : Bytes) : Option Command :=
  (Json.readObject text).map fun members => ofMap (unmarshalled members)

def scalars (cmd : Command) : List (Bytes × Json.Scalar) :=
  [(ascii "Type", .number cmd.type.toInt), (ascii "Key", .string cmd.key),
    (ascii "Value", .string cmd.value), (ascii "LeaseID", .number cmd.leaseID),
    (ascii "TTL", .number cmd.ttl), (ascii "ExpireAt", .number cmd.expireAt),
    (ascii "Revision", .number cmd.revision), (ascii "Tombstone", .bool cmd.tombstone),
    (ascii "ExpectedRev", .number cmd.expectedRev), (ascii "Prefix", .string cmd.keyPrefix)]

/-- **A record is read back** as the command that has been through JSON. -/
theorem ofRecord_text (cmd : Command) : ofRecord cmd.text = some cmd.wire := by
  have hnames : ∀ field ∈ cmd.scalars, ∀ b ∈ field.1, Json.Plain b ∧ b < 0x80 := by
    have hall : ∀ name ∈ cmd.scalars.map Prod.fst,
        (name.all fun b => decide ((0x20 ≤ b ∧ b ≠ 0x22 ∧ b ≠ 0x5C) ∧ b < 0x80)) = true := by
      simp only [scalars, List.map_cons, List.map_nil, List.forall_mem_cons]
      decide
    intro field hfield b hb
    have hplain : (0x20 ≤ b ∧ b ≠ 0x22 ∧ b ≠ 0x5C) ∧ b < 0x80 :=
      of_decide_eq_true (List.all_eq_true.mp (hall field.1 (List.mem_map_of_mem hfield)) b hb)
    exact hplain
  have hread := @Json.readObject_object cmd.scalars (List.cons_ne_nil _ _) hnames
  have htext : Json.object (Json.written cmd.scalars) = cmd.text := rfl
  unfold ofRecord
  rw [← htext, hread]
  rfl

/-- What comes through JSON unchanged. -/
theorem wire_eq_iff (cmd : Command) :
    cmd.wire = cmd ↔ Float64.Exact cmd.type.toInt ∧ Utf8.valid cmd.key = true ∧
      Utf8.valid cmd.value = true ∧ Utf8.valid cmd.keyPrefix = true ∧ Float64.Exact cmd.leaseID ∧
      Float64.Exact cmd.ttl ∧ Float64.Exact cmd.expireAt ∧ Float64.Exact cmd.revision ∧
      Float64.Exact cmd.expectedRev := by
  have htype : CommandType.ofInt (Float64.through cmd.type.toInt) = cmd.type ↔
      Float64.Exact cmd.type.toInt := by
    constructor
    · intro h
      have hback := congrArg CommandType.toInt h
      rwa [CommandType.toInt_ofInt] at hback
    · intro h
      rw [show Float64.through cmd.type.toInt = cmd.type.toInt from h, CommandType.ofInt_toInt]
  rw [wire_eq]
  obtain ⟨type, key, value, leaseID, ttl, expireAt, revision, tombstone, expectedRev, keyPrefix⟩ := cmd
  simp only [Command.mk.injEq, Utf8.coerce_eq_iff] at htype ⊢
  rw [htype]
  unfold Float64.Exact
  tauto

end Command

/-- **What is journaled is read back.** Whatever commands are written one after the other, the
reader gives back each of them as it comes through JSON. It gives back the commands
themselves exactly if all their strings are UTF-8 and all their integers fit in a float64. -/
theorem Wal.journal_round_trip (cmds : List Command) :
    readEntries Command.ofRecord (cmds.foldl writeEntry []) = some (cmds.map fun cmd => some cmd.wire) ∧
      (readEntries Command.ofRecord (cmds.foldl writeEntry []) = some (cmds.map some) ↔
        ∀ cmd ∈ cmds, Float64.Exact cmd.type.toInt ∧ Utf8.valid cmd.key = true ∧
          Utf8.valid cmd.value = true ∧ Utf8.valid cmd.keyPrefix = true ∧ Float64.Exact cmd.leaseID ∧
          Float64.Exact cmd.ttl ∧ Float64.Exact cmd.expireAt ∧ Float64.Exact cmd.revision ∧
          Float64.Exact cmd.expectedRev) := by
  have hread : readEntries Command.ofRecord (cmds.foldl writeEntry []) =
      some (cmds.map fun cmd => some cmd.wire) := by
    rw [foldl_writeEntry, List.nil_append, readEntries_records]
    simp only [Command.ofRecord_text]
  refine ⟨hread, ?_⟩
  rw [hread, Option.some.injEq, List.map_inj_left]
  simp only [Option.some.injEq, Command.wire_eq_iff]

end Wjetcd
