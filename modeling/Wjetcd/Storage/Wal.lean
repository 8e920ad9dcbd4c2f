import Wjetcd.Lib.Json
import Wjetcd.Lib.Text
import Wjetcd.Kv.Command

/-! The journal of `storage/wal.go`, byte by byte.

A record is a line: the command as JSON, and a newline. The reader drops what
follows the last newline, takes the rest apart and parses every line. The file is
opened for appending, so what a crash has left of a record stays in it, and the
next record continues that line. `torn_journal` says that this is fatal exactly if
something was left and something is written after it. As long as nothing is,
`journal_prefix` says what is read of a file that ends anywhere. Truncation takes the
file apart by a rule of its own, under which a torn record is a line like the others:
`truncate_drops_iff` says when it drops what it should.

`decode` is what `json.Unmarshal` makes of a text that it finds valid. -/
namespace Wjetcd

/-- The members `json.Marshal` writes for a command, in the order of the struct. -/
def Command.fields (cmd : Command) : List (Bytes × Bytes) :=
  [(ascii "Type", decimal cmd.type.toInt), (ascii "Key", Json.quote cmd.key),
    (ascii "Value", Json.quote cmd.value), (ascii "LeaseID", decimal cmd.leaseID),
    (ascii "TTL", decimal cmd.ttl), (ascii "ExpireAt", decimal cmd.expireAt),
    (ascii "Revision", decimal cmd.revision), (ascii "Tombstone", Json.bool cmd.tombstone),
    (ascii "ExpectedRev", decimal cmd.expectedRev), (ascii "Prefix", Json.quote cmd.keyPrefix)]

def Command.text (cmd : Command) : Bytes := Json.object cmd.fields

namespace Wal
open Text

def newline : UInt8 := 0x0A

/-- What `WriteEntry` appends. -/
def line (cmd : Command) : Bytes := cmd.text ++ [newline]

def writeEntry (data : Bytes) (cmd : Command) : Bytes := data ++ line cmd

section Reader
variable {α : Type} (decode : Bytes → α)

def unmarshal (text : Bytes) : Option α :=
  if Json.checkValid text then some (decode text) else none

/-- The loop over the lines; an error in one of them is an error. -/
def decodeLines : List Bytes → Option (List α)
  | [] => some []
  | text :: rest =>
    if text = [] then decodeLines rest
    else
      match unmarshal decode text with
      | none => none
      | some entry => (decodeLines rest).map fun entries => entry :: entries

def decodeEntries (data : Bytes) : Option (List α) :=
  -- only a line that is complete counts
  let data :=
    if data ≠ [] ∧ data.getLast? ≠ some newline then data.rdropWhile (· ≠ newline) else data
  decodeLines decode (data.splitOn newline)

def readEntries (data : Bytes) : Option (List α) := decodeEntries decode data

def readEntriesFrom (data : Bytes) (offset : Int) : Option (List α) :=
  if offset < 0 ∨ offset > data.length then none
  else if offset > 0 ∧ data[offset.toNat - 1]? ≠ some newline then none
  else decodeEntries decode (data.drop offset.toNat)

end Reader

/-! ### Records -/

theorem text_fields (cmd : Command) : Json.Fields cmd.fields := by
  have hnames : ∀ name ∈ cmd.fields.map Prod.fst,
      (name.all fun b => decide (0x20 ≤ b ∧ b ≠ 0x22 ∧ b ≠ 0x5C)) = true := by
    simp only [Command.fields, List.map_cons, List.map_nil, List.forall_mem_cons]
    decide
  intro field hfield
  refine ⟨fun b hb => ?_, ?_⟩
  · have hall := hnames field.1 (List.mem_map_of_mem hfield)
    have hplain : 0x20 ≤ b ∧ b ≠ 0x22 ∧ b ≠ 0x5C :=
      of_decide_eq_true (List.all_eq_true.mp hall b hb)
    exact hplain
  · simp only [Command.fields, List.mem_cons, List.not_mem_nil, or_false] at hfield
    rcases hfield with rfl | rfl | rfl | rfl | rfl | rfl | rfl | rfl | rfl | rfl <;>
      first | exact Json.decimal_isValue _ | exact Json.quote_isValue _ | exact Json.bool_isValue _

theorem text_valid (cmd : Command) : Json.checkValid cmd.text = true :=
  Json.checkValid_object (text_fields cmd) (by simp [Command.fields])

/-- A record is one line. -/
theorem newline_not_mem_text (cmd : Command) : newline ∉ cmd.text := by
  have hprintable : Json.Printable cmd.text := by
    refine Json.object_printable fun field hfield => ⟨?_, ?_⟩
    · intro b hb
      exact ((text_fields cmd field hfield).1 b hb).1
    · simp only [Command.fields, List.mem_cons, List.not_mem_nil, or_false] at hfield
      rcases hfield with rfl | rfl | rfl | rfl | rfl | rfl | rfl | rfl | rfl | rfl <;>
        first
          | exact Json.decimal_printable _ | exact Json.quote_printable _
          | exact Json.bool_printable _
  intro hmem
  exact absurd (hprintable newline hmem) (by decide)

/-- Appending record after record. -/
theorem foldl_writeEntry (cmds : List Command) (data : Bytes) :
    cmds.foldl writeEntry data = data ++ cmds.flatMap line := by
  induction cmds generalizing data with
  | nil => simp
  | cons cmd rest ih =>
    rw [List.foldl_cons, ih, writeEntry, List.flatMap_cons, List.append_assoc]

/-- The records as a text of lines. -/
theorem records_unlines (cmds : List Command) :
    cmds.flatMap line = unlines newline (cmds.map Command.text) := by
  rw [unlines, List.flatMap_map]
  rfl

theorem texts_separate (cmds : List Command) : Separate newline (cmds.map Command.text) := by
  intro text htext
  obtain ⟨cmd, _, rfl⟩ := List.mem_map.mp htext
  exact newline_not_mem_text cmd

section Reading
variable {α : Type} (decode : Bytes → α)

theorem decodeLines_append (a b : List Bytes) :
    decodeLines decode (a ++ b) =
      (decodeLines decode a).bind fun first => (decodeLines decode b).map fun later => first ++ later := by
  induction a with
  | nil =>
    show decodeLines decode b = (decodeLines decode b).map fun later => [] ++ later
    simp
  | cons text a ih =>
    rw [List.cons_append, decodeLines, decodeLines]
    by_cases htext : text = []
    · rw [if_pos htext, if_pos htext, ih]
    · rw [if_neg htext, if_neg htext]
      cases unmarshal decode text with
      | none => rfl
      | some entry =>
        dsimp only
        rw [ih]
        cases decodeLines decode a <;> cases decodeLines decode b <;> rfl

theorem decodeLines_valid {texts : List Bytes} (h : ∀ text ∈ texts, Json.checkValid text = true) :
    decodeLines decode texts = some (texts.map decode) := by
  induction texts with
  | nil => rfl
  | cons text rest ih =>
    have htext := h text List.mem_cons_self
    have hne : text ≠ [] := by
      rintro rfl
      exact absurd htext (by decide)
    rw [decodeLines, if_neg hne, unmarshal, if_pos htext,
      ih fun other hother => h other (List.mem_cons_of_mem _ hother)]
    rfl

/-- The reader reads the complete lines; what follows the last of them is not read. -/
theorem decodeEntries_unlines {texts : List Bytes} (h : Separate newline texts) {torn : Bytes}
    (htorn : newline ∉ torn) :
    decodeEntries decode (unlines newline texts ++ torn) = decodeLines decode texts := by
  have hread : decodeLines decode ((unlines newline texts).splitOn newline) = decodeLines decode texts := by
    have hsplit := splitOn_unlines h []
    rw [List.append_nil] at hsplit
    rw [hsplit, decodeLines_append]
    have hend : decodeLines decode (List.splitOn newline []) = some [] := rfl
    rw [hend]
    cases decodeLines decode texts <;> simp
  unfold decodeEntries
  dsimp only
  split
  · rw [rdropWhile_unlines texts htorn]
    exact hread
  · rename_i hdata
    -- nothing is torn
    have hnil : torn = [] := by
      by_contra hne
      refine hdata ⟨by simp [hne], fun hlast => htorn ?_⟩
      rw [List.getLast?_append_of_ne_nil _ hne] at hlast
      exact List.mem_of_getLast? hlast
    rw [hnil, List.append_nil]
    exact hread

theorem readEntries_unlines {texts : List Bytes} (h : Separate newline texts) :
    readEntries decode (unlines newline texts) = decodeLines decode texts := by
  have hread := @decodeEntries_unlines α decode texts h [] (by simp)
  rwa [List.append_nil] at hread

theorem decodeLines_records (cmds : List Command) :
    decodeLines decode (cmds.map Command.text) = some (cmds.map fun cmd => decode cmd.text) := by
  rw [decodeLines_valid decode, List.map_map]
  · rfl
  · intro text htext
    obtain ⟨cmd, _, rfl⟩ := List.mem_map.mp htext
    exact text_valid cmd

/-- What follows the last complete record is not read. -/
theorem decodeEntries_records (cmds : List Command) {torn : Bytes} (h : newline ∉ torn) :
    decodeEntries decode (cmds.flatMap line ++ torn) = some (cmds.map fun cmd => decode cmd.text) := by
  rw [records_unlines, decodeEntries_unlines decode (texts_separate cmds) h, decodeLines_records]

theorem readEntries_records (cmds : List Command) :
    readEntries decode (cmds.flatMap line) = some (cmds.map fun cmd => decode cmd.text) := by
  rw [records_unlines, readEntries_unlines decode (texts_separate cmds), decodeLines_records]

/-- The end of a record is an offset to read from; what follows the last one is not read. -/
theorem readEntriesFrom_torn (a b : List Command) {torn : Bytes} (h : newline ∉ torn) :
    readEntriesFrom decode ((a ++ b).flatMap line ++ torn) (a.flatMap line).length =
      some (b.map fun cmd => decode cmd.text) := by
  rw [List.flatMap_append, List.append_assoc]
  generalize hbytes : a.flatMap line = bytes
  have hboundary : ¬((bytes.length : Int) > 0 ∧
      (bytes ++ (b.flatMap line ++ torn))[(bytes.length : Int).toNat - 1]? ≠ some newline) := by
    rintro ⟨hpos, hne⟩
    rcases getLast_unlines (a.map Command.text) with hnil | hlast
    · rw [← hbytes, records_unlines, hnil] at hpos
      simp at hpos
    · rw [← records_unlines, hbytes, List.getLast?_eq_getElem?] at hlast
      refine hne ?_
      rw [Int.toNat_natCast, List.getElem?_append_left (by omega)]
      exact hlast
  have hinside : ¬((bytes.length : Int) < 0 ∨
      (bytes.length : Int) > (bytes ++ (b.flatMap line ++ torn)).length) := by
    simp only [List.length_append]
    omega
  rw [readEntriesFrom, if_neg hinside, if_neg hboundary, Int.toNat_natCast, List.drop_left]
  exact decodeEntries_records decode b h

theorem readEntriesFrom_records (a b : List Command) :
    readEntriesFrom decode ((a ++ b).flatMap line) (a.flatMap line).length =
      some (b.map fun cmd => decode cmd.text) := by
  have hread := @readEntriesFrom_torn α decode a b [] (by simp)
  rwa [List.append_nil] at hread

/-- The beginning of a record, without its newline. -/
theorem take_line (cmd : Command) (n : Fin (line cmd).length) :
    (line cmd).take n = cmd.text.take n := by
  have hlen : (line cmd).length = cmd.text.length + 1 := by simp [line]
  exact List.take_append_of_le_length (by have := n.isLt; omega)

/-- A record that continues the line of a torn one makes the journal unreadable. -/
theorem decodeEntries_torn (a : List Command) (torn : Bytes) (b : Command) (rest : List Command)
    (h : newline ∉ torn) :
    decodeEntries decode (a.flatMap line ++ (0x7B :: torn ++ (b :: rest).flatMap line)) = none := by
  have hinvalid : Json.checkValid (0x7B :: torn ++ b.text) = false :=
    @Json.checkValid_torn torn 0x54 [0x79, 0x70, 0x65] _ _ (text_fields b) (by unfold Json.Letter; decide)
  have hline : newline ∉ 0x7B :: torn ++ b.text := by
    intro hmem
    rcases List.mem_append.mp hmem with hmem | hmem
    · rcases List.mem_cons.mp hmem with heq | hmem
      · exact absurd heq (by decide)
      · exact h hmem
    · exact newline_not_mem_text b hmem
  have hfile : a.flatMap line ++ (0x7B :: torn ++ (b :: rest).flatMap line) =
      unlines newline (a.map Command.text ++ (0x7B :: torn ++ b.text) :: rest.map Command.text) := by
    rw [records_unlines, records_unlines, List.map_cons, unlines_cons, unlines_append, unlines_cons]
    simp only [List.append_assoc]
  have hread := readEntries_unlines decode
    ((texts_separate a).append ((texts_separate rest).cons hline))
  rw [decodeLines_append, decodeLines_records, decodeLines, if_neg (by simp), unmarshal, hinvalid] at hread
  rw [hfile]
  exact hread

end Reading

/-- **A torn record is harmless exactly if nothing of it reached the file, or nothing
is written after it.** The crash has cut the record after `n` bytes. -/
theorem torn_journal {α : Type} (decode : Bytes → α) (a : List Command) (cmd : Command)
    (n : Fin (line cmd).length) (b : List Command) :
    readEntries decode (b.foldl writeEntry (a.foldl writeEntry [] ++ (line cmd).take n)) =
        some ((a ++ b).map fun cmd => decode cmd.text) ↔ (n : Nat) = 0 ∨ b = [] := by
  have hclean : newline ∉ (line cmd).take n := by
    rw [take_line]
    exact fun hmem => newline_not_mem_text cmd (List.mem_of_mem_take hmem)
  rw [foldl_writeEntry, foldl_writeEntry, List.nil_append]
  constructor
  · intro hread
    by_contra hne
    rw [not_or] at hne
    obtain ⟨first, rest, rfl⟩ := List.exists_cons_of_ne_nil hne.2
    -- the torn part starts with the brace of its object
    have htorn : (line cmd).take n = 0x7B :: (cmd.text.drop 1).take (n - 1) := by
      rw [take_line]
      obtain ⟨k, hk⟩ := Nat.exists_eq_succ_of_ne_zero hne.1
      rw [hk]
      rfl
    rw [htorn] at hread hclean
    rw [List.append_assoc, readEntries,
      decodeEntries_torn decode a _ first rest fun hmem => hclean (List.mem_cons_of_mem _ hmem)] at hread
    cases hread
  · rintro (hn | rfl)
    · rw [hn, List.take_zero, List.append_nil, ← List.flatMap_append]
      exact readEntries_records decode (a ++ b)
    · rw [List.flatMap_nil, List.append_nil, List.append_nil]
      exact decodeEntries_records decode a hclean

/-- After one byte of a put, one more put: the journal cannot be read any more. -/
theorem torn_put_unreadable :
    ¬∀ (a : List Command) (cmd : Command) (n : Fin (line cmd).length) (b : List Command),
      readEntries id (b.foldl writeEntry (a.foldl writeEntry [] ++ (line cmd).take n)) =
        some ((a ++ b).map fun cmd => cmd.text) := by
  intro h
  have hread := h [] (Command.ofType .put) ⟨1, by decide +kernel⟩ [Command.ofType .put]
  revert hread
  decide +kernel

/-! ### Prefixes -/

/-- Cut at any byte, a list of records is the records that end before the cut, and a rest
without a newline. -/
theorem take_records (cmds : List Command) (n : Nat) : ∃ k torn, k ≤ cmds.length ∧
    (cmds.flatMap line).take n = (cmds.take k).flatMap line ++ torn ∧ newline ∉ torn ∧
      ∀ i < cmds.length, i < k ↔ ((cmds.take (i + 1)).flatMap line).length ≤ n := by
  simp only [records_unlines, List.map_take]
  have htake := take_unlines (texts_separate cmds) n
  rwa [List.length_map] at htake

/-- A newline is the end of a record. -/
theorem newline_boundary (cmds : List Command) {torn : Bytes} (h : newline ∉ torn) (i : Nat)
    (hi : (cmds.flatMap line ++ torn)[i]? = some newline) :
    ∃ j, j ≤ cmds.length ∧ i + 1 = ((cmds.take j).flatMap line).length := by
  simp only [records_unlines, List.map_take] at hi ⊢
  have hend := sep_boundary (texts_separate cmds) h i hi
  rwa [List.length_map] at hend

/-- **Every prefix of the journal reads as its complete records.** Cut after `n` bytes, at or after
the end of the records `a`, the file has from there on those records of `b` that end within the `n`
bytes. An offset is an error exactly if it is out of range, or neither 0 nor right after a
newline. -/
theorem journal_prefix {α : Type} (decode : Bytes → α) (a b : List Command) (n : Nat)
    (hn : (a.foldl writeEntry []).length ≤ n) :
    (∃ k, k ≤ b.length ∧
      readEntriesFrom decode (((a ++ b).foldl writeEntry []).take n) (a.foldl writeEntry []).length =
        some ((b.take k).map fun cmd => decode cmd.text) ∧
      ∀ i < b.length, i < k ↔ ((a ++ b.take (i + 1)).foldl writeEntry []).length ≤ n) ∧
    ∀ offset : Int, readEntriesFrom decode (((a ++ b).foldl writeEntry []).take n) offset = none ↔
      offset < 0 ∨ offset > (((a ++ b).foldl writeEntry []).take n).length ∨
        (offset > 0 ∧ (((a ++ b).foldl writeEntry []).take n)[offset.toNat - 1]? ≠ some newline) := by
  simp only [foldl_writeEntry, List.nil_append] at hn ⊢
  obtain ⟨k, torn, hk, htake, hclean, hends⟩ := take_records b (n - (a.flatMap line).length)
  have hfile : ((a ++ b).flatMap line).take n = (a ++ b.take k).flatMap line ++ torn := by
    rw [List.flatMap_append, List.take_append, List.take_of_length_le hn, htake, List.flatMap_append,
      List.append_assoc]
  rw [hfile]
  refine ⟨⟨k, hk, readEntriesFrom_torn decode a (b.take k) hclean, ?_⟩, ?_⟩
  · intro i hi
    rw [hends i hi, List.flatMap_append, List.length_append]
    omega
  · intro offset
    constructor
    · intro hnone
      by_contra hgood
      push Not at hgood
      obtain ⟨hnonneg, hinside, hboundary⟩ := hgood
      -- the offset is the end of some record
      obtain ⟨j, hj, hoffset⟩ : ∃ j, j ≤ (a ++ b.take k).length ∧
          offset = (((a ++ b.take k).take j).flatMap line).length := by
        by_cases hpos : offset > 0
        · obtain ⟨j, hj, hend⟩ := newline_boundary (a ++ b.take k) hclean _ (hboundary hpos)
          exact ⟨j, hj, by omega⟩
        · exact ⟨0, Nat.zero_le _, by simp; omega⟩
      have hread := readEntriesFrom_torn decode ((a ++ b.take k).take j) ((a ++ b.take k).drop j) hclean
      rw [List.take_append_drop, ← hoffset, hnone] at hread
      cases hread
    · intro hbad
      unfold readEntriesFrom
      rcases hbad with h | h | h
      · rw [if_pos (Or.inl h)]
      · rw [if_pos (Or.inr h)]
      · rw [if_pos h, ite_self]

/-- Three records without the last newline, read from the second on: only that one is read. -/
theorem journal_prefix_put :
    readEntriesFrom id
        (([Command.ofType .delete, Command.ofType .put, Command.ofType .get].foldl writeEntry []).take
          (([Command.ofType .delete, Command.ofType .put, Command.ofType .get].foldl writeEntry []).length - 1))
        ([Command.ofType .delete].foldl writeEntry []).length =
      some [(Command.ofType .put).text] := by
  obtain ⟨⟨k, _, hread, hends⟩, _⟩ := journal_prefix id [Command.ofType .delete]
    [Command.ofType .put, Command.ofType .get]
    (([Command.ofType .delete, Command.ofType .put, Command.ofType .get].foldl writeEntry []).length - 1)
    (by decide +kernel)
  have hfirst : 0 < k := (hends 0 (by decide)).mpr (by decide +kernel)
  have hsecond : ¬1 < k := fun hlt => absurd ((hends 1 (by decide)).mp hlt) (by decide +kernel)
  have hone : k = 1 := by omega
  rw [hone] at hread
  exact hread

/-! ### Truncation -/

/-- The contents of the file after a `Truncate` that succeeds. -/
def truncate (data : Bytes) (index : Int) : Bytes :=
  if index ≤ 0 then data
  else
    let lines := data.splitOn newline
    -- an empty last line is what follows a newline at the end
    let lines := if lines.getLast? = some [] then lines.dropLast else lines
    if index ≥ lines.length then []
    else [newline].intercalate (lines.drop index.toNat) ++ [newline]

/-- `ReadEntries` where the decoder may refuse a valid text, as `json.Unmarshal` refuses a number
that is too large for a float; that is an error, too. -/
def readEntriesChecked {α : Type} (decode : Bytes → Option α) (data : Bytes) : Option (List α) :=
  (readEntries decode data).bind fun entries => entries.mapM id

/-- A line that can be read, and its entry. -/
structure Record {α : Type} (decode : Bytes → Option α) where
  text : Bytes
  entry : α
  line : newline ∉ text
  valid : Json.checkValid text = true
  decodes : decode text = some entry

/-- What `WriteEntry` appends is a record, if the decoder does not refuse it. -/
def Record.ofCommand {α : Type} (decode : Bytes → Option α) (cmd : Command) (entry : α)
    (h : decode cmd.text = some entry) : Record decode where
  text := cmd.text
  entry := entry
  line := newline_not_mem_text cmd
  valid := text_valid cmd
  decodes := h

/-- The lines of `Truncate` that nothing has ended: none, or the fragment. -/
def unended (fragment : Bytes) : List Bytes := if fragment = [] then [] else [fragment]

/-- Truncation counts the fragment as a line, and ends it. -/
theorem truncate_unlines {texts : List Bytes} (h : Separate newline texts) {fragment : Bytes}
    (hfragment : newline ∉ fragment) {k : Nat} (hk : 0 < k) :
    truncate (unlines newline texts ++ fragment) k =
      unlines newline ((texts ++ unended fragment).drop k) := by
  have hlines : (if (texts ++ [fragment]).getLast? = some [] then (texts ++ [fragment]).dropLast
      else texts ++ [fragment]) = texts ++ unended fragment := by
    rw [List.getLast?_concat, List.dropLast_concat, unended]
    by_cases hnil : fragment = []
    · rw [if_pos (by rw [hnil]), if_pos hnil, List.append_nil]
    · rw [if_neg (by simpa using hnil), if_neg hnil]
  rw [truncate, if_neg (by omega), splitOn_unlines h, splitOn_rest hfragment]
  dsimp only
  rw [hlines, Int.toNat_natCast]
  by_cases hall : (texts ++ unended fragment).length ≤ k
  · rw [if_pos (by omega), List.drop_of_length_le hall, unlines_nil]
  · rw [if_neg (by omega)]
    refine intercalate_unlines fun hnil => hall ?_
    exact List.drop_eq_nil_iff.mp hnil

section Truncating
variable {α : Type} {decode : Bytes → Option α}

/-- The file: the records, and what nothing has ended. -/
def journal (records : List (Record decode)) (fragment : Bytes) : Bytes :=
  unlines newline (records.map Record.text) ++ fragment

theorem Record.separate (records : List (Record decode)) :
    Separate newline (records.map Record.text) := by
  intro text htext
  obtain ⟨record, _, rfl⟩ := List.mem_map.mp htext
  exact record.line

theorem Record.decodeLines (records : List (Record decode)) :
    Wal.decodeLines decode (records.map Record.text) =
      some ((records.map Record.entry).map some) := by
  rw [decodeLines_valid decode, List.map_map, List.map_map]
  · exact congrArg some (List.map_congr_left fun record _ => record.decodes)
  · intro text htext
    obtain ⟨record, _, rfl⟩ := List.mem_map.mp htext
    exact record.valid

theorem mapM_some (entries : List α) : (entries.map some).mapM id = some entries := by
  induction entries with
  | nil => rfl
  | cons entry rest ih =>
    rw [List.map_cons, List.mapM_cons, ih]
    rfl

/-- The file as it is: the fragment is not read. -/
theorem readEntriesChecked_journal (records : List (Record decode)) {fragment : Bytes}
    (h : newline ∉ fragment) :
    readEntriesChecked decode (journal records fragment) = some (records.map Record.entry) := by
  rw [readEntriesChecked, readEntries, journal, decodeEntries_unlines decode (Record.separate records) h,
    Record.decodeLines, Option.bind_some, mapM_some]

/-- Records, and other complete lines after them. -/
theorem readEntriesChecked_lines (records : List (Record decode)) {lines : List Bytes}
    (h : Separate newline lines) :
    readEntriesChecked decode (unlines newline (records.map Record.text ++ lines)) =
      ((decodeLines decode lines).bind fun entries => entries.mapM id).map fun entries =>
        records.map Record.entry ++ entries := by
  rw [readEntriesChecked, readEntries_unlines decode ((Record.separate records).append h),
    decodeLines_append, Record.decodeLines, Option.bind_some]
  cases decodeLines decode lines with
  | none => rfl
  | some entries =>
    rw [Option.map_some, Option.bind_some, Option.bind_some, List.mapM_append, mapM_some]
    cases entries.mapM id <;> rfl

/-- What is read after a truncation: if it has kept the fragment, this is a line now. -/
theorem readEntriesChecked_truncate (records : List (Record decode)) {fragment : Bytes}
    (h : newline ∉ fragment) {k : Nat} (hk : 0 < k) :
    readEntriesChecked decode (truncate (journal records fragment) k) =
      if fragment = [] ∨ records.length < k then some ((records.map Record.entry).drop k)
      else (unmarshal decode fragment).join.map fun entry =>
        (records.map Record.entry).drop k ++ [entry] := by
  rw [journal, truncate_unlines (Record.separate records) h hk, List.drop_append, List.length_map,
    ← List.map_drop, ← List.map_drop]
  by_cases hgone : fragment = [] ∨ records.length < k
  · have hunended : (unended fragment).drop (k - records.length) = [] := by
      rw [unended]
      rcases hgone with hnil | hlt
      · rw [if_pos hnil, List.drop_nil]
      · refine List.drop_of_length_le ?_
        split
        · exact Nat.zero_le _
        · rw [List.length_singleton]
          omega
    rw [hunended, readEntriesChecked_lines _ Separate.nil, if_pos hgone]
    show some ((records.drop k).map Record.entry ++ []) = _
    rw [List.append_nil]
  · obtain ⟨hne, hle⟩ := not_or.mp hgone
    have hunended : (unended fragment).drop (k - records.length) = [fragment] := by
      rw [unended, if_neg hne, Nat.sub_eq_zero_of_le (not_lt.mp hle), List.drop_zero]
    rw [hunended, readEntriesChecked_lines _ (Separate.nil.cons h), if_neg hgone, decodeLines, if_neg hne]
    cases unmarshal decode fragment with
    | none => rfl
    | some entry => cases entry <;> rfl

end Truncating

/-- **Truncation drops the first entries and nothing else exactly if there is no fragment, nothing is
to be dropped, or more than there is.** Otherwise the fragment, which was not read before, is a line
afterwards: one more entry, or an error. -/
theorem truncate_drops_iff {α : Type} (decode : Bytes → Option α) (records : List (Record decode))
    (fragment : Bytes) (h : newline ∉ fragment) (k : Nat) :
    readEntriesChecked decode (journal records fragment) = some (records.map Record.entry) ∧
    (readEntriesChecked decode (truncate (journal records fragment) k) =
        some ((records.map Record.entry).drop k) ↔
      fragment = [] ∨ k = 0 ∨ records.length < k) ∧
    (¬(fragment = [] ∨ k = 0 ∨ records.length < k) →
      readEntriesChecked decode (truncate (journal records fragment) k) =
        (unmarshal decode fragment).join.map fun entry =>
          (records.map Record.entry).drop k ++ [entry]) := by
  have hbefore := readEntriesChecked_journal records h
  refine ⟨hbefore, ?_⟩
  rcases Nat.eq_zero_or_pos k with rfl | hk
  · have hsame : truncate (journal records fragment) (0 : Nat) = journal records fragment :=
      if_pos (le_refl _)
    rw [hsame, hbefore, List.drop_zero]
    simp
  · rw [readEntriesChecked_truncate records h hk]
    have hzero : k ≠ 0 := by omega
    simp only [hzero, false_or]
    by_cases hgone : fragment = [] ∨ records.length < k
    · simp [hgone]
    · refine ⟨⟨fun hread => ?_, fun hdropped => absurd hdropped hgone⟩, fun _ => if_neg hgone⟩
      rw [if_neg hgone] at hread
      obtain ⟨entry, _, hentries⟩ := Option.map_eq_some_iff.mp hread
      exact absurd hentries (by simp)

/-- Nothing torn: of two records the first one is dropped. -/
theorem truncate_drops_put :
    readEntriesChecked some
        (truncate (journal [Record.ofCommand some (Command.ofType .put) _ rfl,
          Record.ofCommand some (Command.ofType .get) _ rfl] []) (1 : Nat)) =
      some [(Command.ofType .get).text] :=
  (truncate_drops_iff some [Record.ofCommand some (Command.ofType .put) _ rfl,
    Record.ofCommand some (Command.ofType .get) _ rfl] [] (by simp) 1).2.1.mpr (Or.inl rfl)

/-- After a put, one byte of the next record: with the put dropped the journal is an error, not
empty. -/
theorem truncate_torn_put :
    ¬∀ (records : List (Record (some : Bytes → Option Bytes))) (fragment : Bytes) (k : Nat),
      newline ∉ fragment → readEntriesChecked some (truncate (journal records fragment) k) =
        some ((records.map Record.entry).drop k) := by
  intro h
  have hread := h [Record.ofCommand some (Command.ofType .put) _ rfl] [0x7B] 1 (by decide)
  revert hread
  decide +kernel

end Wal
end Wjetcd
