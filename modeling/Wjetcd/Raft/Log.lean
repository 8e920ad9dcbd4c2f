import Mathlib.Data.List.Basic
import Wjetcd.Lib.Width

/-! The replicated log of `raft/log.go`.

`Entries` holds the entries from `FirstLogIndex` to `LastLogIndex`; indices are
0-based and a fresh log ends at -1. The two bounds are stored beside the slice,
so nothing in the type ties them to its length: `Indexed` is the shape in which
they agree and nothing has been compacted. A Go panic (a nil entry
dereferenced, a slice expression out of range) is `none`. The results of integer
operations are wrapped to the width of an `int`. -/
namespace Wjetcd

structure Entry (C : Type) where
  term : Int
  command : C
deriving Repr, DecidableEq

structure Log (C : Type) where
  entries : List (Entry C)
  firstLogIndex : Int
  lastLogIndex : Int
deriving Repr, DecidableEq

namespace Log
variable {C : Type}

def newLog : Log C := ⟨[], 0, -1⟩

def getRealIndex [Width] (log : Log C) (index : Int) : Int := wrap (index - log.firstLogIndex)

/-- The entry at an index, nil outside the slice. -/
def getOneEntry [Width] (log : Log C) (index : Int) : Option (Entry C) :=
  let realIdx := log.getRealIndex index
  if realIdx < 0 ∨ realIdx ≥ log.entries.length then none else log.entries[realIdx.toNat]?

/-- `Entries[:k]`, out of range below zero and past the end. -/
def slice (log : Log C) (k : Int) : Option (List (Entry C)) :=
  if 0 ≤ k ∧ k ≤ log.entries.length then some (log.entries.take k.toNat) else none

def appendL [Width] (log : Log C) (newEntries : List (Entry C)) : Option (Log C) :=
  (log.slice (wrap (log.getRealIndex log.lastLogIndex + 1))).map fun kept =>
    {log with
      entries := kept ++ newEntries
      lastLogIndex := wrap (log.lastLogIndex + newEntries.length)}

def empty (log : Log C) : Bool := log.firstLogIndex > log.lastLogIndex

/-- The entries from `start` on, with both ends clamped to the slice. -/
def getAppendEntries [Width] (log : Log C) (start : Int) : List (Entry C) :=
  if log.firstLogIndex > log.lastLogIndex then []
  else if start > log.lastLogIndex then []
  else
    let startIdx := if log.getRealIndex start < 0 then 0 else log.getRealIndex start
    let endIdx :=
      if log.getRealIndex log.lastLogIndex ≥ log.entries.length then (log.entries.length : Int) - 1
      else log.getRealIndex log.lastLogIndex
    if startIdx > endIdx then []
    else (log.entries.take (wrap (endIdx + 1)).toNat).drop startIdx.toNat

/-- One turn of the loop in `handleAppendEntriesRPC`: put `entry` at `idx`, cutting
the log there if it holds an entry of another term. -/
def overwrite [Width] (log : Log C) (idx : Int) (entry : Entry C) : Option (Log C) :=
  if idx < log.firstLogIndex then some log
  else if idx ≤ log.lastLogIndex then
    match log.getOneEntry idx with
    | none => none
    | some held =>
      if held.term ≠ entry.term then
        (log.slice (log.getRealIndex idx)).map fun kept =>
          {log with entries := kept ++ [entry], lastLogIndex := wrap (wrap (idx - 1) + 1)}
      else some log
  else some {log with entries := log.entries ++ [entry], lastLogIndex := wrap (log.lastLogIndex + 1)}

/-- The whole loop, from the index before the first entry. The flag says whether it
ran to its end; a panic leaves the log as the turns before it made it. -/
def overwriteFrom [Width] (log : Log C) (idx : Int) : List (Entry C) → Log C × Bool
  | [] => (log, true)
  | entry :: rest =>
    match log.overwrite (wrap (idx + 1)) entry with
    | none => (log, false)
    | some log' => log'.overwriteFrom (wrap (idx + 1)) rest

/-! ### The first index -/

section First
variable [Width]

theorem appendL_first {log log' : Log C} {entries : List (Entry C)} (h : log.appendL entries = some log') :
    log'.firstLogIndex = log.firstLogIndex := by
  obtain ⟨kept, _, rfl⟩ := Option.map_eq_some_iff.mp h
  rfl

theorem overwrite_first {log log' : Log C} {idx : Int} {entry : Entry C}
    (h : log.overwrite idx entry = some log') : log'.firstLogIndex = log.firstLogIndex := by
  unfold overwrite at h
  split at h
  · cases h
    rfl
  · split at h
    · split at h
      · cases h
      · split at h
        · obtain ⟨kept, _, rfl⟩ := Option.map_eq_some_iff.mp h
          rfl
        · cases h
          rfl
    · cases h
      rfl

theorem overwriteFrom_first (entries : List (Entry C)) : ∀ (log : Log C) (idx : Int),
    (log.overwriteFrom idx entries).1.firstLogIndex = log.firstLogIndex := by
  induction entries with
  | nil =>
    intro log idx
    rfl
  | cons entry rest ih =>
    intro log idx
    rw [overwriteFrom]
    cases hlog : log.overwrite (wrap (idx + 1)) entry with
    | none => rfl
    | some log' => exact (ih log' (wrap (idx + 1))).trans (overwrite_first hlog)

end First

/-! ### The uncompacted shape -/

/-- Nothing compacted, and the last index is the one the slice has. -/
structure Indexed (log : Log C) : Prop where
  first : log.firstLogIndex = 0
  last : log.lastLogIndex = log.entries.length - 1

theorem newLog_indexed : (newLog : Log C).Indexed := ⟨rfl, rfl⟩

/-- In that shape an index is a position of the slice. -/
theorem Indexed.getOneEntry_nat {log : Log C} (h : log.Indexed) (k : Nat) :
    log.getOneEntry k = log.entries[k]? := by
  simp only [getOneEntry, getRealIndex, Width.wrap_unbounded, h.first, Int.sub_zero, Int.toNat_natCast]
  by_cases hk : k < log.entries.length
  · rw [if_neg (by omega)]
  · rw [if_pos (by omega)]
    exact (List.getElem?_eq_none (by omega)).symm

theorem Indexed.getOneEntry_neg {log : Log C} (h : log.Indexed) {i : Int} (hi : i < 0) :
    log.getOneEntry i = none := by
  simp only [getOneEntry, getRealIndex, Width.wrap_unbounded, h.first, Int.sub_zero]
  rw [if_pos (Or.inl hi)]

/-- From a position on, everything to the end. -/
theorem Indexed.getAppendEntries_nat {log : Log C} (h : log.Indexed) (k : Nat) :
    log.getAppendEntries k = log.entries.drop k := by
  unfold getAppendEntries getRealIndex
  simp only [Width.wrap_unbounded, h.first, h.last]
  by_cases hk : k < log.entries.length
  · have h1 : ¬(0 : Int) > log.entries.length - 1 := by omega
    have h2 : ¬(k : Int) > log.entries.length - 1 := by omega
    have h3 : ¬(k : Int) - 0 < 0 := by omega
    have h4 : ¬(log.entries.length : Int) - 1 - 0 ≥ log.entries.length := by omega
    have h5 : ¬(k : Int) - 0 > log.entries.length - 1 - 0 := by omega
    simp only [h1, h2, h3, h4, h5, if_false]
    have hend : ((log.entries.length : Int) - 1 - 0 + 1).toNat = log.entries.length := by omega
    have hstart : ((k : Int) - 0).toNat = k := by omega
    rw [hend, hstart, List.take_length]
  · have hdrop : log.entries.drop k = [] := List.drop_eq_nil_of_le (by omega)
    have h2 : (k : Int) > log.entries.length - 1 := by omega
    simp only [h2, if_true, hdrop, ite_self]

/-- An entry past the end is appended. -/
theorem Indexed.overwrite_end {log : Log C} (h : log.Indexed) (entry : Entry C) :
    log.overwrite log.entries.length entry =
      some {log with entries := log.entries ++ [entry], lastLogIndex := log.lastLogIndex + 1} := by
  unfold overwrite
  rw [h.first, h.last]
  have h1 : ¬(log.entries.length : Int) < 0 := by omega
  have h2 : ¬(log.entries.length : Int) ≤ log.entries.length - 1 := by omega
  simp only [h1, h2, if_false, Width.wrap_unbounded]

/-- An entry of the term already there changes nothing. -/
theorem Indexed.overwrite_same {log : Log C} (h : log.Indexed) {k : Nat} {held entry : Entry C}
    (hk : log.entries[k]? = some held) (ht : held.term = entry.term) :
    log.overwrite k entry = some log := by
  have hlt : k < log.entries.length := (List.getElem?_eq_some_iff.mp hk).1
  unfold overwrite
  rw [h.getOneEntry_nat, hk, h.first, h.last]
  have h1 : ¬(k : Int) < 0 := by omega
  have h2 : (k : Int) ≤ log.entries.length - 1 := by omega
  simp only [h1, h2, if_false, if_true, ne_eq, ht, not_true]

/-- An entry of another term cuts the log and takes the place. -/
theorem Indexed.overwrite_conflict {log : Log C} (h : log.Indexed) {k : Nat} {held entry : Entry C}
    (hk : log.entries[k]? = some held) (ht : held.term ≠ entry.term) :
    log.overwrite k entry =
      some {log with entries := log.entries.take k ++ [entry], lastLogIndex := k} := by
  have hlt : k < log.entries.length := (List.getElem?_eq_some_iff.mp hk).1
  have hslice : log.slice (log.getRealIndex k) = some (log.entries.take k) := by
    simp only [slice, getRealIndex, Width.wrap_unbounded, h.first, Int.sub_zero, Int.toNat_natCast]
    rw [if_pos (by omega)]
  unfold overwrite
  rw [h.getOneEntry_nat, hk, hslice, h.first, h.last]
  have h1 : ¬(k : Int) < 0 := by omega
  have h2 : (k : Int) ≤ log.entries.length - 1 := by omega
  simp [h1, h2, ht]

/-- The loop body never panics on an uncompacted log, and keeps it uncompacted. -/
theorem Indexed.overwrite_indexed {log log' : Log C} (h : log.Indexed) {k : Nat} {entry : Entry C}
    (hk : k ≤ log.entries.length) (ho : log.overwrite k entry = some log') : log'.Indexed := by
  rcases Nat.lt_or_eq_of_le hk with hlt | heq
  · obtain ⟨held, hheld⟩ : ∃ held, log.entries[k]? = some held :=
      ⟨log.entries[k], List.getElem?_eq_getElem hlt⟩
    by_cases ht : held.term = entry.term
    · rw [h.overwrite_same hheld ht] at ho
      cases ho
      exact h
    · rw [h.overwrite_conflict hheld ht] at ho
      cases ho
      refine ⟨h.first, ?_⟩
      simp only [List.length_append, List.length_take, List.length_cons, List.length_nil]
      omega
  · rw [heq, h.overwrite_end] at ho
    cases ho
    refine ⟨h.first, ?_⟩
    simp only [List.length_append, List.length_cons, List.length_nil, h.last]
    omega

end Log
end Wjetcd
