import Mathlib

/-! Finite maps with a key order, and byte strings.

A map is an extensional ordered tree: two maps with the same bindings are equal,
and `keys` lists the keys in ascending order. The three lookup lemmas say what an
update leaves at a key in terms of equality of keys instead of a comparison. -/
namespace Wjetcd

/-- A finite map; equal when all lookups are. -/
abbrev GoMap (K V : Type) [Ord K] := Std.ExtTreeMap K V compare

/-- A string, which is any sequence of bytes. -/
abbrev Bytes := List UInt8

/-- The bytes of a text. -/
def ascii (s : String) : Bytes := s.toList.map fun c => c.toNat.toUInt8

/-- The decimal text of an integer. -/
def decimal (n : Int) : Bytes := ascii (toString n)

namespace GoMap
variable {K V : Type} [Ord K] [Std.TransOrd K] [Std.LawfulEqOrd K] [DecidableEq K]

@[simp] theorem get_insert (m : GoMap K V) (k a : K) (v : V) :
    (m.insert k v)[a]? = if k = a then some v else m[a]? := by
  rw [Std.ExtTreeMap.getElem?_insert]
  simp only [Std.compare_eq_iff_eq]

@[simp] theorem get_erase (m : GoMap K V) (k a : K) :
    (m.erase k)[a]? = if k = a then none else m[a]? := by
  rw [Std.ExtTreeMap.getElem?_erase]
  simp only [Std.compare_eq_iff_eq]

@[simp] theorem get_modify (m : GoMap K V) (k a : K) (f : V → V) :
    (m.modify k f)[a]? = if k = a then m[k]?.map f else m[a]? := by
  rw [Std.ExtTreeMap.getElem?_modify]
  simp only [Std.compare_eq_iff_eq]

/-- Taking out what is not there changes nothing. -/
theorem erase_absent {m : GoMap K V} {k : K} (h : m[k]? = none) : m.erase k = m := by
  refine Std.ExtTreeMap.ext_getElem? fun a => ?_
  rw [get_erase]
  split
  · rename_i heq
    rw [← heq, h]
  · rfl

omit [DecidableEq K] in
theorem mem_keys_iff (m : GoMap K V) (k : K) : k ∈ m.keys ↔ ∃ v, m[k]? = some v := by
  rw [Std.ExtTreeMap.mem_keys, Std.ExtTreeMap.mem_iff_isSome_getElem?, Option.isSome_iff_exists]

omit [Std.LawfulEqOrd K] [DecidableEq K] in
/-- Taking out what is there leaves one pair less. -/
theorem size_erase {m : GoMap K V} {k : K} {v : V} (h : m[k]? = some v) : (m.erase k).size + 1 = m.size := by
  have hmem : k ∈ m := by
    rw [Std.ExtTreeMap.mem_iff_isSome_getElem?, h]
    rfl
  have hpos : m.size ≠ 0 := by
    intro hzero
    rw [Std.ExtTreeMap.eq_empty_iff_size_eq_zero.mpr hzero, Std.ExtTreeMap.getElem?_empty] at h
    cases h
  rw [Std.ExtTreeMap.size_erase, if_pos (Std.ExtTreeMap.mem_iff_contains.mp hmem)]
  omega

/-- Pairs with different keys, inserted one after the other. -/
theorem get_foldl_insert (l : List (K × V)) (hnodup : (l.map Prod.fst).Nodup) (m : GoMap K V) :
    (∀ k v, (k, v) ∈ l → (l.foldl (fun m pair => m.insert pair.1 pair.2) m)[k]? = some v) ∧
      ∀ k, k ∉ l.map Prod.fst → (l.foldl (fun m pair => m.insert pair.1 pair.2) m)[k]? = m[k]? := by
  induction l generalizing m with
  | nil => simp
  | cons pair rest ih =>
    obtain ⟨hnew, hrest⟩ := List.nodup_cons.mp hnodup
    obtain ⟨hmem, hother⟩ := ih hrest (m.insert pair.1 pair.2)
    refine ⟨?_, ?_⟩
    · intro k v h
      rcases List.mem_cons.mp h with rfl | h
      · rw [List.foldl_cons, hother _ hnew, get_insert, if_pos rfl]
      · exact hmem k v h
    · intro k h
      rw [List.map_cons, List.mem_cons, not_or] at h
      rw [List.foldl_cons, hother k h.2, get_insert, if_neg (Ne.symm h.1)]

/-- A map is what its pairs make of the empty map. -/
theorem foldl_insert_toList (m : GoMap K V) :
    m.toList.foldl (fun m pair => m.insert pair.1 pair.2) (∅ : GoMap K V) = m := by
  have hnodup : (m.toList.map Prod.fst).Nodup := by
    rw [Std.ExtTreeMap.map_fst_toList_eq_keys]
    exact Std.ExtTreeMap.nodup_keys
  obtain ⟨hmem, hother⟩ := get_foldl_insert m.toList hnodup ∅
  refine Std.ExtTreeMap.ext_getElem? ?_
  intro k
  cases hk : m[k]? with
  | some v => exact hmem k v (Std.ExtTreeMap.mem_toList_iff_getElem?_eq_some.mpr hk)
  | none =>
    rw [hother k, Std.ExtTreeMap.getElem?_empty]
    rw [Std.ExtTreeMap.map_fst_toList_eq_keys, mem_keys_iff, hk]
    simp

end GoMap
end Wjetcd
