import Wjetcd.Kv.Store

/-! `DeletePrefix` against `KeysWithPrefix`.

A key stays in the store's map when it is deleted, with a tombstone as its latest version.
`KeysWithPrefix` looks at that version; `DeletePrefix` takes every key of the map. So a key that
was deleted before gets another tombstone, is counted in the answer and uses up a revision
(`deletePrefix_live_iff`). -/
namespace Wjetcd.KVStore

/-- The latest version is not a tombstone. -/
def live (kv : KVStore) (key : Bytes) : Bool :=
  match (kv.versions key).getLast? with
  | none => false
  | some latest => !latest.tombstone

/-- The live keys under a prefix, in the order in which the map happens to be iterated. -/
def keysWithPrefix (kv : KVStore) (order : List Bytes → List Bytes) (keyPrefix : Bytes) : List Bytes :=
  (order kv.data.keys).filter fun key => hasPrefix key keyPrefix && kv.live key

/-! ### What the loop leaves -/

theorem deleteKey_data (kv : KVStore) (key k : Bytes) :
    (kv.deleteKey key).data[k]? =
      if key = k then some (kv.versions key ++ [⟨kv.currentRev + 1, [], true⟩]) else kv.data[k]? :=
  GoMap.get_insert ..

theorem deleteKey_versions (kv : KVStore) (key k : Bytes) :
    (kv.deleteKey key).versions k =
      if key = k then kv.versions k ++ [⟨kv.currentRev + 1, [], true⟩] else kv.versions k := by
  unfold versions
  rw [deleteKey_data]
  split
  · rename_i hk
    subst hk
    rfl
  · rfl

/-- One tombstone on each key of the list. -/
theorem deleteKeys_versions (keys : List Bytes) : ∀ kv : KVStore, keys.Nodup → ∀ key,
    (key ∈ keys → ∃ rev, (keys.foldl deleteKey kv).versions key = kv.versions key ++ [⟨rev, [], true⟩]) ∧
    (key ∉ keys → (keys.foldl deleteKey kv).versions key = kv.versions key) := by
  induction keys with
  | nil =>
    intro kv _ key
    exact ⟨nofun, fun _ => rfl⟩
  | cons k rest ih =>
    intro kv hnodup key
    obtain ⟨hnew, hrest⟩ := List.nodup_cons.mp hnodup
    obtain ⟨hin, hout⟩ := ih (kv.deleteKey k) hrest key
    rw [List.foldl_cons]
    by_cases hk : k = key
    · subst hk
      refine ⟨fun _ => ⟨kv.currentRev + 1, ?_⟩, fun hnot => absurd List.mem_cons_self hnot⟩
      rw [hout hnew, deleteKey_versions, if_pos rfl]
    · rw [deleteKey_versions, if_neg hk] at hin hout
      rw [List.mem_cons, or_iff_right (Ne.symm hk)]
      exact ⟨hin, hout⟩

/-- No key comes or goes. -/
theorem deleteKeys_present (keys : List Bytes) : ∀ kv : KVStore, (∀ k ∈ keys, (kv.data[k]?).isSome) →
    ∀ key : Bytes, ((keys.foldl deleteKey kv).data[key]?).isSome = (kv.data[key]?).isSome := by
  have hone : ∀ (kv : KVStore) (k : Bytes), (kv.data[k]?).isSome → ∀ key : Bytes,
      ((kv.deleteKey k).data[key]?).isSome = (kv.data[key]?).isSome := by
    intro kv k hk key
    rw [deleteKey_data]
    split
    · rename_i heq
      subst heq
      rw [hk]
      rfl
    · rfl
  induction keys with
  | nil =>
    intro kv _ key
    rfl
  | cons k rest ih =>
    intro kv hkeys key
    have hk := hkeys k List.mem_cons_self
    rw [List.foldl_cons, ih (kv.deleteKey k) ?_ key, hone kv k hk key]
    intro j hj
    rw [hone kv k hk j]
    exact hkeys j (List.mem_cons_of_mem _ hj)

section Prefix
variable (kv : KVStore) (keyPrefix : Bytes)

theorem mem_keys (key : Bytes) : key ∈ kv.data.keys ↔ (kv.data[key]?).isSome := by
  rw [Std.ExtTreeMap.mem_keys, Std.ExtTreeMap.mem_iff_isSome_getElem?]

theorem mem_deletePrefix (key : Bytes) :
    key ∈ (kv.deletePrefix keyPrefix).2 ↔ (kv.data[key]?).isSome ∧ hasPrefix key keyPrefix := by
  show key ∈ kv.data.keys.filter _ ↔ _
  rw [List.mem_filter, mem_keys]

theorem deletePrefix_ascending :
    (kv.deletePrefix keyPrefix).2.Pairwise fun a b => compare a b = .lt :=
  Std.ExtTreeMap.ordered_keys.filter _

theorem deletePrefix_nodup : (kv.deletePrefix keyPrefix).2.Nodup :=
  Std.ExtTreeMap.nodup_keys.filter _

/-- A key that is not in the map has no version, so it is not live. -/
theorem present_of_live {key : Bytes} (h : kv.live key = true) : (kv.data[key]?).isSome = true := by
  by_contra habsent
  rw [Option.not_isSome_iff_eq_none] at habsent
  simp [live, versions, habsent] at h

theorem deletePrefix_versions (key : Bytes) :
    ((kv.data[key]?).isSome ∧ hasPrefix key keyPrefix →
      ∃ rev, (kv.deletePrefix keyPrefix).1.versions key = kv.versions key ++ [⟨rev, [], true⟩]) ∧
    (¬((kv.data[key]?).isSome ∧ hasPrefix key keyPrefix) →
      (kv.deletePrefix keyPrefix).1.versions key = kv.versions key) := by
  rw [← mem_deletePrefix]
  exact deleteKeys_versions _ kv (kv.deletePrefix_nodup keyPrefix) key

theorem deletePrefix_present (key : Bytes) :
    ((kv.deletePrefix keyPrefix).1.data[key]?).isSome = (kv.data[key]?).isSome :=
  deleteKeys_present _ kv (fun k hk => ((kv.mem_deletePrefix keyPrefix k).mp hk).1) key

/-- Nothing under the prefix is live afterwards. -/
theorem deletePrefix_dead {key : Bytes} (hp : hasPrefix key keyPrefix = true) :
    (kv.deletePrefix keyPrefix).1.live key = false := by
  by_contra hlive
  rw [Bool.not_eq_false] at hlive
  have hpresent := present_of_live _ hlive
  rw [deletePrefix_present] at hpresent
  obtain ⟨rev, hversions⟩ := (kv.deletePrefix_versions keyPrefix key).1 ⟨hpresent, hp⟩
  simp [live, hversions] at hlive

end Prefix

/-! ### The contract -/

/-- The call deletes the keys that `KeysWithPrefix` reported, and nothing else. -/
structure DeletesLive (kv : KVStore) (keyPrefix : Bytes) : Prop where
  returns : ∀ order, (∀ keys, (order keys).Perm keys) →
    (kv.deletePrefix keyPrefix).2.Perm (kv.keysWithPrefix order keyPrefix)
  ascending : (kv.deletePrefix keyPrefix).2.Pairwise fun a b => compare a b = .lt
  tombstoned : ∀ key, hasPrefix key keyPrefix = true → kv.live key = true →
    ∃ rev, (kv.deletePrefix keyPrefix).1.versions key = kv.versions key ++ [⟨rev, [], true⟩]
  others : ∀ key, ¬(hasPrefix key keyPrefix = true ∧ kv.live key = true) →
    (kv.deletePrefix keyPrefix).1.versions key = kv.versions key
  emptied : ∀ order, (∀ keys, (order keys).Perm keys) →
    (kv.deletePrefix keyPrefix).1.keysWithPrefix order keyPrefix = []

/-- A second call finds nothing and changes nothing. -/
def DeletesOnce (kv : KVStore) (keyPrefix : Bytes) : Prop :=
  (kv.deletePrefix keyPrefix).1.deletePrefix keyPrefix = ((kv.deletePrefix keyPrefix).1, [])

section Contract
variable (kv : KVStore) (keyPrefix : Bytes)

theorem mem_keysWithPrefix {order : List Bytes → List Bytes} (hperm : ∀ keys, (order keys).Perm keys) (key : Bytes) :
    key ∈ kv.keysWithPrefix order keyPrefix ↔
      (kv.data[key]?).isSome ∧ hasPrefix key keyPrefix = true ∧ kv.live key = true := by
  rw [keysWithPrefix, List.mem_filter, (hperm _).mem_iff, mem_keys, Bool.and_eq_true]

theorem keysWithPrefix_nodup {order : List Bytes → List Bytes} (hperm : ∀ keys, (order keys).Perm keys) :
    (kv.keysWithPrefix order keyPrefix).Nodup :=
  ((hperm _).nodup_iff.mpr Std.ExtTreeMap.nodup_keys).filter _

theorem deletesLive_iff : kv.DeletesLive keyPrefix ↔
    ∀ key, (kv.data[key]?).isSome → hasPrefix key keyPrefix = true → kv.live key = true := by
  constructor
  · intro h key hpresent hp
    have hmem := (h.returns id fun keys => List.Perm.refl keys).mem_iff.mp
      ((kv.mem_deletePrefix keyPrefix key).mpr ⟨hpresent, hp⟩)
    exact ((kv.mem_keysWithPrefix keyPrefix (fun keys => List.Perm.refl keys) key).mp hmem).2.2
  · intro hall
    refine ⟨?_, kv.deletePrefix_ascending keyPrefix, ?_, ?_, ?_⟩
    · intro order hperm
      refine (List.perm_ext_iff_of_nodup (kv.deletePrefix_nodup keyPrefix)
        (kv.keysWithPrefix_nodup keyPrefix hperm)).mpr ?_
      intro key
      rw [mem_deletePrefix, kv.mem_keysWithPrefix keyPrefix hperm]
      constructor
      · rintro ⟨hpresent, hp⟩
        exact ⟨hpresent, hp, hall key hpresent hp⟩
      · rintro ⟨hpresent, hp, _⟩
        exact ⟨hpresent, hp⟩
    · intro key hp hlive
      exact (kv.deletePrefix_versions keyPrefix key).1 ⟨kv.present_of_live hlive, hp⟩
    · intro key hnot
      refine (kv.deletePrefix_versions keyPrefix key).2 ?_
      rintro ⟨hpresent, hp⟩
      exact hnot ⟨hp, hall key hpresent hp⟩
    · intro order hperm
      rw [List.eq_nil_iff_forall_not_mem]
      intro key hmem
      obtain ⟨_, hp, hlive⟩ := (mem_keysWithPrefix _ keyPrefix hperm key).mp hmem
      rw [kv.deletePrefix_dead keyPrefix hp] at hlive
      cases hlive

/-- The second call returns the same keys again. -/
theorem deletesOnce_iff : kv.DeletesOnce keyPrefix ↔
    ∀ key, (kv.data[key]?).isSome → hasPrefix key keyPrefix = false := by
  constructor
  · intro h key hpresent
    by_contra hp
    rw [Bool.not_eq_false] at hp
    have hagain : key ∈ ((kv.deletePrefix keyPrefix).1.deletePrefix keyPrefix).2 :=
      (mem_deletePrefix _ keyPrefix key).mpr ⟨(kv.deletePrefix_present keyPrefix key).trans hpresent, hp⟩
    rw [h] at hagain
    cases hagain
  · intro hnone
    have hkeys : ((kv.deletePrefix keyPrefix).1.deletePrefix keyPrefix).2 = [] := by
      rw [List.eq_nil_iff_forall_not_mem]
      intro key hmem
      obtain ⟨hpresent, hp⟩ := (mem_deletePrefix _ keyPrefix key).mp hmem
      rw [deletePrefix_present] at hpresent
      rw [hnone key hpresent] at hp
      cases hp
    have hstore : ((kv.deletePrefix keyPrefix).1.deletePrefix keyPrefix).1 =
        ((kv.deletePrefix keyPrefix).1.deletePrefix keyPrefix).2.foldl deleteKey
          (kv.deletePrefix keyPrefix).1 := rfl
    rw [hkeys] at hstore
    exact Prod.ext hstore hkeys

end Contract

/-- **`DeletePrefix` deletes exactly the live keys, exactly if the map has no dead key under the
prefix; a second call does nothing, exactly if there was no key at all.** The order of the
answer, the tombstones on live keys and that none is live afterwards are right always. -/
theorem deletePrefix_live_iff (kv : KVStore) (keyPrefix : Bytes) :
    (kv.DeletesLive keyPrefix ↔
      ∀ key, (kv.data[key]?).isSome → hasPrefix key keyPrefix = true → kv.live key = true) ∧
    (kv.DeletesOnce keyPrefix ↔ ∀ key, (kv.data[key]?).isSome → hasPrefix key keyPrefix = false) :=
  ⟨kv.deletesLive_iff keyPrefix, kv.deletesOnce_iff keyPrefix⟩

/-- What a sequence of commands makes of an empty store. -/
def ofCommands (cmds : List Command) : KVStore := cmds.foldl (fun kv cmd => (kv.apply cmd).1) newKVStore

/-- A key that is written and deleted is deleted once more with its prefix; a key that is only
written is found by the second call. -/
theorem dead_key_deleted :
    (¬∀ cmds keyPrefix, (ofCommands cmds).DeletesLive keyPrefix) ∧
      ¬∀ cmds keyPrefix, (ofCommands cmds).DeletesOnce keyPrefix := by
  constructor
  · intro h
    have hperm := (h [{Command.ofType .put with key := ascii "a"}, {Command.ofType .delete with key := ascii "a"}]
      (ascii "a")).returns id fun keys => List.Perm.refl keys
    exact absurd hperm.length_eq (by decide)
  · intro h
    have honce := h [{Command.ofType .put with key := ascii "a"}] (ascii "a")
    exact absurd (congrArg Prod.snd honce) (by decide)

end Wjetcd.KVStore
