import Mathlib

/-! Maps that keep every version of a value.

A multi-version map gives each key a list of versions, oldest first, and a version a
stamp. `asOf` reads a key at a stamp. `Extends` says how such a map has grown: by the
versions of a log, in the order of the log, which have increasing stamps above what was
there before. Growth composes, it leaves alone what can be read at the old stamps, and the
log can be told from the maps (`Extends.log_unique`). -/
namespace Wjetcd.Versions

variable {K V R : Type} [LinearOrder R]

/-! ### Reading at a stamp -/

section Reading
variable (stamp : V → R)

/-- The last version whose stamp is not after `r`. -/
def asOf (versions : List V) (r : R) : Option V := versions.reverse.find? fun v => decide (stamp v ≤ r)

/-- Later versions cannot be seen. -/
theorem asOf_append {versions later : List V} {r : R} (h : ∀ v ∈ later, r < stamp v) :
    asOf stamp (versions ++ later) r = asOf stamp versions r := by
  have hnone : later.reverse.find? (fun v => decide (stamp v ≤ r)) = none := by
    rw [List.find?_eq_none]
    intro v hv
    simpa using h v (List.mem_reverse.mp hv)
  rw [asOf, List.reverse_append, List.find?_append, hnone, Option.none_or]
  rfl

/-- At the end of time the last version is seen. -/
theorem asOf_all {versions : List V} {r : R} (h : ∀ v ∈ versions, stamp v ≤ r) :
    asOf stamp versions r = versions.getLast? := by
  rw [asOf, List.getLast?_eq_head?_reverse]
  cases hrev : versions.reverse with
  | nil => rfl
  | cons v rest =>
    have hv : stamp v ≤ r := h v (List.mem_reverse.mp (by rw [hrev]; exact List.mem_cons_self))
    simp [hv]

end Reading

/-! ### Logs of versions -/

variable [DecidableEq K]

/-- The versions of one key in a log of all. -/
def ofKey (log : List (K × V)) (key : K) : List V :=
  log.filterMap fun p => if p.1 = key then some p.2 else none

@[simp] theorem ofKey_nil (key : K) : ofKey ([] : List (K × V)) key = [] := rfl

theorem ofKey_append (a b : List (K × V)) (key : K) : ofKey (a ++ b) key = ofKey a key ++ ofKey b key :=
  List.filterMap_append

theorem mem_ofKey {log : List (K × V)} {key : K} {v : V} : v ∈ ofKey log key ↔ (key, v) ∈ log := by
  rw [ofKey, List.mem_filterMap]
  constructor
  · intro h
    obtain ⟨⟨k, w⟩, hmem, heq⟩ := h
    split at heq
    · rename_i hk
      cases heq
      rw [← hk]
      exact hmem
    · cases heq
  · intro h
    exact ⟨(key, v), h, if_pos rfl⟩

/-- Stamps increase along the log. -/
def Ordered (stamp : V → R) (log : List (K × V)) : Prop :=
  log.Pairwise fun p q => stamp p.2 < stamp q.2

section Ordered
variable {stamp : V → R} {log log' : List (K × V)}

theorem Ordered.ofKey (h : Ordered stamp log) (key : K) :
    (ofKey log key).Pairwise fun v w => stamp v < stamp w := by
  refine List.Pairwise.filterMap _ ?_ h
  intro p q hlt v hv w hw
  split at hv
  · split at hw
    · cases hv
      cases hw
      exact hlt
    · cases hw
  · cases hv

omit [DecidableEq K] in
/-- A stamp is used once. -/
theorem Ordered.unique (h : Ordered stamp log) {p q : K × V} (hp : p ∈ log) (hq : q ∈ log)
    (heq : stamp p.2 = stamp q.2) : p = q := by
  have hnodup : (log.map fun p => stamp p.2).Nodup :=
    List.pairwise_map.mpr (List.Pairwise.imp ne_of_lt h)
  exact List.inj_on_of_nodup_map hnodup hp hq heq

omit [DecidableEq K] in
theorem Ordered.nodup (h : Ordered stamp log) : log.Nodup := by
  refine List.Pairwise.imp ?_ h
  intro p q hlt heq
  rw [heq] at hlt
  exact lt_irrefl _ hlt

/-- A log in order is told by what it holds for each key. -/
theorem Ordered.ext (h : Ordered stamp log) (h' : Ordered stamp log')
    (hkeys : ∀ key, Versions.ofKey log key = Versions.ofKey log' key) : log = log' := by
  have hperm : log.Perm log' := by
    rw [List.perm_ext_iff_of_nodup h.nodup h'.nodup]
    intro p
    rw [← mem_ofKey, ← mem_ofKey, hkeys]
  refine hperm.eq_of_pairwise ?_ h h'
  intro p q _ _ hlt hgt
  exact absurd hgt (lt_asymm hlt)

end Ordered

/-! ### Growth -/

/-- A map has grown by the versions of `log`, whose stamps lie after `lo` and not after
`hi`. -/
structure Extends (stamp : V → R) (before after : K → List V) (lo hi : R) (log : List (K × V)) : Prop where
  grown : ∀ key, after key = before key ++ ofKey log key
  ordered : Ordered stamp log
  within : ∀ p ∈ log, lo < stamp p.2 ∧ stamp p.2 ≤ hi
  le : lo ≤ hi

namespace Extends
variable {stamp : V → R} {before mid after : K → List V} {lo m hi : R} {log log' : List (K × V)}

theorem refl (stamp : V → R) (map : K → List V) (r : R) : Extends stamp map map r r [] where
  grown := by simp
  ordered := List.Pairwise.nil
  within := nofun
  le := le_rfl

/-- One version more. -/
theorem single (key : K) (v : V) (hgrown : ∀ k, after k = if key = k then before k ++ [v] else before k)
    (hlo : lo < stamp v) (hhi : stamp v ≤ hi) : Extends stamp before after lo hi [(key, v)] where
  grown := by
    intro k
    rw [hgrown, ofKey]
    by_cases hk : key = k
    · simp [hk]
    · simp [hk]
  ordered := List.pairwise_singleton _ _
  within := by
    intro p hp
    rw [List.mem_singleton.mp hp]
    exact ⟨hlo, hhi⟩
  le := hlo.le.trans hhi

theorem trans (h : Extends stamp before mid lo m log) (h' : Extends stamp mid after m hi log') :
    Extends stamp before after lo hi (log ++ log') where
  grown := by
    intro key
    rw [h'.grown, h.grown, ofKey_append, List.append_assoc]
  ordered := by
    refine List.pairwise_append.mpr ⟨h.ordered, h'.ordered, ?_⟩
    intro p hp q hq
    exact (h.within p hp).2.trans_lt (h'.within q hq).1
  within := by
    intro p hp
    rcases List.mem_append.mp hp with hp | hp
    · exact ⟨(h.within p hp).1, (h.within p hp).2.trans h'.le⟩
    · exact ⟨h.le.trans_lt (h'.within p hp).1, (h'.within p hp).2⟩
  le := h.le.trans h'.le

/-- What was read at an old stamp still is. -/
theorem asOf_eq (h : Extends stamp before after lo hi log) (key : K) {r : R} (hr : r ≤ lo) :
    asOf stamp (after key) r = asOf stamp (before key) r := by
  rw [h.grown]
  apply asOf_append
  intro v hv
  exact hr.trans_lt (h.within _ (mem_ofKey.mp hv)).1

/-- The log is told by the maps. -/
theorem log_unique (h : Extends stamp before after lo hi log) (hlog : Ordered stamp log')
    (hgrown : ∀ key, after key = before key ++ ofKey log' key) : log' = log := by
  refine hlog.ext h.ordered ?_
  intro key
  exact List.append_cancel_left ((hgrown key).symm.trans (h.grown key))

section Whole
-- a map that was empty at first
variable (h : Extends stamp (fun _ => []) after lo hi log)
include h

theorem mem_log {key : K} {v : V} (hv : v ∈ after key) : (key, v) ∈ log := by
  rw [h.grown] at hv
  exact mem_ofKey.mp hv

theorem le_hi {key : K} {v : V} (hv : v ∈ after key) : stamp v ≤ hi := (h.within _ (h.mem_log hv)).2

/-- Each key's versions have increasing stamps. -/
theorem increasing (key : K) : (after key).Pairwise fun v w => stamp v < stamp w := by
  rw [h.grown]
  exact h.ordered.ofKey key

/-- No two versions of the map have one stamp. -/
theorem distinct {key key' : K} {i j : Nat} {v w : V} (hv : (after key)[i]? = some v)
    (hw : (after key')[j]? = some w) (heq : stamp v = stamp w) : key = key' ∧ i = j := by
  have hp := h.mem_log (List.mem_of_getElem? hv)
  have hq := h.mem_log (List.mem_of_getElem? hw)
  obtain ⟨rfl, rfl⟩ := Prod.mk.inj (h.ordered.unique hp hq heq)
  have hnodup : (after key).Nodup := by
    refine List.Pairwise.imp ?_ (h.increasing key)
    intro a b hlt hab
    rw [hab] at hlt
    exact lt_irrefl _ hlt
  obtain ⟨hi, hvi⟩ := List.getElem?_eq_some_iff.mp hv
  obtain ⟨hj, hvj⟩ := List.getElem?_eq_some_iff.mp hw
  exact ⟨rfl, hnodup.getElem_inj_iff.mp (hvi.trans hvj.symm)⟩

end Whole

end Extends

end Wjetcd.Versions
