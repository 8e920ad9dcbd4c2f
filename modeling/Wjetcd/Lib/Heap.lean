import Mathlib

/-! Binary heaps in a list.

The children of the place `i` are at `2 * i + 1` and `2 * i + 2`, and no item comes before
its parent. Moving an item up or down repairs a heap that is wrong at one place. What either
loop needs of the order is a structure (`Rising`, `Sinking`): all pairs of parent and
child are in order except those at the place, and the children of the place are in order with
its parent. A move carries the structure to the place the item moves to.

`Ordered` has a lower bound: from `lo` on, all pairs are in order. Building a heap from
its end lowers the bound to zero. -/
namespace Wjetcd.Heap

variable {α K : Type}

def parent (i : Nat) : Nat := (i - 1) / 2

/-- `j` is a place in the list under `p`. -/
def Child (l : List α) (p j : Nat) : Prop := j < l.length ∧ (j = 2 * p + 1 ∨ j = 2 * p + 2)

theorem Child.lt {l : List α} {p j : Nat} (h : Child l p j) : p < j := by
  rcases h.2 with h | h <;> omega

theorem Child.inside {l : List α} {p j : Nat} (h : Child l p j) : p < l.length := h.lt.trans h.1

theorem Child.parent {l : List α} {p j : Nat} (h : Child l p j) : parent j = p := by
  unfold Heap.parent
  rcases h.2 with h | h <;> omega

theorem Child.unique {l : List α} {p q j : Nat} (h : Child l p j) (h' : Child l q j) : p = q :=
  h.parent.symm.trans h'.parent

theorem child_parent {l : List α} {j : Nat} (h : 0 < j) (hj : j < l.length) : Child l (parent j) j := by
  refine ⟨hj, ?_⟩
  unfold parent
  omega

theorem Child.of_length {l l' : List α} {p j : Nat} (h : Child l p j) (hlen : j < l'.length) :
    Child l' p j := ⟨hlen, h.2⟩

/-! ### Two items change places -/

def swap (l : List α) (i j : Nat) : List α :=
  match l[i]?, l[j]? with
  | some a, some b => (l.set i b).set j a
  | _, _ => l

theorem swap_eq {l : List α} {i j : Nat} (hi : i < l.length) (hj : j < l.length) :
    swap l i j = (l.set i l[j]).set j l[i] := by
  simp [swap, hi, hj]

theorem swap_perm (l : List α) (i j : Nat) : (swap l i j).Perm l := by
  unfold swap
  split
  · rename_i a b ha hb
    obtain ⟨hi, rfl⟩ := List.getElem?_eq_some_iff.mp ha
    obtain ⟨hj, rfl⟩ := List.getElem?_eq_some_iff.mp hb
    exact List.set_set_perm hi hj
  · exact List.Perm.refl l

section Keys
variable [Inhabited K] (key : α → K)

/-- The key at a place; outside of the list no key in particular. -/
def keyAt (l : List α) (i : Nat) : K := (l[i]?.map key).getD default

theorem keyAt_eq {l : List α} {i : Nat} (h : i < l.length) : keyAt key l i = key l[i] := by
  simp [keyAt, h]

theorem keyAt_congr {l l' : List α} {i : Nat} (h : l[i]? = l'[i]?) : keyAt key l i = keyAt key l' i := by
  rw [keyAt, keyAt, h]

theorem keyAt_swap {l : List α} {i j : Nat} (hi : i < l.length) (hj : j < l.length) (k : Nat) :
    keyAt key (swap l i j) k =
      if k = j then keyAt key l i else if k = i then keyAt key l j else keyAt key l k := by
  rw [swap_eq hi hj, keyAt, List.getElem?_set, List.getElem?_set]
  by_cases hkj : k = j
  · subst hkj
    simp [hj, keyAt_eq key hi]
  · by_cases hki : k = i
    · subst hki
      simp [Ne.symm hkj, hkj, hi, keyAt_eq key hj]
    · simp [Ne.symm hkj, hkj, Ne.symm hki, hki, keyAt]

end Keys

variable [LinearOrder K] [Inhabited K] (key : α → K)

/-! ### The operations -/

/-- Move an item up while it is before its parent. -/
def up : Nat → List α → Nat → List α
  | 0, l, _ => l
  | fuel + 1, l, i =>
    if i = 0 then l
    else if keyAt key l (parent i) ≤ keyAt key l i then l
    else up fuel (swap l i (parent i)) (parent i)

/-- The first of an item and its children. -/
def least (l : List α) (i : Nat) : Nat :=
  let first := if 2 * i + 1 < l.length ∧ keyAt key l (2 * i + 1) < keyAt key l i then 2 * i + 1 else i
  if 2 * i + 2 < l.length ∧ keyAt key l (2 * i + 2) < keyAt key l first then 2 * i + 2 else first

/-- Move an item down while a child is before it. -/
def down : Nat → List α → Nat → List α
  | 0, l, _ => l
  | fuel + 1, l, i =>
    if least key l i = i then l else down fuel (swap l i (least key l i)) (least key l i)

/-- Repair a heap whose item at `i` has changed. -/
def settle (l : List α) (i : Nat) : List α := up key i (down key l.length l i) i

/-- The last item takes the place of the one at `i`. -/
def fill (l : List α) (i : Nat) : List α :=
  (match l.getLast? with | some last => l.set i last | none => l).dropLast

def remove (l : List α) (i : Nat) : List α :=
  if i < (fill l i).length then settle key (fill l i) i else fill l i

/-- A heap from any list, the last parent first. -/
def build (l : List α) : List α :=
  (List.range (l.length / 2)).reverse.foldl (fun l i => down key l.length l i) l

/-! ### The same items -/

theorem up_perm (fuel : Nat) (l : List α) (i : Nat) : (up key fuel l i).Perm l := by
  induction fuel generalizing l i with
  | zero => exact List.Perm.refl l
  | succ fuel ih =>
    unfold up
    split
    · exact List.Perm.refl l
    · split
      · exact List.Perm.refl l
      · exact (ih _ _).trans (swap_perm l _ _)

theorem down_perm (fuel : Nat) (l : List α) (i : Nat) : (down key fuel l i).Perm l := by
  induction fuel generalizing l i with
  | zero => exact List.Perm.refl l
  | succ fuel ih =>
    unfold down
    split
    · exact List.Perm.refl l
    · exact (ih _ _).trans (swap_perm l _ _)

theorem settle_perm (l : List α) (i : Nat) : (settle key l i).Perm l :=
  (up_perm key _ _ _).trans (down_perm key _ _ _)

theorem set_perm {l : List α} {i : Nat} (h : i < l.length) (a : α) : (l.set i a).Perm (a :: l.eraseIdx i) := by
  have hlen : i < (l.set i a).length := by
    rw [List.length_set]
    exact h
  have hcons := List.getElem_cons_eraseIdx_perm hlen
  rw [List.getElem_set_self, List.eraseIdx_set_eq] at hcons
  exact hcons.symm

theorem fill_concat (front : List α) (last : α) (i : Nat) :
    fill (front ++ [last]) i = ((front ++ [last]).set i last).dropLast := by
  simp [fill]

/-- The items before the last are where they were. -/
theorem getElem?_fill {l : List α} {i k : Nat} (hk : k + 1 < l.length) (hne : k ≠ i) :
    (fill l i)[k]? = l[k]? := by
  rcases List.eq_nil_or_concat l with rfl | ⟨front, last, rfl⟩
  · simp at hk
  · rw [List.concat_eq_append] at hk ⊢
    rw [fill_concat, List.getElem?_dropLast, List.length_set, if_pos (by omega),
      List.getElem?_set_ne (Ne.symm hne)]

theorem length_fill (l : List α) (i : Nat) : (fill l i).length = l.length - 1 := by
  unfold fill
  split <;> simp

theorem fill_perm {l : List α} {i : Nat} (h : i < l.length) : (fill l i).Perm (l.eraseIdx i) := by
  rcases List.eq_nil_or_concat l with rfl | ⟨front, last, rfl⟩
  · simp at h
  rw [List.concat_eq_append] at h ⊢
  rw [fill_concat]
  by_cases hi : i < front.length
  · -- the last item is at `i`
    rw [List.set_append_left _ _ hi, List.dropLast_concat, List.eraseIdx_append_of_lt_length hi]
    exact (set_perm hi last).trans (List.perm_append_singleton last _).symm
  · -- it is the last item itself that goes
    have hlast : i = front.length := by
      rw [List.length_append, List.length_singleton] at h
      omega
    subst hlast
    rw [List.set_append_right _ _ le_rfl, List.eraseIdx_append_of_length_le le_rfl]
    simp

theorem remove_perm {l : List α} {i : Nat} (h : i < l.length) : (remove key l i).Perm (l.eraseIdx i) := by
  unfold remove
  split
  · exact (settle_perm key _ _).trans (fill_perm h)
  · exact fill_perm h

theorem build_perm (l : List α) : (build key l).Perm l := by
  have hfold : ∀ (places : List Nat) (l : List α),
      (places.foldl (fun l i => down key l.length l i) l).Perm l := by
    intro places
    induction places with
    | nil => exact List.Perm.refl
    | cons i rest ih =>
      intro l
      exact (ih _).trans (down_perm key _ _ _)
  exact hfold _ l

/-! ### Order -/

/-- From the place `lo` on no item is before its parent. -/
def Ordered (lo : Nat) (l : List α) : Prop :=
  ∀ p j, Child l p j → lo ≤ p → keyAt key l p ≤ keyAt key l j

/-- From `lo` on a heap but for the item at `i`. -/
structure Sinking (lo : Nat) (l : List α) (i : Nat) : Prop where
  others : ∀ p j, Child l p j → lo ≤ p → p ≠ i → j ≠ i → keyAt key l p ≤ keyAt key l j
  grand : ∀ p j, Child l p i → Child l i j → lo ≤ p → keyAt key l p ≤ keyAt key l j

/-- The same, with the item not before its parent. -/
structure Sunk (lo : Nat) (l : List α) (i : Nat) : Prop extends Sinking key lo l i where
  above : ∀ p, Child l p i → lo ≤ p → keyAt key l p ≤ keyAt key l i

/-- A heap but for the item at `i`, which is not after its children. -/
structure Rising (l : List α) (i : Nat) : Prop extends Sinking key 0 l i where
  below : ∀ j, Child l i j → keyAt key l i ≤ keyAt key l j

variable {key} {lo : Nat} {l : List α} {i : Nat}

/-- The root comes first. -/
theorem Ordered.root_le (h : Ordered key 0 l) (j : Nat) (hj : j < l.length) :
    keyAt key l 0 ≤ keyAt key l j := by
  induction j using Nat.strongRecOn with
  | ind j ih =>
    by_cases hj0 : j = 0
    · rw [hj0]
    · have hchild := child_parent (Nat.pos_of_ne_zero hj0) hj
      calc
        keyAt key l 0 ≤ keyAt key l (parent j) := ih (parent j) hchild.lt hchild.inside
        _ ≤ keyAt key l j := h (parent j) j hchild (Nat.zero_le _)

/-- Change the item at one place of a heap, and drop items at the end. -/
theorem Ordered.sinking (h : Ordered key lo l) {l' : List α} (hlen : l'.length ≤ l.length)
    (hsame : ∀ k, k < l'.length → k ≠ i → l'[k]? = l[k]?) : Sinking key lo l' i where
  others := by
    intro p j hc hlo hp hj
    rw [keyAt_congr key (hsame p hc.inside hp), keyAt_congr key (hsame j hc.1 hj)]
    exact h p j (hc.of_length (hc.1.trans_le hlen)) hlo
  grand := by
    intro p j hp hj hlo
    have hpi := hp.lt
    have hij := hj.lt
    rw [keyAt_congr key (hsame p hp.inside hpi.ne), keyAt_congr key (hsame j hj.1 hij.ne')]
    calc
      keyAt key l p ≤ keyAt key l i := h p i (hp.of_length (hp.1.trans_le hlen)) hlo
      _ ≤ keyAt key l j := h i j (hj.of_length (hj.1.trans_le hlen)) (hlo.trans hpi.le)

theorem Ordered.rising (h : Ordered key 0 l) (i : Nat) : Rising key l i where
  toSinking := h.sinking le_rfl fun _ _ _ => rfl
  below := fun j hj => h i j hj (Nat.zero_le _)

theorem Sunk.ordered (h : Sunk key lo l i)
    (hbelow : ∀ j, Child l i j → keyAt key l i ≤ keyAt key l j) : Ordered key lo l := by
  intro p j hc hlo
  by_cases hp : p = i
  · subst hp
    exact hbelow j hc
  · by_cases hj : j = i
    · subst hj
      exact h.above p hc hlo
    · exact h.others p j hc hlo hp hj

theorem Rising.ordered (h : Rising key l i)
    (habove : ∀ p, Child l p i → keyAt key l p ≤ keyAt key l i) : Ordered key 0 l :=
  Sunk.ordered ⟨h.toSinking, fun p hp _ => habove p hp⟩ h.below

/-! ### Down -/

/-- The place found is the item's own, with no child before it, or that of its first child. -/
theorem least_cases (key : α → K) (l : List α) (i : Nat) :
    (least key l i = i ∨ Child l i (least key l i) ∧ keyAt key l (least key l i) < keyAt key l i) ∧
      ∀ j, Child l i j → keyAt key l (least key l i) ≤ keyAt key l j := by
  have hsplit : ∀ x : K, (2 * i + 1 < l.length → x ≤ keyAt key l (2 * i + 1)) →
      (2 * i + 2 < l.length → x ≤ keyAt key l (2 * i + 2)) → ∀ j, Child l i j → x ≤ keyAt key l j := by
    intro x hleft hright j hj
    obtain ⟨hlen, rfl | rfl⟩ := hj
    · exact hleft hlen
    · exact hright hlen
  unfold least
  by_cases hleft : 2 * i + 1 < l.length ∧ keyAt key l (2 * i + 1) < keyAt key l i
  · rw [if_pos hleft]
    dsimp only
    split
    · rename_i hright
      exact ⟨Or.inr ⟨⟨hright.1, Or.inr rfl⟩, hright.2.trans hleft.2⟩,
        hsplit _ (fun _ => hright.2.le) (fun _ => le_rfl)⟩
    · rename_i hright
      exact ⟨Or.inr ⟨⟨hleft.1, Or.inl rfl⟩, hleft.2⟩,
        hsplit _ (fun _ => le_rfl) (fun hlen => not_lt.mp fun hlt => hright ⟨hlen, hlt⟩)⟩
  · have hle : 2 * i + 1 < l.length → keyAt key l i ≤ keyAt key l (2 * i + 1) :=
      fun hlen => not_lt.mp fun hlt => hleft ⟨hlen, hlt⟩
    rw [if_neg hleft]
    dsimp only
    split
    · rename_i hright
      exact ⟨Or.inr ⟨⟨hright.1, Or.inr rfl⟩, hright.2⟩,
        hsplit _ (fun hlen => hright.2.le.trans (hle hlen)) (fun _ => le_rfl)⟩
    · rename_i hright
      exact ⟨Or.inl rfl, hsplit _ hle (fun hlen => not_lt.mp fun hlt => hright ⟨hlen, hlt⟩)⟩

/-- The first child and the item change places. -/
theorem Sinking.move (h : Sinking key lo l i) {s : Nat} (hs : Child l i s)
    (hlt : keyAt key l s < keyAt key l i) (hfirst : ∀ j, Child l i j → keyAt key l s ≤ keyAt key l j) :
    Sunk key lo (swap l i s) s := by
  have hlen : (swap l i s).length = l.length := (swap_perm l i s).length_eq
  have hat := keyAt_swap key hs.inside hs.1
  have hback : ∀ p j, Child (swap l i s) p j → Child l p j :=
    fun p j hc => hc.of_length (hlen ▸ hc.1)
  have his := hs.lt
  refine ⟨⟨?_, ?_⟩, ?_⟩
  · intro p j hc hlo hp hj
    have hpj := hc.lt
    replace hc := hback p j hc
    rw [hat, hat, if_neg hp, if_neg hj]
    by_cases hpi : p = i
    · -- a sibling
      subst hpi
      rw [if_pos rfl, if_neg (by omega)]
      exact hfirst j hc
    · rw [if_neg hpi]
      by_cases hji : j = i
      · subst hji
        rw [if_pos rfl]
        exact h.grand p s hc hs hlo
      · rw [if_neg hji]
        exact h.others p j hc hlo hpi hji
  · intro p j hp hj hlo
    have hsj := hj.lt
    obtain rfl := hs.unique (hback p s hp)
    replace hj := hback s j hj
    rw [hat, hat, if_neg his.ne, if_pos rfl, if_neg hsj.ne', if_neg (by omega)]
    exact h.others s j hj (hlo.trans his.le) his.ne' (by omega)
  · intro p hp hlo
    obtain rfl := hs.unique (hback p s hp)
    rw [hat, hat, if_neg his.ne, if_pos rfl, if_pos rfl]
    exact hlt.le

/-- An item that is not before its parent sinks to where it belongs. The fuel lasts, as each
move goes further down the list. -/
theorem Sunk.down (h : Sunk key lo l i) {fuel : Nat} (hfuel : l.length ≤ fuel + i) :
    Ordered key lo (down key fuel l i) := by
  induction fuel generalizing l i with
  | zero =>
    refine h.ordered ?_
    intro j hj
    have := hj.inside
    omega
  | succ fuel ih =>
    obtain ⟨hleast, hfirst⟩ := least_cases key l i
    unfold Heap.down
    by_cases hstop : least key l i = i
    · rw [if_pos hstop]
      rw [hstop] at hfirst
      exact h.ordered hfirst
    · rw [if_neg hstop]
      obtain ⟨hchild, hlt⟩ := hleast.resolve_left hstop
      have hgt := hchild.lt
      have hlen := (swap_perm l i (least key l i)).length_eq
      exact ih (h.toSinking.move hchild hlt hfirst) (by omega)

/-- An item that may be before its parent as well sinks, if it moves, to a heap. -/
theorem Sinking.down (h : Sinking key 0 l i) {fuel : Nat} (hfuel : l.length ≤ fuel + i) :
    Rising key (down key fuel l i) i := by
  cases fuel with
  | zero =>
    refine ⟨h, ?_⟩
    intro j hj
    have hi : i < l.length := hj.inside
    omega
  | succ fuel =>
    obtain ⟨hleast, hfirst⟩ := least_cases key l i
    unfold Heap.down
    by_cases hstop : least key l i = i
    · rw [if_pos hstop]
      rw [hstop] at hfirst
      exact ⟨h, hfirst⟩
    · rw [if_neg hstop]
      obtain ⟨hchild, hlt⟩ := hleast.resolve_left hstop
      have hgt := hchild.lt
      have hlen := (swap_perm l i (least key l i)).length_eq
      exact ((h.move hchild hlt hfirst).down (by omega)).rising i

/-! ### Up -/

/-- The item and its parent change places. -/
theorem Rising.move (h : Rising key l i) {p : Nat} (hp : Child l p i)
    (hlt : keyAt key l i < keyAt key l p) : Rising key (swap l i p) p := by
  have hlen : (swap l i p).length = l.length := (swap_perm l i p).length_eq
  have hat := keyAt_swap key hp.1 hp.inside
  have hback : ∀ q j, Child (swap l i p) q j → Child l q j :=
    fun q j hc => hc.of_length (hlen ▸ hc.1)
  have hpi := hp.lt
  -- all that was under the parent is not before it
  have hsibling : ∀ j, Child l p j → j ≠ i → keyAt key l p ≤ keyAt key l j :=
    fun j hj hji => h.others p j hj (Nat.zero_le _) hpi.ne hji
  refine ⟨⟨?_, ?_⟩, ?_⟩
  · intro q j hc _ hq hj
    have hqj := hc.lt
    replace hc := hback q j hc
    rw [hat, hat, if_neg hq, if_neg hj]
    by_cases hqi : q = i
    · subst hqi
      rw [if_pos rfl, if_neg hqj.ne']
      exact h.grand p j hp hc (Nat.zero_le _)
    · rw [if_neg hqi]
      by_cases hji : j = i
      · subst hji
        exact absurd (hc.unique hp) hq
      · rw [if_neg hji]
        exact h.others q j hc (Nat.zero_le _) hqi hji
  · intro q j hq hj _
    have hqp := hq.lt
    have hpj := hj.lt
    replace hq := hback q p hq
    replace hj := hback p j hj
    have hup : keyAt key l q ≤ keyAt key l p := h.others q p hq (Nat.zero_le _) (by omega) hpi.ne
    rw [hat, hat, if_neg hqp.ne, if_neg (by omega), if_neg hpj.ne']
    by_cases hji : j = i
    · rw [if_pos hji]
      exact hup
    · rw [if_neg hji]
      exact hup.trans (hsibling j hj hji)
  · intro j hj
    have hpj := hj.lt
    replace hj := hback p j hj
    rw [hat, hat, if_pos rfl, if_neg hpj.ne']
    by_cases hji : j = i
    · rw [if_pos hji]
      exact hlt.le
    · rw [if_neg hji]
      exact hlt.le.trans (hsibling j hj hji)

theorem Rising.up (h : Rising key l i) {fuel : Nat} (hfuel : i ≤ fuel) (hi : i < l.length) :
    Ordered key 0 (up key fuel l i) := by
  induction fuel generalizing l i with
  | zero =>
    refine h.ordered ?_
    intro p hp
    have := hp.lt
    omega
  | succ fuel ih =>
    unfold Heap.up
    split
    · rename_i hroot
      refine h.ordered ?_
      intro p hp
      have := hp.lt
      omega
    · rename_i hroot
      have hp := child_parent (Nat.pos_of_ne_zero hroot) hi
      have hlt := hp.lt
      split
      · rename_i hle
        refine h.ordered ?_
        intro p hc
        rw [hc.unique hp]
        exact hle
      · rename_i hgt
        have hlen := (swap_perm l i (parent i)).length_eq
        exact ih (h.move hp (not_le.mp hgt)) (by omega) (by omega)

/-! ### The operations keep a heap -/

theorem Sinking.settle (h : Sinking key 0 l i) (hi : i < l.length) : Ordered key 0 (settle key l i) := by
  have hlen := (down_perm key l.length l i).length_eq
  exact (h.down (Nat.le_add_right _ _)).up le_rfl (by omega)

/-- One more item, at the end. -/
theorem Ordered.push (h : Ordered key 0 l) (a : α) {fuel : Nat} (hfuel : l.length ≤ fuel) :
    Ordered key 0 (up key fuel (l ++ [a]) l.length) := by
  have hlen : (l ++ [a]).length = l.length + 1 := by simp
  refine Rising.up (i := l.length) ⟨⟨?_, ?_⟩, ?_⟩ hfuel (by omega)
  · intro p j hc _ _ hj
    have hjl := hc.1
    have hpj := hc.lt
    have hsame : ∀ k, k < l.length → keyAt key (l ++ [a]) k = keyAt key l k :=
      fun k hk => keyAt_congr key (List.getElem?_append_left hk)
    rw [hsame p (by omega), hsame j (by omega)]
    exact h p j (hc.of_length (by omega)) (Nat.zero_le _)
  · intro p j _ hj
    have := hj.1
    have := hj.lt
    omega
  · intro j hj
    have := hj.1
    have := hj.lt
    omega

/-- Another item in the place of one. -/
theorem Ordered.replace (h : Ordered key 0 l) (hi : i < l.length) (a : α) :
    Ordered key 0 (settle key (l.set i a) i) := by
  have hlen : (l.set i a).length = l.length := List.length_set
  refine Sinking.settle (h.sinking hlen.le ?_) (by omega)
  intro k _ hk
  exact List.getElem?_set_ne (Ne.symm hk)

/-- One item less. -/
theorem Ordered.remove (h : Ordered key 0 l) : Ordered key 0 (remove key l i) := by
  have hlen := length_fill l i
  have hsame : ∀ k, k < (fill l i).length → k ≠ i → (fill l i)[k]? = l[k]? :=
    fun k hk hne => getElem?_fill (by omega) hne
  have hsink : Sinking key 0 (fill l i) i := h.sinking (by omega) hsame
  unfold Heap.remove
  split
  · exact hsink.settle (by assumption)
  · rename_i hi
    intro p j hc hlo
    have hj := hc.1
    have hpj := hc.lt
    exact hsink.others p j hc hlo (by omega) (by omega)

/-- A list has no children from the middle on, and each turn lowers the bound by one. -/
theorem build_ordered (key : α → K) (l : List α) : Ordered key 0 (build key l) := by
  have hfold : ∀ (n : Nat) (l : List α), Ordered key n l →
      Ordered key 0 ((List.range n).reverse.foldl (fun l i => down key l.length l i) l) := by
    intro n
    induction n with
    | zero =>
      intro l h
      exact h
    | succ n ih =>
      intro l h
      rw [List.range_succ, List.reverse_append, List.reverse_singleton, List.singleton_append,
        List.foldl_cons]
      refine ih _ (Sunk.down ⟨⟨?_, ?_⟩, ?_⟩ (Nat.le_add_right _ _))
      · intro p j hc hlo hp _
        exact h p j hc (by omega)
      · intro p j hp _ hlo
        have := hp.lt
        omega
      · intro p hp hlo
        have := hp.lt
        omega
  refine hfold _ l ?_
  intro p j hc hlo
  have hlen := hc.1
  rcases hc.2 with h | h <;> omega

end Wjetcd.Heap
