import Mathlib

/-! Programs of one thread over locks that are not reentrant.

A thread that waits for a lock it holds itself waits for ever, whatever the other
threads do, so its own holdings decide whether it gets stuck. A program carries
them next to its state. `wp` runs it to the end, `Stuck` to the lock it never
gets; `Mode.ignored` runs the same program with locks that never block, which
leaves its effect on the state. -/
namespace Wjetcd.Locks

inductive Hold where
  | free
  | reading
  | writing
deriving Repr, DecidableEq

inductive Mode where
  | enforced
  | ignored
deriving Repr, DecidableEq

structure World (L σ : Type) where
  held : L → Hold
  state : σ

/-- No result means that the thread waits for itself, or has unlocked what it does
not hold, which ends the process. -/
def Prog (L σ α : Type) : Type := Mode → World L σ → Option (α × World L σ)

instance {L σ : Type} : Monad (Prog L σ) where
  pure a := fun _ w => some (a, w)
  bind p f := fun mode w => (p mode w).bind fun r => f r.1 mode r.2

variable {L σ α β : Type}

/-- A step of the program that takes no lock. -/
def act (f : σ → σ × α) : Prog L σ α := fun _ w => some ((f w.state).2, ⟨w.held, (f w.state).1⟩)

def modify (f : σ → σ) : Prog L σ Unit := act fun s => (f s, ())
def read (f : σ → α) : Prog L σ α := act fun s => (s, f s)

/-- `if c { .. }` -/
def runIf (c : Prop) [Decidable c] (p : Prog L σ Unit) : Prog L σ Unit := if c then p else pure ()

/-- The program ends, and with what the postcondition says. -/
def wp (p : Prog L σ α) (mode : Mode) (w : World L σ) (Q : α → World L σ → Prop) : Prop :=
  ∃ a w', p mode w = some (a, w') ∧ Q a w'

def Stuck (p : Prog L σ α) (w : World L σ) : Prop := p .enforced w = none

section Rules
variable {mode : Mode} {w : World L σ} {Q : α → World L σ → Prop}

theorem wp_pure {a : α} (h : Q a w) : wp (pure a : Prog L σ α) mode w Q := ⟨a, w, rfl, h⟩

theorem wp_bind {p : Prog L σ β} {f : β → Prog L σ α}
    (h : wp p mode w fun b w' => wp (f b) mode w' Q) : wp (p >>= f) mode w Q := by
  obtain ⟨b, w', hp, a, w'', hf, hQ⟩ := h
  refine ⟨a, w'', ?_, hQ⟩
  show (p mode w).bind _ = _
  rw [hp]
  exact hf

theorem wp_act {f : σ → σ × α} (h : Q (f w.state).2 ⟨w.held, (f w.state).1⟩) :
    wp (act f) mode w Q := ⟨_, _, rfl, h⟩

theorem wp_read {f : σ → α} (h : ∀ a, f w.state = a → Q a w) : wp (read f) mode w Q :=
  wp_act (h _ rfl)

theorem wp_runIf {c : Prop} [Decidable c] {p : Prog L σ Unit} {Q : Unit → World L σ → Prop}
    (hp : c → wp p mode w Q) (hskip : ¬c → Q () w) : wp (runIf c p) mode w Q := by
  unfold runIf
  split
  · rename_i hc
    exact hp hc
  · rename_i hc
    exact wp_pure (hskip hc)

theorem wp_mono {p : Prog L σ α} {R : α → World L σ → Prop} (h : wp p mode w R)
    (hQ : ∀ a w', R a w' → Q a w') : wp p mode w Q := by
  obtain ⟨a, w', hp, hR⟩ := h
  exact ⟨a, w', hp, hQ a w' hR⟩

theorem not_wp_of_stuck {p : Prog L σ α} (h : Stuck p w) : ¬wp p .enforced w Q := by
  rintro ⟨a, w', hp, _⟩
  rw [Stuck, hp] at h
  cases h

theorem stuck_bind {p : Prog L σ β} {f : β → Prog L σ α} (h : Stuck p w) : Stuck (p >>= f) w := by
  show (p .enforced w).bind _ = none
  rw [show p .enforced w = none from h]
  rfl

/-- The first part ends, in a world in which the rest is stuck. -/
theorem stuck_after {p : Prog L σ β} {f : β → Prog L σ α}
    (h : wp p .enforced w fun b w' => Stuck (f b) w') : Stuck (p >>= f) w := by
  obtain ⟨b, w', hp, hf⟩ := h
  show (p .enforced w).bind _ = none
  rw [hp]
  exact hf

end Rules

/-! ### Locks -/

section Locks
variable [DecidableEq L]

/-- Go from holding a lock as `before` to holding it as `after`. -/
def shift (l : L) (before after : Hold) : Prog L σ Unit := fun mode w =>
  if mode = .ignored ∨ w.held l = before then
    some ((), ⟨Function.update w.held l after, w.state⟩)
  else none

def lock (l : L) : Prog L σ Unit := shift l .free .writing
def unlock (l : L) : Prog L σ Unit := shift l .writing .free
/-- A second read lock in one thread counts as stuck too: a writer may be waiting in between. -/
def rlock (l : L) : Prog L σ Unit := shift l .free .reading
def runlock (l : L) : Prog L σ Unit := shift l .reading .free

/-- `mu.Lock(); defer mu.Unlock()` around a body. -/
def locked (l : L) (p : Prog L σ α) : Prog L σ α := do
  lock l
  let a ← p
  unlock l
  pure a

/-- `mu.RLock(); defer mu.RUnlock()` around a body. -/
def rlocked (l : L) (p : Prog L σ α) : Prog L σ α := do
  rlock l
  let a ← p
  runlock l
  pure a

variable {mode : Mode} {w : World L σ} {Q : α → World L σ → Prop}

theorem wp_shift {l : L} {before after : Hold} {Q : Unit → World L σ → Prop}
    (hl : mode = .ignored ∨ w.held l = before)
    (h : Q () ⟨Function.update w.held l after, w.state⟩) : wp (shift l before after) mode w Q :=
  ⟨(), _, if_pos hl, h⟩

/-- A body under a lock: the lock is free before it and again after it. -/
theorem wp_locked {l : L} {p : Prog L σ α} (hl : mode = .ignored ∨ w.held l = .free)
    (h : wp p mode ⟨Function.update w.held l .writing, w.state⟩ fun a w' =>
      (mode = .ignored ∨ w'.held l = .writing) ∧ Q a ⟨Function.update w'.held l .free, w'.state⟩) :
    wp (locked l p) mode w Q := by
  refine wp_bind (wp_shift hl (wp_bind (wp_mono h ?_)))
  rintro a w' ⟨hl', hQ⟩
  exact wp_bind (wp_shift hl' (wp_pure hQ))

theorem wp_rlocked {l : L} {p : Prog L σ α} (hl : mode = .ignored ∨ w.held l = .free)
    (h : wp p mode ⟨Function.update w.held l .reading, w.state⟩ fun a w' =>
      (mode = .ignored ∨ w'.held l = .reading) ∧ Q a ⟨Function.update w'.held l .free, w'.state⟩) :
    wp (rlocked l p) mode w Q := by
  refine wp_bind (wp_shift hl (wp_bind (wp_mono h ?_)))
  rintro a w' ⟨hl', hQ⟩
  exact wp_bind (wp_shift hl' (wp_pure hQ))

/-- One step under a lock. -/
theorem wp_locked_act {l : L} {f : σ → σ × α} (hl : mode = .ignored ∨ w.held l = .free)
    (h : Q (f w.state).2 ⟨Function.update w.held l .free, (f w.state).1⟩) :
    wp (locked l (act f)) mode w Q := by
  refine wp_locked hl (wp_act ⟨Or.inr (Function.update_self ..), ?_⟩)
  rw [Function.update_idem]
  exact h

theorem update_free {held : L → Hold} {l : L} (h : held l = .free) :
    Function.update held l .free = held := by
  rw [← h]
  exact Function.update_eq_self l held

/-- One step under a free lock leaves the holdings as they were. -/
theorem wp_locked_step {l : L} {f : σ → σ × α} (hl : w.held l = .free)
    (h : Q (f w.state).2 ⟨w.held, (f w.state).1⟩) : wp (locked l (act f)) mode w Q := by
  refine wp_locked_act (Or.inr hl) ?_
  rw [update_free hl]
  exact h

theorem wp_rlocked_step {l : L} {f : σ → σ × α} (hl : w.held l = .free)
    (h : Q (f w.state).2 ⟨w.held, (f w.state).1⟩) : wp (rlocked l (act f)) mode w Q := by
  refine wp_rlocked (Or.inr hl) (wp_act ⟨Or.inr (Function.update_self ..), ?_⟩)
  rw [Function.update_idem, update_free hl]
  exact h

theorem stuck_shift {l : L} {before after : Hold} (h : w.held l ≠ before) :
    Stuck (shift l before after) w := by
  refine if_neg ?_
  rintro (hmode | heq)
  · cases hmode
  · exact h heq

end Locks

end Wjetcd.Locks
