import Mathlib.Init

/-! Programs whose calls into the system may fail, and may be the last.

How the calls of a program end is a list of fates that it is given: a call that
fails or that the process does not survive has no effect, and once the list is used
up every call succeeds. So a program is an ordinary function, and what holds for
every list holds for every way a run can be cut. `Ends` is what a program leaves
behind in each of the three cases; a crash leaves what the state was at that call,
so an invariant that the crash condition repeats holds throughout the program. -/
namespace Wjetcd.Crash

inductive Fate (ε : Type) where
  | ok
  | fail (err : ε)
  | crash
deriving Repr, DecidableEq

inductive Outcome (ε α : Type) where
  | done (a : α)
  | failed (err : ε)
  | crashed
deriving Repr, DecidableEq

def Prog (σ ε α : Type) : Type := List (Fate ε) → σ → Outcome ε α × σ × List (Fate ε)

variable {σ ε α β : Type}

instance : Monad (Prog σ ε) where
  pure a := fun fates s => (.done a, s, fates)
  bind p f := fun fates s =>
    match p fates s with
    | (.done a, t, rest) => f a rest t
    | (.failed err, t, rest) => (.failed err, t, rest)
    | (.crashed, t, rest) => (.crashed, t, rest)

/-- A call with an effect, which can turn out to be an error of its own. -/
def call (f : σ → Except ε (α × σ)) : Prog σ ε α := fun fates s =>
  match fates.head? with
  | some .crash => (.crashed, s, fates.tail)
  | some (.fail err) => (.failed err, s, fates.tail)
  | _ =>
    match f s with
    | .ok (a, t) => (.done a, t, fates.tail)
    | .error err => (.failed err, s, fates.tail)

/-- A call that changes nothing the state keeps. -/
def idle : Prog σ ε Unit := call fun s => .ok ((), s)

/-- A change of the state that is not a call: it happens. -/
def update (f : σ → σ) : Prog σ ε Unit := fun fates s => (.done (), f s, fates)

def get (f : σ → α) : Prog σ ε α := fun fates s => (.done (f s), s, fates)

def fail (err : ε) : Prog σ ε α := fun fates s => (.failed err, s, fates)

/-- Go on with `h` if the program fails. -/
def handle (p : Prog σ ε α) (h : ε → Prog σ ε α) : Prog σ ε α := fun fates s =>
  match p fates s with
  | (.failed err, t, rest) => h err rest t
  | result => result

/-- Run a program and give back its error, if it has one. -/
def attempt (p : Prog σ ε Unit) : Prog σ ε (Option ε) :=
  handle (do p; pure none) fun err => pure (some err)

/-- If `p` fails, so does the whole, but `q` is run before. -/
def cleanup (p : Prog σ ε α) (q : Prog σ ε Unit) : Prog σ ε α :=
  handle p fun err => do
    let _ ← attempt q
    fail err

/-! ### What a program leaves behind -/

def Meets (Q : α → σ → Prop) (E C : σ → Prop) : Outcome ε α × σ × List (Fate ε) → Prop
  | (.done a, t, _) => Q a t
  | (.failed _, t, _) => E t
  | (.crashed, t, _) => C t

def Ends (p : Prog σ ε α) (s : σ) (Q : α → σ → Prop) (E C : σ → Prop) : Prop :=
  ∀ fates, Meets Q E C (p fates s)

section Rules
variable {p : Prog σ ε α} {s : σ} {Q : α → σ → Prop} {E C : σ → Prop}

theorem ends_pure {a : α} (h : Q a s) : Ends (pure a : Prog σ ε α) s Q E C := fun _ => h

theorem ends_update {f : σ → σ} {Q : Unit → σ → Prop} (h : Q () (f s)) :
    Ends (update f : Prog σ ε Unit) s Q E C := fun _ => h

theorem ends_get {f : σ → α} (h : Q (f s) s) : Ends (get f : Prog σ ε α) s Q E C := fun _ => h

theorem ends_fail {err : ε} (h : E s) : Ends (fail err : Prog σ ε α) s Q E C := fun _ => h

theorem ends_bind {f : α → Prog σ ε β} {Q : β → σ → Prop}
    (h : Ends p s (fun a t => Ends (f a) t Q E C) E C) : Ends (p >>= f) s Q E C := by
  intro fates
  have hp := h fates
  show Meets Q E C (match p fates s with
    | (.done a, t, rest) => f a rest t
    | (.failed err, t, rest) => (.failed err, t, rest)
    | (.crashed, t, rest) => (.crashed, t, rest))
  rcases hr : p fates s with ⟨_ | _ | _, t, rest⟩ <;> rw [hr] at hp
  · exact hp rest
  · exact hp
  · exact hp

theorem ends_handle {h : ε → Prog σ ε α}
    (hp : Ends p s Q (fun t => ∀ err, Ends (h err) t Q E C) C) : Ends (handle p h) s Q E C := by
  intro fates
  have hend := hp fates
  unfold handle
  rcases hr : p fates s with ⟨_ | err | _, t, rest⟩ <;> rw [hr] at hend
  · exact hend
  · exact hend err rest
  · exact hend

/-- The call may not happen at all, and it may turn out to be an error. -/
theorem ends_call {f : σ → Except ε (α × σ)} (hcrash : C s) (hfail : E s)
    (hdone : ∀ a t, f s = .ok (a, t) → Q a t) : Ends (call f) s Q E C := by
  intro fates
  have heffect : Meets Q E C (match f s with
      | .ok (a, t) => (.done a, t, fates.tail)
      | .error err => (.failed err, s, fates.tail)) := by
    rcases hf : f s with err | ⟨a, t⟩
    · exact hfail
    · exact hdone a t hf
  unfold call
  rcases fates.head? with _ | _ | err | _
  · exact heffect
  · exact heffect
  · exact hfail
  · exact hcrash

theorem ends_idle {Q : Unit → σ → Prop} (hcrash : C s) (hfail : E s) (hdone : Q () s) :
    Ends (idle : Prog σ ε Unit) s Q E C := by
  refine ends_call hcrash hfail fun a t hf => ?_
  cases hf
  exact hdone

theorem ends_mono {R : α → σ → Prop} {F D : σ → Prop} (h : Ends p s R F D)
    (hdone : ∀ a t, R a t → Q a t) (hfail : ∀ t, F t → E t) (hcrash : ∀ t, D t → C t) :
    Ends p s Q E C := by
  intro fates
  have hend := h fates
  rcases hr : p fates s with ⟨a | _ | _, t, rest⟩ <;> rw [hr] at hend
  · exact hdone a t hend
  · exact hfail t hend
  · exact hcrash t hend

theorem ends_attempt {p : Prog σ ε Unit} {Q : Option ε → σ → Prop}
    (h : Ends p s (fun _ t => Q none t) (fun t => ∀ err, Q (some err) t) C) :
    Ends (attempt p) s Q E C := by
  refine ends_handle (ends_bind ?_)
  refine ends_mono h (fun _ t hQ => ends_pure hQ) (fun t hQ err => ends_pure (hQ err)) fun t hC => hC

theorem ends_attempt_idle {Q : Option ε → σ → Prop} (hcrash : C s) (h : ∀ result, Q result s) :
    Ends (attempt idle) s Q E C :=
  ends_attempt (ends_idle hcrash (fun err => h (some err)) (h none))

theorem ends_cleanup {q : Prog σ ε Unit}
    (h : Ends p s Q (fun t => Ends q t (fun _ => E) E C) C) : Ends (cleanup p q) s Q E C := by
  refine ends_handle (ends_mono h (fun _ _ hQ => hQ) (fun t hq err => ?_) fun _ hC => hC)
  refine ends_bind (ends_attempt ?_)
  exact ends_mono hq (fun _ _ hE => ends_fail hE) (fun _ hE _ => ends_fail hE) fun _ hC => hC

end Rules

/-! ### Runs without a fault -/

/-- If no call fails or crashes, the program ends with `a` in `t`. -/
def Succeeds (p : Prog σ ε α) (s : σ) (a : α) (t : σ) : Prop := p [] s = (.done a, t, [])

section Success
variable {p : Prog σ ε α} {s t u : σ} {a : α}

theorem succeeds_pure : Succeeds (pure a : Prog σ ε α) s a s := rfl

theorem succeeds_get {f : σ → α} : Succeeds (get f : Prog σ ε α) s (f s) s := rfl

theorem succeeds_idle : Succeeds (idle : Prog σ ε Unit) s () s := rfl

theorem succeeds_call {f : σ → Except ε (α × σ)} (h : f s = .ok (a, t)) : Succeeds (call f) s a t := by
  show (match f s with
    | .ok (a, t) => (Outcome.done a, t, [])
    | .error err => (.failed err, s, [])) = _
  rw [h]

theorem succeeds_bind {f : α → Prog σ ε β} {b : β} (hp : Succeeds p s a t)
    (hf : Succeeds (f a) t b u) : Succeeds (p >>= f) s b u := by
  show (match p [] s with
    | (.done a, t, rest) => f a rest t
    | (.failed err, t, rest) => (.failed err, t, rest)
    | (.crashed, t, rest) => (.crashed, t, rest)) = _
  rw [show p [] s = _ from hp]
  exact hf

theorem succeeds_handle {h : ε → Prog σ ε α} (hp : Succeeds p s a t) : Succeeds (handle p h) s a t := by
  unfold Succeeds handle
  rw [show p [] s = _ from hp]

end Success

end Wjetcd.Crash
