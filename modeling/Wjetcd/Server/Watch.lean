import Wjetcd.Lib.Runs
import Wjetcd.Server.Process

/-! Watchers, and what is sent on their channels.

A watcher asks for the events of a key, or of all keys under a prefix, from a revision
on. `notifyWatchers` logs an event and serves the watchers it concerns: each is first sent
the logged events that are older, and then the new one. Nothing records what a watcher
has been sent already, so with a revision to start from the second event brings all the old
ones again; and the new event is sent whether or not it is old enough.

`Served` says what a channel has been sent, turn by turn; `notifyWatchers_turn` and
`notifyWatchers_other` say who has a turn. -/
namespace Wjetcd
open Runs

/-- What a watcher watches. -/
inductive Target where
  | exact (key : Bytes)
  | under (keyPrefix : Bytes)
deriving Repr, DecidableEq

def Target.matches : Target → Bytes → Bool
  | .exact key, k => k == key
  | .under keyPrefix, k => KVStore.hasPrefix k keyPrefix

/-- The field `prevValue`, which nothing reads, is left out. The channel goes by the
watcher's id. -/
structure WatcherInfo where
  id : Nat
  persistent : Bool
  expireAt : Int
  fromRev : Int

/-- A send that got into a channel: the event, its place in the event log, and whether
it was the new one. -/
structure Sent where
  source : Nat
  live : Bool
  event : WatchEvent

/-- A channel with its buffer. The rest is not in the program: what the channel was made
for, all that was ever sent on it, and whether a send found no room. -/
structure Channel where
  buffer : List WatchEvent
  closed : Bool
  target : Target
  fromRev : Int
  sent : List Sent
  dropped : Bool

namespace Channel

/-- `make(chan Event, 100)` -/
def make (target : Target) (fromRev : Int) : Channel := ⟨[], false, target, fromRev, [], false⟩

/-- `select { case ch <- event: default: }`; the flag says which. -/
def send (ch : Channel) (x : Sent) : Channel × Bool :=
  if ch.buffer.length < 100 then
    ({ch with buffer := ch.buffer ++ [x.event], sent := ch.sent ++ [x]}, true)
  else ({ch with dropped := true}, false)

/-- The events sent, by their places in the log. -/
def sources (ch : Channel) : List Nat := ch.sent.map Sent.source

/-- The places of the events that were sent as new. -/
def rounds (ch : Channel) : List Nat := (ch.sent.filter Sent.live).map Sent.source

end Channel

/-- The loop over the event log. A replayed event has no revision. -/
def replay (target : Target) (fromRev rev : Int) (log : List WatchEvent) (ch : Channel) : Channel :=
  if fromRev > 0 then
    log.zipIdx.foldl (fun ch p =>
      if target.matches p.1.key && decide (fromRev ≤ p.1.revision) && decide (p.1.revision < rev) then
        (ch.send ⟨p.2, false, {p.1 with revision := 0}⟩).1
      else ch) ch
  else ch

/-- One watcher's turn; the event is the last of the log. The flag says whether the watcher
stays. -/
def serve (target : Target) (info : WatcherInfo) (log : List WatchEvent) (event : WatchEvent)
    (ch : Channel) : Channel × Bool :=
  let result := (replay target info.fromRev event.revision log ch).send ⟨log.length - 1, true, event⟩
  if result.2 && !info.persistent then ({result.1 with closed := true}, false) else (result.1, true)

structure WatchManager where
  watchers : GoMap Bytes (GoMap Nat WatcherInfo)
  prefixWatchers : GoMap Bytes (GoMap Nat WatcherInfo)
  nextID : Nat
  eventLog : List WatchEvent
  channels : GoMap Nat Channel

/-- The order in which a notification iterates over its maps. -/
structure MapOrder where
  keys : List Bytes → List Bytes
  ids : List Nat → List Nat
  permKeys : ∀ l, (keys l).Perm l
  permIds : ∀ l, (ids l).Perm l

def MapOrder.ascending : MapOrder := ⟨id, id, List.Perm.refl, List.Perm.refl⟩

namespace WatchManager
variable (wm : WatchManager)

def newWatchManager : WatchManager := ⟨∅, ∅, 0, [], ∅⟩

/-- The watchers of a target, by id. -/
def registry : Target → GoMap Nat WatcherInfo
  | .exact key => wm.watchers[key]?.getD ∅
  | .under keyPrefix => wm.prefixWatchers[keyPrefix]?.getD ∅

def setRegistry (target : Target) (infos : GoMap Nat WatcherInfo) : WatchManager :=
  match target with
  | .exact key => {wm with watchers := wm.watchers.insert key infos}
  | .under keyPrefix => {wm with prefixWatchers := wm.prefixWatchers.insert keyPrefix infos}

/-- `if len(watchers) == 0 { delete(..) }` -/
def forgetEmpty (target : Target) : WatchManager :=
  if (wm.registry target).isEmpty then
    match target with
    | .exact key => {wm with watchers := wm.watchers.erase key}
    | .under keyPrefix => {wm with prefixWatchers := wm.prefixWatchers.erase keyPrefix}
  else wm

/-- A prefix watcher for the empty prefix is kept as a watcher of the empty key. -/
def addWatcherInternal (key keyPrefix : Bytes) (persistent : Bool) (now timeout fromRev : Int) :
    WatchManager :=
  let id := wm.nextID + 1
  let target : Target := if keyPrefix ≠ [] then .under keyPrefix else .exact key
  let info : WatcherInfo := ⟨id, persistent, if timeout > 0 then now + timeout else 0, fromRev⟩
  {wm.setRegistry target ((wm.registry target).insert id info) with
    nextID := id
    channels := wm.channels.insert id (Channel.make target fromRev)}

def addWatcher (key : Bytes) (persistent : Bool) (now timeout fromRev : Int) : WatchManager :=
  wm.addWatcherInternal key [] persistent now timeout fromRev

def addPrefixWatcher (keyPrefix : Bytes) (persistent : Bool) (now timeout fromRev : Int) : WatchManager :=
  wm.addWatcherInternal [] keyPrefix persistent now timeout fromRev

/-- `close(info.ch); delete(watchers, id)`, if the watcher is there. -/
def remove (target : Target) (id : Nat) : WatchManager :=
  if (wm.registry target)[id]?.isSome then
    {wm.setRegistry target ((wm.registry target).erase id) with
      channels := wm.channels.modify id fun ch => {ch with closed := true}}
  else wm

def removeWatcher (key : Bytes) (id : Nat) : WatchManager := wm.remove (.exact key) id

def removePrefixWatcher (keyPrefix : Bytes) (id : Nat) : WatchManager := wm.remove (.under keyPrefix) id

def expired (now : Int) (info : WatcherInfo) : Bool :=
  decide (info.expireAt > 0) && decide (now > info.expireAt)

/-- One key of the sweep. -/
def cleanupTarget (order : MapOrder) (now : Int) (wm : WatchManager) (key : Bytes) : WatchManager :=
  ((order.ids ((wm.registry (.exact key)).filter fun _ info => expired now info).keys).foldl
    (fun wm id => wm.removeWatcher key id) wm).forgetEmpty (.exact key)

/-- The sweep in any order. Prefix watchers do not expire. -/
def cleanupIn (order : MapOrder) (now : Int) (wm : WatchManager) : WatchManager :=
  (order.keys wm.watchers.keys).foldl (cleanupTarget order now) wm

def cleanupExpired (now : Int) : WatchManager := cleanupIn .ascending now wm

/-- The body of the loop over the watchers of a target. -/
def serveOne (target : Target) (event : WatchEvent) (wm : WatchManager) (id : Nat) : WatchManager :=
  match (wm.registry target)[id]?, wm.channels[id]? with
  | some info, some ch =>
    let result := serve target info wm.eventLog event ch
    let wm := {wm with channels := wm.channels.insert id result.1}
    if result.2 then wm else wm.setRegistry target ((wm.registry target).erase id)
  | _, _ => wm

def notifyTarget (order : MapOrder) (event : WatchEvent) (wm : WatchManager) (target : Target) :
    WatchManager :=
  ((order.ids (wm.registry target).keys).foldl (serveOne target event) wm).forgetEmpty target

def notifyExactWatchers (order : MapOrder) (event : WatchEvent) : WatchManager :=
  wm.notifyTarget order event (.exact event.key)

def notifyPrefixWatchers (order : MapOrder) (event : WatchEvent) : WatchManager :=
  ((order.keys wm.prefixWatchers.keys).filter fun p => KVStore.hasPrefix event.key p).foldl
    (fun wm p => notifyTarget order event wm (.under p)) wm

def notifyWatchers (order : MapOrder) (cmd : Command) : WatchManager :=
  match watchEvent cmd with
  | none => wm
  | some event =>
    (notifyExactWatchers {wm with eventLog := wm.eventLog ++ [event]} order event).notifyPrefixWatchers
      order event

/-- A reader takes the next event from a channel. -/
def receive (id : Nat) : WatchManager :=
  {wm with channels := wm.channels.modify id fun ch => {ch with buffer := ch.buffer.tail}}

inductive Action where
  | addWatcher (key : Bytes) (persistent : Bool) (now timeout fromRev : Int)
  | addPrefixWatcher (keyPrefix : Bytes) (persistent : Bool) (now timeout fromRev : Int)
  | removeWatcher (key : Bytes) (id : Nat)
  | removePrefixWatcher (keyPrefix : Bytes) (id : Nat)
  | cleanupExpired (now : Int)
  | notifyWatchers (order : MapOrder) (cmd : Command)
  | receive (id : Nat)

def step (action : Action) (wm : WatchManager) : Option WatchManager :=
  match action with
  | .addWatcher key persistent now timeout fromRev =>
    some (wm.addWatcher key persistent now timeout fromRev)
  | .addPrefixWatcher keyPrefix persistent now timeout fromRev =>
    some (wm.addPrefixWatcher keyPrefix persistent now timeout fromRev)
  | .removeWatcher key id => some (wm.removeWatcher key id)
  | .removePrefixWatcher keyPrefix id => some (wm.removePrefixWatcher keyPrefix id)
  | .cleanupExpired now => some (wm.cleanupExpired now)
  | .notifyWatchers order cmd => some (wm.notifyWatchers order cmd)
  | .receive id => some (wm.receive id)

/-- Events come with increasing revisions. -/
def Increasing (action : Action) (wm : WatchManager) : Prop :=
  match action with
  | .notifyWatchers _ cmd =>
    ∀ event, watchEvent cmd = some event → ∀ e ∈ wm.eventLog, e.revision < event.revision
  | _ => True

end WatchManager

/-! ### What a channel has been sent -/

/-- The places of the events before `i` that are replayed at `i`. -/
def replayed (target : Target) (fromRev : Int) (log : List WatchEvent) (i : Nat) : List Nat :=
  if fromRev > 0 then
    ((log.take i).zipIdx.filter fun p =>
      target.matches p.1.key && decide (fromRev ≤ p.1.revision)).map Prod.snd
  else []

/-- The turns a channel has had, the last of them before `bound`. -/
structure Served (log : List WatchEvent) (bound : Nat) (ch : Channel) : Prop where
  plan : ch.dropped = false →
    ch.sources = ch.rounds.flatMap fun i => replayed ch.target ch.fromRev log i ++ [i]
  increasing : ch.rounds.Pairwise (· < ·)
  below : ∀ i ∈ ch.rounds, i < bound
  matched : ∀ i ∈ ch.rounds, ∃ e, log[i]? = some e ∧ ch.target.matches e.key = true
  told : ∀ x ∈ ch.sent, ∃ e, log[x.source]? = some e ∧
    x.event = if x.live then e else {e with revision := 0}

theorem make_served (log : List WatchEvent) (bound : Nat) (target : Target) (fromRev : Int) :
    Served log bound (Channel.make target fromRev) where
  plan := fun _ => rfl
  increasing := List.Pairwise.nil
  below := nofun
  matched := nofun
  told := nofun

theorem replayed_append {target : Target} {fromRev : Int} {log : List WatchEvent} {i : Nat}
    (h : i ≤ log.length) (event : WatchEvent) :
    replayed target fromRev (log ++ [event]) i = replayed target fromRev log i := by
  unfold replayed
  rw [List.take_append_of_le_length h]

theorem logged_append {log : List WatchEvent} {i : Nat} {e : WatchEvent} (h : log[i]? = some e)
    (event : WatchEvent) : (log ++ [event])[i]? = some e := by
  rw [List.getElem?_append_left (List.getElem?_eq_some_iff.mp h).1]
  exact h

/-- A longer log does not matter to the turns of the past. -/
theorem Served.append {log : List WatchEvent} {ch : Channel} (h : Served log log.length ch)
    (event : WatchEvent) : Served (log ++ [event]) log.length ch where
  plan := by
    intro hd
    rw [h.plan hd]
    apply List.flatMap_congr
    intro i hi
    rw [replayed_append (h.below i hi).le]
  increasing := h.increasing
  below := h.below
  matched := by
    intro i hi
    obtain ⟨e, he, hmatch⟩ := h.matched i hi
    exact ⟨e, logged_append he event, hmatch⟩
  told := by
    intro x hx
    obtain ⟨e, he, hevent⟩ := h.told x hx
    exact ⟨e, logged_append he event, hevent⟩

theorem Served.mono {log : List WatchEvent} {bound bound' : Nat} {ch : Channel}
    (h : Served log bound ch) (hle : bound ≤ bound') : Served log bound' ch :=
  {h with below := fun i hi => (h.below i hi).trans_le hle}

/-! ### One turn -/

section Turn
variable {ch : Channel}

/-- What one send does. -/
theorem send_cases (ch : Channel) (x : Sent) :
    ((ch.send x).1.sent = ch.sent ++ [x] ∧ (ch.send x).1.dropped = ch.dropped) ∨
      ((ch.send x).1.sent = ch.sent ∧ (ch.send x).1.dropped = true) := by
  unfold Channel.send
  split
  · exact Or.inl ⟨rfl, rfl⟩
  · exact Or.inr ⟨rfl, rfl⟩

theorem send_frame (ch : Channel) (x : Sent) :
    (ch.send x).1.target = ch.target ∧ (ch.send x).1.fromRev = ch.fromRev ∧
      (ch.send x).1.closed = ch.closed := by
  unfold Channel.send
  split <;> exact ⟨rfl, rfl, rfl⟩

/-- Many sends, one after the other. -/
def sendAll (ch : Channel) (xs : List Sent) : Channel := xs.foldl (fun ch x => (ch.send x).1) ch

theorem sendAll_frame (xs : List Sent) : ∀ ch : Channel, (sendAll ch xs).target = ch.target ∧
    (sendAll ch xs).fromRev = ch.fromRev ∧ (sendAll ch xs).closed = ch.closed := by
  induction xs with
  | nil =>
    intro ch
    exact ⟨rfl, rfl, rfl⟩
  | cons x rest ih =>
    intro ch
    obtain ⟨htarget, hrev, hclosed⟩ := send_frame ch x
    obtain ⟨htarget', hrev', hclosed'⟩ := ih (ch.send x).1
    exact ⟨htarget'.trans htarget, hrev'.trans hrev, hclosed'.trans hclosed⟩

/-- If none is dropped, all are sent. -/
theorem sendAll_sent (xs : List Sent) : ∀ ch : Channel, (sendAll ch xs).dropped = false →
    ch.dropped = false ∧ (sendAll ch xs).sent = ch.sent ++ xs := by
  induction xs with
  | nil =>
    intro ch h
    exact ⟨h, by simp [sendAll]⟩
  | cons x rest ih =>
    intro ch h
    obtain ⟨hd, hsent⟩ := ih (ch.send x).1 h
    rcases send_cases ch x with ⟨hs, hkept⟩ | ⟨_, hdropped⟩
    · refine ⟨hkept.symm.trans hd, hsent.trans ?_⟩
      rw [hs, List.append_assoc]
      rfl
    · rw [hdropped] at hd
      cases hd

theorem mem_sendAll (xs : List Sent) : ∀ ch : Channel, ∀ x ∈ (sendAll ch xs).sent, x ∈ ch.sent ∨ x ∈ xs := by
  induction xs with
  | nil =>
    intro ch x hx
    exact Or.inl hx
  | cons y rest ih =>
    intro ch x hx
    rcases ih (ch.send y).1 x hx with hold | hrest
    · rcases send_cases ch y with ⟨hs, _⟩ | ⟨hs, _⟩
      · rw [hs] at hold
        rcases List.mem_append.mp hold with hold | hnew
        · exact Or.inl hold
        · rw [List.mem_singleton.mp hnew]
          exact Or.inr List.mem_cons_self
      · rw [hs] at hold
        exact Or.inl hold
    · exact Or.inr (List.mem_cons_of_mem _ hrest)

/-- Replayed events are no turns. -/
theorem sendAll_rounds (xs : List Sent) : ∀ ch : Channel, (∀ x ∈ xs, x.live = false) →
    (sendAll ch xs).rounds = ch.rounds := by
  induction xs with
  | nil =>
    intro ch _
    rfl
  | cons x rest ih =>
    intro ch hxs
    have hone : (ch.send x).1.rounds = ch.rounds := by
      unfold Channel.rounds
      rcases send_cases ch x with ⟨hs, _⟩ | ⟨hs, _⟩
      · rw [hs, List.filter_append]
        simp [hxs x List.mem_cons_self]
      · rw [hs]
    exact (ih (ch.send x).1 fun y hy => hxs y (List.mem_cons_of_mem _ hy)).trans hone

/-- What the loop over the log sends. -/
def old (target : Target) (fromRev rev : Int) (log : List WatchEvent) : List Sent :=
  if fromRev > 0 then
    log.zipIdx.filterMap fun p =>
      if target.matches p.1.key && decide (fromRev ≤ p.1.revision) && decide (p.1.revision < rev) then
        some ⟨p.2, false, {p.1 with revision := 0}⟩
      else none
  else []

theorem replay_eq (target : Target) (fromRev rev : Int) (log : List WatchEvent) (ch : Channel) :
    replay target fromRev rev log ch = sendAll ch (old target fromRev rev log) := by
  unfold replay old sendAll
  split
  · rw [List.foldl_filterMap]
    congr 1
    funext ch p
    split <;> rfl
  · rfl

theorem mem_old {target : Target} {fromRev rev : Int} {log : List WatchEvent} {x : Sent}
    (h : x ∈ old target fromRev rev log) :
    x.live = false ∧ ∃ e, log[x.source]? = some e ∧ x.event = {e with revision := 0} := by
  unfold old at h
  split at h
  · obtain ⟨p, hp, hx⟩ := List.mem_filterMap.mp h
    split at hx
    · cases hx
      exact ⟨rfl, p.1, List.mem_zipIdx_iff_getElem?.mp hp, rfl⟩
    · cases hx
  · cases h

/-- In a log with increasing revisions the older events are those before. -/
theorem old_sources (target : Target) (fromRev : Int) {log : List WatchEvent} {event : WatchEvent}
    (hsorted : ∀ e ∈ log, e.revision < event.revision) :
    (old target fromRev event.revision (log ++ [event])).map Sent.source =
      replayed target fromRev (log ++ [event]) log.length := by
  unfold old replayed
  split
  · have hlast : ([event].zipIdx (0 + log.length)).filterMap (fun p =>
        if target.matches p.1.key && decide (fromRev ≤ p.1.revision) &&
            decide (p.1.revision < event.revision) then
          some (⟨p.2, false, {p.1 with revision := 0}⟩ : Sent)
        else none) = [] := by simp
    rw [List.take_left, List.zipIdx_append, List.filterMap_append, hlast, List.append_nil,
      List.map_filterMap, ← List.filterMap_eq_map, List.filterMap_filter]
    apply List.filterMap_congr
    intro p hp
    have hlt := hsorted p.1 (List.mem_of_getElem? (List.mem_zipIdx_iff_getElem?.mp hp))
    by_cases hc : target.matches p.1.key && decide (fromRev ≤ p.1.revision)
    · simp [hc, hlt]
    · simp [hc]
  · rfl

theorem Served.closed {log : List WatchEvent} {bound : Nat} (h : Served log bound ch) :
    Served log bound {ch with closed := true} :=
  ⟨h.plan, h.increasing, h.below, h.matched, h.told⟩

/-- What is left of a channel when the older events have been replayed on it. -/
structure Caught (log : List WatchEvent) (i : Nat) (ch mid : Channel) : Prop where
  target : mid.target = ch.target
  fromRev : mid.fromRev = ch.fromRev
  closed : mid.closed = ch.closed
  rounds : mid.rounds = ch.rounds
  sources : mid.dropped = false →
    ch.dropped = false ∧ mid.sources = ch.sources ++ replayed ch.target ch.fromRev log i
  told : ∀ x ∈ mid.sent, x ∈ ch.sent ∨
    x.live = false ∧ ∃ e, log[x.source]? = some e ∧ x.event = {e with revision := 0}

theorem replay_caught (ch : Channel) {log : List WatchEvent} {event : WatchEvent}
    (hsorted : ∀ e ∈ log, e.revision < event.revision) :
    Caught (log ++ [event]) log.length ch
      (replay ch.target ch.fromRev event.revision (log ++ [event]) ch) := by
  rw [replay_eq]
  obtain ⟨htarget, hrev, hclosed⟩ :=
    sendAll_frame (old ch.target ch.fromRev event.revision (log ++ [event])) ch
  refine ⟨htarget, hrev, hclosed, ?_, ?_, ?_⟩
  · exact sendAll_rounds _ ch fun x hx => (mem_old hx).1
  · intro hd
    obtain ⟨hd', hall⟩ := sendAll_sent _ ch hd
    refine ⟨hd', ?_⟩
    rw [Channel.sources, hall, List.map_append, old_sources ch.target ch.fromRev hsorted]
    rfl
  · intro x hx
    rcases mem_sendAll _ ch x hx with hold | hnew
    · exact Or.inl hold
    · exact Or.inr (mem_old hnew)

/-- What was told before and what was replayed are events of the log. -/
theorem Caught.logged {log : List WatchEvent} {event : WatchEvent} {mid : Channel}
    (hc : Caught (log ++ [event]) log.length ch mid) (h : Served (log ++ [event]) log.length ch) :
    ∀ x ∈ mid.sent, ∃ e, (log ++ [event])[x.source]? = some e ∧
      x.event = if x.live then e else {e with revision := 0} := by
  intro x hx
  rcases hc.told x hx with hold | ⟨hlive, e, he, hx⟩
  · exact h.told x hold
  · rw [hlive]
    exact ⟨e, he, hx⟩

/-- The new event comes last. -/
theorem Caught.taken {log : List WatchEvent} {event : WatchEvent} {mid next : Channel}
    (hc : Caught (log ++ [event]) log.length ch mid) (h : Served (log ++ [event]) log.length ch)
    (hmatch : ch.target.matches event.key = true) (htarget : next.target = mid.target)
    (hrev : next.fromRev = mid.fromRev) (hsent : next.sent = mid.sent ++ [⟨log.length, true, event⟩])
    (hdropped : next.dropped = mid.dropped) : Served (log ++ [event]) (log.length + 1) next := by
  have hevent : (log ++ [event])[log.length]? = some event := by simp
  have hrounds : next.rounds = ch.rounds ++ [log.length] := by
    rw [← hc.rounds, Channel.rounds, hsent, List.filter_append, List.map_append]
    rfl
  refine ⟨?_, ?_, ?_, ?_, ?_⟩
  · intro hd
    rw [hdropped] at hd
    obtain ⟨hd', hsources⟩ := hc.sources hd
    have hlast : next.sources = mid.sources ++ [log.length] := by
      rw [Channel.sources, hsent, List.map_append]
      rfl
    rw [hlast, hsources, h.plan hd', hrounds, htarget, hrev, hc.target, hc.fromRev, List.flatMap_append]
    simp
  · rw [hrounds]
    refine List.pairwise_append.mpr ⟨h.increasing, List.pairwise_singleton _ _, ?_⟩
    intro i hi j hj
    rw [List.mem_singleton.mp hj]
    exact h.below i hi
  · intro i hi
    rw [hrounds] at hi
    rcases List.mem_append.mp hi with hi | hi
    · exact (h.below i hi).trans (Nat.lt_succ_self _)
    · rw [List.mem_singleton.mp hi]
      exact Nat.lt_succ_self _
  · intro i hi
    rw [hrounds] at hi
    rw [htarget, hc.target]
    rcases List.mem_append.mp hi with hi | hi
    · exact h.matched i hi
    · rw [List.mem_singleton.mp hi]
      exact ⟨event, hevent, hmatch⟩
  · intro x hx
    rw [hsent] at hx
    rcases List.mem_append.mp hx with hx | hx
    · exact hc.logged h x hx
    · rw [List.mem_singleton.mp hx]
      exact ⟨event, hevent, rfl⟩

/-- The new event found no room: no turn after all. -/
theorem Caught.missed {log : List WatchEvent} {event : WatchEvent} {mid next : Channel}
    (hc : Caught (log ++ [event]) log.length ch mid) (h : Served (log ++ [event]) log.length ch)
    (htarget : next.target = mid.target) (hsent : next.sent = mid.sent) (hdropped : next.dropped = true) :
    Served (log ++ [event]) (log.length + 1) next := by
  have hrounds : next.rounds = ch.rounds := by
    rw [← hc.rounds, Channel.rounds, hsent]
    rfl
  refine ⟨?_, ?_, ?_, ?_, ?_⟩
  · intro hd
    rw [hdropped] at hd
    cases hd
  · rw [hrounds]
    exact h.increasing
  · rw [hrounds]
    exact fun i hi => (h.below i hi).trans (Nat.lt_succ_self _)
  · rw [hrounds, htarget, hc.target]
    exact h.matched
  · rw [hsent]
    exact hc.logged h

theorem Caught.send {log : List WatchEvent} {event : WatchEvent} {mid : Channel}
    (hc : Caught (log ++ [event]) log.length ch mid) (h : Served (log ++ [event]) log.length ch)
    (hmatch : ch.target.matches event.key = true) :
    Served (log ++ [event]) (log.length + 1) (mid.send ⟨log.length, true, event⟩).1 := by
  obtain ⟨htarget, hrev, _⟩ := send_frame mid ⟨log.length, true, event⟩
  rcases send_cases mid ⟨log.length, true, event⟩ with ⟨hsent, hdropped⟩ | ⟨hsent, hdropped⟩
  · exact hc.taken h hmatch htarget hrev hsent hdropped
  · exact hc.missed h htarget hsent hdropped

/-- A turn of a watcher that the event concerns. -/
theorem serve_served {log : List WatchEvent} {event : WatchEvent} {info : WatcherInfo}
    (h : Served (log ++ [event]) log.length ch) (hinfo : info.fromRev = ch.fromRev)
    (hmatch : ch.target.matches event.key = true) (hsorted : ∀ e ∈ log, e.revision < event.revision) :
    Served (log ++ [event]) (log.length + 1) (serve ch.target info (log ++ [event]) event ch).1 := by
  have hturn := (replay_caught ch hsorted).send h hmatch
  have hlast : (log ++ [event]).length - 1 = log.length := by simp
  unfold serve
  rw [hinfo, hlast]
  dsimp only
  split
  · exact hturn.closed
  · exact hturn

/-- Sending old events is no turn, and leaves a channel open that was. -/
theorem replay_frame (target : Target) (fromRev rev : Int) (log : List WatchEvent) (ch : Channel) :
    (replay target fromRev rev log ch).target = ch.target ∧
      (replay target fromRev rev log ch).fromRev = ch.fromRev ∧
      (replay target fromRev rev log ch).closed = ch.closed ∧
      (replay target fromRev rev log ch).rounds = ch.rounds := by
  rw [replay_eq]
  obtain ⟨htarget, hrev, hclosed⟩ := sendAll_frame (old target fromRev rev log) ch
  exact ⟨htarget, hrev, hclosed, sendAll_rounds _ ch fun x hx => (mem_old hx).1⟩

/-- A turn is for the same watcher. The watcher stays and its channel is as open as before, without
a new event unless it is persistent; or it had its event and the channel is closed. -/
theorem serve_cases (target : Target) (info : WatcherInfo) (log : List WatchEvent) (event : WatchEvent)
    (ch : Channel) :
    (serve target info log event ch).1.target = ch.target ∧
      (serve target info log event ch).1.fromRev = ch.fromRev ∧
      (((serve target info log event ch).2 = true ∧
          (serve target info log event ch).1.closed = ch.closed ∧
          (info.persistent = false → (serve target info log event ch).1.rounds = ch.rounds)) ∨
        ((serve target info log event ch).2 = false ∧
          (serve target info log event ch).1.closed = true ∧
          (serve target info log event ch).1.rounds.length = ch.rounds.length + 1)) := by
  unfold serve
  obtain ⟨htarget, hrev, hclosed, hrounds⟩ := replay_frame target info.fromRev event.revision log ch
  generalize replay target info.fromRev event.revision log ch = mid at *
  rw [← htarget, ← hrev, ← hclosed, ← hrounds]
  unfold Channel.send Channel.rounds
  cases info.persistent with
  | true =>
    split
    · exact ⟨rfl, rfl, Or.inl ⟨rfl, rfl, nofun⟩⟩
    · exact ⟨rfl, rfl, Or.inl ⟨rfl, rfl, nofun⟩⟩
  | false =>
    split
    · exact ⟨rfl, rfl, Or.inr ⟨rfl, rfl, by simp⟩⟩
    · exact ⟨rfl, rfl, Or.inl ⟨rfl, rfl, fun _ => rfl⟩⟩

end Turn

/-! ### The manager -/

namespace WatchManager
variable {wm : WatchManager}

@[simp] theorem registry_setRegistry (wm : WatchManager) (target t : Target) (infos : GoMap Nat WatcherInfo) :
    (wm.setRegistry target infos).registry t = if target = t then infos else wm.registry t := by
  cases target with
  | exact key =>
    cases t with
    | exact k => by_cases hk : key = k <;> simp [setRegistry, registry, hk]
    | under p => simp [setRegistry, registry]
  | under keyPrefix =>
    cases t with
    | exact k => simp [setRegistry, registry]
    | under p => by_cases hp : keyPrefix = p <;> simp [setRegistry, registry, hp]

@[simp] theorem setRegistry_channels (wm : WatchManager) (target : Target) (infos : GoMap Nat WatcherInfo) :
    (wm.setRegistry target infos).channels = wm.channels := by
  cases target <;> rfl

@[simp] theorem setRegistry_eventLog (wm : WatchManager) (target : Target) (infos : GoMap Nat WatcherInfo) :
    (wm.setRegistry target infos).eventLog = wm.eventLog := by
  cases target <;> rfl

@[simp] theorem setRegistry_nextID (wm : WatchManager) (target : Target) (infos : GoMap Nat WatcherInfo) :
    (wm.setRegistry target infos).nextID = wm.nextID := by
  cases target <;> rfl

/-- An empty map is as good as none. -/
theorem forgetEmpty_frame (wm : WatchManager) (target : Target) :
    (∀ t, (wm.forgetEmpty target).registry t = wm.registry t) ∧
      (wm.forgetEmpty target).channels = wm.channels ∧ (wm.forgetEmpty target).eventLog = wm.eventLog ∧
      (wm.forgetEmpty target).nextID = wm.nextID := by
  unfold forgetEmpty
  split
  · rename_i hempty
    have hnone := Std.ExtTreeMap.isEmpty_iff.mp hempty
    cases target with
    | exact key =>
      refine ⟨?_, rfl, rfl, rfl⟩
      intro t
      cases t with
      | exact k =>
        by_cases hk : key = k
        · rw [← hk, hnone]
          simp [registry]
        · simp [registry, hk]
      | under p => rfl
    | under keyPrefix =>
      refine ⟨?_, rfl, rfl, rfl⟩
      intro t
      cases t with
      | exact k => rfl
      | under p =>
        by_cases hp : keyPrefix = p
        · rw [← hp, hnone]
          simp [registry]
        · simp [registry, hp]
  · exact ⟨fun _ => rfl, rfl, rfl, rfl⟩

theorem foldl_eventLog {α : Type} {body : WatchManager → α → WatchManager}
    (hbody : ∀ wm x, (body wm x).eventLog = wm.eventLog) (l : List α) (wm : WatchManager) :
    (l.foldl body wm).eventLog = wm.eventLog := by
  refine List.foldlRecOn (motive := fun mid : WatchManager => mid.eventLog = wm.eventLog) l body rfl ?_
  intro mid hmid x _
  exact (hbody mid x).trans hmid

theorem serveOne_eventLog (target : Target) (event : WatchEvent) (wm : WatchManager) (id : Nat) :
    (serveOne target event wm id).eventLog = wm.eventLog := by
  unfold serveOne
  split
  · dsimp only
    split
    · rfl
    · simp
  · rfl

theorem notifyTarget_eventLog (order : MapOrder) (event : WatchEvent) (wm : WatchManager)
    (target : Target) : (notifyTarget order event wm target).eventLog = wm.eventLog := by
  unfold notifyTarget
  rw [(forgetEmpty_frame _ target).2.2.1]
  exact foldl_eventLog (serveOne_eventLog target event) _ wm

theorem notifyPrefixWatchers_eventLog (order : MapOrder) (event : WatchEvent) (wm : WatchManager) :
    (wm.notifyPrefixWatchers order event).eventLog = wm.eventLog :=
  foldl_eventLog (fun wm p => notifyTarget_eventLog order event wm (.under p)) _ wm

/-- Watchers leave the log alone. -/
theorem notifyWatchers_eventLog (order : MapOrder) (cmd : Command) (wm : WatchManager) :
    (wm.notifyWatchers order cmd).eventLog = wm.eventLog ++ (watchEvent cmd).toList := by
  unfold notifyWatchers
  split
  · rename_i hnone
    simp [hnone]
  · rename_i event hevent
    rw [notifyPrefixWatchers_eventLog, notifyExactWatchers, notifyTarget_eventLog, hevent]
    rfl

/-- A registered watcher has an open channel, made for it. So no send or close meets a
closed channel, and no watcher is registered twice. -/
structure Linked (wm : WatchManager) : Prop where
  isOpen : ∀ (t : Target) (id : Nat) (info : WatcherInfo), (wm.registry t)[id]? = some info →
    ∃ ch : Channel, wm.channels[id]? = some ch ∧ ch.target = t ∧ ch.fromRev = info.fromRev ∧
      ch.closed = false
  known : ∀ (id : Nat) (ch : Channel), wm.channels[id]? = some ch → id ≤ wm.nextID

theorem Linked.unique (h : Linked wm) {t t' : Target} {id : Nat} {info info' : WatcherInfo}
    (ht : (wm.registry t)[id]? = some info) (ht' : (wm.registry t')[id]? = some info') : t = t' := by
  obtain ⟨ch, hch, htarget, _⟩ := h.isOpen t id info ht
  obtain ⟨ch', hch', htarget', _⟩ := h.isOpen t' id info' ht'
  rw [hch] at hch'
  cases hch'
  exact htarget.symm.trans htarget'

theorem Linked.forgetEmpty (h : Linked wm) (target : Target) : Linked (wm.forgetEmpty target) := by
  obtain ⟨hregistry, hchannels, _, hnext⟩ := wm.forgetEmpty_frame target
  refine ⟨?_, ?_⟩
  · intro t id info hinfo
    rw [hregistry] at hinfo
    rw [hchannels]
    exact h.isOpen t id info hinfo
  · rw [hchannels, hnext]
    exact h.known

/-- If one watcher may have gone and that is all, the others are there as before, and nobody is new. -/
theorem registry_of_change {t : Target} {id : Nat} {wm' : WatchManager}
    (h : (∀ t', wm'.registry t' = wm.registry t') ∨
      ∀ t', wm'.registry t' = if t = t' then (wm.registry t).erase id else wm.registry t') :
    (∀ (t' : Target) (i : Nat), id ≠ i → (wm'.registry t')[i]? = (wm.registry t')[i]?) ∧
      ∀ (t' : Target) (i : Nat) (info : WatcherInfo), (wm'.registry t')[i]? = some info →
        (wm.registry t')[i]? = some info := by
  rcases h with hsame | hgone
  · exact ⟨fun t' i _ => by rw [hsame], fun t' i info hinfo => by rwa [hsame] at hinfo⟩
  · refine ⟨?_, ?_⟩
    · intro t' i hne
      rw [hgone]
      split
      · rename_i ht
        rw [GoMap.get_erase, if_neg hne, ht]
      · rfl
    · intro t' i info hinfo
      rw [hgone] at hinfo
      split at hinfo
      · rename_i ht
        rw [GoMap.get_erase, ht] at hinfo
        split at hinfo
        · cases hinfo
        · exact hinfo
      · exact hinfo

/-- One watcher's channel changes, and the watcher stays or goes. -/
theorem Linked.change (h : Linked wm) (ch' : Channel) {t : Target} {id : Nat} {info : WatcherInfo}
    {ch : Channel} (hinfo : (wm.registry t)[id]? = some info) (hch : wm.channels[id]? = some ch)
    (htarget : ch'.target = ch.target) (hrev : ch'.fromRev = ch.fromRev) {wm' : WatchManager}
    (hchannels : ∀ i, wm'.channels[i]? = if id = i then some ch' else wm.channels[i]?)
    (hnext : wm'.nextID = wm.nextID)
    (hregistry : (∀ t', wm'.registry t' = wm.registry t') ∧ ch'.closed = ch.closed ∨
      ∀ t', wm'.registry t' = if t = t' then (wm.registry t).erase id else wm.registry t') :
    Linked wm' := by
  obtain ⟨hother, hold⟩ := registry_of_change (hregistry.imp_left And.left)
  refine ⟨?_, ?_⟩
  · intro t' id' info' hinfo'
    rw [hchannels]
    by_cases hid : id = id'
    · subst hid
      have ht := h.unique hinfo (hold t' id info' hinfo')
      subst ht
      rw [if_pos rfl]
      rcases hregistry with ⟨hsame, hclosed⟩ | hgone
      · rw [hsame] at hinfo'
        obtain ⟨old, hold', hold_target, hold_rev, hold_open⟩ := h.isOpen t id info' hinfo'
        rw [hch] at hold'
        cases hold'
        exact ⟨ch', rfl, htarget.trans hold_target, hrev.trans hold_rev, hclosed.trans hold_open⟩
      · rw [hgone, if_pos rfl, GoMap.get_erase, if_pos rfl] at hinfo'
        cases hinfo'
    · rw [if_neg hid]
      exact h.isOpen t' id' info' (hold t' id' info' hinfo')
  · intro i c hc
    rw [hchannels] at hc
    rw [hnext]
    split at hc
    · rename_i hid
      rw [← hid]
      exact h.known id ch hch
    · exact h.known i c hc

/-- A turn of a watcher: nobody is there, or the channel changes and the watcher stays or goes. -/
theorem serveOne_cases (target : Target) (event : WatchEvent) (wm : WatchManager) (id : Nat) :
    serveOne target event wm id = wm ∨ ∃ (info : WatcherInfo) (ch ch' : Channel),
      (wm.registry target)[id]? = some info ∧ wm.channels[id]? = some ch ∧
      ch' = (serve target info wm.eventLog event ch).1 ∧
      (∀ i, (serveOne target event wm id).channels[i]? = if id = i then some ch' else wm.channels[i]?) ∧
      (serveOne target event wm id).nextID = wm.nextID ∧
      ((∀ t, (serveOne target event wm id).registry t = wm.registry t) ∧ ch'.closed = ch.closed ∧
          (info.persistent = false → ch'.rounds = ch.rounds) ∨
        (∀ t, (serveOne target event wm id).registry t =
            if target = t then (wm.registry target).erase id else wm.registry t) ∧
          ch'.closed = true ∧ ch'.rounds.length = ch.rounds.length + 1) := by
  unfold serveOne
  cases hinfo : (wm.registry target)[id]? with
  | none => exact Or.inl rfl
  | some info =>
    cases hch : wm.channels[id]? with
    | none => exact Or.inl rfl
    | some ch =>
      refine Or.inr ⟨info, ch, _, rfl, rfl, rfl, ?_⟩
      dsimp only
      obtain ⟨_, _, ⟨hstays, hturn⟩ | ⟨hgoes, hturn⟩⟩ := serve_cases target info wm.eventLog event ch
      · rw [if_pos hstays]
        exact ⟨fun i => GoMap.get_insert .., rfl, Or.inl ⟨fun _ => rfl, hturn⟩⟩
      · rw [if_neg (by simp [hgoes])]
        refine ⟨fun i => by simp, by simp, Or.inr ⟨fun t => ?_, hturn⟩⟩
        exact registry_setRegistry ..

theorem Linked.serveOne (h : Linked wm) (target : Target) (event : WatchEvent) (id : Nat) :
    Linked (serveOne target event wm id) := by
  rcases serveOne_cases target event wm id with
    hsame | ⟨info, ch, ch', hinfo, hch, rfl, hchannels, hnext, hregistry⟩
  · rwa [hsame]
  · obtain ⟨htarget, hrev, _⟩ := serve_cases target info wm.eventLog event ch
    refine h.change _ hinfo hch htarget hrev hchannels hnext ?_
    rcases hregistry with ⟨hsame, hclosed, _⟩ | ⟨hgone, _⟩
    · exact Or.inl ⟨hsame, hclosed⟩
    · exact Or.inr hgone

/-- Between calls: the channels are linked, have had their turns, and the log is in order. -/
structure Inv (wm : WatchManager) : Prop where
  linked : Linked wm
  served : ∀ (id : Nat) (ch : Channel), wm.channels[id]? = some ch →
    Served wm.eventLog wm.eventLog.length ch
  sorted : wm.eventLog.Pairwise fun a b => a.revision < b.revision

/-! ### One watcher in a notification -/

/-- Nothing has changed for a watcher. -/
structure SameFor (id : Nat) (wm wm' : WatchManager) : Prop where
  channel : wm'.channels[id]? = wm.channels[id]?
  registered : ∀ t, (wm'.registry t)[id]? = (wm.registry t)[id]?

section SameFor
variable {id : Nat} {wm' wm'' : WatchManager}

theorem SameFor.refl (wm : WatchManager) : SameFor id wm wm := ⟨rfl, fun _ => rfl⟩

theorem SameFor.trans (h : SameFor id wm wm') (h' : SameFor id wm' wm'') : SameFor id wm wm'' :=
  ⟨h'.channel.trans h.channel, fun t => (h'.registered t).trans (h.registered t)⟩

theorem SameFor.forgetEmpty (wm : WatchManager) (t : Target) : SameFor id wm (wm.forgetEmpty t) := by
  obtain ⟨hregistry, hchannels, _⟩ := wm.forgetEmpty_frame t
  exact ⟨by rw [hchannels], fun t' => by rw [hregistry]⟩

end SameFor

section Turns
variable {order : MapOrder} {event : WatchEvent} {t : Target} {id : Nat}

theorem serveOne_other {i : Nat} (hne : i ≠ id) : SameFor id wm (serveOne t event wm i) := by
  rcases serveOne_cases t event wm i with hsame | ⟨info, ch, ch', _, _, _, hchannels, _, hregistry⟩
  · rw [hsame]
    exact .refl wm
  · have hkept := registry_of_change (hregistry.imp And.left And.left)
    exact ⟨by rw [hchannels, if_neg hne], fun t' => hkept.1 t' id hne⟩

theorem serveOne_absent (hnone : (wm.registry t)[id]? = none) : serveOne t event wm id = wm := by
  unfold serveOne
  rw [hnone]

/-- A turn is under one target. -/
theorem serveOne_registered {t' : Target} (hne : t' ≠ t) :
    ((serveOne t event wm id).registry t')[id]? = (wm.registry t')[id]? := by
  rcases serveOne_cases t event wm id with hsame | ⟨_, _, _, _, _, _, _, _, ⟨hsame, _⟩ | ⟨hgone, _⟩⟩
  · rw [hsame]
  · rw [hsame]
  · rw [hgone, if_neg hne.symm]

/-- A turn depends on nothing but the watcher and the log. -/
theorem serveOne_congr {wm' : WatchManager} (h : SameFor id wm wm') (hlog : wm'.eventLog = wm.eventLog) :
    SameFor id (serveOne t event wm id) (serveOne t event wm' id) := by
  unfold serveOne
  rw [h.registered, h.channel, hlog]
  split
  · dsimp only
    split
    · exact ⟨by simp, h.registered⟩
    · refine ⟨by simp, fun t' => ?_⟩
      rw [registry_setRegistry, registry_setRegistry]
      split
      · rw [GoMap.get_erase, GoMap.get_erase, if_pos rfl, if_pos rfl]
      · exact h.registered t'
  · exact h

theorem serveIds_other (ids : List Nat) : ∀ wm : WatchManager, id ∉ ids →
    SameFor id wm (ids.foldl (serveOne t event) wm) := by
  induction ids with
  | nil =>
    intro wm _
    exact .refl wm
  | cons i rest ih =>
    intro wm hid
    rw [List.mem_cons, not_or] at hid
    exact (serveOne_other (Ne.symm hid.1)).trans (ih _ hid.2)

/-- The loop over the watchers of a target. -/
theorem serveIds_turn (ids : List Nat) : ∀ wm : WatchManager, ids.Nodup → id ∈ ids →
    SameFor id (serveOne t event wm id) (ids.foldl (serveOne t event) wm) := by
  induction ids with
  | nil => nofun
  | cons i rest ih =>
    intro wm hnodup hid
    obtain ⟨hnew, hrest⟩ := List.nodup_cons.mp hnodup
    by_cases heq : i = id
    · subst heq
      exact serveIds_other rest _ hnew
    · have hmem : id ∈ rest := (List.mem_cons.mp hid).resolve_left (Ne.symm heq)
      exact (serveOne_congr (serveOne_other heq) (serveOne_eventLog ..)).trans (ih _ hrest hmem)

/-- Whoever is registered under the target has a turn. -/
theorem notifyTarget_turn (order : MapOrder) (event : WatchEvent) (wm : WatchManager) (t : Target) (id : Nat) :
    SameFor id (serveOne t event wm id) (notifyTarget order event wm t) := by
  have hnodup : (order.ids (wm.registry t).keys).Nodup :=
    (order.permIds _).nodup_iff.mpr Std.ExtTreeMap.nodup_keys
  by_cases hid : id ∈ order.ids (wm.registry t).keys
  · exact (serveIds_turn _ wm hnodup hid).trans (.forgetEmpty _ t)
  · have hnone : (wm.registry t)[id]? = none := by
      rw [(order.permIds _).mem_iff, Std.ExtTreeMap.mem_keys] at hid
      exact Std.ExtTreeMap.getElem?_eq_none hid
    rw [serveOne_absent hnone]
    exact (serveIds_other _ wm hid).trans (.forgetEmpty _ t)

theorem notifyTarget_absent (hnone : (wm.registry t)[id]? = none) :
    SameFor id wm (notifyTarget order event wm t) := by
  have hturn := notifyTarget_turn order event wm t id
  rwa [serveOne_absent hnone] at hturn

theorem notifyTargets_other (targets : List Target) : ∀ wm : WatchManager,
    (∀ t ∈ targets, (wm.registry t)[id]? = none) →
      SameFor id wm (targets.foldl (notifyTarget order event) wm) := by
  induction targets with
  | nil =>
    intro wm _
    exact .refl wm
  | cons t rest ih =>
    intro wm hnone
    have hone : SameFor id wm (notifyTarget order event wm t) :=
      notifyTarget_absent (hnone t List.mem_cons_self)
    refine hone.trans (ih _ fun t' ht' => ?_)
    rw [hone.registered]
    exact hnone t' (List.mem_cons_of_mem _ ht')

/-- The loop over the targets: a watcher that is registered under one of them has one turn. -/
theorem notifyTargets_turn (targets : List Target) : ∀ wm : WatchManager, targets.Nodup → t ∈ targets →
    (∀ t', t' ≠ t → (wm.registry t')[id]? = none) →
      SameFor id (serveOne t event wm id) (targets.foldl (notifyTarget order event) wm) := by
  induction targets with
  | nil => nofun
  | cons u rest ih =>
    intro wm hnodup ht hnone
    obtain ⟨hnew, hrest⟩ := List.nodup_cons.mp hnodup
    by_cases heq : u = t
    · subst heq
      have hone := notifyTarget_turn order event wm u id
      refine hone.trans (notifyTargets_other rest _ fun t' ht' => ?_)
      have hne : t' ≠ u := fun heq => hnew (heq ▸ ht')
      rw [hone.registered, serveOne_registered hne]
      exact hnone t' hne
    · have hone : SameFor id wm (notifyTarget order event wm u) := notifyTarget_absent (hnone u heq)
      have hmem : t ∈ rest := (List.mem_cons.mp ht).resolve_left (Ne.symm heq)
      refine (serveOne_congr hone (notifyTarget_eventLog ..)).trans (ih _ hrest hmem fun t' ht' => ?_)
      rw [hone.registered]
      exact hnone t' ht'

/-- Whoever is registered under a prefix, the prefix is in the map. -/
theorem mem_prefixWatchers {p : Bytes} {info : WatcherInfo} (hinfo : (wm.registry (.under p))[id]? = some info) :
    p ∈ wm.prefixWatchers := by
  by_contra hnot
  simp [registry, Std.ExtTreeMap.getElem?_eq_none hnot] at hinfo

/-- A notification goes over the targets that watch the key. -/
theorem notifyWatchers_targets {cmd : Command} (hevent : watchEvent cmd = some event) (order : MapOrder)
    (wm : WatchManager) : ∃ targets : List Target, targets.Nodup ∧
      (∀ t ∈ targets, t.matches event.key = true) ∧
      (∀ (t : Target) (id : Nat) (info : WatcherInfo), (wm.registry t)[id]? = some info →
        t.matches event.key = true → t ∈ targets) ∧
      wm.notifyWatchers order cmd =
        targets.foldl (notifyTarget order event) {wm with eventLog := wm.eventLog ++ [event]} := by
  let logged := {wm with eventLog := wm.eventLog ++ [event]}
  let prefixes := (order.keys (notifyExactWatchers logged order event).prefixWatchers.keys).filter
    fun p => KVStore.hasPrefix event.key p
  have hprefixes : prefixes.Nodup := ((order.permKeys _).nodup_iff.mpr Std.ExtTreeMap.nodup_keys).filter _
  refine ⟨.exact event.key :: prefixes.map .under, ?_, ?_, ?_, ?_⟩
  · refine List.nodup_cons.mpr ⟨by simp, hprefixes.map ?_⟩
    intro p q heq
    cases heq
    rfl
  · intro t ht
    rcases List.mem_cons.mp ht with rfl | ht
    · simp [Target.matches]
    · obtain ⟨p, hp, rfl⟩ := List.mem_map.mp ht
      exact (List.mem_filter.mp hp).2
  · intro t id info hinfo hmatch
    cases t with
    | exact key =>
      obtain rfl : event.key = key := by simpa [Target.matches] using hmatch
      exact List.mem_cons_self
    | under p =>
      -- the watchers of the key have had their turn, and the prefix is still there
      have hstill : ((notifyExactWatchers logged order event).registry (.under p))[id]? = some info := by
        have hne : Target.under p ≠ .exact event.key := nofun
        rw [notifyExactWatchers, (notifyTarget_turn order event logged (.exact event.key) id).registered,
          serveOne_registered hne]
        exact hinfo
      refine List.mem_cons_of_mem _ (List.mem_map_of_mem (List.mem_filter.mpr ⟨?_, hmatch⟩))
      exact (order.permKeys _).mem_iff.mpr (Std.ExtTreeMap.mem_keys.mpr (mem_prefixWatchers hstill))
  · unfold notifyWatchers
    rw [hevent, List.foldl_cons, List.foldl_map]
    rfl

/-- **A watcher of the key has one turn.** -/
theorem notifyWatchers_turn (h : Linked wm) {cmd : Command} (hevent : watchEvent cmd = some event)
    {info : WatcherInfo} {ch : Channel} (hinfo : (wm.registry t)[id]? = some info)
    (hmatch : t.matches event.key = true) (hch : wm.channels[id]? = some ch) :
    (wm.notifyWatchers order cmd).channels[id]? =
      some (serve t info (wm.eventLog ++ [event]) event ch).1 := by
  obtain ⟨targets, hnodup, _, hall, hrun⟩ := notifyWatchers_targets hevent order wm
  have hnone : ∀ t', t' ≠ t → (wm.registry t')[id]? = none := fun t' hne =>
    Option.eq_none_iff_forall_ne_some.mpr fun info' hinfo' => hne (h.unique hinfo' hinfo)
  have hturn : SameFor id (serveOne t event {wm with eventLog := wm.eventLog ++ [event]} id)
      (wm.notifyWatchers order cmd) := by
    rw [hrun]
    exact notifyTargets_turn targets _ hnodup (hall t id info hinfo hmatch) hnone
  have hone : (serveOne t event {wm with eventLog := wm.eventLog ++ [event]} id).channels[id]? =
      some (serve t info (wm.eventLog ++ [event]) event ch).1 := by
    have hinfo' : ({wm with eventLog := wm.eventLog ++ [event]}.registry t)[id]? = some info := hinfo
    unfold serveOne
    rw [hinfo', hch]
    dsimp only
    split <;> simp
  rw [hturn.channel, hone]

/-- Nobody else is sent anything. -/
theorem notifyWatchers_other {cmd : Command} (hevent : watchEvent cmd = some event)
    (hwatches : ¬∃ t info, (wm.registry t)[id]? = some info ∧ t.matches event.key = true) :
    (wm.notifyWatchers order cmd).channels[id]? = wm.channels[id]? := by
  obtain ⟨targets, _, hmatch, _, hrun⟩ := notifyWatchers_targets hevent order wm
  have hnone : ∀ t ∈ targets, (wm.registry t)[id]? = none := fun t ht =>
    Option.eq_none_iff_forall_ne_some.mpr fun info hinfo => hwatches ⟨t, info, hinfo, hmatch t ht⟩
  rw [hrun]
  exact (notifyTargets_other targets {wm with eventLog := wm.eventLog ++ [event]} hnone).channel

end Turns

theorem Linked.logged (h : Linked wm) (log : List WatchEvent) : Linked {wm with eventLog := log} :=
  ⟨h.isOpen, h.known⟩

theorem Linked.notifyWatchers (h : Linked wm) (order : MapOrder) (cmd : Command) :
    Linked (wm.notifyWatchers order cmd) := by
  cases hevent : watchEvent cmd with
  | none =>
    unfold WatchManager.notifyWatchers
    rwa [hevent]
  | some event =>
    obtain ⟨targets, _, _, _, hrun⟩ := notifyWatchers_targets hevent order wm
    rw [hrun]
    refine List.foldlRecOn _ _ (h.logged _) ?_
    intro mid hmid t _
    refine Linked.forgetEmpty (List.foldlRecOn _ _ hmid ?_) t
    intro mid hmid id _
    exact hmid.serveOne t event id

/-- An event is passed on to everybody it concerns, once. -/
theorem notifyWatchers_inv (h : Inv wm) (order : MapOrder) (cmd : Command)
    (hrule : ∀ event, watchEvent cmd = some event → ∀ e ∈ wm.eventLog, e.revision < event.revision) :
    Inv (wm.notifyWatchers order cmd) := by
  cases hevent : watchEvent cmd with
  | none =>
    unfold notifyWatchers
    rwa [hevent]
  | some event =>
    have hsorted := hrule event hevent
    have hlog : (wm.notifyWatchers order cmd).eventLog = wm.eventLog ++ [event] := by
      rw [notifyWatchers_eventLog, hevent]
      rfl
    refine ⟨h.linked.notifyWatchers order cmd, ?_, ?_⟩
    · intro id ch hch
      rw [hlog, List.length_append]
      by_cases hwatches : ∃ t info, (wm.registry t)[id]? = some info ∧ t.matches event.key = true
      · obtain ⟨t, info, hinfo, hmatch⟩ := hwatches
        obtain ⟨before, hbefore, rfl, hrev, _⟩ := h.linked.isOpen t id info hinfo
        rw [notifyWatchers_turn h.linked hevent hinfo hmatch hbefore] at hch
        cases hch
        exact serve_served ((h.served id before hbefore).append event) hrev.symm hmatch hsorted
      · rw [notifyWatchers_other hevent hwatches] at hch
        exact ((h.served id ch hch).append event).mono (Nat.le_succ _)
    · rw [hlog]
      refine List.pairwise_append.mpr ⟨h.sorted, List.pairwise_singleton _ _, ?_⟩
      intro e he e' he'
      rw [List.mem_singleton.mp he']
      exact hsorted e he

/-! ### The other calls -/

/-- A watcher with a new id. -/
theorem Linked.add (h : Linked wm) (target : Target) (info : WatcherInfo) {wm' : WatchManager}
    (hregistry : ∀ t, wm'.registry t =
      if target = t then (wm.registry target).insert (wm.nextID + 1) info else wm.registry t)
    (hchannels : ∀ i, wm'.channels[i]? =
      if wm.nextID + 1 = i then some (Channel.make target info.fromRev) else wm.channels[i]?)
    (hnext : wm'.nextID = wm.nextID + 1) : Linked wm' := by
  refine ⟨?_, ?_⟩
  · intro t id info' hinfo'
    rw [hchannels]
    rw [hregistry] at hinfo'
    by_cases hid : wm.nextID + 1 = id
    · rw [if_pos hid]
      split at hinfo'
      · rename_i ht
        rw [GoMap.get_insert, if_pos hid] at hinfo'
        cases hinfo'
        exact ⟨_, rfl, ht, rfl, rfl⟩
      · -- nobody had the id before
        obtain ⟨ch, hch, _⟩ := h.isOpen t id info' hinfo'
        have := h.known id ch hch
        omega
    · rw [if_neg hid]
      apply h.isOpen t id info'
      split at hinfo'
      · rename_i ht
        rw [GoMap.get_insert, if_neg hid] at hinfo'
        rw [← ht]
        exact hinfo'
      · exact hinfo'
  · intro id ch hch
    rw [hchannels] at hch
    rw [hnext]
    split at hch
    · omega
    · exact (h.known id ch hch).trans (Nat.le_succ _)

theorem Linked.addWatcherInternal (h : Linked wm) (key keyPrefix : Bytes) (persistent : Bool)
    (now timeout fromRev : Int) :
    Linked (wm.addWatcherInternal key keyPrefix persistent now timeout fromRev) := by
  unfold WatchManager.addWatcherInternal
  generalize (if keyPrefix ≠ [] then Target.under keyPrefix else .exact key) = target
  refine h.add target ⟨wm.nextID + 1, persistent, if timeout > 0 then now + timeout else 0, fromRev⟩ ?_
    (fun i => GoMap.get_insert ..) rfl
  intro t
  exact registry_setRegistry ..

theorem addWatcherInternal_inv (h : Inv wm) (key keyPrefix : Bytes) (persistent : Bool)
    (now timeout fromRev : Int) :
    Inv (wm.addWatcherInternal key keyPrefix persistent now timeout fromRev) := by
  refine ⟨h.linked.addWatcherInternal .., ?_, by simpa [addWatcherInternal] using h.sorted⟩
  intro id ch hch
  unfold addWatcherInternal at hch ⊢
  dsimp only at hch ⊢
  rw [GoMap.get_insert] at hch
  rw [setRegistry_eventLog]
  split at hch
  · cases hch
    exact make_served ..
  · exact h.served id ch hch

/-- What is left when a registered watcher is removed. -/
theorem remove_registered {target : Target} {id : Nat} {info : WatcherInfo} {ch : Channel}
    (hinfo : (wm.registry target)[id]? = some info) (hch : wm.channels[id]? = some ch) :
    wm.remove target id = {wm.setRegistry target ((wm.registry target).erase id) with
      channels := wm.channels.insert id {ch with closed := true}} := by
  have hmodify : (wm.channels.modify id fun ch => {ch with closed := true}) =
      wm.channels.insert id {ch with closed := true} := by
    refine Std.ExtTreeMap.ext_getElem? ?_
    intro i
    rw [GoMap.get_modify, GoMap.get_insert, hch]
    rfl
  unfold remove
  rw [hinfo, Option.isSome_some, if_pos rfl, hmodify]

theorem remove_unregistered {target : Target} {id : Nat} (hnone : (wm.registry target)[id]? = none) :
    wm.remove target id = wm := by
  unfold remove
  rw [hnone]
  rfl

theorem Linked.remove (h : Linked wm) (target : Target) (id : Nat) : Linked (wm.remove target id) := by
  cases hinfo : (wm.registry target)[id]? with
  | none => rwa [remove_unregistered hinfo]
  | some info =>
    obtain ⟨ch, hch, _⟩ := h.isOpen target id info hinfo
    rw [remove_registered hinfo hch]
    refine h.change {ch with closed := true} hinfo hch rfl rfl (fun i => GoMap.get_insert ..) (by simp) (Or.inr ?_)
    intro t
    exact registry_setRegistry ..

theorem remove_inv (h : Inv wm) (target : Target) (id : Nat) : Inv (wm.remove target id) := by
  have hlinked := h.linked.remove target id
  cases hinfo : (wm.registry target)[id]? with
  | none => rwa [remove_unregistered hinfo]
  | some info =>
    obtain ⟨ch, hch, _⟩ := h.linked.isOpen target id info hinfo
    rw [remove_registered hinfo hch] at hlinked ⊢
    refine ⟨hlinked, ?_, by simpa using h.sorted⟩
    intro i c hc
    dsimp only at hc ⊢
    rw [GoMap.get_insert] at hc
    rw [setRegistry_eventLog]
    split at hc
    · cases hc
      exact (h.served id ch hch).closed
    · exact h.served i c hc

theorem forgetEmpty_inv (h : Inv wm) (target : Target) : Inv (wm.forgetEmpty target) := by
  obtain ⟨_, hchannels, hlog, _⟩ := wm.forgetEmpty_frame target
  refine ⟨h.linked.forgetEmpty target, ?_, ?_⟩
  · rw [hchannels, hlog]
    exact h.served
  · rw [hlog]
    exact h.sorted

theorem cleanupExpired_inv (h : Inv wm) (now : Int) : Inv (wm.cleanupExpired now) := by
  refine List.foldlRecOn _ _ h ?_
  intro mid hmid key _
  apply forgetEmpty_inv
  refine List.foldlRecOn _ _ hmid ?_
  intro mid hmid id _
  exact remove_inv hmid (.exact key) id

/-- A reader takes from one buffer. -/
theorem get_receive (wm : WatchManager) (id i : Nat) :
    (wm.receive id).channels[i]? = wm.channels[i]?.map fun ch =>
      if id = i then {ch with buffer := ch.buffer.tail} else ch := by
  rw [receive, GoMap.get_modify]
  split
  · rename_i hid
    rw [hid]
  · simp

theorem Linked.receive (h : Linked wm) (id : Nat) : Linked (wm.receive id) := by
  refine ⟨?_, ?_⟩
  · intro t i info hinfo
    obtain ⟨ch, hch, htarget, hrev, hclosed⟩ := h.isOpen t i info hinfo
    rw [get_receive, hch]
    refine ⟨_, rfl, ?_⟩
    split <;> exact ⟨htarget, hrev, hclosed⟩
  · intro i c hc
    rw [get_receive] at hc
    obtain ⟨ch, hch, _⟩ := Option.map_eq_some_iff.mp hc
    exact h.known i ch hch

theorem receive_inv (h : Inv wm) (id : Nat) : Inv (wm.receive id) := by
  refine ⟨h.linked.receive id, ?_, h.sorted⟩
  intro i c hc
  rw [get_receive] at hc
  obtain ⟨ch, hch, rfl⟩ := Option.map_eq_some_iff.mp hc
  have hserved := h.served i ch hch
  split
  · exact ⟨hserved.plan, hserved.increasing, hserved.below, hserved.matched, hserved.told⟩
  · exact hserved

theorem step_inv (action : Action) (wm wm' : WatchManager) (h : Inv wm) (hr : Increasing action wm)
    (hs : step action wm = some wm') : Inv wm' := by
  cases action with
  | addWatcher key persistent now timeout fromRev =>
    cases hs
    exact addWatcherInternal_inv h key [] persistent now timeout fromRev
  | addPrefixWatcher keyPrefix persistent now timeout fromRev =>
    cases hs
    exact addWatcherInternal_inv h [] keyPrefix persistent now timeout fromRev
  | removeWatcher key id =>
    cases hs
    exact remove_inv h (.exact key) id
  | removePrefixWatcher keyPrefix id =>
    cases hs
    exact remove_inv h (.under keyPrefix) id
  | cleanupExpired now =>
    cases hs
    exact cleanupExpired_inv h now
  | notifyWatchers order cmd =>
    cases hs
    exact notifyWatchers_inv h order cmd hr
  | receive id =>
    cases hs
    exact receive_inv h id

theorem newWatchManager_inv : Inv newWatchManager where
  linked := by
    refine ⟨?_, ?_⟩
    · intro t id info hinfo
      cases t <;> simp [newWatchManager, registry] at hinfo
    · intro id ch hch
      simp [newWatchManager] at hch
  served := by
    intro id ch hch
    simp [newWatchManager] at hch
  sorted := List.Pairwise.nil

end WatchManager

end Wjetcd
