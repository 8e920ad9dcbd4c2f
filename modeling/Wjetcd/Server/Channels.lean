import Wjetcd.Server.Watch

/-! Channels are closed once, and not used afterwards.

In Go a send on a closed channel panics, with a `default` next to it or not, and so does closing a
channel again. Here are the calls of the watch manager with these panics, as `none`.
`channels_closed_once` says that none of them ever happens: whatever is called, a registered watcher
has an open channel, and the call that takes it out of its map closes it.

A sweep takes expired watchers out, but looks at one of the two maps only: `cleanup_collects_iff`. -/
namespace Wjetcd
open Runs

/-! ### Calls that can panic -/

namespace Strict

/-- `select { case ch <- event: default: }` -/
def send (ch : Channel) (x : Sent) : Option (Channel × Bool) := if ch.closed then none else some (ch.send x)

/-- `close(ch)` -/
def close (ch : Channel) : Option Channel := if ch.closed then none else some {ch with closed := true}

def replay (target : Target) (fromRev rev : Int) (log : List WatchEvent) (ch : Channel) : Option Channel :=
  if fromRev > 0 then
    log.zipIdx.foldlM (fun ch p =>
      if target.matches p.1.key && decide (fromRev ≤ p.1.revision) && decide (p.1.revision < rev) then
        (send ch ⟨p.2, false, {p.1 with revision := 0}⟩).map Prod.fst
      else some ch) ch
  else some ch

def serve (target : Target) (info : WatcherInfo) (log : List WatchEvent) (event : WatchEvent)
    (ch : Channel) : Option (Channel × Bool) := do
  let ch ← replay target info.fromRev event.revision log ch
  let result ← send ch ⟨log.length - 1, true, event⟩
  if result.2 && !info.persistent then
    let ch ← close result.1
    some (ch, false)
  else some (result.1, true)

/-- A watcher without a channel would panic too. -/
def remove (wm : WatchManager) (target : Target) (id : Nat) : Option WatchManager :=
  match (wm.registry target)[id]? with
  | none => some wm
  | some _ => do
    let ch ← wm.channels[id]?
    let ch ← close ch
    some {wm.setRegistry target ((wm.registry target).erase id) with channels := wm.channels.insert id ch}

def cleanupTarget (order : MapOrder) (now : Int) (wm : WatchManager) (key : Bytes) : Option WatchManager := do
  let wm ← (order.ids ((wm.registry (.exact key)).filter fun _ info => WatchManager.expired now info).keys).foldlM
    (fun wm id => remove wm (.exact key) id) wm
  some (wm.forgetEmpty (.exact key))

def cleanupExpired (order : MapOrder) (now : Int) (wm : WatchManager) : Option WatchManager :=
  (order.keys wm.watchers.keys).foldlM (cleanupTarget order now) wm

def serveOne (target : Target) (event : WatchEvent) (wm : WatchManager) (id : Nat) : Option WatchManager :=
  match (wm.registry target)[id]? with
  | none => some wm
  | some info => do
    let ch ← wm.channels[id]?
    let result ← serve target info wm.eventLog event ch
    let wm := {wm with channels := wm.channels.insert id result.1}
    if result.2 then some wm else some (wm.setRegistry target ((wm.registry target).erase id))

def notifyTarget (order : MapOrder) (event : WatchEvent) (wm : WatchManager) (target : Target) :
    Option WatchManager := do
  let wm ← (order.ids (wm.registry target).keys).foldlM (serveOne target event) wm
  some (wm.forgetEmpty target)

def notifyPrefixWatchers (order : MapOrder) (event : WatchEvent) (wm : WatchManager) : Option WatchManager :=
  ((order.keys wm.prefixWatchers.keys).filter fun p => KVStore.hasPrefix event.key p).foldlM
    (fun wm p => notifyTarget order event wm (.under p)) wm

def notifyWatchers (order : MapOrder) (cmd : Command) (wm : WatchManager) : Option WatchManager :=
  match watchEvent cmd with
  | none => some wm
  | some event => do
    let wm ← notifyTarget order event {wm with eventLog := wm.eventLog ++ [event]} (.exact event.key)
    notifyPrefixWatchers order event wm

/-- A call, and the order in which a sweep iterates over its maps. -/
structure Call where
  action : WatchManager.Action
  order : MapOrder

def step (call : Call) (wm : WatchManager) : Option WatchManager :=
  match call.action with
  | .addWatcher key persistent now timeout fromRev =>
    some (wm.addWatcher key persistent now timeout fromRev)
  | .addPrefixWatcher keyPrefix persistent now timeout fromRev =>
    some (wm.addPrefixWatcher keyPrefix persistent now timeout fromRev)
  | .removeWatcher key id => remove wm (.exact key) id
  | .removePrefixWatcher keyPrefix id => remove wm (.under keyPrefix) id
  | .cleanupExpired now => cleanupExpired call.order now wm
  | .notifyWatchers order cmd => notifyWatchers order cmd wm
  | .receive id => some (wm.receive id)

end Strict

/-! ### The same calls without panics -/

namespace WatchManager
variable {wm : WatchManager}

def perform (call : Strict.Call) (wm : WatchManager) : WatchManager :=
  match call.action with
  | .cleanupExpired now => cleanupIn call.order now wm
  | action => (step action wm).getD wm

/-- Sweeping in ascending order is what `step` does. -/
theorem step_ascending (action : Action) (wm : WatchManager) :
    step action wm = some (perform ⟨action, .ascending⟩ wm) := by
  cases action <;> rfl

/-! ### What becomes of a watcher -/

/-- What a call may do. A closed channel is not touched but by its reader. A watcher stays as it
is, or goes and has its channel closed; one that is not persistent gets an event only when it
goes. New watchers have new ids and have got nothing. -/
structure Follows (wm wm' : WatchManager) : Prop where
  counter : wm.nextID ≤ wm'.nextID
  old : ∀ (t : Target) (id : Nat) (info : WatcherInfo), id ≤ wm.nextID →
    (wm'.registry t)[id]? = some info → (wm.registry t)[id]? = some info
  fresh : ∀ (t : Target) (id : Nat) (info : WatcherInfo), wm.nextID < id → info.persistent = false →
    (wm'.registry t)[id]? = some info → ∃ ch : Channel, wm'.channels[id]? = some ch ∧ ch.rounds = []
  closed : ∀ (id : Nat) (ch : Channel), wm.channels[id]? = some ch → ch.closed = true →
    ∃ ch' : Channel, wm'.channels[id]? = some ch' ∧ ch'.closed = true ∧ ch'.sent = ch.sent
  leaves : ∀ (t : Target) (id : Nat) (info : WatcherInfo) (ch : Channel), id ≤ wm.nextID →
    (wm.registry t)[id]? = some info → wm.channels[id]? = some ch →
    ∃ ch' : Channel, wm'.channels[id]? = some ch' ∧
      (((wm'.registry t)[id]? = some info ∧ (info.persistent = false → ch'.rounds = ch.rounds)) ∨
        ((wm'.registry t)[id]? = none ∧ ch'.closed = true ∧
          (info.persistent = false → ch'.rounds.length ≤ ch.rounds.length + 1)))

theorem Linked.registered_le (h : Linked wm) {t : Target} {id : Nat} {info : WatcherInfo}
    (hinfo : (wm.registry t)[id]? = some info) : id ≤ wm.nextID := by
  obtain ⟨ch, hch, _⟩ := h.isOpen t id info hinfo
  exact h.known id ch hch

theorem Follows.trans {a b c : WatchManager} (h : Follows a b) (h' : Follows b c) : Follows a c where
  counter := h.counter.trans h'.counter
  old t id info hid hc := h.old t id info hid (h'.old t id info (hid.trans h.counter) hc)
  fresh t id info hid hp hc := by
    by_cases hnew : b.nextID < id
    · exact h'.fresh t id info hnew hp hc
    · have hb := h'.old t id info (by omega) hc
      obtain ⟨mid, hmid, hrounds⟩ := h.fresh t id info hid hp hb
      obtain ⟨last, hlast, ⟨_, hsame⟩ | ⟨hgone, _⟩⟩ := h'.leaves t id info mid (by omega) hb hmid
      · exact ⟨last, hlast, (hsame hp).trans hrounds⟩
      · rw [hc] at hgone
        cases hgone
  closed id ch hch hclosed := by
    obtain ⟨mid, hmid, hclosed', hsent⟩ := h.closed id ch hch hclosed
    obtain ⟨last, hlast, hclosed'', hsent'⟩ := h'.closed id mid hmid hclosed'
    exact ⟨last, hlast, hclosed'', hsent'.trans hsent⟩
  leaves t id info ch hid hinfo hch := by
    obtain ⟨mid, hmid, ⟨hstays, hrounds⟩ | ⟨hgone, hclosed, hrounds⟩⟩ := h.leaves t id info ch hid hinfo hch
    · obtain ⟨last, hlast, ⟨hstays', hrounds'⟩ | ⟨hgone', hclosed', hrounds'⟩⟩ :=
        h'.leaves t id info mid (hid.trans h.counter) hstays hmid
      · exact ⟨last, hlast, Or.inl ⟨hstays', fun hp => (hrounds' hp).trans (hrounds hp)⟩⟩
      · refine ⟨last, hlast, Or.inr ⟨hgone', hclosed', fun hp => ?_⟩⟩
        rw [← hrounds hp]
        exact hrounds' hp
    · -- nothing comes back, and nothing is sent any more
      obtain ⟨last, hlast, hclosed', hsent⟩ := h'.closed id mid hmid hclosed
      have hsame : last.rounds = mid.rounds := by rw [Channel.rounds, hsent, Channel.rounds]
      refine ⟨last, hlast, Or.inr ⟨?_, hclosed', fun hp => hsame.symm ▸ hrounds hp⟩⟩
      by_contra hback
      obtain ⟨other, hother⟩ := Option.ne_none_iff_exists'.mp hback
      rw [h'.old t id other (hid.trans h.counter) hother] at hgone
      cases hgone

/-- Nobody goes, and nothing is sent or closed. -/
theorem Follows.kept {wm' : WatchManager} (hnext : wm.nextID ≤ wm'.nextID)
    (hregistry : ∀ (t : Target) (id : Nat), id ≤ wm.nextID → (wm'.registry t)[id]? = (wm.registry t)[id]?)
    (hfresh : ∀ (t : Target) (id : Nat) (info : WatcherInfo), wm.nextID < id →
      (wm'.registry t)[id]? = some info → ∃ ch : Channel, wm'.channels[id]? = some ch ∧ ch.rounds = [])
    (hchannels : ∀ (id : Nat) (ch : Channel), wm.channels[id]? = some ch →
      ∃ ch' : Channel, wm'.channels[id]? = some ch' ∧ ch'.closed = ch.closed ∧ ch'.sent = ch.sent) :
    Follows wm wm' where
  counter := hnext
  old t id info hid hinfo := by rwa [hregistry t id hid] at hinfo
  fresh t id info hid _ hinfo := hfresh t id info hid hinfo
  closed id ch hch hclosed := by
    obtain ⟨ch', hch', hsame, hsent⟩ := hchannels id ch hch
    exact ⟨ch', hch', hsame.trans hclosed, hsent⟩
  leaves t id info ch hid hinfo hch := by
    obtain ⟨ch', hch', _, hsent⟩ := hchannels id ch hch
    refine ⟨ch', hch', Or.inl ⟨by rw [hregistry t id hid, hinfo], fun _ => ?_⟩⟩
    rw [Channel.rounds, hsent, Channel.rounds]

/-- The same with the same watchers. -/
theorem Follows.same (h : Linked wm) {wm' : WatchManager} (hnext : wm'.nextID = wm.nextID)
    (hregistry : ∀ t, wm'.registry t = wm.registry t)
    (hchannels : ∀ (id : Nat) (ch : Channel), wm.channels[id]? = some ch →
      ∃ ch' : Channel, wm'.channels[id]? = some ch' ∧ ch'.closed = ch.closed ∧ ch'.sent = ch.sent) :
    Follows wm wm' := by
  refine Follows.kept hnext.ge (fun t id _ => by rw [hregistry]) ?_ hchannels
  intro t id info hid hinfo
  rw [hregistry] at hinfo
  have := h.registered_le hinfo
  omega

theorem Follows.refl (h : Linked wm) : Follows wm wm :=
  Follows.same h rfl (fun _ => rfl) fun _ ch hch => ⟨ch, hch, rfl, rfl⟩

/-- One watcher's channel changes, and the watcher stays or goes. -/
theorem Follows.change (h : Linked wm) (ch' : Channel) {t : Target} {id : Nat} {info : WatcherInfo}
    {ch : Channel} (hinfo : (wm.registry t)[id]? = some info) (hch : wm.channels[id]? = some ch)
    {wm' : WatchManager} (hchannels : ∀ i, wm'.channels[i]? = if id = i then some ch' else wm.channels[i]?)
    (hnext : wm'.nextID = wm.nextID)
    (hregistry : (∀ t', wm'.registry t' = wm.registry t') ∧
        (info.persistent = false → ch'.rounds = ch.rounds) ∨
      (∀ t', wm'.registry t' = if t = t' then (wm.registry t).erase id else wm.registry t') ∧
        ch'.closed = true ∧ (info.persistent = false → ch'.rounds.length ≤ ch.rounds.length + 1)) :
    Follows wm wm' := by
  obtain ⟨hother, hold⟩ := registry_of_change (hregistry.imp And.left And.left)
  refine ⟨hnext.ge, fun t' i info' _ => hold t' i info', ?_, ?_, ?_⟩
  · intro t' i info' hid _ hinfo'
    have := h.registered_le (hold t' i info' hinfo')
    omega
  · intro i c hc hclosed
    have hne : id ≠ i := by
      rintro rfl
      obtain ⟨ch₀, hch₀, _, _, hopen⟩ := h.isOpen t id info hinfo
      rw [hc] at hch₀
      cases hch₀
      rw [hopen] at hclosed
      cases hclosed
    exact ⟨c, by rw [hchannels, if_neg hne, hc], hclosed, rfl⟩
  · intro t' i info' c _ hinfo' hc
    by_cases hid : id = i
    · subst hid
      have ht := h.unique hinfo hinfo'
      subst ht
      rw [hinfo] at hinfo'
      cases hinfo'
      rw [hch] at hc
      cases hc
      refine ⟨ch', by rw [hchannels, if_pos rfl], ?_⟩
      rcases hregistry with ⟨hsame, hrounds⟩ | ⟨hgone, hclosed, hrounds⟩
      · exact Or.inl ⟨by rw [hsame, hinfo], hrounds⟩
      · exact Or.inr ⟨by rw [hgone, if_pos rfl, GoMap.get_erase, if_pos rfl], hclosed, hrounds⟩
    · exact ⟨c, by rw [hchannels, if_neg hid, hc], Or.inl ⟨by rw [hother t' i hid, hinfo'], fun _ => rfl⟩⟩

/-- A call that does not panic, keeps the link and does what a call may. -/
def Safe (wm : WatchManager) (result : Option WatchManager) (wm' : WatchManager) : Prop :=
  result = some wm' ∧ Linked wm' ∧ Follows wm wm'

theorem Safe.forgetEmpty {wm' : WatchManager} {result : Option WatchManager} (h : Safe wm result wm')
    (target : Target) : Safe wm (result.bind fun wm => some (wm.forgetEmpty target)) (wm'.forgetEmpty target) := by
  obtain ⟨heq, hlinked, hfollows⟩ := h
  obtain ⟨hregistry, hchannels, _, hnext⟩ := wm'.forgetEmpty_frame target
  refine ⟨by rw [heq]; rfl, hlinked.forgetEmpty target, hfollows.trans (Follows.same hlinked hnext hregistry ?_)⟩
  intro id ch hch
  exact ⟨ch, by rw [hchannels, hch], rfl, rfl⟩

/-- A loop of such calls is one. -/
theorem Safe.loop {α : Type} {body : WatchManager → α → Option WatchManager}
    {next : WatchManager → α → WatchManager} (hbody : ∀ wm x, Linked wm → Safe wm (body wm x) (next wm x))
    (l : List α) (h : Linked wm) : Safe wm (l.foldlM body wm) (l.foldl next wm) :=
  foldlM_total (fun _ => Follows.refl) Follows.trans hbody l wm h

/-! ### Removing -/

theorem remove_safe (h : Linked wm) (target : Target) (id : Nat) :
    Safe wm (Strict.remove wm target id) (wm.remove target id) := by
  have hlinked := h.remove target id
  unfold Strict.remove
  cases hinfo : (wm.registry target)[id]? with
  | none =>
    rw [remove_unregistered hinfo]
    exact ⟨rfl, h, Follows.refl h⟩
  | some info =>
    obtain ⟨ch, hch, _, _, hopen⟩ := h.isOpen target id info hinfo
    rw [remove_registered hinfo hch] at hlinked ⊢
    refine ⟨?_, hlinked, ?_⟩
    · simp [hch, Strict.close, hopen]
    · refine Follows.change h {ch with closed := true} hinfo hch (fun i => GoMap.get_insert ..) (by simp)
        (Or.inr ⟨?_, rfl, fun _ => Nat.le_succ _⟩)
      intro t
      exact registry_setRegistry ..

theorem cleanupTarget_safe (order : MapOrder) (now : Int) (wm : WatchManager) (key : Bytes) (h : Linked wm) :
    Safe wm (Strict.cleanupTarget order now wm key) (cleanupTarget order now wm key) :=
  (Safe.loop (fun _ id hl => remove_safe hl (.exact key) id) _ h).forgetEmpty (.exact key)

theorem cleanupExpired_safe (h : Linked wm) (order : MapOrder) (now : Int) :
    Safe wm (Strict.cleanupExpired order now wm) (cleanupIn order now wm) :=
  Safe.loop (cleanupTarget_safe order now) _ h

/-! ### Notifying -/

theorem send_open {ch : Channel} (h : ch.closed = false) (x : Sent) : Strict.send ch x = some (ch.send x) := by
  simp [Strict.send, h]

theorem replay_open {ch : Channel} (h : ch.closed = false) (target : Target) (fromRev rev : Int)
    (log : List WatchEvent) :
    Strict.replay target fromRev rev log ch = some (replay target fromRev rev log ch) := by
  unfold Strict.replay replay
  split
  · refine (foldlM_total (P := fun ch : Channel => ch.closed = false) (R := fun _ _ => True)
      (fun _ _ => trivial) (fun _ _ => trivial) ?_ log.zipIdx ch h).1
    intro ch p hopen
    split
    · rw [send_open hopen]
      exact ⟨rfl, (send_frame ch _).2.2.trans hopen, trivial⟩
    · exact ⟨rfl, hopen, trivial⟩
  · rfl

theorem serve_open {ch : Channel} (h : ch.closed = false) (target : Target) (info : WatcherInfo)
    (log : List WatchEvent) (event : WatchEvent) :
    Strict.serve target info log event ch = some (serve target info log event ch) := by
  have hreplay : (replay target info.fromRev event.revision log ch).closed = false :=
    (replay_frame target info.fromRev event.revision log ch).2.2.1.trans h
  have hsend := (send_frame (replay target info.fromRev event.revision log ch)
    ⟨log.length - 1, true, event⟩).2.2.trans hreplay
  unfold Strict.serve serve
  rw [replay_open h]
  simp only [Option.bind_eq_bind, Option.bind_some, send_open hreplay]
  split
  · simp [Strict.close, hsend]
  · rfl

theorem serveOne_follows (h : Linked wm) (target : Target) (event : WatchEvent) (id : Nat) :
    Follows wm (serveOne target event wm id) := by
  rcases serveOne_cases target event wm id with
    hsame | ⟨info, ch, ch', hinfo, hch, _, hchannels, hnext, hregistry⟩
  · rw [hsame]
    exact Follows.refl h
  · refine Follows.change h ch' hinfo hch hchannels hnext ?_
    rcases hregistry with ⟨hsame, _, hrounds⟩ | ⟨hgone, hclosed, hrounds⟩
    · exact Or.inl ⟨hsame, hrounds⟩
    · exact Or.inr ⟨hgone, hclosed, fun _ => hrounds.le⟩

theorem serveOne_safe (target : Target) (event : WatchEvent) (wm : WatchManager) (id : Nat) (h : Linked wm) :
    Safe wm (Strict.serveOne target event wm id) (serveOne target event wm id) := by
  refine ⟨?_, h.serveOne target event id, serveOne_follows h target event id⟩
  unfold Strict.serveOne serveOne
  cases hinfo : (wm.registry target)[id]? with
  | none => rfl
  | some info =>
    obtain ⟨ch, hch, _, _, hopen⟩ := h.isOpen target id info hinfo
    simp only [hch, Option.bind_eq_bind, Option.bind_some, serve_open hopen]
    split <;> rfl

theorem notifyTarget_safe (order : MapOrder) (event : WatchEvent) (wm : WatchManager) (target : Target)
    (h : Linked wm) : Safe wm (Strict.notifyTarget order event wm target) (notifyTarget order event wm target) :=
  (Safe.loop (serveOne_safe target event) _ h).forgetEmpty target

theorem notifyWatchers_safe (h : Linked wm) (order : MapOrder) (cmd : Command) :
    Safe wm (Strict.notifyWatchers order cmd wm) (wm.notifyWatchers order cmd) := by
  unfold Strict.notifyWatchers notifyWatchers
  cases watchEvent cmd with
  | none => exact ⟨rfl, h, Follows.refl h⟩
  | some event =>
    obtain ⟨hexact, hlinked, hfollows⟩ := notifyTarget_safe order event
      {wm with eventLog := wm.eventLog ++ [event]} (.exact event.key) (h.logged _)
    obtain ⟨hunder, hlinked', hfollows'⟩ := Safe.loop
      (fun wm p hl => notifyTarget_safe order event wm (.under p) hl)
      ((order.keys (notifyTarget order event {wm with eventLog := wm.eventLog ++ [event]}
        (.exact event.key)).prefixWatchers.keys).filter fun p => KVStore.hasPrefix event.key p) hlinked
    have hlogged : Follows wm {wm with eventLog := wm.eventLog ++ [event]} :=
      Follows.same h rfl (fun _ => rfl) fun _ ch hch => ⟨ch, hch, rfl, rfl⟩
    refine ⟨?_, hlinked', hlogged.trans (hfollows.trans hfollows')⟩
    simp only [hexact, Option.bind_eq_bind, Option.bind_some]
    exact hunder

/-! ### Runs -/

theorem get_addWatcherInternal (wm : WatchManager) (key keyPrefix : Bytes) (persistent : Bool)
    (now timeout fromRev : Int) (t : Target) (i : Nat) :
    ((wm.addWatcherInternal key keyPrefix persistent now timeout fromRev).registry t)[i]? =
      if (if keyPrefix ≠ [] then Target.under keyPrefix else .exact key) = t ∧ wm.nextID + 1 = i then
        some ⟨wm.nextID + 1, persistent, if timeout > 0 then now + timeout else 0, fromRev⟩
      else (wm.registry t)[i]? := by
  unfold addWatcherInternal
  generalize (if keyPrefix ≠ [] then Target.under keyPrefix else .exact key) = target
  refine (congrArg (·[i]?) (registry_setRegistry ..)).trans ?_
  by_cases ht : target = t
  · simp [ht, GoMap.get_insert]
  · simp [ht]

theorem addWatcherInternal_follows (h : Linked wm) (key keyPrefix : Bytes) (persistent : Bool)
    (now timeout fromRev : Int) :
    Follows wm (wm.addWatcherInternal key keyPrefix persistent now timeout fromRev) := by
  have hregistry : ∀ (t : Target) (id : Nat), wm.nextID + 1 ≠ id →
      ((wm.addWatcherInternal key keyPrefix persistent now timeout fromRev).registry t)[id]? =
        (wm.registry t)[id]? := by
    intro t id hid
    rw [get_addWatcherInternal, if_neg fun h => hid h.2]
  refine Follows.kept (Nat.le_succ _) (fun t id hid => hregistry t id (by omega)) ?_ ?_
  · intro t id info hid hinfo
    by_cases hnew : wm.nextID + 1 = id
    · rw [← hnew]
      exact ⟨_, (GoMap.get_insert ..).trans (if_pos rfl), rfl⟩
    · have hold := h.registered_le ((hregistry t id hnew).symm.trans hinfo)
      omega
  · intro id ch hch
    have hne : wm.nextID + 1 ≠ id := by
      have := h.known id ch hch
      omega
    refine ⟨ch, ?_, rfl, rfl⟩
    rw [addWatcherInternal, GoMap.get_insert, if_neg hne, hch]

theorem receive_follows (h : Linked wm) (id : Nat) : Follows wm (wm.receive id) := by
  refine Follows.same h rfl (fun _ => rfl) ?_
  intro i ch hch
  rw [get_receive, hch]
  refine ⟨_, rfl, ?_⟩
  split <;> exact ⟨rfl, rfl⟩

/-- No call panics. -/
theorem step_safe (wm : WatchManager) (call : Strict.Call) (h : Linked wm) :
    Safe wm (Strict.step call wm) (perform call wm) := by
  obtain ⟨action, order⟩ := call
  cases action with
  | addWatcher key persistent now timeout fromRev =>
    exact ⟨rfl, h.addWatcherInternal .., addWatcherInternal_follows h ..⟩
  | addPrefixWatcher keyPrefix persistent now timeout fromRev =>
    exact ⟨rfl, h.addWatcherInternal .., addWatcherInternal_follows h ..⟩
  | removeWatcher key id => exact remove_safe h (.exact key) id
  | removePrefixWatcher keyPrefix id => exact remove_safe h (.under keyPrefix) id
  | cleanupExpired now => exact cleanupExpired_safe h order now
  | notifyWatchers order cmd => exact notifyWatchers_safe h order cmd
  | receive id => exact ⟨rfl, h.receive id, receive_follows h id⟩

theorem run_safe (calls : List Strict.Call) (h : Linked wm) :
    Safe wm (run Strict.step wm calls) (calls.foldl (fun wm call => perform call wm) wm) := by
  rw [run_eq_foldlM]
  exact Safe.loop step_safe calls h

/-- Each watcher is in one of the maps under one key, and its channel is open. -/
structure Orderly (wm : WatchManager) : Prop where
  single : ∀ (t t' : Target) (id : Nat) (info info' : WatcherInfo), (wm.registry t)[id]? = some info →
    (wm.registry t')[id]? = some info' → t = t'
  isOpen : ∀ (t : Target) (id : Nat) (info : WatcherInfo), (wm.registry t)[id]? = some info →
    ∃ ch : Channel, wm.channels[id]? = some ch ∧ ch.closed = false

/-- Who is taken out has the channel closed, and on what was closed nothing is sent. -/
structure Tidy (wm wm' : WatchManager) : Prop where
  closes : ∀ (t : Target) (id : Nat) (info : WatcherInfo), (wm.registry t)[id]? = some info →
    (wm'.registry t)[id]? = some info ∨
      (wm'.registry t)[id]? = none ∧ ∃ ch : Channel, wm'.channels[id]? = some ch ∧ ch.closed = true
  closed : ∀ (id : Nat) (ch : Channel), wm.channels[id]? = some ch → ch.closed = true →
    ∃ ch' : Channel, wm'.channels[id]? = some ch' ∧ ch'.closed = true ∧ ch'.sent = ch.sent

theorem Linked.orderly (h : Linked wm) : Orderly wm where
  single _ _ _ _ _ ht ht' := h.unique ht ht'
  isOpen t id info hinfo := by
    obtain ⟨ch, hch, _, _, hopen⟩ := h.isOpen t id info hinfo
    exact ⟨ch, hch, hopen⟩

theorem Follows.tidy {wm' : WatchManager} (hf : Follows wm wm') (h : Linked wm) : Tidy wm wm' where
  closes t id info hinfo := by
    obtain ⟨ch, hch, _⟩ := h.isOpen t id info hinfo
    obtain ⟨ch', hch', ⟨hstays, _⟩ | ⟨hgone, hclosed, _⟩⟩ :=
      hf.leaves t id info ch (h.registered_le hinfo) hinfo hch
    · exact Or.inl hstays
    · exact Or.inr ⟨hgone, ch', hch', hclosed⟩
  closed := hf.closed

/-- A watcher that is not persistent and still there has got no event. -/
theorem Follows.unserved (hf : Follows newWatchManager wm) {t : Target} {id : Nat} {info : WatcherInfo}
    (hinfo : (wm.registry t)[id]? = some info) (hp : info.persistent = false) :
    ∃ ch : Channel, wm.channels[id]? = some ch ∧ ch.rounds = [] := by
  refine hf.fresh t id info ?_ hp hinfo
  by_contra hid
  have hnone := hf.old t id info (Nat.not_lt.mp hid) hinfo
  cases t <;> simp [newWatchManager, registry] at hnone

/-- **No call ever sends on a closed channel or closes one again**, in whatever order calls are
made and maps are gone through: a run of the calls that can panic has a result. A watcher is in one map
under one key and has an open channel; the call that takes it out closes the channel; and a watcher
that is not persistent gets one event at most. -/
theorem channels_closed_once (calls : List Strict.Call) :
    ∃ wm, run Strict.step newWatchManager calls = some wm ∧ Orderly wm ∧
      (∀ call, ∃ wm', Strict.step call wm = some wm' ∧ Tidy wm wm') ∧
      ∀ (later : List Strict.Call) (t : Target) (id : Nat) (info : WatcherInfo),
        (wm.registry t)[id]? = some info → info.persistent = false →
        ∃ wm' ch, run Strict.step wm later = some wm' ∧ wm'.channels[id]? = some ch ∧ ch.rounds.length ≤ 1 := by
  obtain ⟨hrun, hlinked, hfollows⟩ := run_safe calls newWatchManager_inv.linked
  refine ⟨_, hrun, hlinked.orderly, ?_, ?_⟩
  · intro call
    obtain ⟨hstep, _, hnext⟩ := step_safe _ call hlinked
    exact ⟨_, hstep, hnext.tidy hlinked⟩
  · intro later t id info hinfo hp
    obtain ⟨ch, hch, hnone⟩ := hfollows.unserved hinfo hp
    obtain ⟨hlater, _, hnext⟩ := run_safe later hlinked
    obtain ⟨ch', hch', hrest⟩ := hnext.leaves t id info ch (hlinked.registered_le hinfo) hinfo hch
    refine ⟨_, ch', hlater, hch', ?_⟩
    rcases hrest with ⟨_, hrounds⟩ | ⟨_, _, hrounds⟩
    · simp [hrounds hp, hnone]
    · simpa [hnone] using hrounds hp

/-! ### The sweep -/

theorem get_remove (wm : WatchManager) (target : Target) (id : Nat) :
    (∀ (t : Target) (i : Nat), ((wm.remove target id).registry t)[i]? =
        if t = target ∧ i = id then none else (wm.registry t)[i]?) ∧
      ∀ i : Nat, i ≠ id → (wm.remove target id).channels[i]? = wm.channels[i]? := by
  unfold remove
  split
  · refine ⟨?_, ?_⟩
    · intro t i
      show ((wm.setRegistry target ((wm.registry target).erase id)).registry t)[i]? = _
      rw [registry_setRegistry]
      by_cases ht : t = target
      · rw [if_pos ht.symm, GoMap.get_erase, ht]
        simp [eq_comm]
      · rw [if_neg (Ne.symm ht), if_neg (fun h => ht h.1)]
    · intro i hi
      rw [GoMap.get_modify, if_neg (Ne.symm hi)]
  · rename_i hnone
    refine ⟨?_, fun _ _ => rfl⟩
    intro t i
    split
    · rename_i heq
      rw [heq.1, heq.2]
      simpa using hnone
    · rfl

/-- The loop over the watchers of a key. -/
theorem get_removeAll (target : Target) (ids : List Nat) : ∀ wm : WatchManager,
    (∀ (t : Target) (i : Nat), ((ids.foldl (fun wm id => wm.remove target id) wm).registry t)[i]? =
        if t = target ∧ i ∈ ids then none else (wm.registry t)[i]?) ∧
      ∀ i ∉ ids, (ids.foldl (fun wm id => wm.remove target id) wm).channels[i]? = wm.channels[i]? := by
  induction ids with
  | nil => simp
  | cons id rest ih =>
    intro wm
    obtain ⟨hregistry, hchannels⟩ := get_remove wm target id
    obtain ⟨hrest, hrest'⟩ := ih (wm.remove target id)
    refine ⟨?_, ?_⟩
    · intro t i
      rw [List.foldl_cons, hrest, hregistry]
      by_cases ht : t = target <;> by_cases hi : i = id <;> simp [ht, hi]
    · intro i hi
      obtain ⟨hne, hnot⟩ := not_or.mp (mt List.mem_cons.mpr hi)
      rw [List.foldl_cons, hrest' i hnot, hchannels i hne]

/-- The expired watchers of some targets are gone, and the other channels are as they were. -/
structure Swept (now : Int) (targets : List Target) (wm wm' : WatchManager) : Prop where
  registry : ∀ (t : Target) (id : Nat), (wm'.registry t)[id]? =
    if t ∈ targets then (wm.registry t)[id]?.filter fun info => !expired now info else (wm.registry t)[id]?
  channels : ∀ id : Nat, (∀ t ∈ targets, ∀ info, (wm.registry t)[id]? = some info → expired now info = false) →
    wm'.channels[id]? = wm.channels[id]?

theorem Swept.cons {now : Int} {target : Target} {targets : List Target} {a b c : WatchManager}
    (h : Swept now [target] a b) (h' : Swept now targets b c) : Swept now (target :: targets) a c where
  registry t id := by
    rw [h'.registry, h.registry]
    by_cases ht : t = target <;> by_cases hts : t ∈ targets <;> simp [ht, hts, Option.filter_filter]
  channels id hid := by
    rw [h'.channels, h.channels]
    · simpa using hid target List.mem_cons_self
    · intro t ht info hinfo
      rw [h.registry] at hinfo
      split at hinfo
      · simpa using (Option.filter_eq_some_iff.mp hinfo).2
      · exact hid t (List.mem_cons_of_mem _ ht) info hinfo

/-- One key is swept, in any order. -/
theorem cleanupTarget_swept (order : MapOrder) (now : Int) (wm : WatchManager) (key : Bytes) :
    Swept now [.exact key] wm (cleanupTarget order now wm key) := by
  have hmem : ∀ i : Nat, i ∈ order.ids ((wm.registry (.exact key)).filter fun _ info => expired now info).keys ↔
      ∃ info, (wm.registry (.exact key))[i]? = some info ∧ expired now info = true := by
    intro i
    rw [(order.permIds _).mem_iff, Std.ExtTreeMap.mem_keys, Std.ExtTreeMap.mem_iff_isSome_getElem?,
      Std.ExtTreeMap.getElem?_filter', Option.isSome_filter]
    simp [Option.any_eq_true]
  unfold cleanupTarget removeWatcher
  generalize order.ids ((wm.registry (.exact key)).filter fun _ info => expired now info).keys = ids at hmem ⊢
  obtain ⟨hregistry, hchannels⟩ := get_removeAll (.exact key) ids wm
  obtain ⟨hforget, hforget', _⟩ :=
    forgetEmpty_frame (ids.foldl (fun wm id => wm.remove (.exact key) id) wm) (.exact key)
  refine ⟨?_, ?_⟩
  · intro t id
    simp only [hforget, hregistry, hmem]
    by_cases ht : t = .exact key
    · rw [ht]
      cases hinfo : (wm.registry (.exact key))[id]? with
      | none => simp
      | some info => cases hexpired : expired now info <;> simp [Option.filter_some, hexpired]
    · simp [ht]
  · intro id hid
    rw [hforget', hchannels]
    rw [hmem]
    rintro ⟨info, hinfo, hexpired⟩
    rw [hid _ (List.mem_singleton.mpr rfl) info hinfo] at hexpired
    cases hexpired

theorem sweep_swept (order : MapOrder) (now : Int) (keys : List Bytes) : ∀ wm : WatchManager,
    Swept now (keys.map .exact) wm (keys.foldl (cleanupTarget order now) wm) := by
  induction keys with
  | nil =>
    intro wm
    exact ⟨fun _ _ => rfl, fun _ _ => rfl⟩
  | cons key rest ih =>
    intro wm
    exact (cleanupTarget_swept order now wm key).cons (ih _)

/-- The sweep goes over the watchers of keys, and over nobody else. -/
theorem cleanupIn_registry (order : MapOrder) (now : Int) (wm : WatchManager) (t : Target) (id : Nat) :
    ((cleanupIn order now wm).registry t)[id]? =
      match t with
      | .exact _ => (wm.registry t)[id]?.filter fun info => !expired now info
      | .under _ => (wm.registry t)[id]? := by
  have hswept := (sweep_swept order now (order.keys wm.watchers.keys) wm).registry t id
  refine hswept.trans ?_
  cases t with
  | under p => simp
  | exact key =>
    by_cases hkey : key ∈ wm.watchers
    · have hmem : Target.exact key ∈ (order.keys wm.watchers.keys).map .exact :=
        List.mem_map_of_mem ((order.permKeys _).mem_iff.mpr (Std.ExtTreeMap.mem_keys.mpr hkey))
      rw [if_pos hmem]
    · have hnone : wm.registry (.exact key) = ∅ := by
        simp [WatchManager.registry, Std.ExtTreeMap.getElem?_eq_none hkey]
      simp [hnone]

theorem cleanupIn_channels (order : MapOrder) (now : Int) (wm : WatchManager) {id : Nat}
    (hid : ∀ (key : Bytes) (info : WatcherInfo), (wm.registry (.exact key))[id]? = some info →
      expired now info = false) : (cleanupIn order now wm).channels[id]? = wm.channels[id]? := by
  apply (sweep_swept order now (order.keys wm.watchers.keys) wm).channels
  intro t ht info hinfo
  obtain ⟨key, _, rfl⟩ := List.mem_map.mp ht
  exact hid key info hinfo

/-- Among the targets covered nobody is left who has expired: who had is gone, with the channel closed, and
everybody else is registered as before, with the same channel. -/
structure Collected (covers : Target → Prop) (now : Int) (wm wm' : WatchManager) : Prop where
  none_left : ∀ (t : Target) (id : Nat) (info : WatcherInfo), covers t → (wm'.registry t)[id]? = some info →
    expired now info = false
  removed : ∀ (t : Target) (id : Nat) (info : WatcherInfo), covers t → (wm.registry t)[id]? = some info →
    expired now info = true →
    (wm'.registry t)[id]? = none ∧ ∃ ch : Channel, wm'.channels[id]? = some ch ∧ ch.closed = true
  others : ∀ (t : Target) (id : Nat) (info : WatcherInfo), (wm.registry t)[id]? = some info →
    ¬(covers t ∧ expired now info = true) →
    (wm'.registry t)[id]? = some info ∧ wm'.channels[id]? = wm.channels[id]?

/-- A watcher of a key. -/
def OfKey : Target → Prop
  | .exact _ => True
  | .under _ => False

theorem cleanupIn_collected (h : Linked wm) (order : MapOrder) (now : Int) :
    Collected OfKey now wm (cleanupIn order now wm) where
  none_left t id info ht hinfo := by
    rw [cleanupIn_registry] at hinfo
    cases t with
    | exact key => simpa using (Option.filter_eq_some_iff.mp hinfo).2
    | under p => exact ht.elim
  removed t id info ht hinfo hexpired := by
    have hnone : ((cleanupIn order now wm).registry t)[id]? = none := by
      rw [cleanupIn_registry]
      cases t with
      | exact key => simp [hinfo, hexpired]
      | under p => exact ht.elim
    have hfollows := (cleanupExpired_safe h order now).2.2
    rcases (hfollows.tidy h).closes t id info hinfo with hstays | ⟨_, hclosed⟩
    · rw [hnone] at hstays
      cases hstays
    · exact ⟨hnone, hclosed⟩
  others t id info hinfo hother := by
    refine ⟨?_, cleanupIn_channels order now wm ?_⟩
    · rw [cleanupIn_registry]
      cases t with
      | exact key =>
        have hexpired : expired now info = false := by simpa [OfKey] using hother
        simp [hinfo, hexpired]
      | under p => exact hinfo
    · intro key info' hinfo'
      have ht := h.unique hinfo hinfo'
      subst ht
      rw [hinfo] at hinfo'
      cases hinfo'
      simpa [OfKey] using hother

theorem expired_iff {now : Int} {info : WatcherInfo} :
    expired now info = true ↔ 0 < info.expireAt ∧ info.expireAt < now := by
  simp [expired]

/-- Everybody is collected exactly if nobody is overlooked. -/
theorem cleanupIn_collected_iff (h : Linked wm) (order : MapOrder) (now : Int) :
    Collected (fun _ => True) now wm (cleanupIn order now wm) ↔
      ∀ (p : Bytes) (id : Nat) (info : WatcherInfo), (wm.registry (.under p))[id]? = some info →
        expired now info = false := by
  have hstays : ∀ (p : Bytes) (id : Nat),
      ((cleanupIn order now wm).registry (.under p))[id]? = (wm.registry (.under p))[id]? :=
    fun p id => cleanupIn_registry order now wm (.under p) id
  have hkeys := cleanupIn_collected h order now
  constructor
  · intro hall p id info hinfo
    exact hall.none_left (.under p) id info trivial ((hstays p id).trans hinfo)
  · intro hunder
    refine ⟨?_, ?_, ?_⟩
    · intro t id info _ hinfo
      cases t with
      | exact key => exact hkeys.none_left (.exact key) id info trivial hinfo
      | under p => exact hunder p id info ((hstays p id).symm.trans hinfo)
    · intro t id info _ hinfo hexpired
      cases t with
      | exact key => exact hkeys.removed (.exact key) id info trivial hinfo hexpired
      | under p =>
        rw [hunder p id info hinfo] at hexpired
        cases hexpired
    · intro t id info hinfo hother
      exact hkeys.others t id info hinfo fun hboth => hother ⟨trivial, hboth.2⟩

/-- **A sweep collects all the watchers of keys that have expired, and all that have expired exactly
if no watcher of a prefix has**: in every state that calls lead to, at every time and in every order. -/
theorem cleanup_collects_iff (calls : List Strict.Call) (wm : WatchManager)
    (h : run Strict.step newWatchManager calls = some wm) (order : MapOrder) (now : Int) :
    ∃ wm', Strict.cleanupExpired order now wm = some wm' ∧ Collected OfKey now wm wm' ∧
      (Collected (fun _ => True) now wm wm' ↔
        ∀ (p : Bytes) (id : Nat) (info : WatcherInfo), (wm.registry (.under p))[id]? = some info →
          ¬(0 < info.expireAt ∧ info.expireAt < now)) := by
  obtain ⟨hrun, hlinked, _⟩ := run_safe calls newWatchManager_inv.linked
  rw [h] at hrun
  cases hrun
  refine ⟨_, (cleanupExpired_safe hlinked order now).1, cleanupIn_collected hlinked order now, ?_⟩
  rw [cleanupIn_collected_iff hlinked]
  simp only [← expired_iff, Bool.not_eq_true]

/-- A watcher of a key and one of a prefix, for one and for ten units of time. -/
def twoWatchers : List Strict.Call :=
  [⟨.addWatcher [97] true 0 1 0, .ascending⟩, ⟨.addPrefixWatcher [97] true 0 10 0, .ascending⟩]

/-- At 5 only the first has expired. -/
theorem cleanup_collects_iff_five :
    ∃ wm wm', run Strict.step newWatchManager twoWatchers = some wm ∧
      Strict.cleanupExpired .ascending 5 wm = some wm' ∧ Collected (fun _ => True) 5 wm wm' := by
  obtain ⟨wm', hsweep, _, hall⟩ := cleanup_collects_iff twoWatchers
    ((newWatchManager.addWatcher [97] true 0 1 0).addPrefixWatcher [97] true 0 10 0) rfl .ascending 5
  refine ⟨_, wm', rfl, hsweep, hall.mpr ?_⟩
  intro p id info hinfo
  have hother : (newWatchManager.registry (.under p))[id]? = none := by simp [newWatchManager, registry]
  simp [addPrefixWatcher, addWatcher, get_addWatcherInternal, hother] at hinfo
  rw [← hinfo.2]
  decide

/-- At 20 both have, and the second is still there. -/
theorem prefix_watcher_stays :
    ∃ wm wm', run Strict.step newWatchManager twoWatchers = some wm ∧
      Strict.cleanupExpired .ascending 20 wm = some wm' ∧
      (wm'.registry (.exact [97]))[1]? = none ∧
      (∃ info ch, (wm'.registry (.under [97]))[2]? = some info ∧ 0 < info.expireAt ∧ info.expireAt < 20 ∧
        wm'.channels[2]? = some ch ∧ ch.closed = false) ∧
      ¬Collected (fun _ => True) 20 wm wm' := by
  obtain ⟨hrun, hlinked, _⟩ := run_safe twoWatchers newWatchManager_inv.linked
  have hkeys := cleanupIn_collected hlinked .ascending 20
  obtain ⟨hstays, hch⟩ := hkeys.others (.under [97]) 2 _ rfl fun h => h.1
  refine ⟨_, _, hrun, (cleanupExpired_safe hlinked .ascending 20).1, ?_, ?_, ?_⟩
  · exact (hkeys.removed (.exact [97]) 1 _ trivial rfl (by decide)).1
  · exact ⟨_, _, hstays, by decide, by decide, hch.trans rfl, rfl⟩
  · intro hall
    exact absurd (hall.none_left (.under [97]) 2 _ trivial hstays) (by decide)

end WatchManager
end Wjetcd
