import Wjetcd.Server.Watch

/-! What watchers get.

A watcher is to be sent the events of the keys it watches from a revision on, each once and in the order of
their revisions. With a revision to start from this goes wrong in three ways: an event that was sent as new is
replayed with every later one, a replayed event has lost its revision, and a new event is sent even if it
is too old.

`heard` are the events that come up while the watcher is registered, if it watches their keys, and
`step_news` says that these are the ones it is sent as new. So `delivery_iff` can say in
terms of the calls when a watcher gets what it should: it has no revision to start from, or
it heard at most one event, which is the first in the log that it asked for. -/
namespace Wjetcd
open Runs

/-- The events among the sends that were sent as new. -/
def news (sent : List Sent) : List WatchEvent := (sent.filter Sent.live).map Sent.event

/-- What a watcher should have been sent: each event of the log once, only what it asked for, in
the order of the revisions. -/
structure Delivered (ch : Channel) : Prop where
  once : ch.sources.Nodup
  asked : ∀ x ∈ ch.sent, ch.target.matches x.event.key = true ∧
    (0 < ch.fromRev → ch.fromRev ≤ x.event.revision)
  ordered : (ch.sent.map fun x => x.event.revision).Pairwise (· < ·)

/-- No revision to start from; or at most one event is heard, from that revision on, and no older one of the
log was asked for. -/
def FirstOnly (log heard : List WatchEvent) (target : Target) (fromRev : Int) : Prop :=
  fromRev ≤ 0 ∨ heard.length ≤ 1 ∧ ∀ e ∈ heard, fromRev ≤ e.revision ∧
    ∀ e' ∈ log, target.matches e'.key = true → fromRev ≤ e'.revision → e.revision ≤ e'.revision

/-! ### What turns amount to -/

theorem mem_replayed {target : Target} {fromRev : Int} {log : List WatchEvent} {i j : Nat} :
    j ∈ replayed target fromRev log i ↔ 0 < fromRev ∧ j < i ∧
      ∃ e, log[j]? = some e ∧ target.matches e.key = true ∧ fromRev ≤ e.revision := by
  unfold replayed
  split
  · rename_i hfrom
    simp only [List.mem_map, List.mem_filter, Bool.and_eq_true, decide_eq_true_eq]
    constructor
    · intro h
      obtain ⟨⟨e, k⟩, ⟨hmem, hmatch⟩, rfl⟩ := h
      have he := List.mk_mem_zipIdx_iff_getElem?.mp hmem
      have hlt : k < i := by
        have := (List.getElem?_eq_some_iff.mp he).1
        rw [List.length_take] at this
        omega
      rw [List.getElem?_take_of_lt hlt] at he
      exact ⟨hfrom, hlt, e, he, hmatch⟩
    · intro h
      obtain ⟨_, hlt, e, he, hmatch⟩ := h
      refine ⟨(e, j), ⟨List.mk_mem_zipIdx_iff_getElem?.mpr ?_, hmatch⟩, rfl⟩
      rw [List.getElem?_take_of_lt hlt]
      exact he
  · rename_i hfrom
    simp [hfrom]

section Delivery
variable {log : List WatchEvent} {bound : Nat} {ch : Channel}

theorem revision_lt (hsorted : log.Pairwise fun a b => a.revision < b.revision) {i j : Nat} {e e' : WatchEvent}
    (hij : i < j) (he : log[i]? = some e) (he' : log[j]? = some e') : e.revision < e'.revision := by
  obtain ⟨hi, rfl⟩ := List.getElem?_eq_some_iff.mp he
  obtain ⟨hj, rfl⟩ := List.getElem?_eq_some_iff.mp he'
  exact List.pairwise_iff_getElem.mp hsorted i j hi hj hij

theorem rounds_length (ch : Channel) : ch.rounds.length = (news ch.sent).length := by
  rw [Channel.rounds, news, List.length_map, List.length_map]

/-- If nothing is sent but the event of each turn, everything is new. -/
theorem all_live (hsame : ch.sources = ch.rounds) : ∀ x ∈ ch.sent, x.live = true := by
  have hlength := congrArg List.length hsame
  rw [Channel.sources, Channel.rounds, List.length_map, List.length_map] at hlength
  exact List.length_filter_eq_length_iff.mp hlength.symm

theorem rounds_of_live (hlive : ∀ x ∈ ch.sent, x.live = true) : ch.rounds = ch.sources := by
  rw [Channel.rounds, List.filter_eq_self.mpr hlive, Channel.sources]

variable (h : Served log bound ch)
include h

/-- A new event has its place in the log. -/
theorem Served.news_place {e : WatchEvent} (he : e ∈ news ch.sent) : ∃ i ∈ ch.rounds, log[i]? = some e := by
  obtain ⟨x, hx, rfl⟩ := List.mem_map.mp he
  obtain ⟨hmem, hlive⟩ := List.mem_filter.mp hx
  obtain ⟨e, hplace, hevent⟩ := h.told x hmem
  rw [if_pos hlive] at hevent
  exact ⟨x.source, List.mem_map_of_mem hx, hevent ▸ hplace⟩

theorem Served.place_news {i : Nat} (hi : i ∈ ch.rounds) : ∃ e ∈ news ch.sent, log[i]? = some e := by
  obtain ⟨x, hx, rfl⟩ := List.mem_map.mp hi
  obtain ⟨hmem, hlive⟩ := List.mem_filter.mp hx
  obtain ⟨e, hplace, hevent⟩ := h.told x hmem
  rw [if_pos hlive] at hevent
  exact ⟨x.event, List.mem_map_of_mem hx, hevent ▸ hplace⟩

/-- New events alone come as they should. -/
theorem Served.delivered_of_live (hsorted : log.Pairwise fun a b => a.revision < b.revision)
    (hlive : ∀ x ∈ ch.sent, x.live = true)
    (hrev : 0 < ch.fromRev → ∀ e ∈ news ch.sent, ch.fromRev ≤ e.revision) : Delivered ch := by
  have hincreasing := h.increasing
  rw [rounds_of_live hlive] at hincreasing
  have hplace : ∀ x ∈ ch.sent, log[x.source]? = some x.event := by
    intro x hx
    obtain ⟨e, hplace, hevent⟩ := h.told x hx
    rw [if_pos (hlive x hx)] at hevent
    exact hevent ▸ hplace
  refine ⟨hincreasing.imp fun hlt => hlt.ne, ?_, ?_⟩
  · intro x hx
    have hnew : x ∈ ch.sent.filter Sent.live := List.mem_filter.mpr ⟨hx, hlive x hx⟩
    obtain ⟨e, he, hmatch⟩ := h.matched x.source (List.mem_map_of_mem hnew)
    rw [hplace x hx] at he
    cases he
    exact ⟨hmatch, fun hfrom => hrev hfrom x.event (List.mem_map_of_mem hnew)⟩
  · rw [Channel.sources, List.pairwise_map] at hincreasing
    rw [List.pairwise_map]
    exact hincreasing.imp_of_mem fun hx hy hlt => revision_lt hsorted hlt (hplace _ hx) (hplace _ hy)

/-- Only the first event that was asked for is replayed never. -/
theorem Served.none_replayed (hsorted : log.Pairwise fun a b => a.revision < b.revision)
    (hfirst : FirstOnly log (news ch.sent) ch.target ch.fromRev) :
    ∀ i ∈ ch.rounds, replayed ch.target ch.fromRev log i = [] := by
  intro i hi
  refine List.eq_nil_iff_forall_not_mem.mpr fun j hj => ?_
  obtain ⟨hfrom, hlt, e', he', hmatch, hle⟩ := mem_replayed.mp hj
  obtain ⟨e, hnew, he⟩ := h.place_news hi
  rcases hfirst with hfrom' | ⟨_, hall⟩
  · omega
  · have holder := revision_lt hsorted hlt he' he
    have hfirst := (hall e hnew).2 e' (List.mem_of_getElem? he') hmatch hle
    omega

/-- What was asked for and replayed has lost its revision, so there is no such event. -/
theorem Served.live_of_delivered (hfrom : 0 < ch.fromRev) (hall : Delivered ch) :
    ∀ x ∈ ch.sent, x.live = true := by
  intro x hx
  by_contra hold
  obtain ⟨e, _, hevent⟩ := h.told x hx
  rw [if_neg hold] at hevent
  have hrev := (hall.asked x hx).2 hfrom
  rw [hevent] at hrev
  dsimp only at hrev
  omega

variable (hd : ch.dropped = false)
include hd

theorem Served.sources_of_none (hnone : ∀ i ∈ ch.rounds, replayed ch.target ch.fromRev log i = []) :
    ch.sources = ch.rounds := by
  rw [h.plan hd]
  calc ch.rounds.flatMap (fun i => replayed ch.target ch.fromRev log i ++ [i])
      = ch.rounds.flatMap fun i => [i] := List.flatMap_congr fun i hi => by rw [hnone i hi, List.nil_append]
    _ = ch.rounds := List.flatMap_singleton' _

/-- Nothing is replayed at a turn: it would have had a turn of its own, and been sent twice. -/
theorem Served.none_of_delivered (hfrom : 0 < ch.fromRev) (hall : Delivered ch) {i j : Nat} (hi : i ∈ ch.rounds) :
    j ∉ replayed ch.target ch.fromRev log i := by
  intro hj
  have hagain : j ∈ replayed ch.target ch.fromRev log i ++ [i] := List.mem_append_left _ hj
  have hturn : j ∈ ch.rounds := by
    rw [rounds_of_live (h.live_of_delivered hfrom hall), h.plan hd, List.mem_flatMap]
    exact ⟨i, hi, hagain⟩
  have honce := hall.once
  rw [h.plan hd, List.nodup_flatMap] at honce
  have hne : j ≠ i := (mem_replayed.mp hj).2.1.ne
  have : Std.Symm (Function.onFun List.Disjoint fun i => replayed ch.target ch.fromRev log i ++ [i]) :=
    ⟨fun _ _ hxy => List.Disjoint.symm hxy⟩
  have hapart := honce.2.forall hturn hi hne
  exact hapart (List.mem_append_right _ (List.mem_singleton.mpr rfl)) hagain

theorem Served.first_of_delivered (hsorted : log.Pairwise fun a b => a.revision < b.revision)
    (hfrom : 0 < ch.fromRev) (hall : Delivered ch) : FirstOnly log (news ch.sent) ch.target ch.fromRev := by
  have hasked : ∀ e ∈ news ch.sent, ch.target.matches e.key = true ∧ ch.fromRev ≤ e.revision := by
    intro e he
    obtain ⟨x, hx, rfl⟩ := List.mem_map.mp he
    obtain ⟨hmatch, hrev⟩ := hall.asked x (List.mem_filter.mp hx).1
    exact ⟨hmatch, hrev hfrom⟩
  refine Or.inr ⟨?_, ?_⟩
  · rw [← rounds_length]
    match hrounds : ch.rounds with
    | [] => simp
    | [_] => simp
    | i :: j :: rest =>
      have hi : i ∈ ch.rounds := by simp [hrounds]
      have hj : j ∈ ch.rounds := by simp [hrounds]
      have hincreasing := h.increasing
      rw [hrounds] at hincreasing
      have hlt : i < j := List.rel_of_pairwise_cons hincreasing List.mem_cons_self
      obtain ⟨e, hnew, he⟩ := h.place_news hi
      exact absurd (mem_replayed.mpr ⟨hfrom, hlt, e, he, hasked e hnew⟩) (h.none_of_delivered hd hfrom hall hj)
  · intro e he
    refine ⟨(hasked e he).2, fun e' he' hmatch hle => ?_⟩
    obtain ⟨i, hi, hplace⟩ := h.news_place he
    obtain ⟨j, hplace'⟩ := List.mem_iff_getElem?.mp he'
    by_contra holder
    have hlt : j < i := by
      rcases Nat.lt_trichotomy j i with hlt | rfl | hgt
      · exact hlt
      · rw [hplace] at hplace'
        cases hplace'
        exact absurd le_rfl holder
      · exact absurd (revision_lt hsorted hgt hplace hplace').le holder
    exact h.none_of_delivered hd hfrom hall hi (mem_replayed.mpr ⟨hfrom, hlt, e', hplace', hmatch, hle⟩)

theorem Served.delivered_iff (hsorted : log.Pairwise fun a b => a.revision < b.revision) :
    Delivered ch ↔ FirstOnly log (news ch.sent) ch.target ch.fromRev := by
  constructor
  · intro hall
    by_cases hfrom : ch.fromRev ≤ 0
    · exact Or.inl hfrom
    · exact h.first_of_delivered hd hsorted (by omega) hall
  · intro hfirst
    have hlive := all_live (h.sources_of_none hd (h.none_replayed hsorted hfirst))
    refine h.delivered_of_live hsorted hlive fun hfrom e he => ?_
    rcases hfirst with hnone | ⟨_, hall⟩
    · omega
    · exact (hall e he).1

end Delivery

/-! ### Who hears what -/

namespace WatchManager
variable {wm wm' : WatchManager} {id : Nat}

/-- The event that a call passes on. -/
def Action.event : Action → Option WatchEvent
  | .notifyWatchers _ cmd => watchEvent cmd
  | _ => none

/-- The watcher is registered, for the key or a prefix of it. -/
def watches (wm : WatchManager) (id : Nat) (key : Bytes) : Bool :=
  (wm.registry (.exact key))[id]?.isSome ||
    wm.prefixWatchers.keys.any fun p => KVStore.hasPrefix key p && (wm.registry (.under p))[id]?.isSome

/-- What a call adds to what a watcher hears. -/
def hears (wm : WatchManager) (id : Nat) (action : Action) : List WatchEvent :=
  (action.event.filter fun event => wm.watches id event.key).toList

/-- The events that come up while the watcher is registered, if it watches their keys. -/
def heard (id : Nat) (wm : WatchManager) : List Action → List WatchEvent
  | [] => []
  | action :: rest =>
    wm.hears id action ++
      match step action wm with
      | none => []
      | some wm' => heard id wm' rest

/-- What has been sent to a watcher, and whether a send was dropped. -/
def history (wm : WatchManager) (id : Nat) : List Sent × Bool :=
  (wm.channels[id]?.map fun ch => (ch.sent, ch.dropped)).getD ([], false)

theorem watches_iff {key : Bytes} :
    wm.watches id key = true ↔ ∃ t info, (wm.registry t)[id]? = some info ∧ t.matches key = true := by
  unfold watches
  rw [Bool.or_eq_true, List.any_eq_true]
  constructor
  · rintro (hexact | ⟨p, _, hp⟩)
    · obtain ⟨info, hinfo⟩ := Option.isSome_iff_exists.mp hexact
      exact ⟨.exact key, info, hinfo, by simp [Target.matches]⟩
    · obtain ⟨hmatch, hsome⟩ := Bool.and_eq_true_iff.mp hp
      obtain ⟨info, hinfo⟩ := Option.isSome_iff_exists.mp hsome
      exact ⟨.under p, info, hinfo, hmatch⟩
  · rintro ⟨t, info, hinfo, hmatch⟩
    cases t with
    | exact k =>
      obtain rfl : key = k := by simpa [Target.matches] using hmatch
      exact Or.inl (by rw [hinfo]; rfl)
    | under p =>
      refine Or.inr ⟨p, Std.ExtTreeMap.mem_keys.mpr (mem_prefixWatchers hinfo), ?_⟩
      rw [Bool.and_eq_true]
      exact ⟨hmatch, by rw [hinfo]; rfl⟩

theorem history_of_channel {ch : Channel} (hch : wm.channels[id]? = some ch) :
    wm.history id = (ch.sent, ch.dropped) := by
  rw [history, hch]
  rfl

theorem history_congr (h : wm'.channels[id]? = wm.channels[id]?) : wm'.history id = wm.history id := by
  rw [history, history, h]

/-! ### What a call sends -/

/-- A turn that drops nothing sends one new event. -/
theorem serve_news {t : Target} {info : WatcherInfo} {log : List WatchEvent} {event : WatchEvent} {ch : Channel}
    (hd : (serve t info log event ch).1.dropped = false) :
    ch.dropped = false ∧ news (serve t info log event ch).1.sent = news ch.sent ++ [event] := by
  have hframe : (serve t info log event ch).1.dropped =
        ((replay t info.fromRev event.revision log ch).send ⟨log.length - 1, true, event⟩).1.dropped ∧
      (serve t info log event ch).1.sent =
        ((replay t info.fromRev event.revision log ch).send ⟨log.length - 1, true, event⟩).1.sent := by
    unfold serve
    dsimp only
    split <;> exact ⟨rfl, rfl⟩
  rw [hframe.1] at hd
  rw [hframe.2]
  rw [replay_eq] at hd ⊢
  rcases send_cases (sendAll ch (old t info.fromRev event.revision log)) ⟨log.length - 1, true, event⟩ with
    ⟨hsent, hdropped⟩ | ⟨_, hdropped⟩
  · obtain ⟨hbefore, hall⟩ := sendAll_sent _ ch (hdropped ▸ hd)
    have hold : (old t info.fromRev event.revision log).filter Sent.live = [] :=
      List.filter_eq_nil_iff.mpr fun x hx => by simp [(mem_old hx).1]
    refine ⟨hbefore, ?_⟩
    rw [hsent, hall]
    simp [news, List.filter_append, hold]
  · rw [hdropped] at hd
    cases hd

theorem notifyWatchers_news (h : Linked wm) (order : MapOrder) (cmd : Command)
    (hd : ((wm.notifyWatchers order cmd).history id).2 = false) :
    (wm.history id).2 = false ∧ news ((wm.notifyWatchers order cmd).history id).1 =
      news (wm.history id).1 ++ wm.hears id (.notifyWatchers order cmd) := by
  have hhears : wm.hears id (.notifyWatchers order cmd) =
      ((watchEvent cmd).filter fun event => wm.watches id event.key).toList := rfl
  rw [hhears]
  cases hevent : watchEvent cmd with
  | none =>
    have hsame : wm.notifyWatchers order cmd = wm := by
      unfold WatchManager.notifyWatchers
      rw [hevent]
    rw [hsame] at hd ⊢
    exact ⟨hd, (List.append_nil _).symm⟩
  | some event =>
    by_cases hwatches : wm.watches id event.key = true
    · obtain ⟨t, info, hinfo, hmatch⟩ := watches_iff.mp hwatches
      obtain ⟨ch, hch, _⟩ := h.isOpen t id info hinfo
      rw [history_of_channel (notifyWatchers_turn h hevent hinfo hmatch hch)] at hd ⊢
      rw [history_of_channel hch, Option.filter_some, if_pos hwatches]
      exact serve_news hd
    · have hsame : (wm.notifyWatchers order cmd).history id = wm.history id :=
        history_congr (notifyWatchers_other hevent fun hsome => hwatches (watches_iff.mpr hsome))
      rw [hsame] at hd ⊢
      rw [Option.filter_some, if_neg hwatches]
      exact ⟨hd, (List.append_nil _).symm⟩

theorem addWatcherInternal_history (h : Linked wm) (key keyPrefix : Bytes) (persistent : Bool)
    (now timeout fromRev : Int) :
    (wm.addWatcherInternal key keyPrefix persistent now timeout fromRev).history id = wm.history id := by
  unfold history addWatcherInternal
  dsimp only
  rw [GoMap.get_insert]
  split
  · rename_i hid
    have hnew : wm.channels[id]? = none := by
      refine Option.eq_none_iff_forall_ne_some.mpr fun ch hch => ?_
      have := h.known id ch hch
      omega
    rw [hnew]
    rfl
  · rfl

theorem remove_history (wm : WatchManager) (t : Target) (i : Nat) : (wm.remove t i).history id = wm.history id := by
  unfold history remove
  split
  · dsimp only
    rw [GoMap.get_modify]
    split
    · rename_i hid
      rw [hid]
      cases wm.channels[id]? <;> rfl
    · rfl
  · rfl

theorem cleanupExpired_history (wm : WatchManager) (now : Int) :
    (wm.cleanupExpired now).history id = wm.history id := by
  refine List.foldlRecOn (motive := fun mid : WatchManager => mid.history id = wm.history id) _ _ rfl ?_
  intro mid hmid key _
  refine (history_congr (SameFor.forgetEmpty _ (.exact key)).channel).trans ?_
  refine List.foldlRecOn (motive := fun mid : WatchManager => mid.history id = wm.history id) _ _ hmid ?_
  intro mid hmid i _
  exact (remove_history mid (.exact key) i).trans hmid

theorem receive_history (wm : WatchManager) (i : Nat) : (wm.receive i).history id = wm.history id := by
  unfold history
  rw [get_receive]
  cases wm.channels[id]? with
  | none => rfl
  | some ch =>
    dsimp only [Option.map_some]
    split <;> rfl

/-- A call that drops nothing sends as new what the watcher hears. -/
theorem step_news (h : Linked wm) {action : Action} (hs : step action wm = some wm')
    (hd : (wm'.history id).2 = false) :
    (wm.history id).2 = false ∧ news (wm'.history id).1 = news (wm.history id).1 ++ wm.hears id action := by
  have hquiet : wm'.history id = wm.history id → wm.hears id action = [] →
      (wm.history id).2 = false ∧ news (wm'.history id).1 = news (wm.history id).1 ++ wm.hears id action := by
    intro hsame hnone
    rw [hnone, List.append_nil, ← hsame]
    exact ⟨hd, rfl⟩
  cases action with
  | notifyWatchers order cmd =>
    cases hs
    exact notifyWatchers_news h order cmd hd
  | addWatcher key persistent now timeout fromRev =>
    cases hs
    exact hquiet (addWatcherInternal_history h ..) rfl
  | addPrefixWatcher keyPrefix persistent now timeout fromRev =>
    cases hs
    exact hquiet (addWatcherInternal_history h ..) rfl
  | removeWatcher key i =>
    cases hs
    exact hquiet (remove_history ..) rfl
  | removePrefixWatcher keyPrefix i =>
    cases hs
    exact hquiet (remove_history ..) rfl
  | cleanupExpired now =>
    cases hs
    exact hquiet (cleanupExpired_history ..) rfl
  | receive i =>
    cases hs
    exact hquiet (receive_history ..) rfl

/-- What a run sends as new is what the watcher heard. -/
theorem run_news (id : Nat) (actions : List Action) : ∀ wm : WatchManager, Inv wm → Along step Increasing wm actions →
    run step wm actions = some wm' → (wm'.history id).2 = false →
      (wm.history id).2 = false ∧ news (wm'.history id).1 = news (wm.history id).1 ++ heard id wm actions := by
  induction actions with
  | nil =>
    intro wm _ _ hs hd
    cases hs
    exact ⟨hd, (List.append_nil _).symm⟩
  | cons action rest ih =>
    intro wm h hr hs hd
    obtain ⟨mid, hmid, hrest⟩ := run_cons hs
    obtain ⟨hrule, hrules⟩ := along_cons hr hmid
    obtain ⟨hd', hlater⟩ := ih mid (step_inv action wm mid h hrule hmid) hrules hrest hd
    obtain ⟨hd'', hnow⟩ := step_news h.linked hmid hd'
    refine ⟨hd'', ?_⟩
    rw [hlater, hnow, List.append_assoc, heard, hmid]

/-! ### The log -/

theorem step_eventLog {action : Action} (hs : step action wm = some wm') :
    wm'.eventLog = wm.eventLog ++ action.event.toList := by
  have hremove : ∀ (wm : WatchManager) (t : Target) (i : Nat), (wm.remove t i).eventLog = wm.eventLog := by
    intro wm t i
    unfold remove
    split <;> simp
  cases action with
  | notifyWatchers order cmd =>
    cases hs
    exact notifyWatchers_eventLog order cmd wm
  | addWatcher key persistent now timeout fromRev =>
    cases hs
    simp [addWatcher, addWatcherInternal, Action.event]
  | addPrefixWatcher keyPrefix persistent now timeout fromRev =>
    cases hs
    simp [addPrefixWatcher, addWatcherInternal, Action.event]
  | removeWatcher key i =>
    cases hs
    exact (hremove ..).trans (List.append_nil _).symm
  | removePrefixWatcher keyPrefix i =>
    cases hs
    exact (hremove ..).trans (List.append_nil _).symm
  | cleanupExpired now =>
    cases hs
    refine (foldl_eventLog (fun wm key => ?_) _ wm).trans (List.append_nil _).symm
    unfold cleanupTarget
    rw [(forgetEmpty_frame _ _).2.2.1]
    exact foldl_eventLog (fun wm i => hremove wm (.exact key) i) _ wm
  | receive i =>
    cases hs
    exact (List.append_nil _).symm

/-- The log has the events of the run. -/
theorem run_eventLog (actions : List Action) : ∀ wm : WatchManager, run step wm actions = some wm' →
    wm'.eventLog = wm.eventLog ++ actions.filterMap Action.event := by
  induction actions with
  | nil =>
    intro wm hs
    cases hs
    exact (List.append_nil _).symm
  | cons action rest ih =>
    intro wm hs
    obtain ⟨mid, hmid, hrest⟩ := run_cons hs
    rw [ih mid hrest, step_eventLog hmid, List.append_assoc]
    cases hevent : action.event with
    | none => rw [List.filterMap_cons_none hevent]; rfl
    | some event => rw [List.filterMap_cons_some hevent]; rfl

/-! ### The result -/

/-- **A watcher whose channel is drained gets each event once, in order and as asked for, exactly if it has no
revision to start from, or heard at most one event, from that revision on and with none before it in the
log that it asked for**; in every run in which events come with increasing revisions. What it
gets are events of the log; the replayed ones have lost their revision. -/
theorem delivery_iff (actions : List Action) (wm : WatchManager) (id : Nat) (ch : Channel)
    (hr : Along step Increasing newWatchManager actions)
    (hs : run step newWatchManager actions = some wm) (hch : wm.channels[id]? = some ch)
    (hd : ch.dropped = false) :
    (Delivered ch ↔ FirstOnly (actions.filterMap Action.event) (heard id newWatchManager actions)
      ch.target ch.fromRev) ∧
      ∀ x ∈ ch.sent, ∃ e, (actions.filterMap Action.event)[x.source]? = some e ∧
        x.event = if x.live then e else {e with revision := 0} := by
  have hinv := run_invariant step_inv actions _ _ newWatchManager_inv hr hs
  have hhistory := history_of_channel hch
  have hlog : wm.eventLog = actions.filterMap Action.event := run_eventLog actions _ hs
  have hnews : news ch.sent = heard id newWatchManager actions := by
    have hrun := (run_news id actions _ newWatchManager_inv hr hs (by rw [hhistory]; exact hd)).2
    rw [hhistory] at hrun
    exact hrun
  have hserved := hinv.served id ch hch
  have hsorted := hinv.sorted
  rw [hlog] at hserved hsorted
  rw [← hnews]
  exact ⟨hserved.delivered_iff hd hsorted, hserved.told⟩

/-- A put of a key at a revision. -/
def putAt (key : Bytes) (revision : Int) : Action :=
  .notifyWatchers MapOrder.ascending {Command.ofType .put with key := key, revision := revision}

theorem putAt_increasing {key : Bytes} {revision : Int} {wm : WatchManager} :
    Increasing (putAt key revision) wm ↔ ∀ e ∈ wm.eventLog, e.revision < revision := by
  constructor
  · intro h
    exact h _ rfl
  · intro h event hevent
    cases hevent
    exact h

/-- The watcher of a prefix is added after the first of two events, and asks for the second. -/
def lateWatcher : List Action := [putAt [97] 1, .addPrefixWatcher [97] true 0 0 2, putAt [97, 98] 2]

theorem delivery_iff_late :
    ∃ wm ch, run step newWatchManager lateWatcher = some wm ∧ wm.channels[1]? = some ch ∧
      ch.sources = [1] ∧ Delivered ch := by
  refine ⟨_, _, rfl, rfl, by decide +kernel, ?_⟩
  refine (delivery_iff lateWatcher _ 1 _ ?_ rfl rfl rfl).1.mpr (Or.inr ⟨by decide +kernel, by decide +kernel⟩)
  refine ⟨putAt_increasing.mpr ?_, trivial, putAt_increasing.mpr ?_, trivial⟩
  · exact nofun
  · intro e he
    cases List.mem_singleton.mp he
    decide

/-- A watcher from revision 1 on gets the first event again with the second. -/
theorem event_sent_twice :
    ∃ wm ch, Along step Increasing newWatchManager
        [.addWatcher [97] true 0 0 1, putAt [97] 1, putAt [97] 2] ∧
      run step newWatchManager [.addWatcher [97] true 0 0 1, putAt [97] 1, putAt [97] 2] = some wm ∧
      wm.channels[1]? = some ch ∧ ch.dropped = false ∧ ch.sources = [0, 0, 1] ∧ ¬Delivered ch := by
  refine ⟨_, _, ?_, rfl, rfl, rfl, by decide +kernel, ?_⟩
  · refine ⟨trivial, putAt_increasing.mpr ?_, putAt_increasing.mpr ?_, trivial⟩
    · exact nofun
    · intro e he
      cases List.mem_singleton.mp he
      decide
  · intro h
    have hsources : [0, 0, 1].Nodup := h.once
    exact absurd hsources (by decide)

end WatchManager
end Wjetcd
