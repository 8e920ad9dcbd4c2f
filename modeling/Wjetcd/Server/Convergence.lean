import Wjetcd.Raft.Safety
import Wjetcd.Raft.Validity
import Wjetcd.Server.Agreement
import Wjetcd.Server.Restart

/-! The servers of a cluster, end to end.

A command goes to the leader's Raft node as it is and to the other nodes as the JSON object
made of it, so that replicas hold the same log only up to what JSON makes of a command
(`Payload.canon`). What the nodes of a sane run hand to their servers agrees that far
(`Network.Sim.shared`), and where everything that clients submit survives the trip
(`Agreement.Survives`), that is far enough: `replicas_converge`. -/
namespace Wjetcd
open Runs Agreement

/-! ### Payloads -/

namespace Payload

/-- What the receiver of a message has in place of an entry's command. -/
def received : Payload → Payload
  | .typed cmd => .object cmd.marshalled
  | payload => payload

/-- The command as a node that received it decodes it. -/
def canon (payload : Payload) : Option Command := payload.received.decode

theorem canon_received (payload : Payload) : payload.received.canon = payload.canon := by
  cases payload <;> rfl

/-- A command that survives JSON, before or after the trip. -/
def Sturdy : Payload → Prop
  | .typed cmd => Survives cmd
  | .object m => ∃ cmd, Survives cmd ∧ m = cmd.marshalled
  | .other => False

theorem Sturdy.received {payload : Payload} (h : payload.Sturdy) : payload.received.Sturdy := by
  cases payload with
  | typed cmd => exact ⟨cmd, h, rfl⟩
  | object m => exact h
  | other => exact h

/-- It does to a server what its canonical form does, whatever the clocks and orders. -/
theorem Sturdy.applied {payload : Payload} (h : payload.Sturdy) {s : Server} (hs : Reachable s)
    (env env' : Env) : ∃ cmd w, payload.decode = some cmd ∧ payload.canon = some w ∧
      Agreement.applied s env cmd = Agreement.applied s env' w := by
  cases payload with
  | typed cmd => exact ⟨cmd, cmd.wire, rfl, rfl, applied_wire h hs env env'⟩
  | object m =>
    obtain ⟨cmd, hcmd, rfl⟩ := h
    refine ⟨cmd.wire, cmd.wire, rfl, rfl, ?_⟩
    rw [← applied_wire hcmd hs env' env, applied_wire hcmd hs env' env']
  | other => exact absurd h id

end Payload

/-! ### Servers -/

namespace Process

/-- What a server makes of a command message. -/
theorem iterate_server (p : Process) (env : Env) (k : Int) {payload : Payload} {cmd : Command}
    (hcmd : payload.decode = some cmd) (hopen : p.server.persistenceErr = none) :
    (p.iterate env none (.raft (.command k payload))).server = ⟨applied p.server env cmd, none⟩ := by
  have hdecode : Message.decode (.raft (.command k payload)) = some (k, cmd) := by
    simp [Message.decode, hcmd]
  unfold iterate
  rw [hdecode]
  show ((p.perform (p.server.applyLoop ⟨env, cmd, none⟩)).conclude k cmd.type _).server = _
  rw [(conclude_kept _ _ _ _).1, applied_open hopen]
  exact (Server.applyLoop_open hopen rfl).1

/-- Alike messages do the same to a server. -/
theorem iterate_alike {p q : Process} (hpq : p.server = q.server) (hs : Reachable p.server)
    (hopen : p.server.persistenceErr = none) (env env' : Env) {msg msg' : ApplyMsg Payload}
    (hcontent : Network.content Payload.canon msg = Network.content Payload.canon msg')
    (hmsg : Network.Says Payload.Sturdy msg) (hmsg' : Network.Says Payload.Sturdy msg') :
    (p.iterate env none (.raft msg)).server = (q.iterate env' none (.raft msg')).server ∧
      Reachable (p.iterate env none (.raft msg)).server ∧
        (p.iterate env none (.raft msg)).server.persistenceErr = none := by
  cases msg with
  | snapshot index term data =>
    cases msg' with
    | snapshot index' term' data' => exact ⟨hpq, hs, hopen⟩
    | command k' payload' => cases hcontent
  | command k payload =>
    cases msg' with
    | snapshot index' term' data' => cases hcontent
    | command k' payload' =>
      have hcanon : payload.canon = payload'.canon := (Prod.mk.inj (Option.some.inj hcontent)).2
      obtain ⟨cmd, w, hcmd, hw, happlied⟩ := hmsg.applied hs env env'
      obtain ⟨cmd', w', hcmd', hw', happlied'⟩ := hmsg'.applied hs env' env'
      have hsame : w = w' := Option.some.inj (hw.symm.trans (hcanon.trans hw'))
      rw [iterate_server p env k hcmd hopen, iterate_server q env' k' hcmd' (hpq ▸ hopen), ← hpq, happlied,
        happlied', hsame]
      refine ⟨rfl, ?_, rfl⟩
      rw [← hsame, ← happlied]
      exact reachable_applied hs hopen env cmd

/-- So do sequences of them. -/
theorem hand_alike (msgs : List (ApplyMsg Payload)) : ∀ (msgs' : List (ApplyMsg Payload)) (p q : Process)
    (env env' : Nat → Env), msgs.map (Network.content Payload.canon) = msgs'.map (Network.content Payload.canon) →
      (∀ msg ∈ msgs, Network.Says Payload.Sturdy msg) → (∀ msg ∈ msgs', Network.Says Payload.Sturdy msg) →
      p.server = q.server → Reachable p.server → p.server.persistenceErr = none →
      (p.hand env msgs).server = (q.hand env' msgs').server := by
  induction msgs with
  | nil =>
    intro msgs' p q env env' hcontent _ _ hpq _ _
    obtain rfl : msgs' = [] := List.map_eq_nil_iff.mp hcontent.symm
    exact hpq
  | cons msg rest ih =>
    intro msgs' p q env env' hcontent hmsgs hmsgs' hpq hs hopen
    cases msgs' with
    | nil => cases hcontent
    | cons msg' rest' =>
      obtain ⟨hhead, htail⟩ := List.cons_eq_cons.mp hcontent
      obtain ⟨hserver, hreach, hopen'⟩ := iterate_alike hpq hs hopen (env 0) (env' 0) hhead
        (hmsgs msg List.mem_cons_self) (hmsgs' msg' List.mem_cons_self)
      exact ih rest' _ _ _ _ htail (fun m hm => hmsgs m (List.mem_cons_of_mem _ hm))
        (fun m hm => hmsgs' m (List.mem_cons_of_mem _ hm)) hserver hreach hopen'

end Process

/-! ### The cluster -/

/-- **Replicas converge**: in a sane run in which clients submit only commands that survive
JSON, any two servers that have applied the same number of messages are equal, store, leases,
revision and all, whichever of them has led and whatever their clocks. -/
theorem replicas_converge (peers : List String) (actions : List (Network.Action Payload peers.length))
    (s : Network.Cluster Payload peers.length)
    (hsane : Along (Network.step Payload.received) Network.Sane (Network.boot peers) actions)
    (hrun : run (Network.step Payload.received) (Network.boot peers) actions = some s)
    (hsubmits : ∀ i payload, .start i payload ∈ actions → ∃ cmd, payload = .typed cmd ∧ Survives cmd)
    (i j : Fin peers.length) (k : Nat) (hi : k ≤ (s.delivered i).length) (hj : k ≤ (s.delivered j).length)
    (env env' : Nat → Env) :
    ((Process.fresh peers (i + 1)).hand env ((s.delivered i).take k)).server =
      ((Process.fresh peers (j + 1)).hand env' ((s.delivered j).take k)).server := by
  obtain ⟨a, _, h⟩ := Network.run_sim Payload.canon_received hsane hrun
  obtain ⟨l, hil, hjl⟩ := h.shared i j
  have hsupplied := Network.run_supplied (P := Payload.Sturdy) (fun _ hc => hc.received) (by
    intro action hmem
    cases action with
    | start i payload =>
      obtain ⟨cmd, rfl, hcmd⟩ := hsubmits i payload hmem
      exact hcmd
    | _ => trivial) hrun
  have htake : ∀ x : Fin peers.length, (s.delivered x).map (Network.content Payload.canon) <+: Network.messages l →
      k ≤ (s.delivered x).length →
      ((s.delivered x).take k).map (Network.content Payload.canon) = (Network.messages l).take k := by
    intro x hx hk
    rw [List.map_take, Consensus.take_of_begins hx (by rw [List.length_map]; exact hk)]
  exact Process.hand_alike _ _ _ _ env env' ((htake i hil hi).trans (htake j hjl hj).symm)
    (fun m hm => hsupplied.delivered i m (List.mem_of_mem_take hm))
    (fun m hm => hsupplied.delivered j m (List.mem_of_mem_take hm)) rfl Reachable.fresh rfl

/-- A put under a key, with the value it is about. -/
def putOf (key value : String) : Command :=
  {Command.ofType .put with key := ascii key, value := ascii value}

theorem replicas_converge_changed :
    ((Process.fresh ["a", "b", "c"] 1).hand (fun _ => Env.at 5) (((Network.changed Payload.received
        (.typed (putOf "x" "1")) (.typed (putOf "y" "2")) (.typed (putOf "x" "3"))).delivered 0).take 2)).server =
      ((Process.fresh ["a", "b", "c"] 3).hand (fun _ => Env.at 6) (((Network.changed Payload.received
        (.typed (putOf "x" "1")) (.typed (putOf "y" "2")) (.typed (putOf "x" "3"))).delivered 2).take 2)).server :=
  replicas_converge ["a", "b", "c"] (Network.changes (.typed (putOf "x" "1")) (.typed (putOf "y" "2"))
    (.typed (putOf "x" "3"))) _ (by decide +kernel) rfl (by
      intro i payload hmem
      simp only [Network.changes, Network.leads, Network.succeeds, List.cons_append, List.nil_append,
        List.mem_cons, reduceCtorEq, Network.Action.start.injEq, List.not_mem_nil, false_or, or_false] at hmem
      rcases hmem with ⟨_, rfl⟩ | ⟨_, rfl⟩ | ⟨_, rfl⟩
      · exact ⟨_, rfl, by decide, by decide, .inl (by decide)⟩
      · exact ⟨_, rfl, by decide, by decide, .inl (by decide)⟩
      · exact ⟨_, rfl, by decide, by decide, .inl (by decide)⟩) 0 2 2 (by decide +kernel) (by decide +kernel) _ _

end Wjetcd
