import Mathlib.Data.Set.Finite.Lemmas
import Mathlib.Data.Set.Finite.List
import Mathlib.Data.List.Infix
import Mathlib.Data.List.Pairwise
import Mathlib.Logic.Relation

/-! Agreement on a log by elected leaders.

Nodes hold logs of entries, each entry marked with the term in which a leader made it.
A leader is elected by a quorum of voters none of which holds a more advanced log, it
extends its own log, other nodes take over what the leader of their term holds, and what a
quorum has taken over is committed. Messages, timers and the way logs are compared do not
appear: a step says what it needs of the history so far, and the history is part of the
state. What a system has to show is that each of its steps is a sequence of these.

`Inv` is what the steps keep (`Step.inv`). It yields that a leader holds everything that was
committed before its term (`Inv.complete`), that commits agree (`Inv.commit_agree`), and
that what a node takes for committed is never taken back (`Inv.known_adopt`) and the same
everywhere (`Inv.known_agree`). -/
namespace Wjetcd.Consensus

variable {N T E : Type}

/-- Sets of nodes, any two of which share a node. -/
structure Electorate (N : Type) where
  Quorum : Set N → Prop
  mono : ∀ {a b : Set N}, a ⊆ b → Quorum a → Quorum b
  meet : ∀ {a b : Set N}, Quorum a → Quorum b → ∃ v, v ∈ a ∧ v ∈ b

/-- A node asks to lead a term, with the log it holds. -/
structure Campaign (N T E : Type) where
  candidate : N
  term : T
  held : List E

/-- A node votes for a candidate, with the log it holds. -/
structure Ballot (N T E : Type) where
  voter : N
  term : T
  candidate : N
  held : List E

/-- A node leads a term, from the log it was elected with. -/
structure Reign (N T E : Type) where
  leader : N
  term : T
  held : List E

/-- A node has taken over that much of the log of a term's leader. -/
structure Ack (N T : Type) where
  node : N
  term : T
  length : Nat

/-- That much of the log of a term's leader is committed. -/
structure Commit (T : Type) where
  term : T
  length : Nat

/-- The nodes, and everything that has happened. The ledger of a term is the log of its
leader, as far as the leader has got with it. -/
structure State (N T E : Type) where
  term : N → T
  log : N → List E
  known : N → Nat
  campaigns : List (Campaign N T E)
  ballots : List (Ballot N T E)
  reigns : List (Reign N T E)
  ledger : T → List E
  acks : List (Ack N T)
  commits : List (Commit T)

/-- Nothing has happened. -/
def State.initial (t : T) : State N T E :=
  ⟨fun _ => t, fun _ => [], fun _ => 0, [], [], [], fun _ => [], [], []⟩

/-- Up to where a beginning of a log reaches, it is the log. -/
theorem take_of_begins {l whole : List E} (h : l <+: whole) {k : Nat} (hk : k ≤ l.length) :
    whole.take k = l.take k := by
  obtain ⟨rest, rfl⟩ := h
  exact List.take_append_of_le_length hk

theorem getElem?_of_begins {l whole : List E} (h : l <+: whole) {k : Nat} {e : E} (hk : l[k]? = some e) :
    whole[k]? = some e := by
  obtain ⟨rest, rfl⟩ := h
  rw [List.getElem?_append_left (List.getElem?_eq_some_iff.mp hk).1]
  exact hk

/-- What a node holds once it has taken over a leader's entries: what it had, if they were
all there, and otherwise just them. -/
noncomputable def adopt (held entries : List E) : List E :=
  open Classical in if entries <+: held then held else entries

theorem adopt_of_begins {held entries : List E} (h : entries <+: held) : adopt held entries = held :=
  if_pos h

theorem adopt_of_not_begins {held entries : List E} (h : ¬ entries <+: held) :
    adopt held entries = entries :=
  if_neg h

/-- A beginning of the leader's entries is completed. -/
theorem adopt_of_le {held entries : List E} (h : held <+: entries) : adopt held entries = entries := by
  by_cases hp : entries <+: held
  · rw [adopt_of_begins hp]
    exact h.eq_of_length (le_antisymm h.length_le hp.length_le)
  · exact adopt_of_not_begins hp

theorem prefix_adopt (held entries : List E) : entries <+: adopt held entries := by
  by_cases h : entries <+: held
  · rw [adopt_of_begins h]
    exact h
  · rw [adopt_of_not_begins h]

/-- Of two beginnings of one log, the adopted one does not displace the other. -/
theorem prefix_adopt_of_begins {part held entries whole : List E} (hpart : part <+: held)
    (hwhole : part <+: whole) (hentries : entries <+: whole) : part <+: adopt held entries := by
  by_cases h : entries <+: held
  · rw [adopt_of_begins h]
    exact hpart
  · rw [adopt_of_not_begins h]
    rcases List.prefix_or_prefix_of_prefix hwhole hentries with hle | hle
    · exact hle
    · exact absurd (hle.trans hpart) h

variable [LinearOrder T] (termOf : E → T)

/-- The first log is at least as far as the second: its last entry is of a later term, or of
the same term in a log that is no shorter. -/
def AtLeast (a b : List E) : Prop :=
  ∀ y ∈ b.getLast?, ∃ x ∈ a.getLast?, termOf y < termOf x ∨ termOf y = termOf x ∧ b.length ≤ a.length

theorem AtLeast.refl (l : List E) : AtLeast termOf l l :=
  fun y hy => ⟨y, hy, .inr ⟨rfl, le_rfl⟩⟩

namespace State
variable (s : State N T E)

/-- The term has had a leader. -/
def Led (t : T) : Prop :=
  ∃ r ∈ s.reigns, r.term = t

/-- Up to each of its entries the log is the ledger of the entry's term, and the terms never
go down. -/
structure Sound (l : List E) : Prop where
  traced : ∀ k e, l[k]? = some e → s.Led (termOf e) ∧ l.take (k + 1) <+: s.ledger (termOf e)
  sorted : l.Pairwise fun a b => termOf a ≤ termOf b

/-- A log still has the beginning of a term's ledger, unless a later leader, of one of the
given terms, did not have it. -/
def Kept (t : T) (k : Nat) (l : List E) (U : Set T) : Prop :=
  (s.ledger t).take k <+: l ∨
    ∃ r ∈ s.reigns, t < r.term ∧ r.term ∈ U ∧ ¬ (s.ledger t).take k <+: r.held

/-- The voters for a reign who at their vote had lost nothing they had acknowledged, except
to leaders before it. -/
def Voters (r : Reign N T E) : Set N :=
  {v | ∃ b ∈ s.ballots, b.voter = v ∧ b.term = r.term ∧ b.candidate = r.leader ∧
    ∀ a ∈ s.acks, a.node = v → a.term < r.term → ∀ k ≤ a.length, s.Kept a.term k b.held (Set.Iio r.term)}

/-- The nodes that have taken over that much of the ledger of a term. -/
def Holders (t : T) (m : Nat) : Set N :=
  {v | ∃ a ∈ s.acks, a.node = v ∧ a.term = t ∧ m ≤ a.length}

end State

/-! ### Steps -/

namespace State
variable (s : State N T E)

/-- A node asks to lead its term. -/
def stand (i : N) : State N T E :=
  { s with campaigns := ⟨i, s.term i, s.log i⟩ :: s.campaigns }

/-- A node votes in its term. -/
def vote (v candidate : N) : State N T E :=
  { s with ballots := ⟨v, s.term v, candidate, s.log v⟩ :: s.ballots }

/-- A node leads its term. -/
def elect (c : N) : State N T E :=
  { s with
    reigns := ⟨c, s.term c, s.log c⟩ :: s.reigns
    ledger := Function.update s.ledger (s.term c) (s.log c) }

/-- A beginning of the ledger of a term is committed. -/
def commit (t : T) (length : Nat) : State N T E :=
  { s with commits := ⟨t, length⟩ :: s.commits }

variable [DecidableEq N]

/-- A node enters a term. -/
def advance (i : N) (t : T) : State N T E :=
  { s with term := Function.update s.term i t }

/-- A leader makes an entry. -/
def propose (r : Reign N T E) (e : E) : State N T E :=
  { s with
    log := Function.update s.log r.leader (s.log r.leader ++ [e])
    ledger := Function.update s.ledger r.term (s.log r.leader ++ [e]) }

/-- A node takes over entries of the leader of a term. -/
noncomputable def accept (i : N) (t : T) (entries : List E) : State N T E :=
  { s with
    log := Function.update s.log i (adopt (s.log i) entries)
    acks := ⟨i, t, entries.length⟩ :: s.acks }

/-- A node takes that much of its log for committed. -/
def learn (i : N) (k : Nat) : State N T E :=
  { s with known := Function.update s.known i k }

end State

/-- What can happen. -/
inductive Step [DecidableEq N] (el : Electorate N) (s : State N T E) : State N T E → Prop
  /-- A node may learn of a later term. -/
  | advance (i : N) (t : T) (hterm : s.term i ≤ t) : Step el s (s.advance i t)
  /-- A node stands once in a term, which is later than all it holds. -/
  | stand (i : N) (hfresh : ∀ c ∈ s.campaigns, c.candidate = i → c.term ≠ s.term i)
    (hbefore : ∀ e ∈ s.log i, termOf e < s.term i) : Step el s (s.stand i)
  /-- A node votes for a candidate at least as far as itself, and for no two in a term. -/
  | vote (v : N) (c : Campaign N T E) (hc : c ∈ s.campaigns) (hterm : c.term = s.term v)
    (hleast : AtLeast termOf c.held (s.log v))
    (hfree : ∀ b ∈ s.ballots, b.voter = v → b.term = s.term v → b.candidate = c.candidate) :
    Step el s (s.vote v c.candidate)
  /-- A candidate that holds the log it stood with is voted for by a quorum. -/
  | elect (c : N) (hc : ⟨c, s.term c, s.log c⟩ ∈ s.campaigns)
    (hnew : ∀ r ∈ s.reigns, r.leader = c → r.term ≠ s.term c)
    (hquorum : el.Quorum {v | ∃ b ∈ s.ballots, b.voter = v ∧ b.term = s.term c ∧ b.candidate = c}) :
    Step el s (s.elect c)
  /-- A leader marks entries with its term. -/
  | propose (r : Reign N T E) (hr : r ∈ s.reigns) (hterm : s.term r.leader = r.term) (e : E)
    (he : termOf e = r.term) : Step el s (s.propose r e)
  /-- What a node takes over of the leader of its term includes all that leader started with. -/
  | accept (i : N) (r : Reign N T E) (hr : r ∈ s.reigns) (hterm : s.term i = r.term)
    (entries : List E) (hheld : r.held <+: entries) (hledger : entries <+: s.ledger r.term) :
    Step el s (s.accept i r.term entries)
  /-- A quorum has taken over the ledger of a term up to an entry of that term. -/
  | commit (t : T) (m : Nat) (e : E) (hm : (s.ledger t)[m]? = some e) (he : termOf e = t)
    (hled : s.Led t) (hquorum : el.Quorum (s.Holders t (m + 1))) : Step el s (s.commit t (m + 1))
  /-- A node learns that a part of what it holds is committed. -/
  | learn (i : N) (k : Nat) (c : Commit T) (hc : c ∈ s.commits) (hterm : c.term ≤ s.term i)
    (hk : k ≤ c.length) (hlog : (s.ledger c.term).take k <+: s.log i) : Step el s (s.learn i k)

/-! ### The invariant -/

/-- What nodes hold, and what candidates and voters held. -/
structure Logs (s : State N T E) : Prop where
  log_sound : ∀ i, s.Sound termOf (s.log i)
  log_term : ∀ i, ∀ e ∈ s.log i, termOf e ≤ s.term i
  campaign_sound : ∀ c ∈ s.campaigns, s.Sound termOf c.held
  campaign_before : ∀ c ∈ s.campaigns, ∀ e ∈ c.held, termOf e < c.term
  ballot_sound : ∀ b ∈ s.ballots, s.Sound termOf b.held

/-- One campaign and one vote a term, and votes only for candidates at least as far. -/
structure Polls (s : State N T E) : Prop where
  campaign_term : ∀ c ∈ s.campaigns, c.term ≤ s.term c.candidate
  campaign_single : ∀ c ∈ s.campaigns, ∀ d ∈ s.campaigns, c.candidate = d.candidate → c.term = d.term →
    c.held = d.held
  ballot_term : ∀ b ∈ s.ballots, b.term ≤ s.term b.voter
  ballot_single : ∀ b ∈ s.ballots, ∀ d ∈ s.ballots, b.voter = d.voter → b.term = d.term →
    b.candidate = d.candidate
  ballot_backed : ∀ b ∈ s.ballots, ∃ c ∈ s.campaigns, c.candidate = b.candidate ∧ c.term = b.term ∧
    AtLeast termOf c.held b.held

/-- One leader a term, voted for by a quorum, whose ledger is what it was elected with and
then entries of its own, and which holds its ledger as long as its term lasts. -/
structure Reigns (el : Electorate N) (s : State N T E) : Prop where
  reign_campaign : ∀ r ∈ s.reigns, ⟨r.leader, r.term, r.held⟩ ∈ s.campaigns
  reign_single : ∀ r ∈ s.reigns, ∀ q ∈ s.reigns, r.term = q.term → r = q
  reign_elected : ∀ r ∈ s.reigns, el.Quorum (s.Voters r)
  ledger_sound : ∀ r ∈ s.reigns, s.Sound termOf (s.ledger r.term)
  ledger_held : ∀ r ∈ s.reigns, r.held <+: s.ledger r.term
  ledger_own : ∀ r ∈ s.reigns, ∀ e ∈ (s.ledger r.term).drop r.held.length, termOf e = r.term
  leader_log : ∀ r ∈ s.reigns, s.term r.leader = r.term → s.log r.leader = s.ledger r.term

/-- What was acknowledged is still held, except where a later leader lacked it. -/
structure Acks (s : State N T E) : Prop where
  ack_led : ∀ a ∈ s.acks, s.Led a.term
  ack_term : ∀ a ∈ s.acks, a.term ≤ s.term a.node
  ack_length : ∀ a ∈ s.acks, a.length ≤ (s.ledger a.term).length
  ack_kept : ∀ a ∈ s.acks, ∀ k ≤ a.length, s.Kept a.term k (s.log a.node) (Set.Iic (s.term a.node))
  ballot_kept : ∀ b ∈ s.ballots, ∀ a ∈ s.acks, a.node = b.voter → a.term < b.term → ∀ k ≤ a.length,
    s.Kept a.term k b.held (Set.Iic b.term)

/-- A commit ends in an entry of its term that a quorum has, and nodes take for committed
what is. -/
structure Commits (el : Electorate N) (s : State N T E) : Prop where
  commit_led : ∀ c ∈ s.commits, s.Led c.term
  commit_own : ∀ c ∈ s.commits, ∃ m e, c.length = m + 1 ∧ (s.ledger c.term)[m]? = some e ∧ termOf e = c.term
  commit_quorum : ∀ c ∈ s.commits, el.Quorum (s.Holders c.term c.length)
  known_kept : ∀ i, s.known i = 0 ∨ ∃ c ∈ s.commits, c.term ≤ s.term i ∧ s.known i ≤ c.length ∧
    (s.ledger c.term).take (s.known i) <+: s.log i

/-- Everything together. -/
structure Inv (el : Electorate N) (s : State N T E) : Prop extends
  Logs termOf s, Polls termOf s, Reigns termOf el s, Acks s, Commits termOf el s

variable {termOf} {el : Electorate N} {s : State N T E}

/-! ### What follows from it -/

namespace State.Sound

/-- A beginning of a sound log is sound. -/
theorem of_begins {l l' : List E} (h : s.Sound termOf l') (hl : l <+: l') : s.Sound termOf l := by
  refine ⟨?_, h.sorted.sublist hl.sublist⟩
  intro k e hk
  have hlt : k < l.length := (List.getElem?_eq_some_iff.mp hk).1
  rw [← take_of_begins hl (by omega)]
  exact h.traced k e (getElem?_of_begins hl hk)

/-- A log that ends in an entry is a beginning of the ledger of the entry's term. -/
theorem of_last {l : List E} (h : s.Sound termOf l) {e : E} (he : l.getLast? = some e) :
    s.Led (termOf e) ∧ l <+: s.ledger (termOf e) := by
  rw [List.getLast?_eq_getElem?] at he
  obtain ⟨hled, hpre⟩ := h.traced _ e he
  have hlt : l.length - 1 < l.length := (List.getElem?_eq_some_iff.mp he).1
  rw [List.take_of_length_le (by omega)] at hpre
  exact ⟨hled, hpre⟩

/-- No entry is of a later term than the last. -/
theorem le_last {l : List E} (h : s.Sound termOf l) {e x : E} (hx : l.getLast? = some x) (he : e ∈ l) :
    termOf e ≤ termOf x := by
  obtain ⟨init, rfl⟩ := List.getLast?_eq_some_iff.mp hx
  rcases List.mem_append.mp he with hinit | hlast
  · exact (List.pairwise_append.mp h.sorted).2.2 e hinit x (List.mem_singleton_self x)
  · rw [List.mem_singleton.mp hlast]

/-- Logs that have entries of one term at one place are the same up to there. -/
theorem matching {l l' : List E} (h : s.Sound termOf l) (h' : s.Sound termOf l') {k : Nat} {e e' : E}
    (hk : l[k]? = some e) (hk' : l'[k]? = some e') (hterm : termOf e = termOf e') :
    l.take (k + 1) = l'.take (k + 1) := by
  have hl := (h.traced k e hk).2
  have hl' := (h'.traced k e' hk').2
  rw [← hterm] at hl'
  have hlt : k < l.length := (List.getElem?_eq_some_iff.mp hk).1
  have hlt' : k < l'.length := (List.getElem?_eq_some_iff.mp hk').1
  refine (List.prefix_of_prefix_length_le hl hl' ?_).eq_of_length ?_
  · simp only [List.length_take]
    omega
  · simp only [List.length_take]
    omega

end State.Sound

namespace Inv
variable (h : Inv termOf el s)
include h

theorem ledger_term {r : Reign N T E} (hr : r ∈ s.reigns) : ∀ e ∈ s.ledger r.term, termOf e ≤ r.term := by
  intro e he
  obtain ⟨own, hown⟩ := h.ledger_held r hr
  rw [← hown] at he
  rcases List.mem_append.mp he with hheld | hrest
  · exact (h.campaign_before _ (h.reign_campaign r hr) e hheld).le
  · refine (h.ledger_own r hr e ?_).le
    rw [← hown, List.drop_left]
    exact hrest

/-- A log of a candidate at least as far as the log of a voter has what the voter's log has
of a term, if the leaders between that term and the candidate's have it. -/
theorem carried {t : T} {part held l : List E} {u : T} (hpart : part <+: held) {e : E}
    (hlast : part.getLast? = some e) (he : termOf e = t) (hheld : s.Sound termOf held)
    (hl : s.Sound termOf l) (hbefore : ∀ x ∈ l, termOf x < u) (hleast : AtLeast termOf l held)
    (hbetween : ∀ r ∈ s.reigns, t < r.term → r.term < u → part <+: r.held) : part <+: l := by
  obtain ⟨y, hy⟩ : ∃ y, held.getLast? = some y := by
    cases hc : held.getLast? with
    | some y => exact ⟨y, rfl⟩
    | none =>
      rw [List.getLast?_eq_none_iff] at hc
      rw [hc, List.prefix_nil] at hpart
      rw [hpart] at hlast
      cases hlast
  obtain ⟨x, hx, hlt | ⟨heq, hlen⟩⟩ := hleast y hy
  · -- the candidate's last entry is of a later term, whose leader had it
    obtain ⟨⟨r, hr, hrt⟩, hlr⟩ := hl.of_last hx
    rw [← hrt] at hlr
    have hty : t ≤ termOf y := by
      rw [← he]
      exact hheld.le_last hy (hpart.subset (List.mem_of_getLast? hlast))
    have hpr := hbetween r hr (by rw [hrt]; exact hty.trans_lt hlt)
      (by rw [hrt]; exact hbefore x (List.mem_of_getLast? hx))
    rcases List.prefix_or_prefix_of_prefix hlr (h.ledger_held r hr) with hle | hle
    · -- the last entry is of that leader's own, so the log it started with is shorter
      have hxr := h.campaign_before _ (h.reign_campaign r hr) x (hle.subset (List.mem_of_getLast? hx))
      exact absurd hrt hxr.ne'
    · exact hpr.trans hle
  · have hsame := (hheld.of_last hy).2
    rw [heq] at hsame
    exact hpart.trans (List.prefix_of_prefix_length_le hsame (hl.of_last hx).2 hlen)

/-- **A leader holds what was committed before its term.** -/
theorem complete {c : Commit T} (hc : c ∈ s.commits) {r : Reign N T E} (hr : r ∈ s.reigns)
    (hterm : c.term < r.term) : (s.ledger c.term).take c.length <+: r.held := by
  by_contra hnot
  -- the first leader that lacks it
  have hfinite : {q | q ∈ s.reigns ∧ c.term < q.term ∧ ¬ (s.ledger c.term).take c.length <+: q.held}.Finite :=
    s.reigns.finite_toSet.subset fun q hq => hq.1
  obtain ⟨q, ⟨hq, hcq, hlacks⟩, hfirst⟩ :=
    Set.exists_min_image _ (fun q : Reign N T E => q.term) hfinite ⟨r, hr, hterm, hnot⟩
  have hbetween : ∀ p ∈ s.reigns, c.term < p.term → p.term < q.term →
      (s.ledger c.term).take c.length <+: p.held := by
    intro p hp hcp hpq
    by_contra hp'
    exact absurd (hfirst p ⟨hp, hcp, hp'⟩) (not_le.mpr hpq)
  obtain ⟨v, ⟨b, hb, hbv, hbt, hbc, hkept⟩, a, ha, hav, hat, hlen⟩ :=
    el.meet (h.reign_elected q hq) (h.commit_quorum c hc)
  obtain ⟨d, hd, hdc, hdt, hleast⟩ := h.ballot_backed b hb
  rw [h.campaign_single d hd _ (h.reign_campaign q hq) (hdc.trans hbc) (hdt.trans hbt)] at hleast
  obtain ⟨m, e, hm, hget, he⟩ := h.commit_own c hc
  have hlast : ((s.ledger c.term).take c.length).getLast? = some e := by
    have hlt : m < (s.ledger c.term).length := (List.getElem?_eq_some_iff.mp hget).1
    rw [List.getLast?_eq_getElem?, hm, List.length_take, min_eq_left (by omega), Nat.add_sub_cancel,
      List.getElem?_take_of_lt (by omega), hget]
  rcases hkept a ha hav (by rw [hat]; exact hcq) c.length hlen with hhas | ⟨p, hp, hap, hpq, hno⟩
  · rw [hat] at hhas
    exact hlacks (h.carried hhas hlast he (h.ballot_sound b hb) (h.campaign_sound _ (h.reign_campaign q hq))
      (h.campaign_before _ (h.reign_campaign q hq)) hleast hbetween)
  · rw [hat] at hap hno
    exact hno (hbetween p hp hap hpq)

/-- The ledger of a term has what was committed in it and before it. -/
theorem commit_ledger {c : Commit T} (hc : c ∈ s.commits) {r : Reign N T E} (hr : r ∈ s.reigns)
    (hterm : c.term ≤ r.term) : (s.ledger c.term).take c.length <+: s.ledger r.term := by
  rcases hterm.eq_or_lt with heq | hlt
  · rw [heq]
    exact List.take_prefix _ _
  · exact (h.complete hc hr hlt).trans (h.ledger_held r hr)

/-- **Two commits agree**: one is a beginning of the other. -/
theorem commit_agree {c d : Commit T} (hc : c ∈ s.commits) (hd : d ∈ s.commits) :
    (s.ledger c.term).take c.length <+: (s.ledger d.term).take d.length ∨
      (s.ledger d.term).take d.length <+: (s.ledger c.term).take c.length := by
  have hpair : ∀ c ∈ s.commits, ∀ d ∈ s.commits, c.term ≤ d.term →
      (s.ledger c.term).take c.length <+: (s.ledger d.term).take d.length ∨
        (s.ledger d.term).take d.length <+: (s.ledger c.term).take c.length := by
    intro c hc d hd hle
    obtain ⟨r, hr, hrt⟩ := h.commit_led d hd
    have hin := h.commit_ledger hc hr (hrt ▸ hle)
    rw [hrt] at hin
    exact List.prefix_or_prefix_of_prefix hin (List.take_prefix _ _)
  rcases le_total c.term d.term with hle | hle
  · exact hpair c hc d hd hle
  · exact (hpair d hd c hc hle).symm

/-- What a node takes for committed is the beginning of some commit. -/
theorem known_commit (i : N) : s.known i = 0 ∨ ∃ c ∈ s.commits, c.term ≤ s.term i ∧
    (s.log i).take (s.known i) <+: (s.ledger c.term).take c.length ∧
    (s.log i).take (s.known i) = (s.ledger c.term).take (s.known i) := by
  rcases h.known_kept i with h0 | ⟨c, hc, hterm, hle, hpre⟩
  · exact .inl h0
  · refine .inr ⟨c, hc, hterm, ?_⟩
    have heq : (s.log i).take (s.known i) = (s.ledger c.term).take (s.known i) := by
      obtain ⟨m, e, hm, hget, _⟩ := h.commit_own c hc
      have hlt : m < (s.ledger c.term).length := (List.getElem?_eq_some_iff.mp hget).1
      rw [take_of_begins hpre (by rw [List.length_take]; omega), List.take_take, min_self]
    refine ⟨?_, heq⟩
    rw [heq]
    exact List.take_prefix_take_left hle

/-- **What two nodes take for committed agrees.** -/
theorem known_agree (i j : N) : (s.log i).take (s.known i) <+: (s.log j).take (s.known j) ∨
    (s.log j).take (s.known j) <+: (s.log i).take (s.known i) := by
  rcases h.known_commit i with hi | ⟨c, hc, _, hci, _⟩
  · left
    rw [hi]
    exact List.nil_prefix
  rcases h.known_commit j with hj | ⟨d, hd, _, hdj, _⟩
  · right
    rw [hj]
    exact List.nil_prefix
  rcases h.commit_agree hc hd with hle | hle
  · exact List.prefix_or_prefix_of_prefix (hci.trans hle) hdj
  · exact List.prefix_or_prefix_of_prefix hci (hdj.trans hle)

/-- **What a node takes for committed stays** when it takes over a leader's entries. -/
theorem known_adopt {i : N} {r : Reign N T E} (hr : r ∈ s.reigns) (hterm : s.term i = r.term)
    {entries : List E} (hledger : entries <+: s.ledger r.term) :
    (s.log i).take (s.known i) <+: adopt (s.log i) entries := by
  rcases h.known_commit i with hi | ⟨c, hc, hct, hci, _⟩
  · rw [hi]
    exact List.nil_prefix
  · exact prefix_adopt_of_begins (List.take_prefix _ _)
      (hci.trans (h.commit_ledger hc hr (hterm ▸ hct))) hledger

end Inv

/-! ### The history grows -/

/-- What every step does to what is past: leaders stay, and their ledgers and all terms only
grow. -/
structure Grows (s s' : State N T E) : Prop where
  reigns : ∀ r ∈ s.reigns, r ∈ s'.reigns
  ledger : ∀ r ∈ s.reigns, s.ledger r.term <+: s'.ledger r.term
  term : ∀ i, s.term i ≤ s'.term i

namespace Grows
variable {s' : State N T E} (g : Grows s s')
include g

theorem led {t : T} (h : s.Led t) : s'.Led t :=
  let ⟨r, hr, ht⟩ := h
  ⟨r, g.reigns r hr, ht⟩

theorem ledger_led {t : T} (h : s.Led t) : s.ledger t <+: s'.ledger t := by
  obtain ⟨r, hr, rfl⟩ := h
  exact g.ledger r hr

theorem sound {l : List E} (h : s.Sound termOf l) : s'.Sound termOf l := by
  refine ⟨?_, h.sorted⟩
  intro k e hk
  obtain ⟨hled, hpre⟩ := h.traced k e hk
  exact ⟨g.led hled, hpre.trans (g.ledger_led hled)⟩

theorem take_ledger {t : T} (h : s.Led t) {k : Nat} (hk : k ≤ (s.ledger t).length) :
    (s'.ledger t).take k = (s.ledger t).take k :=
  take_of_begins (g.ledger_led h) hk

theorem kept {t : T} (hled : s.Led t) {k : Nat} (hk : k ≤ (s.ledger t).length) {l l' : List E}
    (hl : l <+: l') {U V : Set T} (hU : U ⊆ V) (h : s.Kept t k l U) : s'.Kept t k l' V := by
  unfold State.Kept
  rw [g.take_ledger hled hk]
  rcases h with hhas | ⟨r, hr, htr, hrU, hno⟩
  · exact .inl (hhas.trans hl)
  · exact .inr ⟨r, g.reigns r hr, htr, hU hrU, hno⟩

/-- Who voted for a leader, and what it held, does not change: acknowledgements are given in
the term a node is in. -/
theorem voters (h : Inv termOf el s) (hballots : ∀ b ∈ s.ballots, b ∈ s'.ballots)
    (hacks : ∀ a ∈ s'.acks, a ∈ s.acks ∨ a.term = s.term a.node) {r : Reign N T E} :
    s.Voters r ⊆ s'.Voters r := by
  rintro v ⟨b, hb, hbv, hbt, hbc, hkept⟩
  refine ⟨b, hballots b hb, hbv, hbt, hbc, ?_⟩
  intro a ha hav hat k hk
  rcases hacks a ha with hold | hnew
  · exact g.kept (h.ack_led a hold) (hk.trans (h.ack_length a hold)) (List.prefix_refl _) le_rfl
      (hkept a hold hav hat k hk)
  · have hterm := h.ballot_term b hb
    rw [hbv, ← hav, ← hnew, hbt] at hterm
    exact absurd hat (not_lt.mpr hterm)

theorem logs (h : Inv termOf el s) (hlog : s'.log = s.log) (hcampaigns : s'.campaigns = s.campaigns)
    (hballots : s'.ballots = s.ballots) : Logs termOf s' where
  log_sound i := hlog ▸ g.sound (h.log_sound i)
  log_term i e he := (h.log_term i e (hlog ▸ he)).trans (g.term i)
  campaign_sound c hc := g.sound (h.campaign_sound c (hcampaigns ▸ hc))
  campaign_before c hc := h.campaign_before c (hcampaigns ▸ hc)
  ballot_sound b hb := g.sound (h.ballot_sound b (hballots ▸ hb))

theorem polls (h : Inv termOf el s) (hcampaigns : s'.campaigns = s.campaigns)
    (hballots : s'.ballots = s.ballots) : Polls termOf s' where
  campaign_term c hc := (h.campaign_term c (hcampaigns ▸ hc)).trans (g.term _)
  campaign_single := hcampaigns ▸ h.campaign_single
  ballot_term b hb := (h.ballot_term b (hballots ▸ hb)).trans (g.term _)
  ballot_single := hballots ▸ h.ballot_single
  ballot_backed := by
    rw [hballots, hcampaigns]
    exact h.ballot_backed

theorem acks (h : Inv termOf el s) (hlog : ∀ i, s.log i <+: s'.log i) (hacks : s'.acks = s.acks)
    (hballots : s'.ballots = s.ballots) : Acks s' where
  ack_led a ha := g.led (h.ack_led a (hacks ▸ ha))
  ack_term a ha := (h.ack_term a (hacks ▸ ha)).trans (g.term _)
  ack_length a ha := by
    rw [hacks] at ha
    exact (h.ack_length a ha).trans (g.ledger_led (h.ack_led a ha)).length_le
  ack_kept a ha k hk := by
    rw [hacks] at ha
    exact g.kept (h.ack_led a ha) (hk.trans (h.ack_length a ha)) (hlog _)
      (Set.Iic_subset_Iic.mpr (g.term _)) (h.ack_kept a ha k hk)
  ballot_kept b hb a ha hab hlt k hk := by
    rw [hacks] at ha
    rw [hballots] at hb
    exact g.kept (h.ack_led a ha) (hk.trans (h.ack_length a ha)) (List.prefix_refl _) le_rfl
      (h.ballot_kept b hb a ha hab hlt k hk)

/-- A commit is no longer than the ledger. -/
theorem take_commit (h : Inv termOf el s) {c : Commit T} (hc : c ∈ s.commits) {k : Nat} (hk : k ≤ c.length) :
    (s'.ledger c.term).take k = (s.ledger c.term).take k := by
  obtain ⟨m, e, hm, hget, _⟩ := h.commit_own c hc
  have hlt : m < (s.ledger c.term).length := (List.getElem?_eq_some_iff.mp hget).1
  exact g.take_ledger (h.commit_led c hc) (by omega)

theorem commits (h : Inv termOf el s)
    (hlog : ∀ i, (s.log i).take (s.known i) <+: s'.log i) (hacks : ∀ a ∈ s.acks, a ∈ s'.acks)
    (hcommits : s'.commits = s.commits) (hknown : s'.known = s.known) : Commits termOf el s' where
  commit_led c hc := g.led (h.commit_led c (hcommits ▸ hc))
  commit_own c hc := by
    rw [hcommits] at hc
    obtain ⟨m, e, hm, hget, he⟩ := h.commit_own c hc
    exact ⟨m, e, hm, getElem?_of_begins (g.ledger_led (h.commit_led c hc)) hget, he⟩
  commit_quorum c hc := by
    rw [hcommits] at hc
    refine el.mono ?_ (h.commit_quorum c hc)
    rintro v ⟨a, ha, hav⟩
    exact ⟨a, hacks a ha, hav⟩
  known_kept i := by
    rw [hcommits, hknown]
    rcases h.known_kept i with h0 | ⟨c, hc, hterm, hle, hpre⟩
    · exact .inl h0
    · refine .inr ⟨c, hc, hterm.trans (g.term i), hle, ?_⟩
      rw [g.take_commit h hc hle]
      refine List.IsPrefix.trans ?_ (hlog i)
      rw [List.prefix_take_iff]
      exact ⟨hpre, List.length_take_le _ _⟩

/-- A step that elects nobody and leaves the ledgers alone. -/
theorem reigns_same (h : Inv termOf el s) (hreigns : s'.reigns = s.reigns) (hledger : s'.ledger = s.ledger)
    (hcampaigns : ∀ c ∈ s.campaigns, c ∈ s'.campaigns) (hballots : ∀ b ∈ s.ballots, b ∈ s'.ballots)
    (hacks : ∀ a ∈ s'.acks, a ∈ s.acks ∨ a.term = s.term a.node)
    (hleader : ∀ r ∈ s.reigns, s'.term r.leader = r.term → s'.log r.leader = s.ledger r.term) :
    Reigns termOf el s' where
  reign_campaign r hr := hcampaigns _ (h.reign_campaign r (hreigns ▸ hr))
  reign_single := hreigns ▸ h.reign_single
  reign_elected r hr := el.mono (g.voters h hballots hacks) (h.reign_elected r (hreigns ▸ hr))
  ledger_sound r hr := hledger ▸ g.sound (h.ledger_sound r (hreigns ▸ hr))
  ledger_held r hr := hledger ▸ h.ledger_held r (hreigns ▸ hr)
  ledger_own r hr := hledger ▸ h.ledger_own r (hreigns ▸ hr)
  leader_log r hr hterm := hledger ▸ hleader r (hreigns ▸ hr) hterm

end Grows

/-- A step that leaves leaders and ledgers alone. -/
theorem Grows.of_same {s' : State N T E} (hreigns : s'.reigns = s.reigns) (hledger : s'.ledger = s.ledger)
    (hterm : ∀ i, s.term i ≤ s'.term i) : Grows s s' := by
  refine ⟨?_, ?_, hterm⟩
  · intro r hr
    rw [hreigns]
    exact hr
  · intro r _
    rw [hledger]

/-! ### Every step keeps the invariant -/

theorem State.initial_inv (t : T) : Inv termOf el (State.initial t : State N T E) where
  log_sound i := ⟨by simp [State.initial], List.Pairwise.nil⟩
  log_term i e he := absurd he List.not_mem_nil
  campaign_sound c hc := absurd hc List.not_mem_nil
  campaign_before c hc := absurd hc List.not_mem_nil
  ballot_sound b hb := absurd hb List.not_mem_nil
  campaign_term c hc := absurd hc List.not_mem_nil
  campaign_single c hc := absurd hc List.not_mem_nil
  ballot_term b hb := absurd hb List.not_mem_nil
  ballot_single b hb := absurd hb List.not_mem_nil
  ballot_backed b hb := absurd hb List.not_mem_nil
  reign_campaign r hr := absurd hr List.not_mem_nil
  reign_single r hr := absurd hr List.not_mem_nil
  reign_elected r hr := absurd hr List.not_mem_nil
  ledger_sound r hr := absurd hr List.not_mem_nil
  ledger_held r hr := absurd hr List.not_mem_nil
  ledger_own r hr := absurd hr List.not_mem_nil
  leader_log r hr := absurd hr List.not_mem_nil
  ack_led a ha := absurd ha List.not_mem_nil
  ack_term a ha := absurd ha List.not_mem_nil
  ack_length a ha := absurd ha List.not_mem_nil
  ack_kept a ha := absurd ha List.not_mem_nil
  ballot_kept b hb := absurd hb List.not_mem_nil
  commit_led c hc := absurd hc List.not_mem_nil
  commit_own c hc := absurd hc List.not_mem_nil
  commit_quorum c hc := absurd hc List.not_mem_nil
  known_kept i := .inl rfl

namespace Inv
variable (h : Inv termOf el s)
include h

theorem stand {i : N} (hfresh : ∀ c ∈ s.campaigns, c.candidate = i → c.term ≠ s.term i)
    (hbefore : ∀ e ∈ s.log i, termOf e < s.term i) : Inv termOf el (s.stand i) := by
  have g : Grows s (s.stand i) := Grows.of_same rfl rfl fun _ => le_rfl
  exact
    { log_sound := fun j => g.sound (h.log_sound j)
      log_term := h.log_term
      campaign_sound := by
        intro c hc
        rcases List.mem_cons.mp hc with rfl | hold
        · exact g.sound (h.log_sound i)
        · exact g.sound (h.campaign_sound c hold)
      campaign_before := by
        intro c hc
        rcases List.mem_cons.mp hc with rfl | hold
        · exact hbefore
        · exact h.campaign_before c hold
      ballot_sound := fun b hb => g.sound (h.ballot_sound b hb)
      campaign_term := by
        intro c hc
        rcases List.mem_cons.mp hc with rfl | hold
        · exact le_rfl
        · exact h.campaign_term c hold
      campaign_single := by
        intro c hc d hd hcd ht
        rcases List.mem_cons.mp hc with rfl | hc <;> rcases List.mem_cons.mp hd with rfl | hd
        · rfl
        · exact absurd ht.symm (hfresh d hd hcd.symm)
        · exact absurd ht (hfresh c hc hcd)
        · exact h.campaign_single c hc d hd hcd ht
      ballot_term := h.ballot_term
      ballot_single := h.ballot_single
      ballot_backed := by
        intro b hb
        obtain ⟨c, hc, hback⟩ := h.ballot_backed b hb
        exact ⟨c, List.mem_cons_of_mem _ hc, hback⟩
      toReigns := g.reigns_same h rfl rfl (fun _ hc => List.mem_cons_of_mem _ hc) (fun _ hb => hb)
        (fun _ ha => .inl ha) h.leader_log
      toAcks := g.acks h (fun _ => List.prefix_refl _) rfl rfl
      toCommits := g.commits h (fun _ => List.take_prefix _ _) (fun _ ha => ha) rfl rfl }

theorem vote {v : N} {c : Campaign N T E} (hc : c ∈ s.campaigns) (hterm : c.term = s.term v)
    (hleast : AtLeast termOf c.held (s.log v))
    (hfree : ∀ b ∈ s.ballots, b.voter = v → b.term = s.term v → b.candidate = c.candidate) :
    Inv termOf el (s.vote v c.candidate) := by
  have g : Grows s (s.vote v c.candidate) := Grows.of_same rfl rfl fun _ => le_rfl
  exact
    { log_sound := fun j => g.sound (h.log_sound j)
      log_term := h.log_term
      campaign_sound := fun d hd => g.sound (h.campaign_sound d hd)
      campaign_before := h.campaign_before
      ballot_sound := by
        intro b hb
        rcases List.mem_cons.mp hb with rfl | hold
        · exact g.sound (h.log_sound v)
        · exact g.sound (h.ballot_sound b hold)
      campaign_term := h.campaign_term
      campaign_single := h.campaign_single
      ballot_term := by
        intro b hb
        rcases List.mem_cons.mp hb with rfl | hold
        · exact le_rfl
        · exact h.ballot_term b hold
      ballot_single := by
        intro b hb d hd hbd ht
        rcases List.mem_cons.mp hb with rfl | hb <;> rcases List.mem_cons.mp hd with rfl | hd
        · rfl
        · exact (hfree d hd hbd.symm ht.symm).symm
        · exact hfree b hb hbd ht
        · exact h.ballot_single b hb d hd hbd ht
      ballot_backed := by
        intro b hb
        rcases List.mem_cons.mp hb with rfl | hold
        · exact ⟨c, hc, rfl, hterm, hleast⟩
        · exact h.ballot_backed b hold
      toReigns := g.reigns_same h rfl rfl (fun _ hd => hd) (fun _ hb => List.mem_cons_of_mem _ hb)
        (fun _ ha => .inl ha) h.leader_log
      ack_led := h.ack_led
      ack_term := h.ack_term
      ack_length := h.ack_length
      ack_kept := h.ack_kept
      ballot_kept := by
        intro b hb a ha hab hlt k hk
        rcases List.mem_cons.mp hb with rfl | hold
        · -- what the voter has lost by now it lost to a leader up to its term
          obtain rfl : a.node = v := hab
          exact h.ack_kept a ha k hk
        · exact h.ballot_kept b hold a ha hab hlt k hk
      toCommits := g.commits h (fun _ => List.take_prefix _ _) (fun _ ha => ha) rfl rfl }

/-- Two quorums of one term vote for the same node. -/
theorem unelected {c : N} (hnew : ∀ r ∈ s.reigns, r.leader = c → r.term ≠ s.term c)
    (hquorum : el.Quorum {v | ∃ b ∈ s.ballots, b.voter = v ∧ b.term = s.term c ∧ b.candidate = c}) :
    ∀ r ∈ s.reigns, r.term ≠ s.term c := by
  intro r hr hrt
  obtain ⟨v, ⟨b, hb, hbv, hbt, hbc, _⟩, d, hd, hdv, hdt, hdc⟩ := el.meet (h.reign_elected r hr) hquorum
  have hsame := h.ballot_single b hb d hd (hbv.trans hdv.symm) (by rw [hbt, hdt, hrt])
  exact hnew r hr (by rw [← hbc, hsame, hdc]) hrt

omit h in
theorem elect_grows {c : N} (hfirst : ∀ r ∈ s.reigns, r.term ≠ s.term c) : Grows s (s.elect c) := by
  refine ⟨fun _ hr => List.mem_cons_of_mem _ hr, ?_, fun _ => le_rfl⟩
  intro r hr
  rw [show (s.elect c).ledger r.term = s.ledger r.term from Function.update_of_ne (hfirst r hr) _ _]

/-- The voters of a new leader have lost nothing to a leader of its very term. -/
theorem elect_voters {c : N} (hfirst : ∀ r ∈ s.reigns, r.term ≠ s.term c) :
    {v | ∃ b ∈ s.ballots, b.voter = v ∧ b.term = s.term c ∧ b.candidate = c} ⊆
      (s.elect c).Voters ⟨c, s.term c, s.log c⟩ := by
  rintro v ⟨b, hb, hbv, hbt, hbc⟩
  refine ⟨b, hb, hbv, hbt, hbc, ?_⟩
  intro a ha hav hat k hk
  refine (elect_grows hfirst).kept (h.ack_led a ha) (hk.trans (h.ack_length a ha)) (List.prefix_refl _) le_rfl ?_
  rcases h.ballot_kept b hb a ha (hav.trans hbv.symm) (by rw [hbt]; exact hat) k hk with
    hhas | ⟨q, hq, haq, hqb, hno⟩
  · exact .inl hhas
  · refine .inr ⟨q, hq, haq, lt_of_le_of_ne ?_ (hfirst q hq), hno⟩
    rw [← hbt]
    exact hqb

theorem elect {c : N} (hc : ⟨c, s.term c, s.log c⟩ ∈ s.campaigns)
    (hnew : ∀ r ∈ s.reigns, r.leader = c → r.term ≠ s.term c)
    (hquorum : el.Quorum {v | ∃ b ∈ s.ballots, b.voter = v ∧ b.term = s.term c ∧ b.candidate = c}) :
    Inv termOf el (s.elect c) := by
  have hfirst := h.unelected hnew hquorum
  have hself : (s.elect c).ledger (s.term c) = s.log c := Function.update_self _ _ _
  have hsame : ∀ r ∈ s.reigns, (s.elect c).ledger r.term = s.ledger r.term :=
    fun r hr => Function.update_of_ne (hfirst r hr) _ _
  have g := elect_grows hfirst
  exact
    { toLogs := g.logs h rfl rfl rfl
      toPolls := g.polls h rfl rfl
      reign_campaign := by
        intro r hr
        rcases List.mem_cons.mp hr with rfl | hold
        · exact hc
        · exact h.reign_campaign r hold
      reign_single := by
        intro r hr q hq ht
        rcases List.mem_cons.mp hr with rfl | hr <;> rcases List.mem_cons.mp hq with rfl | hq
        · rfl
        · exact absurd ht.symm (hfirst q hq)
        · exact absurd ht (hfirst r hr)
        · exact h.reign_single r hr q hq ht
      reign_elected := by
        intro r hr
        rcases List.mem_cons.mp hr with rfl | hold
        · exact el.mono (h.elect_voters hfirst) hquorum
        · exact el.mono (g.voters h (fun _ hb => hb) fun _ ha => .inl ha) (h.reign_elected r hold)
      ledger_sound := by
        intro r hr
        rcases List.mem_cons.mp hr with rfl | hold
        · rw [hself]
          exact g.sound (h.log_sound c)
        · rw [hsame r hold]
          exact g.sound (h.ledger_sound r hold)
      ledger_held := by
        intro r hr
        rcases List.mem_cons.mp hr with rfl | hold
        · rw [hself]
        · rw [hsame r hold]
          exact h.ledger_held r hold
      ledger_own := by
        intro r hr
        rcases List.mem_cons.mp hr with rfl | hold
        · rw [hself, List.drop_length]
          intro e he
          cases he
        · rw [hsame r hold]
          exact h.ledger_own r hold
      leader_log := by
        intro r hr hrt
        rcases List.mem_cons.mp hr with rfl | hold
        · exact hself.symm
        · rw [hsame r hold]
          exact h.leader_log r hold hrt
      toAcks := g.acks h (fun _ => List.prefix_refl _) rfl rfl
      toCommits := g.commits h (fun _ => List.take_prefix _ _) (fun _ ha => ha) rfl rfl }

theorem commit {t : T} {m : Nat} {e : E} (hm : (s.ledger t)[m]? = some e) (he : termOf e = t)
    (hled : s.Led t) (hquorum : el.Quorum (s.Holders t (m + 1))) : Inv termOf el (s.commit t (m + 1)) := by
  have g : Grows s (s.commit t (m + 1)) := Grows.of_same rfl rfl fun _ => le_rfl
  exact
    { toLogs := g.logs h rfl rfl rfl
      toPolls := g.polls h rfl rfl
      toReigns := g.reigns_same h rfl rfl (fun _ hc => hc) (fun _ hb => hb) (fun _ ha => .inl ha) h.leader_log
      toAcks := g.acks h (fun _ => List.prefix_refl _) rfl rfl
      commit_led := by
        intro c hc
        rcases List.mem_cons.mp hc with rfl | hold
        · exact hled
        · exact h.commit_led c hold
      commit_own := by
        intro c hc
        rcases List.mem_cons.mp hc with rfl | hold
        · exact ⟨m, e, rfl, hm, he⟩
        · exact h.commit_own c hold
      commit_quorum := by
        intro c hc
        rcases List.mem_cons.mp hc with rfl | hold
        · exact hquorum
        · exact h.commit_quorum c hold
      known_kept := by
        intro i
        rcases h.known_kept i with h0 | ⟨c, hc, hkept⟩
        · exact .inl h0
        · exact .inr ⟨c, List.mem_cons_of_mem _ hc, hkept⟩ }

variable [DecidableEq N]

omit h in
theorem advance_grows {i : N} {t : T} (hterm : s.term i ≤ t) : Grows s (s.advance i t) := by
  refine Grows.of_same rfl rfl ?_
  intro j
  by_cases hj : j = i
  · subst hj
    exact hterm.trans (Function.update_self j t s.term).ge
  · exact (Function.update_of_ne hj t s.term).ge

theorem advance {i : N} {t : T} (hterm : s.term i ≤ t) : Inv termOf el (s.advance i t) := by
  have g := advance_grows hterm
  refine ⟨g.logs h rfl rfl rfl, g.polls h rfl rfl, ?_, g.acks h (fun _ => List.prefix_refl _) rfl rfl,
    g.commits h (fun _ => List.take_prefix _ _) (fun _ ha => ha) rfl rfl⟩
  refine g.reigns_same h rfl rfl (fun _ hc => hc) (fun _ hb => hb) (fun _ ha => .inl ha) ?_
  intro r hr hrt
  refine h.leader_log r hr (le_antisymm ?_ (h.campaign_term _ (h.reign_campaign r hr)))
  rw [← hrt]
  exact g.term r.leader

theorem propose_grows {r : Reign N T E} (hr : r ∈ s.reigns) (hterm : s.term r.leader = r.term) (e : E) :
    Grows s (s.propose r e) := by
  refine ⟨fun _ hq => hq, ?_, fun _ => le_rfl⟩
  intro q _
  by_cases hq : q.term = r.term
  · rw [hq, show (s.propose r e).ledger r.term = s.log r.leader ++ [e] from Function.update_self _ _ _,
      h.leader_log r hr hterm]
    exact List.prefix_append _ _
  · rw [show (s.propose r e).ledger q.term = s.ledger q.term from Function.update_of_ne hq _ _]

/-- A leader's log with one more entry of its term is sound, its ledger having it too. -/
theorem sound_propose {r : Reign N T E} (hr : r ∈ s.reigns) (hterm : s.term r.leader = r.term) {e : E}
    (he : termOf e = r.term) : (s.propose r e).Sound termOf (s.log r.leader ++ [e]) := by
  have g := h.propose_grows hr hterm e
  refine ⟨?_, ?_⟩
  · intro k x hk
    by_cases hlt : k < (s.log r.leader).length
    · rw [List.getElem?_append_left hlt] at hk
      rw [List.take_append_of_le_length hlt]
      exact (g.sound (h.log_sound r.leader)).traced k x hk
    · have hklt := (List.getElem?_eq_some_iff.mp hk).1
      have hlen : k + 1 = (s.log r.leader ++ [e]).length := by
        simp only [List.length_append, List.length_singleton] at hklt ⊢
        omega
      obtain rfl : e = x := by
        rw [show k = (s.log r.leader).length by simp at hlen; omega, List.getElem?_concat_length] at hk
        exact Option.some.inj hk
      refine ⟨⟨r, hr, he.symm⟩, ?_⟩
      rw [he, hlen, List.take_length,
        show (s.propose r e).ledger r.term = s.log r.leader ++ [e] from Function.update_self _ _ _]
  · rw [List.pairwise_append]
    refine ⟨(h.log_sound r.leader).sorted, List.pairwise_singleton _ _, ?_⟩
    intro x hx y hy
    rw [List.mem_singleton.mp hy, he, ← hterm]
    exact h.log_term r.leader x hx

section Propose
variable {r : Reign N T E} (hr : r ∈ s.reigns) (hterm : s.term r.leader = r.term) {e : E} (he : termOf e = r.term)

omit h in
theorem propose_log (r : Reign N T E) (e : E) : (s.propose r e).log r.leader = s.log r.leader ++ [e] :=
  Function.update_self _ _ _

omit h in
theorem propose_logs {i : N} (hi : i ≠ r.leader) : (s.propose r e).log i = s.log i := Function.update_of_ne hi _ _

omit h in
theorem propose_ledger (r : Reign N T E) (e : E) : (s.propose r e).ledger r.term = s.log r.leader ++ [e] :=
  Function.update_self _ _ _

omit h in
theorem propose_ledgers {t : T} (ht : t ≠ r.term) : (s.propose r e).ledger t = s.ledger t :=
  Function.update_of_ne ht _ _

include hr hterm he

theorem propose_sound : Logs termOf (s.propose r e) := by
  have g := h.propose_grows hr hterm e
  exact
    { log_sound := by
        intro i
        by_cases hi : i = r.leader
        · rw [hi, propose_log]
          exact h.sound_propose hr hterm he
        · rw [propose_logs hi]
          exact g.sound (h.log_sound i)
      log_term := by
        intro i x hx
        by_cases hi : i = r.leader
        · subst hi
          rw [propose_log, List.mem_append, List.mem_singleton] at hx
          rcases hx with hx | rfl
          · exact h.log_term r.leader x hx
          · exact (he.trans hterm.symm).le
        · rw [propose_logs hi] at hx
          exact h.log_term i x hx
      campaign_sound := fun d hd => g.sound (h.campaign_sound d hd)
      campaign_before := h.campaign_before
      ballot_sound := fun b hb => g.sound (h.ballot_sound b hb) }

/-- The leader's ledger has the entry, and no other ledger has changed. -/
theorem propose_reigns : Reigns termOf el (s.propose r e) := by
  have g := h.propose_grows hr hterm e
  have hother : ∀ q ∈ s.reigns, q.term ≠ r.term ∨ q = r := by
    intro q hq
    by_cases hqt : q.term = r.term
    · exact .inr (h.reign_single q hq r hr hqt)
    · exact .inl hqt
  exact
    { reign_campaign := h.reign_campaign
      reign_single := h.reign_single
      reign_elected := fun q hq =>
        el.mono (g.voters h (fun _ hb => hb) fun _ ha => .inl ha) (h.reign_elected q hq)
      ledger_sound := by
        intro q hq
        rcases hother q hq with hne | rfl
        · rw [propose_ledgers hne]
          exact g.sound (h.ledger_sound q hq)
        · rw [propose_ledger]
          exact h.sound_propose hr hterm he
      ledger_held := fun q hq => (h.ledger_held q hq).trans (g.ledger q hq)
      ledger_own := by
        intro q hq
        rcases hother q hq with hne | rfl
        · rw [propose_ledgers hne]
          exact h.ledger_own q hq
        · intro x hx
          rw [propose_ledger, h.leader_log q hq hterm,
            List.drop_append_of_le_length (h.ledger_held q hq).length_le, List.mem_append] at hx
          rcases hx with hx | hx
          · exact h.ledger_own q hq x hx
          · rw [List.mem_singleton.mp hx, he]
      leader_log := by
        intro q hq hqt
        rcases hother q hq with hne | rfl
        · have hleader : q.leader ≠ r.leader := by
            intro heq
            exact hne (hqt.symm.trans (heq ▸ hterm))
          rw [propose_ledgers hne, propose_logs hleader]
          exact h.leader_log q hq hqt
        · rw [propose_log, propose_ledger] }

theorem propose : Inv termOf el (s.propose r e) := by
  have g := h.propose_grows hr hterm e
  have hgrow : ∀ i, s.log i <+: (s.propose r e).log i := by
    intro i
    by_cases hi : i = r.leader
    · rw [hi, propose_log]
      exact List.prefix_append _ _
    · rw [propose_logs hi]
  exact
    { toLogs := h.propose_sound hr hterm he
      toPolls := g.polls h rfl rfl
      toReigns := h.propose_reigns hr hterm he
      toAcks := g.acks h hgrow rfl rfl
      toCommits := g.commits h (fun i => (List.take_prefix _ _).trans (hgrow i)) (fun _ ha => ha) rfl rfl }

end Propose

section Accept
variable {i : N} {r : Reign N T E} (hr : r ∈ s.reigns) (hterm : s.term i = r.term) {entries : List E}
  (hheld : r.held <+: entries) (hledger : entries <+: s.ledger r.term)

omit h [LinearOrder T] in
theorem accept_log (i : N) (t : T) (entries : List E) :
    (s.accept i t entries).log i = adopt (s.log i) entries := Function.update_self _ _ _

omit h [LinearOrder T] in
theorem accept_logs {t : T} {j : N} (hj : j ≠ i) : (s.accept i t entries).log j = s.log j :=
  Function.update_of_ne hj _ _

omit h in
theorem accept_grows (i : N) (t : T) (entries : List E) : Grows s (s.accept i t entries) :=
  Grows.of_same rfl rfl fun _ => le_rfl

include hr hterm hledger

theorem accept_sound : Logs termOf (s.accept i r.term entries) := by
  have g : Grows s (s.accept i r.term entries) := accept_grows ..
  exact
    { log_sound := by
        intro j
        by_cases hj : j = i
        · rw [hj, accept_log]
          by_cases hpre : entries <+: s.log i
          · rw [adopt_of_begins hpre]
            exact g.sound (h.log_sound i)
          · rw [adopt_of_not_begins hpre]
            exact g.sound ((h.ledger_sound r hr).of_begins hledger)
        · rw [accept_logs hj]
          exact g.sound (h.log_sound j)
      log_term := by
        intro j e he
        by_cases hj : j = i
        · subst hj
          rw [accept_log] at he
          by_cases hpre : entries <+: s.log j
          · rw [adopt_of_begins hpre] at he
            exact h.log_term j e he
          · rw [adopt_of_not_begins hpre] at he
            exact (h.ledger_term hr e (hledger.subset he)).trans hterm.ge
        · rw [accept_logs hj] at he
          exact h.log_term j e he
      campaign_sound := fun d hd => g.sound (h.campaign_sound d hd)
      campaign_before := h.campaign_before
      ballot_sound := fun b hb => g.sound (h.ballot_sound b hb) }

/-- A leader has all of its ledger already. -/
theorem accept_leader {q : Reign N T E} (hq : q ∈ s.reigns) (hqt : s.term q.leader = q.term) :
    (s.accept i r.term entries).log q.leader = s.ledger q.term := by
  by_cases hqi : q.leader = i
  · subst hqi
    obtain rfl := h.reign_single q hq r hr (hqt.symm.trans hterm)
    have hown := h.leader_log q hq hqt
    rw [accept_log, adopt_of_begins (by rw [hown]; exact hledger), hown]
  · rw [accept_logs hqi]
    exact h.leader_log q hq hqt

/-- What is taken for committed stays. -/
theorem accept_known (j : N) : (s.log j).take (s.known j) <+: (s.accept i r.term entries).log j := by
  by_cases hj : j = i
  · subst hj
    rw [accept_log]
    exact h.known_adopt hr hterm hledger
  · rw [accept_logs hj]
    exact List.take_prefix _ _

include hheld

/-- What a node had of a ledger stays, or the leader it follows never had it. -/
theorem accept_kept {a : Ack N T} (ha : a ∈ s.acks) {k : Nat} (hk : k ≤ a.length) :
    s.Kept a.term k ((s.accept i r.term entries).log a.node) (Set.Iic (s.term a.node)) := by
  by_cases hai : a.node = i
  · subst hai
    rw [accept_log]
    rcases h.ack_kept a ha k hk with hhas | hlost
    · have hle := h.ack_term a ha
      rw [hterm] at hle
      rcases hle.eq_or_lt with heq | hlt
      · left
        exact prefix_adopt_of_begins hhas (heq ▸ List.take_prefix _ _) hledger
      · by_cases hpre : (s.ledger a.term).take k <+: r.held
        · exact .inl ((hpre.trans hheld).trans (prefix_adopt _ _))
        · exact .inr ⟨r, hr, hlt, hterm.ge, hpre⟩
    · exact .inr hlost
  · rw [accept_logs hai]
    exact h.ack_kept a ha k hk

theorem accept_acks : Acks (s.accept i r.term entries) where
  ack_led a ha := by
    rcases List.mem_cons.mp ha with rfl | hold
    · exact ⟨r, hr, rfl⟩
    · exact h.ack_led a hold
  ack_term a ha := by
    rcases List.mem_cons.mp ha with rfl | hold
    · exact hterm.ge
    · exact h.ack_term a hold
  ack_length a ha := by
    rcases List.mem_cons.mp ha with rfl | hold
    · exact hledger.length_le
    · exact h.ack_length a hold
  ack_kept a ha k hk := by
    rcases List.mem_cons.mp ha with rfl | hold
    · -- the entries that are acknowledged are held
      left
      rw [accept_log]
      refine List.IsPrefix.trans ?_ (prefix_adopt _ _)
      rw [show (s.accept i r.term entries).ledger = s.ledger from rfl, take_of_begins hledger hk]
      exact List.take_prefix _ _
    · exact h.accept_kept hr hterm hheld hledger hold hk
  ballot_kept b hb a ha hab hlt k hk := by
    rcases List.mem_cons.mp ha with rfl | hold
    · have hbt := h.ballot_term b hb
      rw [← hab] at hbt
      exact absurd hlt (not_lt.mpr (hbt.trans hterm.le))
    · exact h.ballot_kept b hb a hold hab hlt k hk

theorem accept : Inv termOf el (s.accept i r.term entries) := by
  have g : Grows s (s.accept i r.term entries) := accept_grows ..
  have hacks : ∀ a ∈ (s.accept i r.term entries).acks, a ∈ s.acks ∨ a.term = s.term a.node := by
    intro a ha
    rcases List.mem_cons.mp ha with rfl | hold
    · exact .inr hterm.symm
    · exact .inl hold
  exact
    { toLogs := h.accept_sound hr hterm hledger
      toPolls := g.polls h rfl rfl
      toReigns := g.reigns_same h rfl rfl (fun _ hc => hc) (fun _ hb => hb) hacks
        fun _ hq hqt => h.accept_leader hr hterm hledger hq hqt
      toAcks := h.accept_acks hr hterm hheld hledger
      toCommits := g.commits h (h.accept_known hr hterm hledger) (fun _ ha => List.mem_cons_of_mem _ ha) rfl rfl }

end Accept

theorem learn {i : N} {k : Nat} {c : Commit T} (hc : c ∈ s.commits) (hterm : c.term ≤ s.term i)
    (hk : k ≤ c.length) (hlog : (s.ledger c.term).take k <+: s.log i) : Inv termOf el (s.learn i k) := by
  have g : Grows s (s.learn i k) := Grows.of_same rfl rfl fun _ => le_rfl
  refine ⟨g.logs h rfl rfl rfl, g.polls h rfl rfl,
    g.reigns_same h rfl rfl (fun _ hc => hc) (fun _ hb => hb) (fun _ ha => .inl ha) h.leader_log,
    g.acks h (fun _ => List.prefix_refl _) rfl rfl,
    ⟨h.commit_led, h.commit_own, h.commit_quorum, ?_⟩⟩
  intro j
  by_cases hj : j = i
  · subst hj
    rw [show (s.learn j k).known j = k from Function.update_self _ _ _]
    exact .inr ⟨c, hc, hterm, hk, hlog⟩
  · rw [show (s.learn i k).known j = s.known j from Function.update_of_ne hj _ _]
    exact h.known_kept j

end Inv

/-- **Every step keeps the invariant.** -/
theorem Step.inv [DecidableEq N] {s' : State N T E} (hs : Step termOf el s s') (h : Inv termOf el s) :
    Inv termOf el s' := by
  cases hs with
  | advance i t hterm => exact h.advance hterm
  | stand i hfresh hbefore => exact h.stand hfresh hbefore
  | vote v c hc hterm hleast hfree => exact h.vote hc hterm hleast hfree
  | elect c hc hnew hquorum => exact h.elect hc hnew hquorum
  | propose r hr hterm e he => exact h.propose hr hterm he
  | accept i r hr hterm entries hheld hledger => exact h.accept hr hterm hheld hledger
  | commit t m e hm he hled hquorum => exact h.commit hm he hled hquorum
  | learn i k c hc hterm hk hlog => exact h.learn hc hterm hk hlog

/-- Any number of steps. -/
abbrev Steps [DecidableEq N] (termOf : E → T) (el : Electorate N) : State N T E → State N T E → Prop :=
  Relation.ReflTransGen (Step termOf el)

theorem Steps.inv [DecidableEq N] {s' : State N T E} (hs : Steps termOf el s s') (h : Inv termOf el s) :
    Inv termOf el s' := by
  induction hs with
  | refl => exact h
  | tail _ hstep ih => exact hstep.inv ih

/-! ### Steps of one node -/

/-- What a step of one node leaves alone: the other nodes, and what has happened. -/
structure Local (i : N) (s s' : State N T E) : Prop where
  grows : Grows s s'
  others : ∀ j, j ≠ i → s'.term j = s.term j ∧ s'.log j = s.log j ∧ s'.known j = s.known j
  known : ∀ j, s.known j ≤ s'.known j
  campaigns : ∀ c ∈ s.campaigns, c ∈ s'.campaigns
  reigns : ∀ r ∈ s'.reigns, r ∈ s.reigns ∨ r.leader = i
  acks : ∀ a ∈ s.acks, a ∈ s'.acks
  commits : ∀ c ∈ s.commits, c ∈ s'.commits

namespace Local
variable {i : N} {s' s'' : State N T E}

theorem refl (i : N) (s : State N T E) : Local i s s :=
  ⟨Grows.of_same rfl rfl fun _ => le_rfl, fun _ _ => ⟨rfl, rfl, rfl⟩, fun _ => le_rfl, fun _ hc => hc,
    fun _ hr => .inl hr, fun _ ha => ha, fun _ hc => hc⟩

theorem trans (h : Local i s s') (h' : Local i s' s'') : Local i s s'' where
  grows :=
    ⟨fun r hr => h'.grows.reigns r (h.grows.reigns r hr),
      fun r hr => (h.grows.ledger r hr).trans (h'.grows.ledger r (h.grows.reigns r hr)),
      fun j => (h.grows.term j).trans (h'.grows.term j)⟩
  others j hj := by
    obtain ⟨hterm, hlog, hknown⟩ := h.others j hj
    obtain ⟨hterm', hlog', hknown'⟩ := h'.others j hj
    exact ⟨hterm'.trans hterm, hlog'.trans hlog, hknown'.trans hknown⟩
  known j := (h.known j).trans (h'.known j)
  campaigns c hc := h'.campaigns c (h.campaigns c hc)
  reigns r hr := by
    rcases h'.reigns r hr with hmid | hi
    · exact h.reigns r hmid
    · exact .inr hi
  acks a ha := h'.acks a (h.acks a ha)
  commits c hc := h'.commits c (h.commits c hc)

theorem stand (i : N) (s : State N T E) : Local i s (s.stand i) :=
  { refl i s with
    grows := Grows.of_same rfl rfl fun _ => le_rfl
    campaigns := fun _ hc => List.mem_cons_of_mem _ hc }

theorem vote (i candidate : N) (s : State N T E) : Local i s (s.vote i candidate) :=
  { refl i s with grows := Grows.of_same rfl rfl fun _ => le_rfl }

theorem elect (hfirst : ∀ r ∈ s.reigns, r.term ≠ s.term i) : Local i s (s.elect i) :=
  { refl i s with
    grows := Inv.elect_grows hfirst
    reigns := fun r hr => (List.mem_cons.mp hr).elim (fun heq => .inr (by rw [heq])) .inl }

theorem commit (i : N) (s : State N T E) (t : T) (length : Nat) : Local i s (s.commit t length) :=
  { refl i s with
    grows := Grows.of_same rfl rfl fun _ => le_rfl
    commits := fun _ hc => List.mem_cons_of_mem _ hc }

variable [DecidableEq N]

theorem advance {t : T} (hterm : s.term i ≤ t) : Local i s (s.advance i t) :=
  { refl i s with
    grows := Inv.advance_grows hterm
    others := fun _ hj => ⟨Function.update_of_ne hj _ _, rfl, rfl⟩ }

theorem propose (h : Inv termOf el s) {r : Reign N T E} (hr : r ∈ s.reigns)
    (hterm : s.term r.leader = r.term) (e : E) : Local r.leader s (s.propose r e) :=
  { refl r.leader s with
    grows := h.propose_grows hr hterm e
    others := fun _ hj => ⟨rfl, Function.update_of_ne hj _ _, rfl⟩ }

theorem accept (i : N) (s : State N T E) (t : T) (entries : List E) : Local i s (s.accept i t entries) :=
  { refl i s with
    grows := Grows.of_same rfl rfl fun _ => le_rfl
    others := fun _ hj => ⟨rfl, Function.update_of_ne hj _ _, rfl⟩
    acks := fun _ ha => List.mem_cons_of_mem _ ha }

theorem learn {k : Nat} (hk : s.known i ≤ k) : Local i s (s.learn i k) :=
  { refl i s with
    grows := Grows.of_same rfl rfl fun _ => le_rfl
    others := fun _ hj => ⟨rfl, rfl, Function.update_of_ne hj _ _⟩
    known := by
      intro j
      by_cases hj : j = i
      · subst hj
        exact hk.trans (Function.update_self j k s.known).ge
      · exact (Function.update_of_ne hj k s.known).ge }

end Local

end Wjetcd.Consensus
