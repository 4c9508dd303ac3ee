import Pasifika.OrderedMap.Table
import Pasifika.Runs

/-! # Endpoint proofs

`Discv4Service` gives its large answers, `Neighbours` and `EnrResponse`, only to a node
from which a `Pong` was received: the bond. A bond belongs to a signer and the address
from which the `Pong` came, a pending `Ping` to the node it was sent for.

Packets are signed, so a packet of `p` is from `p`, but its source address is whatever
the sender wrote into it. Bootstrapping, lookups, `add_node`, `on_ping`,
`on_neighbours` and `re_ping_oldest` reach the state of pings through `try_ping` alone:
here it is called with any record at any time. The hash of a packet stands for its
content. -/

namespace Discv4

open Std OrderedMap List Option

abbrev PeerId := ℕ
abbrev IpAddr := ℕ

structure NodeRecord where
  address : IpAddr
  udpPort : ℕ
  tcpPort : ℕ
  id : PeerId
deriving DecidableEq

/-- A `Ping` packet; the sender's record is always the local one. -/
structure Ping where
  toNode : NodeRecord
  expire : ℕ
  enrSq : Option ℕ
deriving DecidableEq

structure PingRequest where
  sentAt : ℕ
  node : NodeRecord
  echoHash : Ping

structure Config where
  localPeerId : PeerId
  enableEip868 : Bool
  enforceExpirationTimestamps : Bool
  pingExpiration : ℕ
  bondExpiration : ℕ

def maxNodesPing : ℕ := 2 * 16
def maxQueuedPings : ℕ := 2 * 16
def expireDuration : ℕ := 60 * 60 * 10 ^ 9

/-- The two clocks a handler reads, in nanoseconds. -/
structure Clock where
  instant : ℕ
  systemTime : ℕ

/-- Packets as they were sent and accepted. -/
inductive Event
  | pingSent (node : PeerId) (address : IpAddr) (ping : Ping)
  | pongReceived (signer : PeerId) (echo : Ping)
  /-- A `Neighbours` or an `EnrResponse` packet. -/
  | answerSent (asker : PeerId) (address : IpAddr)
deriving DecidableEq

/-- What endpoint proofs depend on, with the packets so far, the last one first. -/
structure Service where
  pendingPings : ExtTreeMap PeerId PingRequest
  queuedPings : List NodeRecord
  receivedPongs : PeerId × IpAddr → Option ℕ
  packets : List Event

namespace Service

def empty : Service := ⟨∅, [], fun _ => none, []⟩

variable (config : Config)

def isExpired (now : Clock) (timestamp : ℕ) : Bool :=
  decide (2 ^ 63 ≤ timestamp) ||
    (config.enforceExpirationTimestamps && decide (timestamp < now.systemTime / 10 ^ 9))

def sendPing (now : Clock) (enrSeq : Option ℕ) (s : Service) (node : NodeRecord) : Service :=
  let ping : Ping := ⟨node, (now.systemTime + config.pingExpiration) / 10 ^ 9, enrSeq⟩
  { s with
    pendingPings := s.pendingPings.insert node.id ⟨now.instant, node, ping⟩
    packets := .pingSent node.id node.address ping :: s.packets }

/-- `findNodePending` says which nodes have a pending `FindNode` request. -/
def tryPing (now : Clock) (enrSeq : Option ℕ) (findNodePending : PeerId → Bool) (s : Service)
    (node : NodeRecord) : Service :=
  if node.id = config.localPeerId then s
  else if s.pendingPings.contains node.id || findNodePending node.id then s
  else if s.queuedPings.any (fun n => n.id = node.id) then s
  else if s.pendingPings.size < maxNodesPing then s.sendPing config now enrSeq node
  else if s.queuedPings.length < maxQueuedPings then
    { s with queuedPings := s.queuedPings ++ [node] }
  else s

/-- The loop of `ping_buffered`; every round takes a node from the queue. -/
def pingBuffered (now : Clock) (enrSeq : Option ℕ) (findNodePending : PeerId → Bool) :
    ℕ → Service → Service
  | 0, s => s
  | n + 1, s =>
    if s.pendingPings.size < maxNodesPing then
      match s.queuedPings with
      | [] => s
      | next :: rest => pingBuffered now enrSeq findNodePending n
          ({ s with queuedPings := rest }.tryPing config now enrSeq findNodePending next)
    else s

/-- The pending ping is found by the signer; the bond is that of the signer and the source address.
    -/
def onPong (now : Clock) (expire : ℕ) (echo : Ping) (s : Service) (remoteAddr : IpAddr)
    (remoteId : PeerId) : Service :=
  if isExpired config now expire then s
  else match s.pendingPings[remoteId]? with
    | none => s
    | some request =>
      if request.echoHash ≠ echo then s
      else { s with
        pendingPings := s.pendingPings.erase remoteId
        receivedPongs := Function.update s.receivedPongs (remoteId, remoteAddr) (some now.instant)
        packets := .pongReceived remoteId echo :: s.packets }

def hasBond (now : Clock) (s : Service) (remoteId : PeerId) (remoteIp : IpAddr) : Bool :=
  (s.receivedPongs (remoteId, remoteIp)).any (fun t => now.instant - t < config.bondExpiration)

/-- `on_find_node`; the closest nodes of the table fill a number of packets. -/
def onFindNode (now : Clock) (expire chunks : ℕ) (s : Service) (remoteAddr : IpAddr)
    (nodeId : PeerId) : Service :=
  if isExpired config now expire then s
  else if nodeId = config.localPeerId then s
  else if s.hasBond config now nodeId remoteAddr then
    { s with packets := List.replicate chunks (.answerSent nodeId remoteAddr) ++ s.packets }
  else s

def onEnrRequest (now : Clock) (expire : ℕ) (s : Service) (remoteAddr : IpAddr) (id : PeerId) :
    Service :=
  if !config.enableEip868 || isExpired config now expire then s
  else if s.hasBond config now id remoteAddr then
    { s with packets := .answerSent id remoteAddr :: s.packets }
  else s

def evictExpiredRequests (now : Clock) (s : Service) : Service :=
  { s with
    pendingPings := s.pendingPings.filter
      (fun _ request => !decide (config.pingExpiration < now.instant - request.sentAt)) }

/-- `PongTable::evict_expired`. -/
def evictExpired (now : Clock) (s : Service) : Service :=
  { s with
    receivedPongs := fun k =>
      (s.receivedPongs k).filter (fun t => now.instant - t < expireDuration) }

inductive Op
  | tryPing (now : Clock) (enrSeq : Option ℕ) (findNodePending : PeerId → Bool) (node : NodeRecord)
  | pingBuffered (now : Clock) (enrSeq : Option ℕ) (findNodePending : PeerId → Bool)
  | pong (now : Clock) (expire : ℕ) (echo : Ping) (remoteAddr : IpAddr) (remoteId : PeerId)
  | findNode (now : Clock) (expire chunks : ℕ) (remoteAddr : IpAddr) (nodeId : PeerId)
  | enrRequest (now : Clock) (expire : ℕ) (remoteAddr : IpAddr) (id : PeerId)
  | evictRequests (now : Clock)
  | evictPongs (now : Clock)

def step (s : Service) : Op → Service
  | .tryPing now enrSeq pending node => s.tryPing config now enrSeq pending node
  | .pingBuffered now enrSeq pending =>
    pingBuffered config now enrSeq pending s.queuedPings.length s
  | .pong now expire echo addr id => s.onPong config now expire echo addr id
  | .findNode now expire chunks addr id => s.onFindNode config now expire chunks addr id
  | .enrRequest now expire addr id => s.onEnrRequest config now expire addr id
  | .evictRequests now => s.evictExpiredRequests config now
  | .evictPongs now => s.evictExpired now

/-! ## Proofs of endpoints -/

/-- **PROVEN**: a ping for the node went to the address, and its pong came back. -/
def Proven (packets : List Event) (node : PeerId) (address : IpAddr) : Prop :=
  ∃ ping, .pingSent node address ping ∈ packets ∧ .pongReceived node ping ∈ packets

/-- Every large answer went to an endpoint that was proven before. -/
def Sound : List Event → Prop
  | [] => True
  | .answerSent node address :: before => Proven before node address ∧ Sound before
  | _ :: before => Sound before

/-- A pong that is accepted came from the address that was pinged. -/
def FromPinged (s : Service) : Op → Prop
  | .pong _ _ echo addr id =>
    ∀ request, s.pendingPings[id]? = some request → request.echoHash = echo →
      request.node.address = addr
  | _ => True

structure Inv (s : Service) : Prop where
  pending : ∀ id request, s.pendingPings[id]? = some request →
    .pingSent id request.node.address request.echoHash ∈ s.packets
  bonds : ∀ id addr t, s.receivedPongs (id, addr) = some t → Proven s.packets id addr
  sound : Sound s.packets

variable {config} {s : Service} {now : Clock} {enrSeq : Option ℕ} {pending : PeerId → Bool}
  {id : PeerId} {addr : IpAddr}

theorem Proven.mono (h : Proven l id addr) (hsub : ∀ e ∈ l, e ∈ l') : Proven l' id addr := by
  obtain ⟨ping, hsent, hback⟩ := h
  exact ⟨ping, hsub _ hsent, hsub _ hback⟩

theorem Inv.sendPing (h : Inv s) (node : NodeRecord) : Inv (s.sendPing config now enrSeq node) := by
  refine ⟨fun id request hget => ?_, fun id addr t hbond => ?_, h.sound⟩
  · rw [Service.sendPing, get_insert] at hget
    split at hget
    · next heq =>
      cases heq
      cases hget
      exact mem_cons_self ..
    · exact mem_cons_of_mem _ (h.pending id request hget)
  · exact (h.bonds id addr t hbond).mono fun e he => mem_cons_of_mem _ he

theorem Inv.tryPing (h : Inv s) (node : NodeRecord) :
    Inv (s.tryPing config now enrSeq pending node) := by
  rw [Service.tryPing]
  split_ifs
  · exact h
  · exact h
  · exact h
  · exact h.sendPing node
  · exact ⟨h.pending, h.bonds, h.sound⟩
  · exact h

theorem Inv.pingBuffered (h : Inv s) :
    Inv (pingBuffered config now enrSeq pending n s) := by
  induction n generalizing s with
  | zero => exact h
  | succ n ih =>
    rw [Service.pingBuffered]
    split
    · split
      · exact h
      · next next rest _ =>
        have hrest : Inv { s with queuedPings := rest } := ⟨h.pending, h.bonds, h.sound⟩
        exact ih (hrest.tryPing next)
    · exact h

theorem Inv.onPong (h : Inv s) (hfrom : FromPinged s (.pong now expire echo addr id)) :
    Inv (s.onPong config now expire echo addr id) := by
  rw [Service.onPong]
  split
  · exact h
  split
  · exact h
  · next request hget =>
    split
    · exact h
    · next hecho =>
      have hecho : request.echoHash = echo := not_not.mp hecho
      have hsent := h.pending id request hget
      rw [hfrom request hget hecho, hecho] at hsent
      refine ⟨fun id' request' hget' => ?_, fun id' addr' t hbond => ?_, h.sound⟩
      · rw [get_erase] at hget'
        split at hget'
        · nomatch hget'
        · exact mem_cons_of_mem _ (h.pending id' request' hget')
      · by_cases hkey : (id', addr') = (id, addr)
        · cases hkey
          exact ⟨echo, mem_cons_of_mem _ hsent, mem_cons_self ..⟩
        · have hold : s.receivedPongs (id', addr') = some t :=
            (Function.update_of_ne hkey _ _).symm.trans hbond
          exact (h.bonds id' addr' t hold).mono fun e he => mem_cons_of_mem _ he

/-- An answer goes to an endpoint with a bond. -/
theorem Inv.answer (h : Inv s) (hbond : s.hasBond config now id addr = true) (n : ℕ) :
    Inv { s with packets := List.replicate n (.answerSent id addr) ++ s.packets } := by
  have hsub : ∀ n, ∀ e ∈ s.packets, e ∈ replicate n (.answerSent id addr) ++ s.packets :=
    fun n e he => mem_append_right _ he
  obtain ⟨t, ht, _⟩ := (any_eq_true _ _).mp hbond
  refine ⟨fun id request hget => hsub n _ (h.pending id request hget),
    fun id addr t hbond => (h.bonds id addr t hbond).mono (hsub n), ?_⟩
  induction n with
  | zero => exact h.sound
  | succ n ih => exact ⟨(h.bonds id addr t ht).mono (hsub n), ih⟩

theorem Inv.step (h : Inv s) (hfrom : FromPinged s op) : Inv (s.step config op) := by
  cases op with
  | tryPing now enrSeq pending node => exact h.tryPing node
  | pingBuffered now enrSeq pending => exact h.pingBuffered
  | pong now expire echo addr id => exact h.onPong hfrom
  | findNode now expire chunks addr id =>
    show Inv (Service.onFindNode _ _ _ _ _ _ _)
    rw [onFindNode]
    split_ifs with _ _ hbond
    · exact h
    · exact h
    · exact h.answer hbond chunks
    · exact h
  | enrRequest now expire addr id =>
    show Inv (Service.onEnrRequest _ _ _ _ _ _)
    rw [onEnrRequest]
    split_ifs with _ hbond
    · exact h
    · exact h.answer hbond 1
    · exact h
  | evictRequests now =>
    exact ⟨fun id request hget => h.pending id request (get_filter.mp hget).1, h.bonds, h.sound⟩
  | evictPongs now =>
    refine ⟨h.pending, fun id addr t hbond => ?_, h.sound⟩
    exact h.bonds id addr t (filter_eq_some_iff.mp hbond).1

/-- **NO AMPLIFICATION** as long as every accepted pong comes from the address that was pinged. -/
theorem answers_proven (config : Config) (s : Service)
    (h : Runs.ReachedBy (fun s op s' => s' = s.step config op) FromPinged .empty s) :
    Sound s.packets := by
  have hempty : Inv .empty := by
    refine ⟨fun id request hget => ?_, nofun, trivial⟩
    rw [Service.empty, ExtTreeMap.getElem?_empty] at hget
    nomatch hget
  have hinv : Inv s := by
    refine h.invariant hempty fun s op s' _ hi hfrom hstep => ?_
    rw [hstep]
    exact hi.step hfrom
  exact hinv.sound

/-! ## Outstanding pings -/

/-- **BOUNDED**: no node is queued twice, or while a ping to it is pending. -/
structure Bounded (s : Service) : Prop where
  pending : s.pendingPings.size ≤ maxNodesPing
  queued : s.queuedPings.length ≤ maxQueuedPings
  once : (s.queuedPings.map (·.id)).Nodup
  apart : ∀ n ∈ s.queuedPings, n.id ∉ s.pendingPings

theorem Bounded.tryPing (h : Bounded s) (node : NodeRecord) :
    Bounded (s.tryPing config now enrSeq pending node) := by
  obtain ⟨hp, hq, ho, ha⟩ := h
  have hsize : ∀ v, (s.pendingPings.insert node.id v).size ≤ s.pendingPings.size + 1 :=
    fun _ => ExtTreeMap.size_insert_le
  rw [Service.tryPing, sendPing]
  split_ifs <;> constructor <;> grind

theorem Bounded.pingBuffered (h : Bounded s) :
    Bounded (pingBuffered config now enrSeq pending n s) := by
  induction n generalizing s with
  | zero => exact h
  | succ n ih =>
    rw [Service.pingBuffered]
    split
    · split
      · exact h
      · next next rest hqueue =>
        obtain ⟨hp, hq, ho, ha⟩ := h
        have hrest : Bounded { s with queuedPings := rest } := by constructor <;> grind
        exact ih (hrest.tryPing next)
    · exact h

/-- **PINGS ARE BOUNDED** in every run, the pending and the queued ones, with at most one for a
    node. -/
theorem pings_bounded (config : Config) (ops : List Op) :
    Bounded (ops.foldl (step config) .empty) := by
  refine foldlRecOn (motive := Bounded) ops _ ⟨by decide, by decide, nodup_nil, by simp [empty]⟩ ?_
  intro s h op _
  have hsmaller : ∀ pings : ExtTreeMap PeerId PingRequest, pings.size ≤ s.pendingPings.size →
      (∀ id ∈ pings, id ∈ s.pendingPings) → ∀ pongs packets,
        Bounded ⟨pings, s.queuedPings, pongs, packets⟩ := fun _ hsize hmem _ _ =>
    ⟨hsize.trans h.pending, h.queued, h.once, fun n hn hid => h.apart n hn (hmem _ hid)⟩
  have hsame := hsmaller _ le_rfl fun _ => id
  cases op with
  | tryPing now enrSeq pending node => exact h.tryPing node
  | pingBuffered now enrSeq pending => exact h.pingBuffered
  | pong now expire echo addr id =>
    simp only [step, onPong]
    split
    · exact h
    split
    · exact h
    split
    · exact h
    · exact hsmaller _ ExtTreeMap.size_erase_le (fun _ => ExtTreeMap.mem_of_mem_erase) _ _
  | findNode now expire chunks addr id =>
    simp only [step, onFindNode]
    split_ifs <;> exact hsame _ _
  | enrRequest now expire addr id =>
    simp only [step, onEnrRequest]
    split_ifs <;> exact hsame _ _
  | evictRequests now =>
    exact hsmaller _ ExtTreeMap.size_filter_le_size (fun _ => ExtTreeMap.mem_of_mem_filter) _ _
  | evictPongs now => exact hsame _ _

/-! ## A run -/

def sampleConfig : Config := ⟨0, true, true, 20 * 10 ^ 9, 24 * 60 * 60 * 10 ^ 9⟩
def sampleNode : NodeRecord := ⟨1, 30303, 30303, 7⟩
def samplePing : Ping := ⟨sampleNode, 20, none⟩

/-- Node 7, at address 1, is pinged; its pong and its question come from `addr`. -/
def sampleRun (addr : IpAddr) : Service :=
  ((Service.empty.step sampleConfig (.tryPing ⟨0, 0⟩ none (fun _ => false) sampleNode)).step
    sampleConfig (.pong ⟨1, 1⟩ 20 samplePing addr 7)).step sampleConfig
    (.findNode ⟨2, 2⟩ 20 1 addr 7)

/-- Node 7 answers from where it was pinged. -/
theorem answers_proven_sample :
    Sound (sampleRun 1).packets ∧ (sampleRun 1).packets.head? = some (.answerSent 7 1) :=
  ⟨answers_proven sampleConfig (sampleRun 1)
    (.step (.step (.step .init (by trivial) rfl)
      (by exact fun _ hget _ => some.inj hget ▸ rfl) rfl) (by trivial) rfl), by decide⟩

/-- **AMPLIFICATION**: node 7 writes the address 2 into its pong and its question; the answer goes
    to 2, to which no ping was sent. -/
theorem answer_to_unpinged_address :
    ∃ s, Runs.Reachable (fun s op s' => s' = step sampleConfig s op) .empty s ∧
      .answerSent 7 2 ∈ s.packets ∧ ∀ ping, .pingSent 7 2 ping ∉ s.packets := by
  refine ⟨sampleRun 2,
    ((Runs.ReachedBy.init.step trivial rfl).step trivial rfl).step trivial rfl, by decide, ?_⟩
  have hpackets : (sampleRun 2).packets =
      [.answerSent 7 2, .pongReceived 7 samplePing, .pingSent 7 1 samplePing] := by
    decide
  intro ping hsent
  rw [hpackets] at hsent
  simp at hsent

end Service

end Discv4
