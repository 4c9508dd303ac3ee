import Pasifika.Runs

/-! # Peer discovery

`P2PDiscovery` keeps one entry for each peer it has heard of. Beside it stands
the HISTORY of connection events, and the list is faithful to the history if the
connected peers are those whose last event was a connection.

A disconnected peer keeps its entry, and `add_peer` returns early for a peer that
has one. So the list stays faithful exactly as long as every connection finds its
peer unknown or still connected. -/

namespace P2P

open List Option Bool

/-- `Peer`; an address is a number. -/
structure Peer where
  enode : String
  address : Option Nat
  connected : Bool
  isValidator : Bool
deriving DecidableEq, Repr

structure P2PDiscovery where
  peers : List Peer
  bootnodes : List String

namespace P2PDiscovery

def new (bootnodes : List String) : P2PDiscovery := ⟨[], bootnodes⟩

def addPeer (d : P2PDiscovery) (enode : String) (address : Option Nat) (isValidator : Bool) :
    P2PDiscovery :=
  if d.peers.any (fun p => p.enode == enode) then d
  else { d with peers := d.peers ++ [⟨enode, address, true, isValidator⟩] }

/-- `initialize`. -/
def initializeDiscovery (d : P2PDiscovery) : P2PDiscovery :=
  d.bootnodes.foldl (fun d bootnode => d.addPeer bootnode none true) d

def getPeers (d : P2PDiscovery) : List Peer := d.peers.filter (fun p => p.connected)

def getValidatorPeers (d : P2PDiscovery) : List Peer :=
  d.peers.filter (fun p => p.connected && p.isValidator)

/-- Change the first peer with an enode. -/
def modifyPeer (enode : String) (f : Peer → Peer) : List Peer → List Peer
  | [] => []
  | p :: peers => if p.enode = enode then f p :: peers else p :: modifyPeer enode f peers

def markAsValidator (d : P2PDiscovery) (enode : String) : P2PDiscovery :=
  { d with peers := modifyPeer enode (fun p => { p with isValidator := true }) d.peers }

def onPeerConnected (d : P2PDiscovery) (enode : String) : P2PDiscovery :=
  d.addPeer enode none true

def onPeerDisconnected (d : P2PDiscovery) (enode : String) : P2PDiscovery :=
  { d with peers := modifyPeer enode (fun p => { p with connected := false }) d.peers }

end P2PDiscovery

/-- The operations. -/
inductive Op where
  | initializeDiscovery
  | addPeer (enode : String) (address : Option Nat) (isValidator : Bool)
  | onPeerConnected (enode : String)
  | onPeerDisconnected (enode : String)
  | markAsValidator (enode : String)

/-- The connection events, by the operation they come from. -/
inductive Event where
  | initialized
  | added
  | connected
  | disconnected
deriving DecidableEq, Repr

/-- A discovery manager and the events of its peers, newest first. -/
structure Observed where
  discovery : P2PDiscovery
  history : List (String × Event)

namespace Observed

def new (bootnodes : List String) : Observed := ⟨.new bootnodes, []⟩

/-- The events of an operation, newest first. -/
def events (d : P2PDiscovery) : Op → List (String × Event)
  | .initializeDiscovery => (d.bootnodes.map (fun bootnode => (bootnode, Event.initialized))).reverse
  | .addPeer enode _ _ => [(enode, .added)]
  | .onPeerConnected enode => [(enode, .connected)]
  | .onPeerDisconnected enode => [(enode, .disconnected)]
  | .markAsValidator _ => []

def apply (o : Observed) (op : Op) : Observed where
  discovery :=
    match op with
    | .initializeDiscovery => o.discovery.initializeDiscovery
    | .addPeer enode address isValidator => o.discovery.addPeer enode address isValidator
    | .onPeerConnected enode => o.discovery.onPeerConnected enode
    | .onPeerDisconnected enode => o.discovery.onPeerDisconnected enode
    | .markAsValidator enode => o.discovery.markAsValidator enode
  history := events o.discovery op ++ o.history

def Step (o : Observed) (op : Op) (o' : Observed) : Prop := o.apply op = o'

/-- The last event of a peer. -/
def lastEvent (o : Observed) (enode : String) : Option Event :=
  (o.history.find? (fun e => e.1 == enode)).map Prod.snd

/-- **FAITHFUL** to the history: one entry for each enode; those connected last are connected; those
    connected through `on_peer_connected` are validators. -/
structure Faithful (o : Observed) : Prop where
  unique : (o.discovery.peers.map Peer.enode).Nodup
  reported : ∀ enode, (∃ p ∈ o.discovery.getPeers, p.enode = enode) ↔
    ∃ event, o.lastEvent enode = some event ∧ event ≠ .disconnected
  validators : ∀ enode, o.lastEvent enode = some .connected →
    ∃ p ∈ o.discovery.getValidatorPeers, p.enode = enode

/-- The entry of a peer. -/
def peer (d : P2PDiscovery) (enode : String) : Option Peer :=
  d.peers.find? (fun p => p.enode == enode)

/-- A connection finds its peer unknown or connected, through `on_peer_connected` as a validator. -/
def reconnects (o : Observed) : Op → Bool
  | .initializeDiscovery => o.discovery.bootnodes.all
      (fun bootnode => (peer o.discovery bootnode).all (fun p => p.connected))
  | .addPeer enode _ _ => (peer o.discovery enode).all (fun p => p.connected)
  | .onPeerConnected enode =>
    (peer o.discovery enode).all (fun p => p.connected && p.isValidator)
  | .onPeerDisconnected _ => true
  | .markAsValidator _ => true

/-! ## Entries -/

variable {p : Peer} {enode : String} {event : Event} {o : Observed}

theorem enode_of_find {peers : List Peer} (h : peers.find? (·.enode == enode) = some p) :
    p.enode = enode := by
  simpa using find?_some h

variable {d : P2PDiscovery}

theorem peer_eq_some (hd : (d.peers.map Peer.enode).Nodup) :
    peer d enode = some p ↔ p ∈ d.peers ∧ p.enode = enode := by
  constructor
  · intro h
    exact ⟨mem_of_find?_eq_some h, enode_of_find h⟩
  · rintro ⟨hmem, rfl⟩
    cases hfind : peer d p.enode with
    | none =>
      exact absurd (beq_self_eq_true p.enode) (find?_eq_none.mp hfind p hmem)
    | some q =>
      have hq := mem_of_find?_eq_some hfind
      rw [inj_on_of_nodup_map hd hq hmem (enode_of_find hfind)]

/-- Adding a peer only changes its entry, and only if there is none. -/
theorem peer_addPeer (d : P2PDiscovery) (enode : String) (address : Option Nat) (isValidator : Bool)
    (enode' : String) :
    peer (d.addPeer enode address isValidator) enode' =
      if enode = enode' then some ((peer d enode).getD ⟨enode, address, true, isValidator⟩)
      else peer d enode' := by
  rw [P2PDiscovery.addPeer, ← isSome_find?]
  show peer (if (peer d enode).isSome then d else _) enode' = _
  cases hp : peer d enode with
  | some p =>
    rw [if_pos isSome_some]
    by_cases heq : enode = enode'
    · rw [if_pos heq, ← heq, hp]
      rfl
    · rw [if_neg heq]
  | none =>
    rw [if_neg (by simp), peer, find?_append]
    by_cases heq : enode = enode'
    · rw [if_pos heq, ← heq, show d.peers.find? (·.enode == enode) = none from hp]
      simp
    · rw [if_neg heq, find?_singleton, if_neg (by simpa using heq), or_none]
      rfl

theorem nodup_addPeer (h : (d.peers.map Peer.enode).Nodup) (enode : String)
    (address : Option Nat) (isValidator : Bool) :
    ((d.addPeer enode address isValidator).peers.map Peer.enode).Nodup := by
  rw [P2PDiscovery.addPeer]
  split
  · exact h
  · rename_i hany
    rw [map_append, nodup_append]
    refine ⟨h, nodup_singleton _, ?_⟩
    rintro a ha b hb rfl
    obtain ⟨p, hp, rfl⟩ := mem_map.mp ha
    have henode : p.enode = enode := by simpa using hb
    exact hany (any_eq_true.mpr ⟨p, hp, beq_iff_eq.mpr henode⟩)

theorem peer_addPeers (enode : String) (bootnodes : List String) (d : P2PDiscovery) :
    peer (bootnodes.foldl (·.addPeer · none true) d) enode =
      if enode ∈ bootnodes then some ((peer d enode).getD ⟨enode, none, true, true⟩) else peer d
      enode := by
  induction bootnodes generalizing d with
  | nil => rw [if_neg not_mem_nil]; rfl
  | cons bootnode bootnodes ih =>
    rw [foldl_cons, ih, peer_addPeer]
    by_cases heq : bootnode = enode
    · subst heq
      rw [if_pos rfl, if_pos (mem_cons_self ..)]
      simp
    · rw [if_neg heq]
      simp [Ne.symm heq]

variable (bootnodes : List String)

theorem nodup_addPeers (h : (d.peers.map Peer.enode).Nodup) :
    ((bootnodes.foldl (·.addPeer · none true) d).peers.map
      Peer.enode).Nodup := by
  induction bootnodes generalizing d with
  | nil => exact h
  | cons bootnode bootnodes ih => exact ih (nodup_addPeer h ..)

section

variable {f : Peer → Peer}

theorem find_modifyPeer (hf : ∀ p, (f p).enode = p.enode) (enode enode' : String)
    (peers : List Peer) :
    (P2PDiscovery.modifyPeer enode f peers).find? (·.enode == enode') =
      if enode = enode' then (peers.find? (·.enode == enode)).map f
      else peers.find? (·.enode == enode') := by
  induction peers with
  | nil => simp [P2PDiscovery.modifyPeer]
  | cons p peers ih =>
    rw [P2PDiscovery.modifyPeer]
    by_cases hp : p.enode = enode
    · rw [if_pos hp, find?_cons, find?_cons, find?_cons, hf, hp]
      by_cases heq : enode = enode'
      · rw [if_pos heq, ← heq, beq_self_eq_true]
        rfl
      · rw [if_neg heq, beq_false_of_ne heq]
    · rw [if_neg hp, find?_cons, ih]
      by_cases heq : enode = enode'
      · rw [if_pos heq, if_pos heq, ← heq, find?_cons, beq_false_of_ne hp]
      · rw [if_neg heq, if_neg heq, find?_cons]

theorem enodes_modifyPeer (hf : ∀ p, (f p).enode = p.enode) (enode : String) (peers : List Peer) :
    (P2PDiscovery.modifyPeer enode f peers).map Peer.enode = peers.map Peer.enode := by
  induction peers with
  | nil => rfl
  | cons p peers ih =>
    rw [P2PDiscovery.modifyPeer]
    split
    · rw [map_cons, hf, map_cons]
    · rw [map_cons, ih, map_cons]

end

/-! ## The history -/

theorem lastEvent_apply (o : Observed) (op : Op) (enode : String) :
    (o.apply op).lastEvent enode =
      (((events o.discovery op).find? (·.1 == enode)).map Prod.snd).or
        (o.lastEvent enode) := by
  show ((events o.discovery op ++ o.history).find? (·.1 == enode)).map Prod.snd = _
  rw [find?_append, map_or]
  rfl

theorem lastEvent_single (h : events o.discovery op = [(enode, event)]) (enode' : String) :
    (o.apply op).lastEvent enode' = if enode = enode' then some event else o.lastEvent enode' := by
  rw [lastEvent_apply, h, find?_singleton]
  by_cases heq : enode = enode'
  · simp [heq]
  · simp [heq]

/-- What the list and the history say of one peer. -/
def Agree (p : Option Peer) (event : Option Event) : Prop :=
  ((∃ q, p = some q ∧ q.connected = true) ↔ ∃ e, event = some e ∧ e ≠ .disconnected) ∧
    (event = some .connected → ∃ q, p = some q ∧ q.connected = true ∧ q.isValidator = true)

theorem faithful_iff :
    Faithful o ↔ (o.discovery.peers.map Peer.enode).Nodup ∧
      ∀ enode, Agree (peer o.discovery enode) (o.lastEvent enode) := by
  have hfound : (o.discovery.peers.map Peer.enode).Nodup → ∀ (f : Peer → Bool) (enode : String),
      (∃ p ∈ o.discovery.peers.filter f, p.enode = enode) ↔
        ∃ q, peer o.discovery enode = some q ∧ f q = true := by
    intro hd f enode
    constructor
    · rintro ⟨p, hp, henode⟩
      obtain ⟨hmem, hfp⟩ := mem_filter.mp hp
      exact ⟨p, (peer_eq_some hd).mpr ⟨hmem, henode⟩, hfp⟩
    · rintro ⟨q, hq, hfq⟩
      obtain ⟨hmem, henode⟩ := (peer_eq_some hd).mp hq
      exact ⟨q, mem_filter.mpr ⟨hmem, hfq⟩, henode⟩
  constructor
  · intro h
    refine ⟨h.unique, ?_⟩
    intro enode
    refine ⟨(hfound h.unique _ enode).symm.trans (h.reported enode), ?_⟩
    intro hconnected
    obtain ⟨q, hq, hfq⟩ := (hfound h.unique _ enode).mp (h.validators enode hconnected)
    exact ⟨q, hq, and_eq_true_iff.mp hfq⟩
  · rintro ⟨hd, h⟩
    refine ⟨hd, fun enode => (hfound hd _ enode).trans (h enode).1, ?_⟩
    intro enode hconnected
    obtain ⟨q, hq, hfq⟩ := (h enode).2 hconnected
    exact (hfound hd _ enode).mpr ⟨q, hq, and_eq_true_iff.mpr hfq⟩

/-- A connection event other than `on_peer_connected` needs a connected entry. -/
theorem agree_connection (hd : event ≠ .disconnected) (hc : event ≠ .connected) :
    Agree (some p) (some event) ↔ p.connected = true := by
  constructor
  · intro h
    obtain ⟨q, hq, hconnected⟩ := h.1.mpr ⟨event, rfl, hd⟩
    cases hq
    exact hconnected
  · intro h
    refine ⟨iff_of_true ⟨p, rfl, h⟩ ⟨event, rfl, hd⟩, ?_⟩
    intro heq
    exact absurd (some.inj heq) hc

theorem agree_connected :
    Agree (some p) (some .connected) ↔ p.connected = true ∧ p.isValidator = true := by
  constructor
  · intro h
    obtain ⟨q, hq, hconnected⟩ := h.2 rfl
    cases hq
    exact hconnected
  · intro h
    exact ⟨iff_of_true ⟨p, rfl, h.1⟩ ⟨_, rfl, by decide⟩, fun _ => ⟨p, rfl, h⟩⟩

/-! ## Steps -/

/-- A step that changes one peer keeps the list faithful if the two agree about it. -/
theorem faithful_of_one (h : Faithful o) (hd : (o'.discovery.peers.map Peer.enode).Nodup)
    (enode : String)
    (hother : ∀ enode', enode ≠ enode' → peer o'.discovery enode' = peer o.discovery enode' ∧
      o'.lastEvent enode' = o.lastEvent enode') :
    Faithful o' ↔ Agree (peer o'.discovery enode) (o'.lastEvent enode) := by
  rw [faithful_iff]
  constructor
  · intro h'
    exact h'.2 enode
  intro hagree
  refine ⟨hd, ?_⟩
  intro enode'
  by_cases heq : enode = enode'
  · rw [← heq]
    exact hagree
  · obtain ⟨hp, he⟩ := hother enode' heq
    rw [hp, he]
    exact (faithful_iff.mp h).2 enode'

theorem faithful_addPeer (h : Faithful o) (op : Op)
    (hop : (o.apply op).discovery = o.discovery.addPeer enode address isValidator)
    (hevents : events o.discovery op = [(enode, event)]) :
    Faithful (o.apply op) ↔
      Agree (some ((peer o.discovery enode).getD ⟨enode, address, true, isValidator⟩))
        (some event) := by
  have hd : ((o.apply op).discovery.peers.map Peer.enode).Nodup := by
    rw [hop]
    exact nodup_addPeer h.unique ..
  rw [faithful_of_one h hd enode]
  · rw [hop, peer_addPeer, if_pos rfl, lastEvent_single hevents, if_pos rfl]
  · intro enode' hne
    rw [hop, peer_addPeer, if_neg hne, lastEvent_single hevents, if_neg hne]
    exact ⟨rfl, rfl⟩

theorem getD_of_all {p : Option Peer} {f : Peer → Bool} {new : Peer} (hnew : f new = true) :
    f (p.getD new) = true ↔ p.all f = true := by
  cases p with
  | none => exact iff_of_true hnew rfl
  | some q => exact Iff.rfl

theorem faithful_modify (h : Faithful o) (op : Op) (f : Peer → Peer)
    (hf : ∀ p, (f p).enode = p.enode)
    (hop : (o.apply op).discovery.peers = P2PDiscovery.modifyPeer enode f o.discovery.peers)
    (hother : ∀ enode', enode ≠ enode' → (o.apply op).lastEvent enode' = o.lastEvent enode')
    (hself : Agree ((peer o.discovery enode).map f) ((o.apply op).lastEvent enode)) :
    Faithful (o.apply op) := by
  have hd : ((o.apply op).discovery.peers.map Peer.enode).Nodup := by
    rw [hop, enodes_modifyPeer hf]
    exact h.unique
  rw [faithful_of_one h hd enode]
  · rw [peer, hop, find_modifyPeer hf, if_pos rfl]
    exact hself
  · intro enode' hne
    rw [peer, hop, find_modifyPeer hf, if_neg hne]
    exact ⟨rfl, hother enode' hne⟩

theorem lastEvent_initialize (o : Observed) (enode : String) :
    (o.apply .initializeDiscovery).lastEvent enode =
      if enode ∈ o.discovery.bootnodes then some .initialized else o.lastEvent enode := by
  rw [lastEvent_apply]
  by_cases hmem : enode ∈ o.discovery.bootnodes
  · rw [if_pos hmem]
    cases hfind : (events o.discovery .initializeDiscovery).find? (·.1 == enode) with
    | none =>
      have hevent : (enode, Event.initialized) ∈ events o.discovery .initializeDiscovery :=
        mem_reverse.mpr (mem_map_of_mem hmem)
      exact absurd (beq_self_eq_true enode) (find?_eq_none.mp hfind _ hevent)
    | some e =>
      obtain ⟨b, -, rfl⟩ := mem_map.mp (mem_reverse.mp (mem_of_find?_eq_some hfind))
      rfl
  · rw [if_neg hmem]
    have hnone : (events o.discovery .initializeDiscovery).find? (·.1 == enode) = none := by
      refine find?_eq_none.mpr ?_
      rintro e he heq
      obtain ⟨b, hb, rfl⟩ := mem_map.mp (mem_reverse.mp he)
      exact hmem (beq_iff_eq.mp heq ▸ hb)
    rw [hnone]
    rfl

theorem faithful_initialize (h : Faithful o) :
    Faithful (o.apply .initializeDiscovery) ↔ o.reconnects .initializeDiscovery = true := by
  have hpeer : ∀ enode, peer (o.apply .initializeDiscovery).discovery enode =
      if enode ∈ o.discovery.bootnodes then some ((peer o.discovery enode).getD ⟨enode, none, true, true⟩)
      else peer o.discovery enode :=
    fun enode => peer_addPeers enode o.discovery.bootnodes o.discovery
  have hagree : ∀ enode ∈ o.discovery.bootnodes,
      (Agree (peer (o.apply .initializeDiscovery).discovery enode)
        ((o.apply .initializeDiscovery).lastEvent enode) ↔
        (peer o.discovery enode).all (·.connected) = true) := by
    intro enode hmem
    rw [hpeer, if_pos hmem, lastEvent_initialize, if_pos hmem,
      agree_connection (by decide) (by decide)]
    exact getD_of_all (f := fun p => p.connected) rfl
  rw [faithful_iff, reconnects, List.all_eq_true]
  constructor
  · rintro ⟨-, hall⟩ bootnode hmem
    exact (hagree bootnode hmem).mp (hall bootnode)
  · intro hall
    refine ⟨nodup_addPeers _ h.unique, ?_⟩
    intro enode
    by_cases hmem : enode ∈ o.discovery.bootnodes
    · exact (hagree enode hmem).mpr (hall enode hmem)
    · rw [hpeer, if_neg hmem, lastEvent_initialize, if_neg hmem]
      exact (faithful_iff.mp h).2 enode

theorem agree_mark {p : Option Peer} {event : Option Event} (h : Agree p event) :
    Agree (p.map fun p => { p with isValidator := true }) event := by
  cases p with
  | none => exact h
  | some q =>
    refine ⟨?_, ?_⟩
    · refine Iff.trans ?_ h.1
      constructor
      · rintro ⟨_, ⟨⟩, hconnected⟩
        exact ⟨q, rfl, hconnected⟩
      · rintro ⟨_, ⟨⟩, hconnected⟩
        exact ⟨_, rfl, hconnected⟩
    · intro heq
      obtain ⟨_, ⟨⟩, hconnected, -⟩ := h.2 heq
      exact ⟨_, rfl, hconnected, rfl⟩

/-- **STEP**: an operation keeps a faithful list faithful exactly if it meets the condition. -/
theorem Faithful.step_iff {op : Op} (h : Faithful o) (hstep : Step o op o') :
    Faithful o' ↔ o.reconnects op = true := by
  subst hstep
  cases op with
  | initializeDiscovery => exact faithful_initialize h
  | addPeer enode address isValidator =>
    rw [faithful_addPeer h (.addPeer enode address isValidator) rfl rfl,
      agree_connection (by decide) (by decide)]
    exact getD_of_all (f := fun p => p.connected) rfl
  | onPeerConnected enode =>
    rw [faithful_addPeer h (.onPeerConnected enode) rfl rfl, agree_connected, ← and_eq_true_iff]
    exact getD_of_all (f := fun p => p.connected && p.isValidator) rfl
  | onPeerDisconnected enode =>
    refine iff_of_true ?_ rfl
    refine faithful_modify h (.onPeerDisconnected enode)
      (fun p => { p with connected := false }) (fun _ => rfl) rfl ?_ ?_
    · intro enode' hne
      rw [lastEvent_single rfl, if_neg hne]
    · rw [lastEvent_single rfl, if_pos rfl]
      -- a disconnected peer, or none
      refine ⟨iff_of_false ?_ ?_, nofun⟩
      · rintro ⟨q, hq, hconnected⟩
        obtain ⟨p, -, rfl⟩ := map_eq_some_iff.mp hq
        nomatch hconnected
      · rintro ⟨e, he, hne⟩
        exact hne (some.inj he).symm
  | markAsValidator enode =>
    refine iff_of_true ?_ rfl
    have hlast : ∀ enode', (o.apply (.markAsValidator enode)).lastEvent enode'
        = o.lastEvent enode' := fun _ => rfl
    refine faithful_modify h (.markAsValidator enode)
      (fun p => { p with isValidator := true }) (fun _ => rfl) rfl (fun _ _ => hlast _) ?_
    exact agree_mark ((faithful_iff.mp h).2 enode)

theorem faithful_new : Faithful (new bootnodes) := by
  refine faithful_iff.mpr ⟨nodup_nil, ?_⟩
  intro enode
  refine ⟨iff_of_false ?_ ?_, nofun⟩
  · rintro ⟨_, h, -⟩
    nomatch h
  · rintro ⟨_, h, -⟩
    nomatch h

/-- **RUNS**: while every connection finds its peer unknown or connected the list is faithful; the
    first one that does not breaks it. -/
theorem faithful_of_run {bootnodes : List String} {o : Observed}
    (h : Runs.ReachedBy Step (fun o op => o.reconnects op = true) (new bootnodes) o) :
    Faithful o ∧ ∀ op o', Step o op o' → (Faithful o' ↔ o.reconnects op = true) := by
  have hf : Faithful o := by
    refine h.invariant (faithful_new bootnodes) ?_
    intro o op o' _ hf hguard hstep
    exact (hf.step_iff hstep).mpr hguard
  exact ⟨hf, fun op o' hstep => hf.step_iff hstep⟩

/-- A peer that connects again is not reported. -/
theorem reconnected_peer_missing :
    ∃ o, Runs.Reachable Step (new []) o ∧ o.lastEvent "enode://a" = some .connected
      ∧ o.discovery.getPeers = [] := by
  obtain ⟨o, ho, hcheck⟩ := Runs.exists_of_next (fun (o : Observed) op => some (o.apply op)) (fun _ _ => true)
    [.onPeerConnected "enode://a", .onPeerDisconnected "enode://a", .onPeerConnected "enode://a"]
    (new []) (fun o => o.lastEvent "enode://a" == some .connected && o.discovery.getPeers == [])
    (by decide +kernel)
  rw [and_eq_true, beq_iff_eq, beq_iff_eq] at hcheck
  simp only [some.injEq] at ho
  exact ⟨o, ho.reachable, hcheck⟩

theorem faithful_of_run_sample :
    ∃ o, Runs.ReachedBy Step (fun o op => o.reconnects op = true) (new ["enode://b"]) o
      ∧ o.discovery.getPeers.length = 2 ∧ Faithful o := by
  obtain ⟨o, ho, hcheck⟩ := Runs.exists_of_next (fun (o : Observed) op => some (o.apply op)) reconnects
    [.initializeDiscovery, .onPeerConnected "enode://a", .onPeerConnected "enode://b",
      .addPeer "enode://c" none false, .markAsValidator "enode://c", .onPeerDisconnected "enode://a"]
    (new ["enode://b"]) (fun o => o.discovery.getPeers.length == 2) (by decide +kernel)
  simp only [some.injEq] at ho
  exact ⟨o, ho, beq_iff_eq.mp hcheck, (faithful_of_run ho).1⟩

end Observed

end P2P
