import Pasifika.EthWire.Capability

/-! # Multiplexed messages

The way of a message through `multiplex.rs` and `p2pstream.rs`: the handler's
stream shifts the id to the capability's place, the p2p stream shifts it behind
the reserved ids and compresses the payload; the other end undoes both after
it has looked the capability up by its id. An id behind all ranges finds the
last capability. -/

namespace EthWire

open List Option

/-- **SNAPPY**: what is compressed is read back. -/
structure Snappy where
  compress : List UInt8 → List UInt8
  decompress : List UInt8 → Option (List UInt8)
  inverts : ∀ b, decompress (compress b) = some b

def maxPayloadSize : ℕ := 16 * 1024 * 1024

def checkedAdd (a b : UInt8) : Option UInt8 :=
  if a.toNat + b.toNat < 256 then some (a + b) else none

def checkedSub (a b : UInt8) : Option UInt8 :=
  if b.toNat ≤ a.toNat then some (a - b) else none

def saturatingAdd (a b : UInt8) : UInt8 := (checkedAdd a b).getD 0xff

/-! ## Looking up the capability -/

/-- The loop of `find_by_offset`: only the start of the next range is looked at. -/
def findFrom (offset : UInt8) : SharedCapability → List SharedCapability → SharedCapability
  | cap, [] => cap
  | cap, next :: rest =>
    if offset < next.messageIdOffset then cap else findFrom offset next rest

def findByOffset : List SharedCapability → UInt8 → Option SharedCapability
  | [], _ => none
  | cap :: rest, offset =>
    if offset < cap.messageIdOffset then none else some (findFrom offset cap rest)

def findByRelativeOffset (caps : List SharedCapability) (offset : UInt8) :
    Option SharedCapability :=
  findByOffset caps (saturatingAdd offset (maxReservedMessageId + 1))

/-! ## Sending -/

/-- `ProtocolStream::mask_msg_id`, for a satellite. -/
def ProtocolStream.maskMsgId (c : SharedCapability) : List UInt8 → Option (List UInt8)
  | [] => none
  | id :: payload => (checkedAdd id c.relativeMessageIdOffset).map (· :: payload)

/-- `ProtocolProxy::mask_msg_id`, for the primary protocol. -/
def ProtocolProxy.maskMsgId (c : SharedCapability) : List UInt8 → Option (List UInt8)
  | [] => none
  | id :: payload =>
    if c.relativeMessageIdOffset = 0 then some (id :: payload)
    else (checkedAdd id c.relativeMessageIdOffset).map (· :: payload)

/-- `P2PStream::start_send`. -/
def startSend (z : Snappy) (hasOutgoingCapacity : Bool) (item : List UInt8) :
    Option (List UInt8) :=
  if maxPayloadSize < item.length then none
  else match item with
    | [] => none
    | id :: payload =>
      if hasOutgoingCapacity then some ((id + maxReservedMessageId + 1) :: z.compress payload)
      else none

/-- Where a handler is attached. -/
inductive Handler
  | primary
  | satellite (index : ℕ)
deriving DecidableEq

/-- A message of the handler of `c` on its way to the wire. -/
def sendMessage (z : Snappy) (capacity : Bool) (c : SharedCapability) (sender : Handler)
    (msg : List UInt8) : Option (List UInt8) :=
  match sender with
  | .primary => (ProtocolProxy.maskMsgId c msg).bind (startSend z capacity)
  | .satellite _ => (ProtocolStream.maskMsgId c msg).bind (startSend z capacity)

/-! ## Receiving -/

/-- `P2PStream::poll_next` for subprotocol messages: the p2p stream itself answers or refuses all
    reserved ids. -/
def receive (z : Snappy) : List UInt8 → Option (List UInt8)
  | [] => none
  | id :: compressed =>
    match z.decompress compressed with
    | none => none
    | some payload =>
      if maxPayloadSize < payload.length then none
      else if id ≤ maxReservedMessageId then none
      else some ((id - maxReservedMessageId - 1) :: payload)

/-- One end of the connection. -/
structure Multiplexer where
  sharedCapabilities : List SharedCapability
  primary : SharedCapability
  protocols : List SharedCapability

/-- `unmask_id`, the same for both kinds of streams. -/
def unmaskId (c : SharedCapability) : List UInt8 → Option (List UInt8)
  | [] => none
  | id :: payload => (checkedSub id c.relativeMessageIdOffset).map (· :: payload)

/-- The handler a capability's messages go to: the primary, else the first satellite. -/
def Multiplexer.handlerOf (m : Multiplexer) (c : SharedCapability) : Option Handler :=
  if c = m.primary then some .primary
  else (m.protocols.findIdx? (· = c)).map .satellite

/-- The delegation in `RlpxSatelliteStream::poll_next`. -/
def Multiplexer.delegate (m : Multiplexer) : List UInt8 → Option (Handler × List UInt8)
  | [] => none
  | offset :: payload => do
    let cap ← findByRelativeOffset m.sharedCapabilities offset
    let handler ← m.handlerOf cap
    (unmaskId cap (offset :: payload)).map (handler, ·)

/-- A frame from the wire to the handler that gets it, with what it gets. -/
def Multiplexer.deliver (z : Snappy) (m : Multiplexer) (frame : List UInt8) :
    Option (Handler × List UInt8) :=
  (receive z frame).bind m.delegate

/-! ## The lookup finds the range -/

section

variable {l : List SharedCapability} {start : ℕ} {id : UInt8}

theorem findFrom_of_forall_le (h : ∀ c ∈ l, c.messageIdOffset ≤ id) :
    (cap :: l).getLast? = some (findFrom id cap l) := by
  induction l generalizing cap with
  | nil => rfl
  | cons d l ih =>
    rw [findFrom, if_neg (UInt8.not_lt.mpr (h d (mem_cons_self ..))), getLast?_cons_cons]
    exact ih fun c hc => h c (mem_cons_of_mem _ hc)

theorem findFrom_of_holds (h : Contiguous cap.idEnd l) (hc : c ∈ cap :: l)
    (hid : c.Holds id.toNat) : findFrom id cap l = c := by
  induction l generalizing cap with
  | nil => exact (mem_singleton.mp hc).symm
  | cons d l ih =>
    rw [findFrom]
    rcases mem_cons.mp hc with rfl | hc
    · rw [if_pos (UInt8.lt_iff_toNat_lt.mpr (h.1 ▸ hid.2))]
    · have hle : d.messageIdOffset.toNat ≤ id.toNat := (h.1 ▸ h.start_le c hc).trans hid.1
      rw [if_neg (UInt8.not_lt.mpr (UInt8.le_iff_toNat_le.mpr hle))]
      exact ih h.2 hc

/-- **AN ID OF A RANGE** finds the range's capability. -/
theorem findByOffset_of_holds (h : Contiguous start l) (hc : c ∈ l) (hid : c.Holds id.toNat) :
    findByOffset l id = some c := by
  cases l with
  | nil => nomatch hc
  | cons cap l =>
    have hle : cap.messageIdOffset.toNat ≤ id.toNat := (h.1 ▸ h.start_le c hc).trans hid.1
    rw [findByOffset, if_neg (UInt8.not_lt.mpr (UInt8.le_iff_toNat_le.mpr hle)),
      findFrom_of_holds h.2 hc hid]

variable {last : SharedCapability}

theorem Contiguous.idEnd_le (h : Contiguous start l)
    (hlast : l.getLast? = some last) (c : SharedCapability) (hc : c ∈ l) :
    c.idEnd ≤ last.idEnd := by
  induction l generalizing start c with
  | nil => nomatch hc
  | cons d l ih =>
    cases l with
    | nil =>
      cases mem_singleton.mp hc
      cases hlast
      exact le_rfl
    | cons d' l =>
      rw [getLast?_cons_cons] at hlast
      rcases mem_cons.mp hc with rfl | hc
      · have hle := ih h.2 hlast d' (mem_cons_self ..)
        have hd' : d'.messageIdOffset.toNat = c.idEnd := h.2.1
        rw [SharedCapability.idEnd] at hle
        omega
      · exact ih h.2 hlast c hc

/-- **AN ID BEHIND ALL RANGES** finds the last capability. -/
theorem findByOffset_of_end_le (h : Contiguous start l)
    (hlast : l.getLast? = some last) (hid : last.idEnd ≤ id.toNat) :
    findByOffset l id = some last := by
  have hle : ∀ c ∈ l, c.messageIdOffset ≤ id := fun c hc =>
    UInt8.le_iff_toNat_le.mpr ((Nat.le_add_right _ _).trans ((h.idEnd_le hlast c hc).trans hid))
  cases l with
  | nil => nomatch hlast
  | cons cap l =>
    rw [findByOffset, if_neg (UInt8.not_lt.mpr (hle cap (mem_cons_self ..))), ← hlast,
      findFrom_of_forall_le fun c hc => hle c (mem_cons_of_mem _ hc)]

theorem outside_cases {id : ℕ} (h : Contiguous start l)
    (hlast : l.getLast? = some last) (hout : ∀ c ∈ l, ¬ c.Holds id) :
    id < start ∨ last.idEnd ≤ id := by
  induction l generalizing start with
  | nil => nomatch hlast
  | cons d l ih =>
    by_cases hlt : id < start
    · exact .inl hlt
    have hd : d.idEnd ≤ id := not_lt.mp (fun hlt' =>
      hout d (mem_cons_self ..) ⟨h.1 ▸ not_lt.mp hlt, hlt'⟩)
    cases l with
    | nil => exact .inr (some.inj hlast ▸ hd)
    | cons d' l =>
      rcases ih h.2 hlast (fun c hc => hout c (mem_cons_of_mem _ hc)) with hlt' | hend
      · exact absurd hd (not_le.mpr hlt')
      · exact .inr hend

end

/-! ## The shifts -/

variable (z : Snappy)

theorem sendMessage_eq (capacity : Bool) (c : SharedCapability) (sender : Handler)
    (msg : List UInt8) :
    sendMessage z capacity c sender msg =
      (ProtocolStream.maskMsgId c msg).bind (startSend z capacity) := by
  cases sender with
  | primary =>
    rw [sendMessage]
    congr 1
    cases msg with
    | nil => rfl
    | cons id payload =>
      rw [ProtocolProxy.maskMsgId, ProtocolStream.maskMsgId]
      split
      · next h =>
        rw [h, checkedAdd, if_pos (by have := id.toNat_lt; rw [UInt8.toNat_zero]; omega),
          UInt8.add_zero]
        rfl
      · rfl
  | satellite i => rfl

theorem reserved_toNat : maxReservedMessageId.toNat = 15 := rfl

section

variable {c : SharedCapability} (hstart : 0x10 ≤ c.messageIdOffset.toNat)
include hstart

theorem relativeMessageIdOffset_toNat :
    c.relativeMessageIdOffset.toNat = c.messageIdOffset.toNat - 16 := by
  have hres : maxReservedMessageId ≤ c.messageIdOffset :=
    UInt8.le_iff_toNat_le.mpr (by rw [reserved_toNat]; omega)
  have hone : (1 : UInt8) ≤ c.messageIdOffset - maxReservedMessageId := by
    rw [UInt8.le_iff_toNat_le, UInt8.toNat_sub_of_le _ _ hres, reserved_toNat]
    show 1 ≤ _
    omega
  rw [SharedCapability.relativeMessageIdOffset, UInt8.toNat_sub_of_le _ _ hone,
    UInt8.toNat_sub_of_le _ _ hres, reserved_toNat]
  show _ - 15 - 1 = _
  omega

/-- The frame of a message: its id is the capability's first one and the message's. -/
theorem frame_of_send {z : Snappy} {capacity : Bool} {id : UInt8} {payload frame : List UInt8}
    (hend : c.idEnd ≤ 0x100) (hid : id < c.numMessages)
    (h : sendMessage z capacity c sender (id :: payload) = some frame) :
    payload.length ≤ maxPayloadSize ∧
      frame = (id + c.messageIdOffset) :: z.compress payload := by
  have hlt := UInt8.lt_iff_toNat_lt.mp hid
  rw [SharedCapability.idEnd] at hend
  have hsum : id.toNat + c.relativeMessageIdOffset.toNat < 256 := by
    rw [relativeMessageIdOffset_toNat hstart]
    omega
  rw [sendMessage_eq, ProtocolStream.maskMsgId, checkedAdd, if_pos hsum, map_some,
    bind_some, startSend] at h
  split_ifs at h with hsize
  refine ⟨by rw [length_cons] at hsize; omega, ?_⟩
  have hshift : id + c.relativeMessageIdOffset + maxReservedMessageId + 1 =
      id + c.messageIdOffset := by
    rw [SharedCapability.relativeMessageIdOffset, sub_sub, add_assoc, add_assoc, sub_add_cancel]
  rw [← some.inj h, hshift]

end

variable (m : Multiplexer)

theorem deliver_of_lt {id : UInt8}
    {compressed payload : List UInt8} (hid : maxReservedMessageId < id)
    (hdec : z.decompress compressed = some payload) (hsize : payload.length ≤ maxPayloadSize) :
    m.deliver z (id :: compressed) =
      (findByOffset m.sharedCapabilities id).bind (fun cap => (m.handlerOf cap).bind (fun handler =>
        (unmaskId cap ((id - maxReservedMessageId - 1) :: payload)).map (handler, ·))) := by
  have hlt := UInt8.lt_iff_toNat_lt.mp hid
  rw [reserved_toNat] at hlt
  have hsub : (id - maxReservedMessageId - 1).toNat = id.toNat - 16 := by
    have h := relativeMessageIdOffset_toNat (c := .eth .eth66 id) hlt
    exact h
  have hback : saturatingAdd (id - maxReservedMessageId - 1) (maxReservedMessageId + 1) = id := by
    have hone : (maxReservedMessageId + 1).toNat = 16 := rfl
    rw [saturatingAdd, checkedAdd, if_pos (by have := id.toNat_lt; omega), getD_some,
      sub_sub, sub_add_cancel]
  rw [Multiplexer.deliver, receive, hdec]
  dsimp only
  rw [if_neg (not_lt.mpr hsize), if_neg (UInt8.not_le.mpr hid), bind_some,
    Multiplexer.delegate, findByRelativeOffset, hback]
  rfl

theorem deliver_of_reserved {id : UInt8} {payload : List UInt8}
    (hid : id ≤ maxReservedMessageId) : m.deliver z (id :: payload) = none := by
  rw [Multiplexer.deliver, receive]
  cases z.decompress payload with
  | none => rfl
  | some b =>
    dsimp only
    rw [if_pos hid, ite_self]
    rfl

/-- A frame whose payload cannot be read goes to no handler. -/
theorem deliver_of_unreadable {id : UInt8} {frame : List UInt8}
    (h : ∀ payload, z.decompress frame = some payload → maxPayloadSize < payload.length) :
    m.deliver z (id :: frame) = none := by
  rw [Multiplexer.deliver, receive]
  cases hdec : z.decompress frame with
  | none => rfl
  | some b =>
    dsimp only
    rw [if_pos (h b hdec)]
    rfl

/-- **DELIVERY**: a message goes to its capability's handler as sent; an id of no range goes to no
    handler iff it is reserved or the last capability has no handler. -/
theorem messages_delivered (z : Snappy) (m : Multiplexer)
    (hids : Contiguous 0x10 m.sharedCapabilities)
    (hfit : ∀ c ∈ m.sharedCapabilities, c.idEnd ≤ 0x100) :
    (∀ c ∈ m.sharedCapabilities, ∀ handler, m.handlerOf c = some handler →
      ∀ capacity sender id payload frame, id < c.numMessages →
        sendMessage z capacity c sender (id :: payload) = some frame →
        m.deliver z frame = some (handler, id :: payload)) ∧
    (∀ last, m.sharedCapabilities.getLast? = some last → ∀ id : UInt8,
      (∀ c ∈ m.sharedCapabilities, ¬ c.Holds id.toNat) →
        ((∀ payload, m.deliver z (id :: payload) = none) ↔
          id ≤ maxReservedMessageId ∨ m.handlerOf last = none)) := by
  constructor
  · intro c hc handler hhandler capacity sender id payload frame hid hsend
    have hstart := hids.start_le c hc
    have hend := hfit c hc
    obtain ⟨hsize, rfl⟩ := frame_of_send hstart hend hid hsend
    have hlt := UInt8.lt_iff_toNat_lt.mp hid
    rw [SharedCapability.idEnd] at hend
    have hwire : (id + c.messageIdOffset).toNat = id.toNat + c.messageIdOffset.toNat := by
      rw [UInt8.toNat_add]
      exact Nat.mod_eq_of_lt (by omega)
    have hholds : c.Holds (id + c.messageIdOffset).toNat := by
      rw [hwire]
      exact ⟨Nat.le_add_left _ _, by rw [SharedCapability.idEnd]; omega⟩
    rw [deliver_of_lt z m (UInt8.lt_iff_toNat_lt.mpr (by rw [hwire, reserved_toNat]; omega))
      (z.inverts payload) hsize,
      findByOffset_of_holds hids hc hholds, bind_some, hhandler, bind_some]
    have hback : id + c.messageIdOffset - maxReservedMessageId - 1 =
        id + c.relativeMessageIdOffset := by
      rw [SharedCapability.relativeMessageIdOffset, sub_sub, sub_sub, add_sub_assoc]
    have hsum : (id + c.relativeMessageIdOffset).toNat =
        id.toNat + c.relativeMessageIdOffset.toNat := by
      rw [UInt8.toNat_add]
      exact Nat.mod_eq_of_lt (by rw [relativeMessageIdOffset_toNat hstart]; omega)
    rw [hback, unmaskId, checkedSub, if_pos (by rw [hsum]; exact Nat.le_add_left _ _),
      add_sub_cancel_right]
    rfl
  · intro last hlast id hout
    have hend : maxReservedMessageId < id → last.idEnd ≤ id.toNat := by
      intro hid
      have hlt := UInt8.lt_iff_toNat_lt.mp hid
      rw [reserved_toNat] at hlt
      exact (outside_cases hids hlast hout).resolve_left (not_lt.mpr hlt)
    constructor
    · intro hnone
      by_contra hno
      obtain ⟨hlt, hsome⟩ := not_or.mp hno
      obtain ⟨handler, hhandler⟩ := ne_none_iff_exists'.mp hsome
      have hid := UInt8.not_le.mp hlt
      have hstart := hids.start_le last (mem_of_getLast? hlast)
      have hle : last.relativeMessageIdOffset.toNat ≤ (id - maxReservedMessageId - 1).toNat := by
        have hsub := relativeMessageIdOffset_toNat (c := .eth .eth66 id)
          (UInt8.lt_iff_toNat_lt.mp hid)
        have hoff := hend hid
        rw [SharedCapability.idEnd] at hoff
        rw [relativeMessageIdOffset_toNat hstart]
        refine le_trans ?_ hsub.ge
        show _ ≤ id.toNat - 16
        omega
      have hrun := hnone (z.compress [])
      rw [deliver_of_lt z m hid (z.inverts []) (Nat.zero_le _),
        findByOffset_of_end_le hids hlast (hend hid), bind_some, hhandler,
        bind_some, unmaskId, checkedSub, if_pos hle] at hrun
      cases hrun
    · rintro h frame
      by_cases hid : id ≤ maxReservedMessageId
      · exact deliver_of_reserved z m hid
      by_cases hread : ∃ payload, z.decompress frame = some payload ∧
          payload.length ≤ maxPayloadSize
      · obtain ⟨payload, hdec, hsize⟩ := hread
        have hlt := UInt8.not_le.mp hid
        rw [deliver_of_lt z m hlt hdec hsize, findByOffset_of_end_le hids hlast (hend hlt),
          bind_some, h.resolve_left hid]
        rfl
      · exact deliver_of_unreadable z m (fun payload hdec =>
          not_le.mp fun hsize => hread ⟨payload, hdec, hsize⟩)

namespace Snappy

/-- The length of the data in front of it, seven bits to a byte. -/
def varint : ℕ → ℕ → List UInt8
  | 0, n => [.ofNat (n % 128)]
  | fuel + 1, n =>
    if n < 128 then [.ofNat n] else .ofNat (n % 128 + 128) :: varint fuel (n / 128)

theorem skip_varint (fuel n : ℕ) (rest : List UInt8) :
    ((varint fuel n ++ rest).dropWhile (128 ≤ ·)).tail = rest := by
  have hlast : ∀ k < 128, (([UInt8.ofNat k] ++ rest).dropWhile (128 ≤ ·)).tail = rest := by
    intro k hk
    rw [singleton_append, dropWhile_cons_of_neg, tail_cons]
    simp [UInt8.le_iff_toNat_le]
    omega
  induction fuel generalizing n with
  | zero => exact hlast _ (Nat.mod_lt _ (by decide))
  | succ fuel ih =>
    rw [varint]
    split
    · exact hlast n ‹_›
    · rw [cons_append, dropWhile_cons_of_pos]
      · exact ih _
      · simp [UInt8.le_iff_toNat_le]
        omega

/-- Each byte as a literal of length 1, behind its tag. -/
def literals (payload : List UInt8) : List UInt8 := payload.flatMap fun byte => [0, byte]

def readLiterals : List UInt8 → Option (List UInt8)
  | [] => some []
  | 0 :: byte :: rest => (readLiterals rest).map (byte :: ·)
  | _ => none

theorem readLiterals_literals (payload : List UInt8) :
    readLiterals (literals payload) = some payload := by
  induction payload with
  | nil => rfl
  | cons byte payload ih => exact congrArg (Option.map (byte :: ·)) ih

/-- The stream that has literals only. -/
def literalOnly : Snappy where
  compress payload := varint 4 payload.length ++ literals payload
  decompress stream := readLiterals (stream.dropWhile (128 ≤ ·)).tail
  inverts payload := by rw [skip_varint, readLiterals_literals]

end Snappy

/-- Two capabilities, `eth` as the primary one. -/
def ethAndSnap : Multiplexer where
  sharedCapabilities := [.eth .eth68 0x10, .unknownCapability ⟨"snap", 1⟩ 0x21 8]
  primary := .eth .eth68 0x10
  protocols          := [.unknownCapability ⟨"snap", 1⟩ 0x21 8]

/-- The second message of `snap` arrives as it was sent. -/
theorem messages_delivered_sample :
    ethAndSnap.deliver .literalOnly [0x22, 1, 0, 7] = some (.satellite 0, [1, 7]) :=
  (messages_delivered .literalOnly ethAndSnap ⟨rfl, rfl, trivial⟩ (by decide)).1
    (.unknownCapability ⟨"snap", 1⟩ 0x21 8) (by decide) (.satellite 0) (by decide) true
    (.satellite 0) 1 [7] [0x22, 1, 0, 7] (by decide) (by decide)

/-- **AN ID OF NO RANGE IS DELIVERED**: `0x80` is behind both ranges, and arrives as message `0x5f`
    of the last capability. -/
theorem unknown_id_delivered :
    (∀ c ∈ ethAndSnap.sharedCapabilities, ¬ (c.messageIdOffset.toNat ≤ 0x80 ∧ 0x80 < c.idEnd)) ∧
      ethAndSnap.deliver .literalOnly [0x80, 1, 0, 7] = some (.satellite 0, [0x5f, 7]) := by
  decide

end EthWire
