import Pasifika.OrderedMap.Basic

/-! # Shared capabilities

`shared_capability_offsets` of `eth-wire/src/capability.rs`: each end of an
`RLPx` connection intersects its own protocols with the capabilities the
other end announced and hands out wire ids from `0x10` on. Both ends run the
code on swapped inputs, so:

* the versions found depend on the two sets of capabilities only
  (`sharedVersions_comm`);
* the ids handed out are contiguous while they fit into a byte
  (`contiguous_of_withOffsets`).

The name set beside the version map holds the map's keys and is read off the
map here; a byte wraps around, as in a release build. -/

namespace EthWire

open Std OrderedMap List Option Nat Except

structure Capability where
  name : String
  version : ℕ
deriving DecidableEq

structure Protocol where
  cap : Capability
  messages : UInt8
deriving DecidableEq

structure ProtoVersion where
  messages : UInt8
  version : ℕ
deriving DecidableEq

inductive EthVersion
  | eth66
  | eth67
  | eth68
  | eth69
deriving DecidableEq

namespace EthVersion

def toByte : EthVersion → UInt8
  | eth66 => 66
  | eth67 => 67
  | eth68 => 68
  | eth69 => 69

/-- `TryFrom<u8>`. -/
def tryFrom (u : UInt8) : Option EthVersion :=
  if u = 66 then some eth66
  else if u = 67 then some eth67
  else if u = 68 then some eth68
  else if u = 69 then some eth69
  else none

/-- `EthMessageID::message_count`: `Receipts` is the last message, from `eth/69` on
    `BlockRangeUpdate`. -/
def messageCount : EthVersion → UInt8
  | eth69 => 0x11 + 1
  | _ => 0x10 + 1

theorem toByte_of_tryFrom (h : tryFrom u = some v) : v.toByte = u := by
  unfold tryFrom at h
  split_ifs at h <;> cases h <;> simp_all [toByte]

end EthVersion

inductive SharedCapability
  | eth (version : EthVersion) (offset : UInt8)
  | unknownCapability (cap : Capability) (offset messages : UInt8)
deriving DecidableEq

inductive HandshakeError
  | noSharedCapabilities
  | unsupportedVersion (version : UInt8)
  | reservedMessageIdOffset (offset : UInt8)
deriving DecidableEq

def maxReservedMessageId : UInt8 := 0x0f

namespace SharedCapability

def new (name : String) (version offset messages : UInt8) :
    Except HandshakeError SharedCapability :=
  if offset ≤ maxReservedMessageId then .error (.reservedMessageIdOffset offset)
  else if name = "eth" then
    match EthVersion.tryFrom version with
    | some v => .ok (.eth v offset)
    | none => .error (.unsupportedVersion version)
  else .ok (.unknownCapability ⟨name, version.toNat⟩ offset messages)

def name : SharedCapability → String
  | eth .. => "eth"
  | unknownCapability cap .. => cap.name

def version : SharedCapability → UInt8
  | eth v _ => v.toByte
  | unknownCapability cap .. => cap.version.toUInt8

def messageIdOffset : SharedCapability → UInt8
  | eth _ offset => offset
  | unknownCapability _ offset _ => offset

def relativeMessageIdOffset (c : SharedCapability) : UInt8 :=
  c.messageIdOffset - maxReservedMessageId - 1

def numMessages : SharedCapability → UInt8
  | eth v _ => v.messageCount
  | unknownCapability _ _ messages => messages

/-- The first wire id behind the capability's range. -/
def idEnd (c : SharedCapability) : ℕ := c.messageIdOffset.toNat + c.numMessages.toNat

/-- The wire id is one of the capability's. -/
def Holds (c : SharedCapability) (id : ℕ) : Prop := c.messageIdOffset.toNat ≤ id ∧ id < c.idEnd

theorem new_spec {name : String} {version offset messages : UInt8}
    (h : new name version offset messages = .ok c) :
    maxReservedMessageId < offset ∧ c.name = name ∧ c.version = version ∧
      c.messageIdOffset = offset := by
  unfold new at h
  split_ifs at h with hoff heth
  · cases hv : EthVersion.tryFrom version with
    | none => rw [hv] at h; nomatch h
    | some v =>
      rw [hv] at h
      cases h
      exact ⟨UInt8.not_le.mp hoff, heth.symm, EthVersion.toByte_of_tryFrom hv, rfl⟩
  · cases h
    exact ⟨UInt8.not_le.mp hoff, rfl, UInt8.ofNat_toNat, rfl⟩

end SharedCapability

/-! ## The negotiation -/

/-- `our_capabilities`, collected from the local protocols: a later entry replaces an
    earlier one. -/
def ourCapabilities (protocols : List Protocol) (cap : Capability) : Option UInt8 :=
  (protocols.reverse.find? (fun p => p.cap = cap)).map Protocol.messages

/-- One round of the loop over the peer's capabilities: the highest version wins. -/
def shareCapability (protocols : List Protocol) (shared : ExtTreeMap String ProtoVersion)
    (cap : Capability) : ExtTreeMap String ProtoVersion :=
  match ourCapabilities protocols cap with
  | none => shared
  | some messages =>
    if shared[cap.name]?.all (fun v => v.version < cap.version) then
      shared.insert cap.name ⟨messages, cap.version⟩
    else shared

def sharedVersions (protocols : List Protocol) (peer : List Capability) :
    ExtTreeMap String ProtoVersion :=
  peer.foldl (shareCapability protocols) ∅

/-- The loop that hands out the ids, in the order of the names. -/
def withOffsets : List (String × ProtoVersion) → UInt8 →
    Except HandshakeError (List SharedCapability)
  | [], _ => .ok []
  | (name, v) :: rest, offset => do
    let shared ← SharedCapability.new name v.version.toUInt8 offset v.messages
    let others ← withOffsets rest (offset + shared.numMessages)
    pure (shared :: others)

variable {l : List SharedCapability} {name : String} {cap : Capability} {P : List Protocol}

variable {offset : UInt8}

theorem withOffsets_cons (h : withOffsets (e :: rest) offset = .ok l) :
    ∃ c others, SharedCapability.new e.1 e.2.version.toUInt8 offset e.2.messages = .ok c ∧
      withOffsets rest (offset + c.numMessages) = .ok others ∧ l = c :: others := by
  rw [withOffsets] at h
  cases hnew : SharedCapability.new e.1 e.2.version.toUInt8 offset e.2.messages with
  | error err => rw [hnew] at h; nomatch h
  | ok c =>
    rw [hnew] at h
    cases hrest : withOffsets rest (offset + c.numMessages) with
    | error err => simp [bind, Except.bind, hrest] at h
    | ok others =>
      refine ⟨c, others, rfl, hrest, ?_⟩
      simpa [bind, Except.bind, pure, Except.pure, hrest] using h.symm

def sharedCapabilityOffsets (protocols : List Protocol) (peer : List Capability) :
    Except HandshakeError (List SharedCapability) := do
  let shared := sharedVersions protocols peer
  if shared.isEmpty then .error .noSharedCapabilities
  else do
    let withOffset ← withOffsets shared.toList (maxReservedMessageId + 1)
    if withOffset.isEmpty then .error .noSharedCapabilities else pure withOffset

/-! ## What the two ends agree on -/

/-- **HIGHEST COMMON VERSION** of a name in two lists of protocols. -/
structure HighestCommon (P Q : List Protocol) (name : String) (version : ℕ) : Prop where
  left : ⟨name, version⟩ ∈ P.map Protocol.cap
  right : ⟨name, version⟩ ∈ Q.map Protocol.cap
  highest : ∀ w, ⟨name, w⟩ ∈ P.map Protocol.cap → ⟨name, w⟩ ∈ Q.map Protocol.cap → w ≤ version

theorem HighestCommon.symm (h : HighestCommon P Q name v) :
    HighestCommon Q P name v :=
  ⟨h.right, h.left, fun w hQ hP => h.highest w hP hQ⟩

/-- The ranges follow each other from `start` on. -/
def Contiguous : ℕ → List SharedCapability → Prop
  | _, [] => True
  | start, c :: rest => c.messageIdOffset.toNat = start ∧ Contiguous c.idEnd rest

theorem mem_of_ourCapabilities (h : ourCapabilities P cap = some m) :
    ∃ p ∈ P, p.cap = cap ∧ p.messages = m := by
  obtain ⟨p, hp, hm⟩ := map_eq_some_iff.mp h
  exact ⟨p, mem_reverse.mp (mem_of_find?_eq_some hp),
    of_decide_eq_true (p := p.cap = cap) (find?_some hp :), hm⟩

theorem ourCapabilities_eq_none : ourCapabilities P cap = none ↔ cap ∉ P.map Protocol.cap := by
  rw [ourCapabilities, Option.map_eq_none_iff, List.find?_eq_none]
  simp only [List.mem_reverse, decide_eq_true_eq, List.mem_map, not_exists, not_and]

/-- What an entry of the version map says after the capabilities `caps`. -/
def Chosen (P : List Protocol) (caps : List Capability) (name : String) :
    Option ProtoVersion → Prop
  | none => ∀ cap ∈ caps, cap.name = name → ourCapabilities P cap = none
  | some pv => ⟨name, pv.version⟩ ∈ caps ∧ ourCapabilities P ⟨name, pv.version⟩ = some pv.messages ∧
      ∀ cap ∈ caps, cap.name = name → ourCapabilities P cap ≠ none → cap.version ≤ pv.version

variable {o : Option ProtoVersion}

theorem Chosen.skip {l : List Capability} (h : Chosen P l name o)
    (hskip : cap.name = name → ourCapabilities P cap ≠ none →
      ∃ pv, o = some pv ∧ cap.version ≤ pv.version) :
    Chosen P (l ++ [cap]) name o := by
  cases o with
  | none =>
    intro d hd hname
    rcases mem_append.mp hd with hd | hd
    · exact h d hd hname
    · rw [mem_singleton.mp hd] at hname ⊢
      by_contra hne
      obtain ⟨pv, hpv, _⟩ := hskip hname hne
      nomatch hpv
  | some pv =>
    refine ⟨mem_append_left _ h.1, h.2.1, fun d hd hname hsome => ?_⟩
    rcases mem_append.mp hd with hd | hd
    · exact h.2.2 d hd hname hsome
    · rw [mem_singleton.mp hd] at hname hsome ⊢
      obtain ⟨pv', hpv, hle⟩ := hskip hname hsome
      cases hpv
      exact hle

theorem Chosen.shareCapability {l : List Capability} {shared : ExtTreeMap String ProtoVersion}
    (cap : Capability) (h : Chosen P l name shared[name]?) :
    Chosen P (l ++ [cap]) name (shareCapability P shared cap)[name]? := by
  rw [EthWire.shareCapability]
  cases hours : ourCapabilities P cap with
  | none => exact h.skip (fun _ hne => absurd hours hne)
  | some m =>
    dsimp only
    by_cases hname : cap.name = name
    · subst hname
      split
      · next hlt =>
        rw [get_insert_self]
        refine ⟨mem_append_right _ (mem_singleton_self _), hours, fun d hd hname hsome => ?_⟩
        rcases mem_append.mp hd with hd | hd
        · cases hget : shared[cap.name]? with
          | none => rw [hget] at h; exact absurd (h d hd hname) hsome
          | some pv =>
            rw [hget] at h hlt
            exact (h.2.2 d hd hname hsome).trans (of_decide_eq_true hlt).le
        · rw [mem_singleton.mp hd]
      · next hge =>
        refine h.skip fun _ _ => ?_
        cases hget : shared[cap.name]? with
        | none => rw [hget] at hge; exact absurd rfl hge
        | some pv =>
          rw [hget] at hge
          exact ⟨pv, rfl, Nat.not_lt.mp fun hlt => hge (decide_eq_true hlt)⟩
    · have hget : (if shared[cap.name]?.all (·.version < cap.version) then
          shared.insert cap.name ⟨m, cap.version⟩ else shared)[name]? = shared[name]? := by
        split
        · exact get_insert_ne hname
        · rfl
      rw [hget]
      exact h.skip fun hn _ => absurd hn hname

/-- **THE VERSION MAP**, whatever the order of the peer's list: a name has an entry if it has a
    common version, the highest one with the local message count. -/
theorem chosen_sharedVersions (P : List Protocol) (caps : List Capability) (name : String) :
    Chosen P caps name (sharedVersions P caps)[name]? := by
  induction caps using reverseRecOn with
  | nil =>
    rw [sharedVersions, foldl_nil, ExtTreeMap.getElem?_empty]
    nofun
  | append_singleton l cap ih =>
    rw [sharedVersions, foldl_append]
    exact ih.shareCapability cap

section

variable {P Q : List Protocol}

theorem highestCommon_of_get (h : (sharedVersions P (Q.map Protocol.cap))[name]? = some pv) :
    HighestCommon P Q name pv.version ∧
      ourCapabilities P ⟨name, pv.version⟩ = some pv.messages := by
  have hc := chosen_sharedVersions P (Q.map Protocol.cap) name
  rw [h] at hc
  obtain ⟨hmem, hours, hmax⟩ := hc
  have hP : ∀ w, (⟨name, w⟩ : Capability) ∈ P.map Protocol.cap →
      ourCapabilities P ⟨name, w⟩ ≠ none :=
    fun w hw hnone => ourCapabilities_eq_none.mp hnone hw
  refine ⟨⟨?_, hmem, fun w hw hQ => hmax _ hQ rfl (hP w hw)⟩, hours⟩
  by_contra hno
  rw [ourCapabilities_eq_none.mpr hno] at hours
  nomatch hours

theorem get_of_highestCommon (h : HighestCommon P Q name v) :
    ∃ pv, (sharedVersions P (Q.map Protocol.cap))[name]? = some pv ∧ pv.version = v := by
  have hsome : ourCapabilities P ⟨name, v⟩ ≠ none :=
    fun hnone => ourCapabilities_eq_none.mp hnone h.left
  cases hget : (sharedVersions P (Q.map Protocol.cap))[name]? with
  | none =>
    have hc := chosen_sharedVersions P (Q.map Protocol.cap) name
    rw [hget] at hc
    exact absurd (hc _ h.right rfl) hsome
  | some pv =>
    obtain ⟨hbest, _⟩ := highestCommon_of_get hget
    exact ⟨pv, rfl, Nat.le_antisymm (h.highest _ hbest.left hbest.right)
      (hbest.highest _ h.left h.right)⟩

/-- **BOTH ENDS FIND THE SAME VERSIONS** and, where they count alike, the same messages. -/
theorem sharedVersions_comm (hcount : ∀ p ∈ P, ∀ q ∈ Q, p.cap = q.cap → p.messages = q.messages) :
    sharedVersions P (Q.map Protocol.cap) = sharedVersions Q (P.map Protocol.cap) := by
  refine ExtTreeMap.ext_getElem? fun name => ?_
  cases hP : (sharedVersions P (Q.map Protocol.cap))[name]? with
  | none =>
    cases hQ : (sharedVersions Q (P.map Protocol.cap))[name]? with
    | none => rfl
    | some pv =>
      obtain ⟨pv', hget, _⟩ := get_of_highestCommon (highestCommon_of_get hQ).1.symm
      rw [hP] at hget
      nomatch hget
  | some pv =>
    obtain ⟨hbest, hours⟩ := highestCommon_of_get hP
    obtain ⟨pv', hQ, hv⟩ := get_of_highestCommon hbest.symm
    obtain ⟨_, hours'⟩ := highestCommon_of_get hQ
    rw [hv] at hours'
    obtain ⟨p, hp, hpcap, hpm⟩ := mem_of_ourCapabilities hours
    obtain ⟨q, hq, hqcap, hqm⟩ := mem_of_ourCapabilities hours'
    have hm : pv.messages = pv'.messages := by
      rw [← hpm, ← hqm]
      exact hcount p hp q hq (hpcap.trans hqcap.symm)
    rw [hQ]
    cases pv
    cases pv'
    cases hv
    cases hm
    rfl

end

/-! ## The ids -/

variable {entries : List (String × ProtoVersion)}

/-- The result has one capability for each entry, under its name and version. -/
theorem names_of_withOffsets (h : withOffsets entries offset = .ok l) :
    l.map (fun c => (c.name, c.version)) = entries.map (fun e => (e.1, e.2.version.toUInt8)) := by
  induction entries generalizing offset l with
  | nil =>
    cases h
    rfl
  | cons e entries ih =>
    obtain ⟨c, others, hnew, hrest, rfl⟩ := withOffsets_cons h
    obtain ⟨_, hname, hversion, _⟩ := SharedCapability.new_spec hnew
    rw [map_cons, map_cons, hname, hversion, ih hrest]

/-- **CONTIGUOUS** as long as the ids fit: only the sum behind the last id may not, and from there
    on no capability can be created. -/
theorem contiguous_of_withOffsets (h : withOffsets entries offset = .ok l)
    (hfit : offset.toNat + (l.map (·.numMessages.toNat)).sum ≤ 0x100) :
    Contiguous offset.toNat l := by
  induction entries generalizing offset l with
  | nil =>
    cases h
    trivial
  | cons e entries ih =>
    obtain ⟨c, others, hnew, hrest, rfl⟩ := withOffsets_cons h
    obtain ⟨_, _, _, hoff⟩ := SharedCapability.new_spec hnew
    rw [map_cons, sum_cons] at hfit
    refine ⟨by rw [hoff], ?_⟩
    have hend : c.idEnd = offset.toNat + c.numMessages.toNat := by rw [SharedCapability.idEnd, hoff]
    rw [hend]
    have hnext : (offset + c.numMessages).toNat = (offset.toNat + c.numMessages.toNat) % 256 :=
      UInt8.toNat_add _ _
    by_cases hlt : offset.toNat + c.numMessages.toNat < 256
    · rw [mod_eq_of_lt hlt] at hnext
      rw [← hnext]
      exact ih hrest (by rw [hnext]; omega)
    · have hzero : (offset + c.numMessages).toNat = 0 := by omega
      cases entries with
      | nil =>
        cases hrest
        trivial
      | cons e' entries =>
        obtain ⟨c', _, hnew', _, _⟩ := withOffsets_cons hrest
        have hres := UInt8.lt_iff_toNat_lt.mp (SharedCapability.new_spec hnew').1
        rw [hzero] at hres
        nomatch hres

theorem Contiguous.start_le (h : Contiguous start l) (c : SharedCapability) (hc : c ∈ l) :
    start ≤ c.messageIdOffset.toNat := by
  induction l generalizing start with
  | nil => nomatch hc
  | cons d l ih =>
    rcases mem_cons.mp hc with rfl | hc
    · exact h.1.ge
    · have hle := ih h.2 hc
      rw [SharedCapability.idEnd, h.1] at hle
      omega

theorem Contiguous.pairwise (h : Contiguous start l) :
    l.Pairwise (·.idEnd ≤ ·.messageIdOffset.toNat) := by
  induction l generalizing start with
  | nil => exact Pairwise.nil
  | cons d l ih => exact pairwise_cons.mpr ⟨h.2.start_le, ih h.2⟩

/-- **NEGOTIATED** from two lists of protocols. -/
structure Negotiated (P Q : List Protocol) (l : List SharedCapability) : Prop where
  sorted : l.Pairwise (fun c d => c.name < d.name)
  highest : ∀ name v, (∃ c ∈ l, c.name = name ∧ c.version.toNat = v) ↔ HighestCommon P Q name v
  ids : Contiguous 0x10 l
  disjoint : l.Pairwise (fun c d => ∀ id, ¬ (c.Holds id ∧ d.Holds id))

theorem withOffsets_of_ok (h : sharedCapabilityOffsets P peer = .ok l) :
    withOffsets (sharedVersions P peer).toList (maxReservedMessageId + 1) = .ok l := by
  rw [sharedCapabilityOffsets] at h
  split at h
  · nomatch h
  cases hw : withOffsets (sharedVersions P peer).toList (maxReservedMessageId + 1) with
  | error err => rw [hw] at h; nomatch h
  | ok l' =>
    rw [hw] at h
    simp only [bind, Except.bind] at h
    split at h
    · nomatch h
    · exact h

theorem mem_highest (hversion : ∀ p ∈ P, p.cap.version < 256)
    (h : sharedCapabilityOffsets P (Q.map Protocol.cap) = .ok l) (name : String) (v : ℕ) :
    (∃ c ∈ l, c.name = name ∧ c.version.toNat = v) ↔ HighestCommon P Q name v := by
  have hnames := names_of_withOffsets (withOffsets_of_ok h)
  have hbyte : ∀ {name : String} {pv : ProtoVersion},
      (sharedVersions P (Q.map Protocol.cap))[name]? = some pv →
        pv.version.toUInt8.toNat = pv.version := by
    intro name pv hget
    obtain ⟨p, hp, hcap⟩ := mem_map.mp (highestCommon_of_get hget).1.left
    have hlt := hversion p hp
    rw [hcap] at hlt
    exact mod_eq_of_lt hlt
  constructor
  · rintro ⟨c, hc, rfl, rfl⟩
    have hmem := mem_map_of_mem (f := fun c => (c.name, c.version)) hc
    rw [hnames] at hmem
    obtain ⟨⟨n, pv⟩, he, heq⟩ := mem_map.mp hmem
    have hget := mem_toList.mp he
    obtain ⟨rfl, hv⟩ := Prod.mk.inj heq
    rw [← hv, hbyte hget]
    exact (highestCommon_of_get hget).1
  · intro hbest
    obtain ⟨pv, hget, rfl⟩ := get_of_highestCommon hbest
    have hmem := mem_map_of_mem (f := fun e : String × ProtoVersion =>
      (e.1, e.2.version.toUInt8)) (mem_toList.mpr hget)
    rw [← hnames] at hmem
    obtain ⟨c, hc, heq⟩ := mem_map.mp hmem
    obtain ⟨hname, hv⟩ := Prod.mk.inj heq
    exact ⟨c, hc, hname, by rw [hv, hbyte hget]⟩

/-- **THE TWO ENDS AGREE**: they fail alike or get the same list; if its messages fit, it has
    exactly the highest common versions, sorted by name, with contiguous and disjoint ids. -/
theorem shared_capabilities_agree {P Q : List Protocol} (hversion : ∀ p ∈ P, p.cap.version < 256)
    (hcount : ∀ p ∈ P, ∀ q ∈ Q, p.cap = q.cap → p.messages = q.messages) :
    sharedCapabilityOffsets P (Q.map Protocol.cap) =
        sharedCapabilityOffsets Q (P.map Protocol.cap) ∧
      ∀ l, sharedCapabilityOffsets P (Q.map Protocol.cap) = .ok l →
        (l.map (fun c => c.numMessages.toNat)).sum ≤ 0xf0 → Negotiated P Q l := by
  refine ⟨by rw [sharedCapabilityOffsets, sharedVersions_comm hcount]; rfl, fun l h hfit => ?_⟩
  have hw := withOffsets_of_ok h
  have hids : Contiguous 0x10 l :=
    contiguous_of_withOffsets hw (by
      rw [show (maxReservedMessageId + 1).toNat = 0x10 from rfl]
      omega)
  refine ⟨?_, mem_highest hversion h, hids, ?_⟩
  · have hsorted : (l.map SharedCapability.name).Pairwise (· < ·) := by
      have hnames : l.map SharedCapability.name =
          (sharedVersions P (Q.map Protocol.cap)).toList.map Prod.fst := by
        have hpair := congrArg (map Prod.fst) (names_of_withOffsets hw)
        rw [List.map_map, List.map_map] at hpair
        exact hpair
      rw [hnames, pairwise_map]
      refine Pairwise.imp (fun {a b} hlt => ?_) ExtTreeMap.ordered_keys_toList
      exact compareOfLessAndEq_eq_lt.mp hlt
    exact pairwise_map.mp hsorted
  · refine hids.pairwise.imp (fun hle id hid => ?_)
    exact absurd (hid.1.2.trans_le hle) (Nat.not_lt.mpr hid.2.1)

/-- One end lists `eth` in two versions and a protocol of its own, the other one only the
    lower version. -/
theorem shared_capabilities_agree_sample :
    sharedCapabilityOffsets [⟨⟨"snap", 1⟩, 8⟩, ⟨⟨"eth", 68⟩, 17⟩, ⟨⟨"eth", 69⟩, 18⟩]
        [⟨"eth", 68⟩, ⟨"snap", 1⟩] =
      .ok [.eth .eth68 0x10, .unknownCapability ⟨"snap", 1⟩ 0x21 8] ∧
    Negotiated [⟨⟨"snap", 1⟩, 8⟩, ⟨⟨"eth", 68⟩, 17⟩, ⟨⟨"eth", 69⟩, 18⟩]
      [⟨⟨"eth", 68⟩, 17⟩, ⟨⟨"snap", 1⟩, 8⟩]
      [.eth .eth68 0x10, .unknownCapability ⟨"snap", 1⟩ 0x21 8] := by
  have hrun : sharedCapabilityOffsets [⟨⟨"snap", 1⟩, 8⟩, ⟨⟨"eth", 68⟩, 17⟩, ⟨⟨"eth", 69⟩, 18⟩]
      [⟨"eth", 68⟩, ⟨"snap", 1⟩] =
      .ok [.eth .eth68 0x10, .unknownCapability ⟨"snap", 1⟩ 0x21 8] := by decide +kernel
  exact ⟨hrun, (shared_capabilities_agree (by decide) (by decide)).2 _ hrun (by decide)⟩

end EthWire
