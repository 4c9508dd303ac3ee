import Pasifika.Pool.State

/-! # The parked sub-pools

`pool/parked.rs`: the container behind the base fee and the queued
sub-pool. Besides the transactions it keeps, for each sender, how many it
holds and when the sender last submitted one; `truncatePool` evicts the
senders that have been silent for longest.

A panic (`unreachable!`, `assert!`) is `none`, and so is a loop that runs
out of fuel. Submission ids do not wrap. -/

namespace TransactionPool

open Std OrderedMap Nat Option

/-- A transaction of a parked pool. -/
structure ParkedPoolTransaction where
  submissionId : Nat
  transaction : ValidPoolTransaction
deriving DecidableEq

/-- The number of transactions of a sender and its latest submission. -/
structure SenderTransactionCount where
  count : Nat
  lastSubmissionId : Nat
deriving DecidableEq

/-- `ParkedPool`. `SubmissionSenderId`s are compared by their submission id, so the set of last
    submissions is a map from ids to senders; the last element has the lowest id. -/
structure ParkedPool where
  submissionId : Nat
  byId : ExtTreeMap TransactionId ParkedPoolTransaction
  lastSenderSubmission : ExtTreeMap Nat SenderId
  senderTransactionCount : ExtTreeMap SenderId SenderTransactionCount
  sizeOf : SizeTracker

namespace ParkedPool

def default : ParkedPool := ⟨0, ∅, ∅, ∅, .zero⟩

def len (p : ParkedPool) : Nat := p.byId.size

def size (p : ParkedPool) : Nat := p.sizeOf.toUsize

def exceeds (p : ParkedPool) (limit : SubPoolLimit) : Bool := limit.isExceeded p.len p.size

def addSenderCount (p : ParkedPool) (sender : SenderId) (submissionId : Nat) : ParkedPool :=
  let p :=
    match p.senderTransactionCount[sender]? with
    | some value =>
      { p with
        lastSenderSubmission := p.lastSenderSubmission.erase value.lastSubmissionId
        senderTransactionCount :=
          p.senderTransactionCount.insert sender ⟨value.count + 1, submissionId⟩ }
    | none =>
      { p with
        senderTransactionCount := p.senderTransactionCount.insert sender ⟨1, submissionId⟩ }
  { p with lastSenderSubmission := p.lastSenderSubmission.insertIfNew submissionId sender }

def addTransaction (p : ParkedPool) (tx : ValidPoolTransaction) : ParkedPool :=
  let submissionId := p.submissionId
  let p := { p with submissionId := submissionId + 1, sizeOf := p.sizeOf.add tx.size }
  let p := p.addSenderCount tx.senderId submissionId
  { p with byId := p.byId.insert tx.id ⟨submissionId, tx⟩ }

/-- `remove_sender_count`: a sender without an entry is `unreachable!`, and its last submission is
    asserted to be tracked. -/
def removeSenderCount (p : ParkedPool) (sender : SenderId) : Option ParkedPool :=
  match p.senderTransactionCount[sender]? with
  | none => none
  | some value =>
    if value.count - 1 = 0 then
      if p.lastSenderSubmission.contains value.lastSubmissionId then
        some { p with
          senderTransactionCount := p.senderTransactionCount.erase sender
          lastSenderSubmission := p.lastSenderSubmission.erase value.lastSubmissionId }
      else none
    else
      some { p with
        senderTransactionCount :=
          p.senderTransactionCount.insert sender { value with count := value.count - 1 } }

def removeTransaction (p : ParkedPool) (id : TransactionId) :
    Option (Option ValidPoolTransaction × ParkedPool) :=
  match p.byId[id]? with
  | none => some (none, p)
  | some tx => do
      let p ← { p with byId := p.byId.erase id }.removeSenderCount tx.transaction.senderId
      some (some tx.transaction, { p with sizeOf := p.sizeOf.sub tx.transaction.size })

def getTxsBySender (p : ParkedPool) (sender : SenderId) : List TransactionId :=
  (p.byId.toList.filter (fun e => e.1.sender == sender)).map Prod.fst

/-- The inner loop of `truncate_pool`: drop the listed transactions until the
    pool is under its limit. -/
def dropUntil (limit : SubPoolLimit) :
    List TransactionId → ParkedPool → Option (List ValidPoolTransaction × ParkedPool)
  | [], p => some ([], p)
  | id :: ids, p => do
      let r ← p.removeTransaction id
      if !r.2.exceeds limit then some (r.1.toList, r.2)
      else do
        let rs ← dropUntil limit ids r.2
        some (r.1.toList ++ rs.1, rs.2)

/-- The loop of `truncate_pool`, one sender a round. -/
def truncateLoop (limit : SubPoolLimit) :
    Nat → ParkedPool → List ValidPoolTransaction →
      Option (List ValidPoolTransaction × ParkedPool)
  | 0, _, _ => none
  | fuel + 1, p, removed =>
    match p.lastSenderSubmission.toList.head? with
    | none => some (removed, p)
    | some (_, sender) =>
      if limit.isExceeded p.len p.size then do
        let r ← dropUntil limit (p.getTxsBySender sender).reverse p
        truncateLoop limit fuel r.2 (removed ++ r.1)
      else some (removed, p)

def truncatePool (fuel : Nat) (p : ParkedPool) (limit : SubPoolLimit) :
    Option (List ValidPoolTransaction × ParkedPool) :=
  if !p.exceeds limit then some ([], p) else truncateLoop limit fuel p []

/-- A transaction below the base fee keeps all later ones of its sender parked. -/
def satisfyBaseFeeIds (p : ParkedPool) (basefee : Nat) : List TransactionId :=
  (retain (fun e : TransactionId × ParkedPoolTransaction => e.1.sender)
    (fun e => basefee ≤ e.2.transaction.maxFeePerGas) none p.byId.toList).1.map Prod.fst

/-! ## What keeps a parked pool sound -/

/-- The transaction held under an id. -/
def get (p : ParkedPool) (id : TransactionId) : Option ValidPoolTransaction :=
  p.byId[id]?.map (fun t => t.transaction)

/-- The number of transactions of a sender. -/
def senderCount (p : ParkedPool) (sender : SenderId) : Nat :=
  countKeys (fun id => id.sender == sender) p.byId

/-- The indexes of a parked pool match its transactions. -/
structure WF (p : ParkedPool) : Prop where
  key : ∀ {id : TransactionId} {t : ParkedPoolTransaction},
    p.byId[id]? = some t → t.transaction.id = id
  size : p.sizeOf.value = total (fun t => t.transaction.size) p.byId
  count : ∀ s : SenderId, p.senderTransactionCount[s]?.map (fun c => c.count)
    = if p.senderCount s = 0 then none else some (p.senderCount s)
  last : ∀ (n : Nat) (s : SenderId), p.lastSenderSubmission[n]? = some s ↔
    ∃ c : SenderTransactionCount,
      p.senderTransactionCount[s]? = some c ∧ c.lastSubmissionId = n
  fresh : ∀ {s : SenderId} {c : SenderTransactionCount},
    p.senderTransactionCount[s]? = some c → c.lastSubmissionId < p.submissionId

theorem wf_default : WF default where
  key := fun h => by simp [default] at h
  size := by simp [default]
  count := fun s => by simp [default, senderCount]
  last := fun n s => by simp [default]
  fresh := fun h => by simp [default] at h

variable {tx : ValidPoolTransaction} {id : TransactionId} {p : ParkedPool}

theorem get_eq_some : p.get id = some tx ↔ ∃ t, p.byId[id]? = some t ∧ t.transaction = tx := by
  rw [get, map_eq_some_iff]

theorem get_eq_none : p.get id = none ↔ p.byId[id]? = none := by
  rw [get, map_eq_none_iff]

theorem WF.get_key (h : WF p) (hg : p.get id = some tx) : tx.id = id := by
  obtain ⟨t, ht, rfl⟩ := get_eq_some.mp hg
  exact h.key ht

/-- `add_sender_count` only touches the sender indexes. -/
theorem addSenderCount_frame (p : ParkedPool) (sender : SenderId) (n : Nat) :
    (p.addSenderCount sender n).byId = p.byId
      ∧ (p.addSenderCount sender n).submissionId = p.submissionId
      ∧ (p.addSenderCount sender n).sizeOf = p.sizeOf := by
  unfold addSenderCount
  cases p.senderTransactionCount[sender]? <;> exact ⟨rfl, rfl, rfl⟩

theorem byId_addTransaction (p : ParkedPool) (tx : ValidPoolTransaction) :
    (p.addTransaction tx).byId = p.byId.insert tx.id ⟨p.submissionId, tx⟩ := by
  show (ParkedPool.byId (addSenderCount _ _ _)).insert _ _ = _
  rw [(addSenderCount_frame _ _ _).1]

theorem get_addTransaction (p : ParkedPool) (tx : ValidPoolTransaction) (id : TransactionId) :
    (p.addTransaction tx).get id = if tx.id = id then some tx else p.get id := by
  rw [get, byId_addTransaction, get_insert, apply_ite (Option.map _)]
  rfl

/-- A fresh submission replaces the sender's previous one. -/
theorem WF.lastSenderSubmission_addSenderCount (h : WF p) (k : Nat) (s : SenderId) :
    (p.addSenderCount sender p.submissionId).lastSenderSubmission[k]? = some s ↔
      k = p.submissionId ∧ s = sender ∨ s ≠ sender ∧ p.lastSenderSubmission[k]? = some s := by
  generalize hn : p.submissionId = n
  have hfree : p.lastSenderSubmission[n]? = none := by
    cases hl : p.lastSenderSubmission[n]? with
    | none => rfl
    | some s' =>
      obtain ⟨c, hc, hcn⟩ := (h.last n s').mp hl
      have := h.fresh hc
      omega
  -- no other sender holds the submission that is replaced
  have hother : ∀ c, p.senderTransactionCount[sender]? = some c → ∀ s', s' ≠ sender →
      p.lastSenderSubmission[c.lastSubmissionId]? ≠ some s' := by
    intro c hc s' hs' hl
    rw [(h.last _ sender).mpr ⟨c, hc, rfl⟩] at hl
    exact hs' (some.inj hl).symm
  unfold addSenderCount
  cases hc : p.senderTransactionCount[sender]? with
  | none =>
    have hnot : ∀ k : Nat, p.lastSenderSubmission[k]? ≠ some sender := by
      intro k hl
      obtain ⟨c, hc', -⟩ := (h.last k sender).mp hl
      rw [hc] at hc'
      nomatch hc'
    simp only [insertIfNew_eq_insert hfree, get_insert]
    by_cases hk : n = k
    · subst hk
      simp [hfree, eq_comm]
    · simp only [if_neg hk, Ne.symm hk, false_and, false_or]
      exact ⟨fun hl => ⟨fun hs => hnot k (hs ▸ hl), hl⟩, fun hl => hl.2⟩
  | some c =>
    have hfree' : (p.lastSenderSubmission.erase c.lastSubmissionId)[n]? = none := by
      rw [get_erase, hfree, ite_self]
    simp only [insertIfNew_eq_insert hfree', get_insert, get_erase]
    by_cases hk : n = k
    · subst hk
      simp [hfree, eq_comm]
    simp only [if_neg hk, Ne.symm hk, false_and, false_or]
    by_cases hck : c.lastSubmissionId = k
    · rw [if_pos hck]
      exact ⟨nofun, fun hl => absurd (hck ▸ hl.2) (hother c hc s hl.1)⟩
    · rw [if_neg hck]
      refine ⟨fun hl => ⟨fun hs => hck ?_, hl⟩, fun hl => hl.2⟩
      obtain ⟨c', hc', hk'⟩ := (h.last k s).mp hl
      rw [hs, hc] at hc'
      rw [some.inj hc', hk']

theorem senderCount_addTransaction (hnew : p.get tx.id = none) (s : SenderId) :
    (p.addTransaction tx).senderCount s
      = p.senderCount s + if tx.senderId = s then 1 else 0 := by
  rw [senderCount, byId_addTransaction, countKeys_insert (get_eq_none.mp hnew), senderCount]
  simp only [beq_iff_eq]
  rfl

theorem senderTransactionCount_addTransaction (p : ParkedPool) (tx : ValidPoolTransaction) :
    (p.addTransaction tx).senderTransactionCount
      = p.senderTransactionCount.insert tx.senderId
          ⟨(p.senderTransactionCount[tx.senderId]?.map (·.count)).getD 0 + 1, p.submissionId⟩ := by
  simp only [addTransaction, addSenderCount]
  cases p.senderTransactionCount[tx.senderId]? <;> rfl

theorem WF.addTransaction (h : WF p) (hnew : p.get tx.id = none) : WF (p.addTransaction tx) := by
  have hcount := senderTransactionCount_addTransaction p tx
  have hlast : (p.addTransaction tx).lastSenderSubmission
      = (p.addSenderCount tx.senderId p.submissionId).lastSenderSubmission := by
    show (addSenderCount _ _ _).lastSenderSubmission = _
    unfold addSenderCount
    cases p.senderTransactionCount[tx.senderId]? <;> rfl
  have hsub : (p.addTransaction tx).submissionId = p.submissionId + 1 :=
    (addSenderCount_frame _ _ _).2.1
  have hsize : (p.addTransaction tx).sizeOf = p.sizeOf.add tx.size :=
    (addSenderCount_frame _ _ _).2.2
  refine ⟨?_, ?_, ?_, ?_, ?_⟩
  · intro id t ht
    rw [byId_addTransaction, get_insert] at ht
    by_cases hid : tx.id = id
    · rw [if_pos hid] at ht
      rw [← some.inj ht]
      exact hid
    · rw [if_neg hid] at ht
      exact h.key ht
  · rw [hsize, byId_addTransaction, total_insert (get_eq_none.mp hnew), SizeTracker.add_value,
      h.size]
    push_cast
    rfl
  · intro s
    rw [hcount, get_insert, senderCount_addTransaction hnew, h.count tx.senderId]
    by_cases hs : tx.senderId = s
    · subst hs
      by_cases h0 : p.senderCount tx.senderId = 0 <;> simp [h0]
    · rw [if_neg hs, if_neg hs, add_zero, h.count s]
  · intro n s
    rw [hlast, h.lastSenderSubmission_addSenderCount n s, hcount, get_insert]
    by_cases hs : tx.senderId = s
    · subst hs
      simp [eq_comm]
    · simp [hs, Ne.symm hs, h.last]
  · intro s c hc
    rw [hcount, get_insert] at hc
    rw [hsub]
    by_cases hs : tx.senderId = s
    · rw [if_pos hs] at hc
      rw [← some.inj hc]
      exact lt_succ_self _
    · rw [if_neg hs] at hc
      exact lt_succ_of_lt (h.fresh hc)

theorem WF.exists_count (h : WF p) (ht : p.byId[id]? = some t) :
    ∃ c, p.senderTransactionCount[id.sender]? = some c ∧ c.count = p.senderCount id.sender
      ∧ 0 < c.count := by
  have hpos : 0 < p.senderCount id.sender := countKeys_pos.mpr ⟨id, t, ht, by simp⟩
  have hc := h.count id.sender
  rw [if_neg (by omega), map_eq_some_iff] at hc
  obtain ⟨c, hc, heq⟩ := hc
  exact ⟨c, hc, heq, by omega⟩

/-- The pool after a removal, given the removed transaction and the entry of its sender. -/
def without (p : ParkedPool) (id : TransactionId) (t : ParkedPoolTransaction)
    (c : SenderTransactionCount) : ParkedPool :=
  { p with
    byId := p.byId.erase id
    sizeOf := p.sizeOf.sub t.transaction.size
    senderTransactionCount :=
      if c.count - 1 = 0 then p.senderTransactionCount.erase id.sender
      else p.senderTransactionCount.insert id.sender { c with count := c.count - 1 }
    lastSenderSubmission :=
      if c.count - 1 = 0 then p.lastSenderSubmission.erase c.lastSubmissionId
      else p.lastSenderSubmission }

section

variable {p : ParkedPool} {id : TransactionId} {t : ParkedPoolTransaction}
  {c : SenderTransactionCount}

/-- **NO PANIC**: in a sound pool the sender count of a held transaction is found,
    and its last submission is tracked. -/
theorem WF.removeTransaction_eq (h : WF p) (ht : p.byId[id]? = some t)
    (hc : p.senderTransactionCount[id.sender]? = some c) :
    p.removeTransaction id = some (some t.transaction, p.without id t c) := by
  have hsender : t.transaction.senderId = id.sender := by
    rw [← h.key ht]
    rfl
  have htracked : p.lastSenderSubmission.contains c.lastSubmissionId = true := by
    rw [← ExtTreeMap.isSome_getElem?_eq_contains, (h.last _ _).mpr ⟨c, hc, rfl⟩]
    rfl
  unfold removeTransaction without
  simp only [ht, removeSenderCount, hsender, hc]
  by_cases hlast : c.count - 1 = 0
  · simp only [if_pos hlast, htracked]
    rfl
  · simp only [if_neg hlast]
    rfl

theorem get_without (id' : TransactionId) :
    (p.without id t c).get id' = if id = id' then none else p.get id' := by
  show (p.byId.erase id)[id']?.map _ = _
  rw [get_erase, apply_ite (Option.map _)]
  rfl

theorem senderCount_without (ht : p.byId[id]? = some t) (s : SenderId) :
    (p.without id t c).senderCount s + (if id.sender = s then 1 else 0) = p.senderCount s := by
  rw [senderCount, senderCount, ← countKeys_erase (q := fun i => i.sender == s) ht]
  simp only [beq_iff_eq]
  rfl

theorem senderTransactionCount_without_ne (hs : id.sender ≠ s) :
    (p.without id t c).senderTransactionCount[s]? = p.senderTransactionCount[s]? := by
  show (if _ then _ else _ : ExtTreeMap SenderId SenderTransactionCount)[s]? = _
  by_cases hlast : c.count - 1 = 0
  · rw [if_pos hlast, get_erase_ne hs]
  · rw [if_neg hlast, get_insert_ne hs]

/-- The sender keeps its entry as long as it has transactions left. -/
theorem senderTransactionCount_without_self :
    (p.without id t c).senderTransactionCount[id.sender]?
      = if c.count - 1 = 0 then none else some { c with count := c.count - 1 } := by
  show (if _ then _ else _ : ExtTreeMap SenderId SenderTransactionCount)[id.sender]? = _
  by_cases hlast : c.count - 1 = 0
  · rw [if_pos hlast, if_pos hlast, get_erase_self]
  · rw [if_neg hlast, if_neg hlast, get_insert_self]

/-- A submission stays tracked unless it belongs to a sender that leaves. -/
theorem WF.lastSenderSubmission_without (h : WF p)
    (hc : p.senderTransactionCount[id.sender]? = some c) (n : Nat) (s : SenderId) :
    (p.without id t c).lastSenderSubmission[n]? = some s ↔
      ∃ c', (p.without id t c).senderTransactionCount[s]? = some c' ∧ c'.lastSubmissionId = n := by
  have hlast := h.last n s
  by_cases hs : id.sender = s
  · subst hs
    rw [senderTransactionCount_without_self]
    show (if _ then _ else _ : ExtTreeMap Nat SenderId)[n]? = _ ↔ _
    rw [hc] at hlast
    by_cases h0 : c.count - 1 = 0
    · rw [if_pos h0, get_erase]
      by_cases hn : c.lastSubmissionId = n
      · simp [h0, hn]
      · rw [if_neg hn, hlast]
        simp [h0, hn]
    · rw [if_neg h0, hlast]
      simp [h0]
  · rw [senderTransactionCount_without_ne hs, ← hlast]
    show (if _ then _ else _ : ExtTreeMap Nat SenderId)[n]? = _ ↔ _
    by_cases h0 : c.count - 1 = 0
    · rw [if_pos h0, get_erase]
      by_cases hn : c.lastSubmissionId = n
      · -- this submission is tracked for the removed sender, not for `s`
        have : p.lastSenderSubmission[n]? = some id.sender :=
          (h.last n id.sender).mpr ⟨c, hc, hn⟩
        simp [hn, this, hs]
      · rw [if_neg hn]
    · rw [if_neg h0]

theorem WF.without (h : WF p) (ht : p.byId[id]? = some t)
    (hc : p.senderTransactionCount[id.sender]? = some c)
    (hcount : c.count = p.senderCount id.sender) : WF (p.without id t c) := by
  refine ⟨?_, ?_, ?_, h.lastSenderSubmission_without hc, ?_⟩
  · intro id' t' ht'
    have hg : (p.without id t c).get id' = some t'.transaction :=
      get_eq_some.mpr ⟨t', ht', rfl⟩
    rw [get_without] at hg
    by_cases hid : id = id'
    · rw [if_pos hid] at hg
      nomatch hg
    · rw [if_neg hid] at hg
      exact h.get_key hg
  · have := total_erase (f := fun t => t.transaction.size) ht
    show p.sizeOf.value - _ = ((total _ (p.byId.erase id) : Nat) : Int)
    rw [h.size, ← this]
    push_cast
    omega
  · intro s
    have hsc := senderCount_without (c := c) ht s
    by_cases hs : id.sender = s
    · subst hs
      rw [if_pos rfl] at hsc
      rw [senderTransactionCount_without_self]
      by_cases h0 : c.count - 1 = 0
      · rw [if_pos h0, if_pos (by omega)]
        rfl
      · rw [if_neg h0, if_neg (by omega)]
        exact congrArg some (by show c.count - 1 = _; omega)
    · rw [if_neg hs, add_zero] at hsc
      rw [senderTransactionCount_without_ne hs, hsc, h.count s]
  · intro s c' hc'
    show c'.lastSubmissionId < p.submissionId
    by_cases hs : id.sender = s
    · subst hs
      rw [senderTransactionCount_without_self] at hc'
      by_cases h0 : c.count - 1 = 0
      · rw [if_pos h0] at hc'
        nomatch hc'
      · rw [if_neg h0] at hc'
        rw [← some.inj hc']
        exact h.fresh (c := c) hc
    · rw [senderTransactionCount_without_ne hs] at hc'
      exact h.fresh hc'

end

/-- **REMOVAL**: it returns, takes exactly the transaction and keeps the indexes in step. -/
theorem WF.removeTransaction (h : WF p) (id : TransactionId) :
    ∃ p', p.removeTransaction id = some (p.get id, p') ∧ WF p'
      ∧ ∀ id', p'.get id' = if id = id' then none else p.get id' := by
  cases ht : p.byId[id]? with
  | none =>
    have hg : p.get id = none := get_eq_none.mpr ht
    refine ⟨p, by rw [hg, ParkedPool.removeTransaction, ht], h, ?_⟩
    intro id'
    by_cases hid : id = id'
    · rw [if_pos hid, ← hid, hg]
    · rw [if_neg hid]
  | some t =>
    obtain ⟨c, hc, hcount, -⟩ := h.exists_count ht
    refine ⟨p.without id t c, ?_, h.without ht hc hcount, fun id' => get_without id'⟩
    rw [h.removeTransaction_eq ht hc, get_eq_some.mpr ⟨t, ht, rfl⟩]

/-! ## The base fee pass -/

theorem satisfyBaseFeeIds_nodup (p : ParkedPool) (basefee : Nat) :
    (p.satisfyBaseFeeIds basefee).Nodup :=
  (nodup_keys p.byId).sublist ((retain_sublist _ _ p.byId.toList none).1.map Prod.fst)

/-- The base fee is met by a transaction and by all earlier ones of its sender. -/
theorem mem_satisfyBaseFeeIds :
    id ∈ p.satisfyBaseFeeIds basefee ↔
      (p.get id).isSome = true ∧ ∀ id' tx', p.get id' = some tx' → id'.sender = id.sender →
        id'.nonce ≤ id.nonce → basefee ≤ tx'.maxFeePerGas := by
  rw [satisfyBaseFeeIds, List.mem_map]
  constructor
  · rintro ⟨e, he, rfl⟩
    obtain ⟨hb, hall⟩ := TransactionId.mem_retain_sender.mp he
    rw [get_eq_some.mpr ⟨e.2, hb, rfl⟩]
    refine ⟨rfl, fun id' tx' htx' hs hn => ?_⟩
    obtain ⟨t', ht', rfl⟩ := get_eq_some.mp htx'
    exact of_decide_eq_true (hall id' t' ht' hs hn)
  · rintro ⟨hsome, hall⟩
    obtain ⟨tx, htx⟩ := isSome_iff_exists.mp hsome
    obtain ⟨t, ht, rfl⟩ := get_eq_some.mp htx
    refine ⟨(id, t), TransactionId.mem_retain_sender.mpr ⟨ht, fun id' t' ht' hs hn => ?_⟩, rfl⟩
    exact decide_eq_true (hall id' _ (get_eq_some.mpr ⟨t', ht', rfl⟩) hs hn)

/-! ## Truncation -/

theorem WF.dropUntil (limit : SubPoolLimit) (ids : List TransactionId) (h : WF p) :
    ∃ r, dropUntil limit ids p = some r ∧ WF r.2 ∧
      Withdraws (·.id) p.get r.2.get r.1 := by
  induction ids generalizing p with
  | nil => exact ⟨_, rfl, h, .nil fun _ => rfl⟩
  | cons id ids ih =>
    obtain ⟨p', hr, h', hget⟩ := h.removeTransaction id
    have hw : Withdraws (·.id) p.get p'.get (p.get id).toList :=
      .single (fun _ => h.get_key) hget
    simp only [ParkedPool.dropUntil, hr, bind_eq_bind, bind_some]
    by_cases hex : (!p'.exceeds limit) = true
    · exact ⟨_, if_pos hex, h', hw⟩
    · obtain ⟨r, hrs, h'', hw'⟩ := ih h'
      rw [if_neg hex, hrs]
      exact ⟨_, rfl, h'', hw.append hw'⟩

variable {limit : SubPoolLimit}

theorem WF.truncateLoop (fuel : Nat) (h : WF p) :
    truncateLoop limit fuel p removed = some (out, p') → ∃ taken, out = removed ++ taken ∧ WF p' ∧
      Withdraws (·.id) p.get p'.get taken := by
  induction fuel generalizing p p' removed out with
  | zero => intro h; nomatch h
  | succ fuel ih =>
    intro heq
    rw [ParkedPool.truncateLoop] at heq
    split at heq
    · cases heq
      exact ⟨[], by simp, h, .nil fun _ => rfl⟩
    rename_i sender _
    obtain ⟨r, hr, h', hw⟩ := h.dropUntil limit (p.getTxsBySender sender).reverse
    rw [hr] at heq
    split at heq
    · obtain ⟨taken, rfl, h'', hw'⟩ := ih h' heq
      exact ⟨r.1 ++ taken, by rw [List.append_assoc], h'', hw.append hw'⟩
    · cases heq
      exact ⟨[], by simp, h, .nil fun _ => rfl⟩

theorem WF.truncatePool (h : WF p) (heq : truncatePool fuel p limit = some (out, p')) :
    WF p' ∧ Withdraws (·.id) p.get p'.get out := by
  rw [ParkedPool.truncatePool] at heq
  split at heq
  · cases heq
    exact ⟨h, .nil fun _ => rfl⟩
  · obtain ⟨taken, rfl, h', hw⟩ := h.truncateLoop fuel heq
    exact ⟨h', hw⟩

end ParkedPool

end TransactionPool
