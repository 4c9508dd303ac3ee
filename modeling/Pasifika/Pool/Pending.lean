import Pasifika.Pool.State

/-! # The pending sub-pool

`pool/pending.rs`: the transactions that are ready for the next block, with
the lowest (`independentTransactions`) and the highest (`highestNonces`)
transaction of each sender kept on the side, a size tracker, and the
broadcast channel that feeds running iterators.

Debug assertions are not modelled: an insertion never checks whether the id
is already there. Loops whose end depends on the data take a fuel
argument; running out of it is `none`. Submission ids of this and the other
sub-pools are unbounded, where the source has `u64` that wrap. -/

namespace TransactionPool

open Std (ExtTreeMap)
open OrderedMap List Option

/-- `Priority`: `Priority::None` ranks below every `Priority::Value`. -/
abbrev Priority (V : Type) := Option V

/-- `TransactionOrdering`: how transactions are ranked at a base fee. -/
structure TransactionOrdering (V : Type) where
  priority : Transaction → Nat → Priority V

/-- `CoinbaseTipOrdering`: by the tip left at a base fee, none below it. -/
def coinbaseTipOrdering : TransactionOrdering Nat where
  priority tx baseFee :=
    if tx.maxFeePerGas < baseFee then none
    else
      let fee := tx.maxFeePerGas - baseFee
      some (match tx.maxPriorityFeePerGas with
        | some priorityFee => min fee priorityFee
        | none => fee)

/-- A transaction of the pending pool. -/
structure PendingTransaction (V : Type) where
  submissionId : Nat
  transaction : ValidPoolTransaction
  priority : Priority V
deriving DecidableEq

/-- What `PendingTransaction` is compared by. -/
structure PendingOrd (V : Type) where
  priority : Priority V
  submissionId : Nat
deriving DecidableEq

/-! ## The notification channel -/

/-- `tokio::sync::broadcast`: everything sent so far, the number of retained
    messages and the number of subscribed receivers. -/
structure Broadcast (M : Type) where
  capacity : Nat
  receiverCount : Nat
  log : List M

namespace Broadcast

variable {M : Type}

/-- `broadcast::channel`: the capacity is rounded up to a power of two. -/
def channel (capacity : Nat) : Broadcast M := ⟨Nat.nextPowerOfTwo capacity, 0, []⟩

/-- Send if somebody listens. -/
def notify (b : Broadcast M) (msg : M) : Broadcast M :=
  if 0 < b.receiverCount then { b with log := b.log ++ [msg] } else b

/-- `subscribe`: a receiver starts at the tail of the channel. -/
def subscribe (b : Broadcast M) : Nat × Broadcast M :=
  (b.log.length, { b with receiverCount := b.receiverCount + 1 })

end Broadcast

/-! ## The pool -/

structure PendingPool (V : Type) where
  ordering : TransactionOrdering V
  submissionId : Nat
  byId : ExtTreeMap TransactionId (PendingTransaction V)
  highestNonces : ExtTreeMap SenderId (PendingTransaction V)
  independentTransactions : ExtTreeMap SenderId (PendingTransaction V)
  sizeOf : SizeTracker
  newTransactionNotifier : Broadcast (PendingTransaction V)

namespace PendingPool

variable {V : Type}

def withBuffer (ordering : TransactionOrdering V) (bufferCapacity : Nat) : PendingPool V where
  ordering := ordering
  submissionId := 0
  byId := ∅
  highestNonces := ∅
  independentTransactions := ∅
  sizeOf := .zero
  newTransactionNotifier := .channel bufferCapacity

/-- The number of pending transactions. -/
def len (p : PendingPool V) : Nat := p.byId.size

def size (p : PendingPool V) : Nat := p.sizeOf.toUsize

def exceeds (p : PendingPool V) (limit : SubPoolLimit) : Bool := limit.isExceeded p.len p.size

def iterTxsBySender (p : PendingPool V) (sender : SenderId) : List TransactionId :=
  (p.byId.toList.filter (fun e => e.1.sender == sender)).map Prod.fst

/-- `PendingPool::ancestor`: the transaction with the previous nonce. -/
def ancestor (p : PendingPool V) (id : TransactionId) : Option (PendingTransaction V) :=
  id.uncheckedAncestor.bind (fun a => p.byId[a]?)

/-- The entry of the sender moves up to a transaction with a higher nonce. -/
def raise (m : ExtTreeMap SenderId (PendingTransaction V)) (tx : PendingTransaction V) :
    ExtTreeMap SenderId (PendingTransaction V) :=
  match m[tx.transaction.senderId]? with
  | some entry =>
    if entry.transaction.nonce < tx.transaction.nonce then
      m.insert tx.transaction.senderId tx else m
  | none => m.insert tx.transaction.senderId tx

/-- The entry of the sender moves down to a transaction with a lower nonce. -/
def lower (m : ExtTreeMap SenderId (PendingTransaction V)) (tx : PendingTransaction V) :
    ExtTreeMap SenderId (PendingTransaction V) :=
  match m[tx.transaction.senderId]? with
  | some entry =>
    if tx.transaction.nonce < entry.transaction.nonce then
      m.insert tx.transaction.senderId tx else m
  | none => m.insert tx.transaction.senderId tx

/-- `update_independents_and_highest_nonces`, for a transaction being added. -/
def updateIndependentsAndHighestNonces (p : PendingPool V) (tx : PendingTransaction V) :
    PendingPool V :=
  { p with
    highestNonces := raise p.highestNonces tx
    independentTransactions := lower p.independentTransactions tx }

def addTransaction (p : PendingPool V) (tx : ValidPoolTransaction) (baseFee : Nat) :
    PendingPool V :=
  let pending : PendingTransaction V :=
    { submissionId := p.submissionId, transaction := tx,
      priority := p.ordering.priority tx.transaction baseFee }
  let p := { p with sizeOf := p.sizeOf.add tx.size, submissionId := p.submissionId + 1 }
  let p := p.updateIndependentsAndHighestNonces pending
  { p with
    newTransactionNotifier := p.newTransactionNotifier.notify pending
    byId := p.byId.insert tx.id pending }

/-- The independent transaction advances when the lowest one is removed. -/
def advanceIndependent (p : PendingPool V) (id : TransactionId) : PendingPool V :=
  match p.independentTransactions[id.sender]? with
  | some lowest =>
    if lowest.transaction.nonce = id.nonce then
      let independent := p.independentTransactions.erase id.sender
      match p.byId[id.descendant]? with
      | some unlocked =>
        { p with independentTransactions := independent.insert id.sender unlocked }
      | none => { p with independentTransactions := independent }
    else p
  | none => p

/-- The highest entry after `id` left: dropped if it was `id`, and replaced by the ancestor if there
    is one. -/
def lowerHighest (p : PendingPool V) (id : TransactionId) : PendingPool V :=
  match p.highestNonces[id.sender]? with
  | some highest =>
    let kept :=
      if highest.transaction.nonce = id.nonce then p.highestNonces.erase id.sender
      else p.highestNonces
    match p.ancestor id with
    | some ancestor => { p with highestNonces := kept.insert id.sender ancestor }
    | none => { p with highestNonces := kept }
  | none => p

def removeTransaction (p : PendingPool V) (id : TransactionId) :
    Option ValidPoolTransaction × PendingPool V :=
  let p := p.advanceIndependent id
  match p.byId[id]? with
  | none => (none, p)
  | some tx =>
    let p := { p with byId := p.byId.erase id, sizeOf := p.sizeOf.sub tx.transaction.size }
    (some tx.transaction, p.lowerHighest id)

/-! ### Fee passes -/

def clearTransactions (p : PendingPool V) : PendingPool V :=
  { p with
    byId := ∅, highestNonces := ∅, independentTransactions := ∅, sizeOf := .zero }

/-- Put a transaction back that a fee pass keeps. -/
def reinsert (p : PendingPool V) (e : TransactionId × PendingTransaction V) : PendingPool V :=
  let p := { p with sizeOf := p.sizeOf.add e.2.transaction.size }
  let p := p.updateIndependentsAndHighestNonces e.2
  { p with byId := p.byId.insert e.1 e.2 }

/-- Rebuild the pool from what passes `keep`; a failing one takes all later ones of its sender with
    it. -/
def recheck (p : PendingPool V) (keep : PendingTransaction V → Bool)
    (reprice : PendingTransaction V → PendingTransaction V) :
    List ValidPoolTransaction × PendingPool V :=
  let r := retain (fun e : TransactionId × PendingTransaction V => e.1.sender)
    (fun e => keep e.2) none p.byId.toList
  (r.2.map (fun e => e.2.transaction),
    (r.1.map (fun e => (e.1, reprice e.2))).foldl reinsert p.clearTransactions)

def updateBlobFee (p : PendingPool V) (blobFee : Nat) :
    List ValidPoolTransaction × PendingPool V :=
  p.recheck
    (fun tx => !(tx.transaction.isEip4844 &&
      -- `Option`'s order: a missing cap is below every fee
      tx.transaction.maxFeePerBlobGas.all (· < blobFee)))
    (fun tx => tx)

/-- `PendingPool::update_base_fee`: the kept transactions get a new priority. -/
def updateBaseFee (p : PendingPool V) (baseFee : Nat) :
    List ValidPoolTransaction × PendingPool V :=
  p.recheck (fun tx => baseFee ≤ tx.transaction.maxFeePerGas)
    (fun tx => { tx with
      priority := p.ordering.priority tx.transaction.transaction baseFee })

/-! ### What keeps the pending pool sound -/

/-- The transaction held under an id. -/
def get (p : PendingPool V) (id : TransactionId) : Option ValidPoolTransaction :=
  p.byId[id]?.map (fun t => t.transaction)

/-- Transactions sit under their ids, the size is tracked, and the highest entries
    are transactions of the pool. -/
structure WF (p : PendingPool V) : Prop where
  key : ∀ {id : TransactionId} {t : PendingTransaction V},
    p.byId[id]? = some t → t.transaction.id = id
  size : p.sizeOf.value = total (fun t => t.transaction.size) p.byId
  highest : ∀ {s : SenderId} {t : PendingTransaction V},
    p.highestNonces[s]? = some t → t.transaction.senderId = s ∧ p.byId[t.transaction.id]? = some t

theorem wf_withBuffer (ordering : TransactionOrdering V) (bufferCapacity : Nat) :
    WF (withBuffer ordering bufferCapacity) where
  key := fun h => by simp [withBuffer] at h
  size := by simp [withBuffer]
  highest := fun h => by simp [withBuffer] at h

variable {tx : ValidPoolTransaction} {id : TransactionId} {p : PendingPool V}
variable {t : PendingTransaction V}

theorem get_eq_some : p.get id = some tx ↔ ∃ t, p.byId[id]? = some t ∧ t.transaction = tx := by
  rw [get, map_eq_some_iff]

theorem get_eq_none : p.get id = none ↔ p.byId[id]? = none := by
  rw [get, map_eq_none_iff]

theorem WF.get_key (h : WF p) (hg : p.get id = some tx) : tx.id = id := by
  obtain ⟨t, ht, rfl⟩ := get_eq_some.mp hg
  exact h.key ht

theorem get_raise {m : ExtTreeMap SenderId (PendingTransaction V)} {tx t : PendingTransaction V}
    {s : SenderId} (h : (raise m tx)[s]? = some t) :
    t = tx ∧ s = tx.transaction.senderId ∨ m[s]? = some t := by
  have hinsert : (m.insert tx.transaction.senderId tx)[s]? = some t →
      t = tx ∧ s = tx.transaction.senderId ∨ m[s]? = some t := by
    intro h
    rw [get_insert] at h
    by_cases hs : tx.transaction.senderId = s
    · rw [if_pos hs] at h
      exact .inl ⟨(some.inj h).symm, hs.symm⟩
    · rw [if_neg hs] at h
      exact .inr h
  rw [raise] at h
  split at h
  · split at h
    · exact hinsert h
    · exact .inr h
  · exact hinsert h

theorem WF.insert {p p' : PendingPool V} (h : WF p) (hnew : p.byId[t.transaction.id]? = none)
    (hbyId : p'.byId = p.byId.insert t.transaction.id t)
    (hsize : p'.sizeOf = p.sizeOf.add t.transaction.size)
    (hhighest : p'.highestNonces = raise p.highestNonces t) : WF p' := by
  refine ⟨?_, ?_, ?_⟩
  · intro id t' ht'
    rw [hbyId, get_insert] at ht'
    by_cases hid : t.transaction.id = id
    · rw [if_pos hid] at ht'
      rw [← some.inj ht']
      exact hid
    · rw [if_neg hid] at ht'
      exact h.key ht'
  · rw [hsize, hbyId, total_insert hnew, SizeTracker.add_value, h.size]
    push_cast
    rfl
  · intro s t' ht'
    rw [hhighest] at ht'
    rw [hbyId]
    rcases get_raise ht' with ⟨rfl, rfl⟩ | hold
    · exact ⟨rfl, get_insert_self _ _ _⟩
    · obtain ⟨hs, hb⟩ := h.highest hold
      refine ⟨hs, ?_⟩
      rw [get_insert_ne, hb]
      intro heq
      rw [heq, hb] at hnew
      nomatch hnew

theorem get_addTransaction (p : PendingPool V) (tx : ValidPoolTransaction) (baseFee : Nat)
    (id : TransactionId) :
    (p.addTransaction tx baseFee).get id = if tx.id = id then some tx else p.get id := by
  show (p.byId.insert tx.id _)[id]?.map _ = _
  rw [get_insert, apply_ite (Option.map _)]
  rfl

theorem WF.addTransaction (h : WF p) (hnew : p.get tx.id = none) (baseFee : Nat) :
    WF (p.addTransaction tx baseFee) :=
  h.insert (t := ⟨p.submissionId, tx, p.ordering.priority tx.transaction baseFee⟩)
    (get_eq_none.mp hnew) rfl rfl rfl

theorem advanceIndependent_frame (p : PendingPool V) (id : TransactionId) :
    (p.advanceIndependent id).byId = p.byId ∧ (p.advanceIndependent id).sizeOf = p.sizeOf
      ∧ (p.advanceIndependent id).highestNonces = p.highestNonces := by
  unfold advanceIndependent
  split
  · split
    · dsimp only
      split <;> exact ⟨rfl, rfl, rfl⟩
    · exact ⟨rfl, rfl, rfl⟩
  · exact ⟨rfl, rfl, rfl⟩

theorem lowerHighest_frame (p : PendingPool V) (id : TransactionId) :
    (p.lowerHighest id).byId = p.byId ∧ (p.lowerHighest id).sizeOf = p.sizeOf := by
  unfold lowerHighest
  split
  · dsimp only
    split <;> exact ⟨rfl, rfl⟩
  · exact ⟨rfl, rfl⟩

theorem highestNonces_lowerHighest (p : PendingPool V) (id : TransactionId) (s : SenderId) :
    (p.lowerHighest id).highestNonces[s]?
      = if id.sender = s then
          p.highestNonces[s]?.bind (fun highest =>
            (p.ancestor id).or (if highest.transaction.nonce = id.nonce then none else some highest))
        else p.highestNonces[s]? := by
  rw [lowerHighest]
  by_cases hs : id.sender = s
  · subst hs
    rw [if_pos rfl]
    cases hh : p.highestNonces[id.sender]? with
    | none => exact hh
    | some highest =>
      cases p.ancestor id with
      | some ancestor => exact get_insert_self _ _ _
      | none =>
        by_cases hn : highest.transaction.nonce = id.nonce
        · simp only [if_pos hn, get_erase_self, bind_some, none_or]
        · simp only [if_neg hn, hh, bind_some, none_or]
  · rw [if_neg hs]
    cases p.highestNonces[id.sender]? with
    | none => rfl
    | some highest =>
      have hkept : (if highest.transaction.nonce = id.nonce then p.highestNonces.erase id.sender
          else p.highestNonces)[s]? = p.highestNonces[s]? := by
        split
        · exact get_erase_ne hs
        · rfl
      cases p.ancestor id with
      | some ancestor => exact (get_insert_ne hs).trans hkept
      | none => exact hkept

theorem removeTransaction_of_none (ht : p.byId[id]? = none) :
    p.removeTransaction id = (none, p.advanceIndependent id) := by
  simp only [removeTransaction, (p.advanceIndependent_frame id).1, ht]

theorem removeTransaction_of_some (ht : p.byId[id]? = some t) :
    p.removeTransaction id = (some t.transaction,
      { p.advanceIndependent id with
        byId := p.byId.erase id, sizeOf := p.sizeOf.sub t.transaction.size }.lowerHighest id) := by
  simp only [removeTransaction, (p.advanceIndependent_frame id).1,
    (p.advanceIndependent_frame id).2.1, ht]

/-- The entries that a removal leaves are still in the pool. -/
theorem WF.highest_erase {p q : PendingPool V} (h : WF p) {s : SenderId}
    (ht : (q.lowerHighest id).highestNonces[s]? = some t) (hbyId : q.byId = p.byId.erase id)
    (hhighest : q.highestNonces = p.highestNonces) :
    t.transaction.senderId = s ∧ (p.byId.erase id)[t.transaction.id]? = some t := by
  -- an old entry under another id
  have hold : p.highestNonces[s]? = some t → t.transaction.id ≠ id →
      t.transaction.senderId = s ∧ (p.byId.erase id)[t.transaction.id]? = some t := by
    intro hget hne
    obtain ⟨hs, hb⟩ := h.highest hget
    exact ⟨hs, by rw [get_erase_ne (Ne.symm hne), hb]⟩
  rw [highestNonces_lowerHighest, hhighest] at ht
  by_cases hs : id.sender = s
  · rw [if_pos hs] at ht
    obtain ⟨highest, hh, ht⟩ := bind_eq_some_iff.mp ht
    rcases or_eq_some_iff.mp ht with hanc | ⟨-, hkeep⟩
    · -- the ancestor
      obtain ⟨a, ha, hget⟩ := bind_eq_some_iff.mp hanc
      rw [hbyId] at hget
      have hget' := hget
      rw [get_erase] at hget'
      have hne : id ≠ a := fun heq => by
        rw [if_pos heq] at hget'
        nomatch hget'
      rw [if_neg hne] at hget'
      have hkey := h.key hget'
      refine ⟨?_, by rw [hkey, hget]⟩
      rw [← hs]
      show t.transaction.id.sender = id.sender
      rw [hkey]
      exact (TransactionId.uncheckedAncestor_eq_some.mp ha).1
    · by_cases hn : highest.transaction.nonce = id.nonce
      · rw [if_pos hn] at hkeep
        nomatch hkeep
      · rw [if_neg hn] at hkeep
        obtain rfl := some.inj hkeep
        refine hold hh fun heq => hn ?_
        rw [highest.transaction.nonce_eq, heq]
  · rw [if_neg hs] at ht
    refine hold ht fun heq => hs ?_
    rw [← heq]
    exact (h.highest ht).1

/-- **REMOVAL**: it takes exactly the transaction. -/
theorem WF.removeTransaction (h : WF p) (id : TransactionId) :
    (p.removeTransaction id).1 = p.get id ∧ WF (p.removeTransaction id).2
      ∧ ∀ id', (p.removeTransaction id).2.get id' = if id = id' then none else p.get id' := by
  cases ht : p.byId[id]? with
  | none =>
    obtain ⟨hbyId, hsize, hhighest⟩ := p.advanceIndependent_frame id
    have hg : p.get id = none := get_eq_none.mpr ht
    rw [removeTransaction_of_none ht]
    refine ⟨hg.symm, ⟨?_, ?_, ?_⟩, fun id' => ?_⟩
    · intro id' t' ht'
      rw [hbyId] at ht'
      exact h.key ht'
    · rw [hsize, hbyId, h.size]
    · intro s t' ht'
      rw [hhighest] at ht'
      rw [hbyId]
      exact h.highest ht'
    · rw [get, hbyId]
      by_cases hid : id = id'
      · rw [if_pos hid, ← hid, ht]
        rfl
      · rw [if_neg hid]
        rfl
  | some t =>
    rw [removeTransaction_of_some ht]
    refine ⟨(get_eq_some.mpr ⟨t, ht, rfl⟩).symm, ⟨?_, ?_, ?_⟩, ?_⟩
    · intro id' t' ht'
      rw [(lowerHighest_frame _ id).1, get_erase] at ht'
      by_cases hid : id = id'
      · rw [if_pos hid] at ht'
        nomatch ht'
      · rw [if_neg hid] at ht'
        exact h.key ht'
    · have := total_erase (f := fun t => t.transaction.size) ht
      rw [(lowerHighest_frame _ id).1, (lowerHighest_frame _ id).2, SizeTracker.sub_value,
        h.size, ← this]
      push_cast
      omega
    · intro s t' ht'
      rw [(lowerHighest_frame _ id).1]
      exact h.highest_erase ht' rfl (p.advanceIndependent_frame id).2.2
    · intro id'
      rw [get, (lowerHighest_frame _ id).1, get_erase, apply_ite (Option.map _)]
      rfl

/-! ### The fee passes take whole tails of senders -/

theorem byId_foldl_reinsert :
    ∀ (l : List (TransactionId × PendingTransaction V)) (p : PendingPool V),
      (l.foldl reinsert p).byId = l.foldl (fun m e => m.insert e.1 e.2) p.byId := by
  intro l
  induction l with
  | nil => intro p; rfl
  | cons e l ih => intro p; exact ih _

theorem WF.foldl_reinsert (l : List (TransactionId × PendingTransaction V)) (h : WF p)
    (hnd : (l.map Prod.fst).Nodup) (hl : ∀ e ∈ l, e.2.transaction.id = e.1 ∧ p.byId[e.1]? = none) :
    WF (l.foldl reinsert p) := by
  induction l generalizing p with
  | nil => exact h
  | cons e l ih =>
    obtain ⟨hid, hnd'⟩ := nodup_cons.mp hnd
    obtain ⟨hkey, hfree⟩ := hl e (by simp)
    refine ih (p := p.reinsert e) ?_ hnd' ?_
    · exact h.insert (t := e.2) (hkey ▸ hfree) (by rw [hkey]; rfl) rfl rfl
    · intro e' he'
      have hne : e.1 ≠ e'.1 := fun heq => hid (heq ▸ mem_map_of_mem he')
      refine ⟨(hl e' (mem_cons_of_mem _ he')).1, ?_⟩
      show (p.byId.insert e.1 e.2)[e'.1]? = none
      rw [get_insert_ne hne]
      exact (hl e' (mem_cons_of_mem _ he')).2

section

variable {p : PendingPool V} {keep : PendingTransaction V → Bool}
  {reprice : PendingTransaction V → PendingTransaction V}

/-- **FEE PASS**: the pool is rebuilt from what it does not give up. -/
theorem WF.recheck (h : WF p) (hreprice : ∀ t, (reprice t).transaction = t.transaction) :
    WF (p.recheck keep reprice).2
      ∧ Withdraws (·.id) p.get (p.recheck keep reprice).2.get
          (p.recheck keep reprice).1 := by
  unfold PendingPool.recheck
  generalize hr : retain (fun e : TransactionId × PendingTransaction V => e.1.sender)
    (keep ·.2) none p.byId.toList = r
  have hsub := retain_sublist (fun e : TransactionId × PendingTransaction V => e.1.sender)
    (keep ·.2) p.byId.toList none
  have hperm := retain_perm (fun e : TransactionId × PendingTransaction V => e.1.sender)
    (keep ·.2) p.byId.toList none
  rw [hr] at hsub hperm
  -- the rebuilt entries: the kept keys with repriced values
  have hkeys : (r.1.map fun e => (e.1, reprice e.2)).map Prod.fst = r.1.map Prod.fst := by
    rw [List.map_map]
    rfl
  have hnd : (r.1.map Prod.fst).Nodup := (nodup_keys p.byId).sublist (hsub.1.map Prod.fst)
  have hbound : ∀ e, e ∈ r.1 ∨ e ∈ r.2 ↔ p.byId[e.1]? = some e.2 := by
    intro e
    rw [← mem_append, hperm.mem_iff]
    exact mem_toList
  have hremoved : (r.2.map (·.2.transaction)).map (·.id)
      = r.2.map Prod.fst := by
    rw [List.map_map]
    refine map_congr_left fun e he => ?_
    exact h.key ((hbound e).mp (Or.inr he))
  refine ⟨?_, ?_, ?_, ?_⟩
  · have hclear : WF p.clearTransactions := ⟨fun h => by simp [clearTransactions] at h,
      by simp [clearTransactions], fun h => by simp [clearTransactions] at h⟩
    refine hclear.foldl_reinsert _ (hkeys ▸ hnd) ?_
    intro e he
    obtain ⟨e0, he0, rfl⟩ := mem_map.mp he
    refine ⟨?_, by simp [clearTransactions]⟩
    rw [hreprice, h.key ((hbound e0).mp (Or.inl he0))]
  · intro tx htx
    obtain ⟨e, he, rfl⟩ := mem_map.mp htx
    have hb := (hbound e).mp (Or.inr he)
    rw [h.key hb]
    exact get_eq_some.mpr ⟨e.2, hb, rfl⟩
  · rw [hremoved]
    exact (nodup_keys p.byId).sublist (hsub.2.map Prod.fst)
  intro id
  rw [hremoved]
  -- no key is both kept and given up
  have hdisj : ∀ e ∈ r.1, e.1 ∉ r.2.map Prod.fst := by
    have hall : ((r.1 ++ r.2).map Prod.fst).Nodup :=
      (hperm.map Prod.fst).nodup_iff.mpr (nodup_keys p.byId)
    rw [map_append] at hall
    intro e he hmem
    exact disjoint_of_nodup_append hall (mem_map_of_mem he) hmem
  refine ext fun tx => ?_
  rw [get_eq_some, byId_foldl_reinsert]
  constructor
  · rintro ⟨t, ht, rfl⟩
    rcases (get_foldl_insert _ _ (hkeys ▸ hnd) t).mp ht with hmem | ⟨-, hempty⟩
    · obtain ⟨e, he, heq⟩ := mem_map.mp hmem
      obtain ⟨rfl, rfl⟩ := Prod.mk.inj heq
      rw [if_neg (hdisj e he), hreprice]
      exact get_eq_some.mpr ⟨e.2, (hbound e).mp (Or.inl he), rfl⟩
    · exact absurd hempty (by simp [clearTransactions])
  · intro hg
    by_cases hmem : id ∈ r.2.map Prod.fst
    · rw [if_pos hmem] at hg
      nomatch hg
    rw [if_neg hmem] at hg
    obtain ⟨t, ht, rfl⟩ := get_eq_some.mp hg
    have hin : (id, t) ∈ r.1 := by
      rcases (hbound (id, t)).mpr ht with h1 | h1
      · exact h1
      · exact absurd (mem_map_of_mem (f := Prod.fst) h1) hmem
    refine ⟨reprice t, (get_foldl_insert _ _ (hkeys ▸ hnd) _).mpr (Or.inl ?_), hreprice t⟩
    exact mem_map.mpr ⟨(id, t), hin, rfl⟩

/-- What a fee pass gives up: each transaction at or after a failing one of the same sender. -/
theorem WF.mem_recheck (h : WF p) :
    id ∈ (p.recheck keep reprice).1.map (·.id) ↔
      (p.get id).isSome = true ∧ ∃ (id' : TransactionId) (t' : PendingTransaction V),
        p.byId[id']? = some t' ∧ id'.sender = id.sender ∧ id'.nonce ≤ id.nonce
          ∧ keep t' = false := by
  have hkey : ∀ e : TransactionId × PendingTransaction V, p.byId[e.1]? = some e.2 →
      e.2.transaction.id = e.1 := fun e he => h.key he
  simp only [PendingPool.recheck, List.map_map, List.mem_map]
  constructor
  · rintro ⟨e, he, rfl⟩
    obtain ⟨hb, hex⟩ := TransactionId.mem_retain_sender_snd.mp he
    rw [Function.comp_apply, hkey e hb, get_eq_some.mpr ⟨e.2, hb, rfl⟩]
    exact ⟨rfl, hex⟩
  · rintro ⟨hsome, hex⟩
    obtain ⟨tx, htx⟩ := isSome_iff_exists.mp hsome
    obtain ⟨t, ht, rfl⟩ := get_eq_some.mp htx
    exact ⟨(id, t), TransactionId.mem_retain_sender_snd.mpr ⟨ht, hex⟩, hkey (id, t) ht⟩

end

theorem WF.updateBaseFee (h : WF p) (baseFee : Nat) :
    WF (p.updateBaseFee baseFee).2
      ∧ Withdraws (·.id) p.get (p.updateBaseFee baseFee).2.get (p.updateBaseFee baseFee).1 :=
  h.recheck fun _ => rfl

theorem WF.updateBlobFee (h : WF p) (blobFee : Nat) :
    WF (p.updateBlobFee blobFee).2
      ∧ Withdraws (·.id) p.get (p.updateBlobFee blobFee).2.get (p.updateBlobFee blobFee).1 :=
  h.recheck fun _ => rfl

/-- `update_base_fee` gives up the tails of senders from the first transaction
    below the base fee on. -/
theorem WF.mem_updateBaseFee (h : WF p) :
    id ∈ (p.updateBaseFee baseFee).1.map (·.id) ↔
      (p.get id).isSome = true ∧ ∃ id' tx', p.get id' = some tx' ∧ id'.sender = id.sender
        ∧ id'.nonce ≤ id.nonce ∧ tx'.maxFeePerGas < baseFee := by
  rw [PendingPool.updateBaseFee, h.mem_recheck]
  refine and_congr_right fun _ => exists_congr fun id' => ?_
  constructor
  · rintro ⟨t', ht', hs, hn, hk⟩
    rw [decide_eq_false_iff_not, not_le] at hk
    exact ⟨_, get_eq_some.mpr ⟨t', ht', rfl⟩, hs, hn, hk⟩
  · rintro ⟨tx', htx', hs, hn, hk⟩
    obtain ⟨t', ht', rfl⟩ := get_eq_some.mp htx'
    exact ⟨t', ht', hs, hn, by rw [decide_eq_false_iff_not, not_le]; exact hk⟩

/-- `update_blob_fee`, by the blob fee caps. -/
theorem WF.mem_updateBlobFee (h : WF p) :
    id ∈ (p.updateBlobFee blobFee).1.map (·.id) ↔
      (p.get id).isSome = true ∧ ∃ id' tx', p.get id' = some tx' ∧ id'.sender = id.sender
        ∧ id'.nonce ≤ id.nonce ∧ tx'.isEip4844 = true ∧ tx'.coversBlobFee blobFee = false := by
  rw [PendingPool.updateBlobFee, h.mem_recheck]
  refine and_congr_right fun _ => exists_congr fun id' => ?_
  have hk : ∀ tx : ValidPoolTransaction,
      (!(tx.isEip4844 && tx.maxFeePerBlobGas.all (· < blobFee))) = false ↔
        tx.isEip4844 = true ∧ tx.coversBlobFee blobFee = false := by
    intro tx
    simp [ValidPoolTransaction.coversBlobFee]
  constructor
  · rintro ⟨t', ht', hs, hn, hkeep⟩
    exact ⟨_, get_eq_some.mpr ⟨t', ht', rfl⟩, hs, hn, (hk _).mp hkeep⟩
  · rintro ⟨tx', htx', hs, hn, hkeep⟩
    obtain ⟨t', ht', rfl⟩ := get_eq_some.mp htx'
    exact ⟨t', ht', hs, hn, (hk _).mpr hkeep⟩

end PendingPool

/-! ## Truncation -/

variable {V : Type} [LinearOrder V]

/-- `Ord for PendingTransaction`: by priority, the later submission below. -/
instance : Ord (PendingOrd V) :=
  ⟨fun a b => (compare a.priority b.priority).then (compare b.submissionId a.submissionId)⟩

/-- The key a pending transaction is sorted by. -/
def PendingTransaction.ord (t : PendingTransaction V) : PendingOrd V :=
  ⟨t.priority, t.submissionId⟩

namespace PendingPool

/-- The counters of `remove_to_limit` that its inner loop moves. -/
structure Scan where
  nonLocalSenders : Nat
  localSenders : List SenderId
  totalRemoved : Nat
  totalSize : Nat
  removed : List TransactionId

/-- The inner loop of `remove_to_limit` over the highest transactions, worst
    first. The flag is set when it returns early. -/
def scanWorst (limit : SubPoolLimit) (removeLocals : Bool) (originalLength originalSize : Nat) :
    List (PendingTransaction V) → Scan → Bool × Scan
  | [], st => (false, st)
  | tx :: rest, st =>
    if !limit.isExceeded (originalLength - st.totalRemoved) (originalSize - st.totalSize) ||
        st.nonLocalSenders == 0 then (true, st)
    else if !removeLocals && tx.transaction.isLocal then
      let st :=
        if st.localSenders.contains tx.transaction.senderId then st
        else { st with
          localSenders := tx.transaction.senderId :: st.localSenders
          nonLocalSenders := st.nonLocalSenders - 1 }
      scanWorst limit removeLocals originalLength originalSize rest st
    else
      scanWorst limit removeLocals originalLength originalSize rest
        { st with
          totalSize := st.totalSize + tx.transaction.size
          totalRemoved := st.totalRemoved + 1
          removed := st.removed ++ [tx.transaction.id] }

/-- Remove the listed transactions, returning those that were there. -/
def removeAll (p : PendingPool V) : List TransactionId → List ValidPoolTransaction × PendingPool V
  | [] => ([], p)
  | id :: ids =>
    let r := p.removeTransaction id
    let rs := r.2.removeAll ids
    (r.1.toList ++ rs.1, rs.2)

/-- The highest transactions, worst first. -/
def worstTransactions (p : PendingPool V) : List (PendingTransaction V) :=
  (p.highestNonces.toList.map Prod.snd).insertionSort
    (fun a b => (compare a.ord b.ord).isLE = true)

/-- The loop of `remove_to_limit`. -/
def removeToLimitLoop (limit : SubPoolLimit) (removeLocals : Bool)
    (originalLength originalSize : Nat) :
    Nat → PendingPool V → Nat → Scan → List ValidPoolTransaction →
      Option (List ValidPoolTransaction × PendingPool V)
  | 0, _, _, _, _ => none
  | fuel + 1, p, uniqueSenders, st, endRemoved =>
    let uniqueRemoved := uniqueSenders - p.highestNonces.size
    let st := { st with nonLocalSenders := st.nonLocalSenders - uniqueRemoved, removed := [] }
    let scan := scanWorst limit removeLocals originalLength originalSize p.worstTransactions st
    let r := p.removeAll scan.2.removed
    let endRemoved := endRemoved ++ r.1
    if scan.1 then some (endRemoved, r.2)
    else if !r.2.exceeds limit || scan.2.nonLocalSenders == 0 then some (endRemoved, r.2)
    else
      removeToLimitLoop limit removeLocals originalLength originalSize fuel r.2
        p.highestNonces.size scan.2 endRemoved

def removeToLimit (fuel : Nat) (p : PendingPool V) (limit : SubPoolLimit) (removeLocals : Bool)
    (endRemoved : List ValidPoolTransaction) :
    Option (List ValidPoolTransaction × PendingPool V) :=
  removeToLimitLoop limit removeLocals p.len p.size fuel p p.highestNonces.size
    { nonLocalSenders := p.highestNonces.size, localSenders := [], totalRemoved := 0,
      totalSize := 0, removed := [] } endRemoved

/-- `PendingPool::truncate_pool`: first without the local transactions. -/
def truncatePool (fuel : Nat) (p : PendingPool V) (limit : SubPoolLimit) :
    Option (List ValidPoolTransaction × PendingPool V) :=
  if !p.exceeds limit then some ([], p)
  else do
    let r ← p.removeToLimit fuel limit false []
    if !r.2.exceeds limit then some r
    else r.2.removeToLimit fuel limit true r.1

omit [LinearOrder V] in
theorem WF.removeAll (ids : List TransactionId) (h : WF p) :
    WF (p.removeAll ids).2 ∧ Withdraws (·.id) p.get (p.removeAll ids).2.get
      (p.removeAll ids).1 := by
  induction ids generalizing p with
  | nil => exact ⟨h, .nil fun _ => rfl⟩
  | cons id ids ih =>
    obtain ⟨hr, h', hget⟩ := h.removeTransaction id
    have hw := Withdraws.single (fun _ => h.get_key) hget
    rw [← hr] at hw
    exact ⟨(ih h').1, hw.append (ih h').2⟩

variable {limit : SubPoolLimit}

theorem WF.removeToLimitLoop {removeLocals : Bool}
    {originalLength originalSize : Nat} (fuel : Nat) {p p' : PendingPool V} {uniqueSenders : Nat}
    {st : Scan} {endRemoved out : List ValidPoolTransaction} (h : WF p) :
    removeToLimitLoop limit removeLocals originalLength originalSize fuel p uniqueSenders st
      endRemoved = some (out, p') → ∃ taken, out = endRemoved ++ taken ∧ WF p' ∧
      Withdraws (·.id) p.get p'.get taken := by
  induction fuel generalizing p p' uniqueSenders st endRemoved out with
  | zero => intro h; nomatch h
  | succ fuel ih =>
    intro heq
    rw [PendingPool.removeToLimitLoop] at heq
    generalize scanWorst _ _ _ _ _ _ = scan at heq
    obtain ⟨h', hw⟩ := h.removeAll scan.2.removed
    split at heq
    · cases heq
      exact ⟨_, rfl, h', hw⟩
    · split at heq
      · cases heq
        exact ⟨_, rfl, h', hw⟩
      · obtain ⟨taken, rfl, h'', hw'⟩ := ih h' heq
        exact ⟨_, append_assoc _ _ _, h'', hw.append hw'⟩

theorem WF.truncatePool {fuel : Nat} {p p' : PendingPool V}
    {out : List ValidPoolTransaction} (h : WF p)
    (heq : truncatePool fuel p limit = some (out, p')) :
    WF p' ∧ Withdraws (·.id) p.get p'.get out := by
  rw [PendingPool.truncatePool] at heq
  split at heq
  · cases heq
    exact ⟨h, .nil fun _ => rfl⟩
  obtain ⟨r, hr, heq⟩ := bind_eq_some_iff.mp heq
  obtain ⟨taken, htaken, h', hw⟩ := h.removeToLimitLoop fuel hr
  rw [nil_append] at htaken
  rw [← htaken] at hw
  split at heq
  · cases heq
    exact ⟨h', hw⟩
  · obtain ⟨taken', rfl, h'', hw'⟩ := h'.removeToLimitLoop fuel heq
    exact ⟨h'', hw.append hw'⟩

end PendingPool

end TransactionPool
