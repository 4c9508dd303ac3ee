import Pasifika.Pool.Routing

/-! # The recheck of `insert_tx`, entry by entry

Once the new transaction is in `txs`, `insert_tx` walks through its sender
from the on-chain nonce and rechecks each entry until the first gap.
`insertSweep_at` gives the visit of each entry, `insertCursor_succ` where its
cursor comes from, and `insertCursor_at` says which entries are rechecked:
those with everything down to the on-chain nonce in the pool. -/

namespace TransactionPool

open Std (ExtTreeMap)
open OrderedMap List

namespace AllTransactions

/-- The loop is still running and expects the nonce `n`. -/
def InsertCursor.At (c : InsertCursor) (n : Nat) : Prop := c.stopped = false ∧ c.nextNonce = n

/-- A rechecked entry. -/
def rechecked (onChainBalance : U256) (c : InsertCursor) (t : PoolInternalTransaction) :
    PoolInternalTransaction :=
  let state := { t.state with
    noNonceGaps := true
    noParkedAncestors := !c.hasParkedAncestor
    enoughBalance := decide (c.cumulativeCost + t.transaction.cost ≤ onChainBalance) }
  { t with state, subpool := state.subPool, cumulativeCost := c.cumulativeCost }

section

variable {balance : U256} {insertedTxId id : TransactionId} {c : InsertCursor}
  {t : PoolInternalTransaction}

theorem InsertCursor.not_at_iff : ¬ c.At n ↔ c.stopped = true ∨ c.nextNonce ≠ n := by
  rw [InsertCursor.At, not_and_or, Bool.not_eq_false]

/-- What a rechecked entry leaves to the next one. -/
structure Rechecks (onChainBalance : U256) (c : InsertCursor) (id : TransactionId)
    (t : PoolInternalTransaction) (c' : InsertCursor) (t' : PoolInternalTransaction) : Prop where
  entry : t' = rechecked onChainBalance c t
  next : c'.At (id.nonce + 1)
  parked : c'.hasParkedAncestor = !(rechecked onChainBalance c t).state.isPending
  cost : c'.cumulativeCost = c.cumulativeCost + t.transaction.cost

theorem insertVisit_of_at (h : c.At id.nonce) :
    Rechecks balance c id t (insertVisit balance insertedTxId c id t).1
      (insertVisit balance insertedTxId c id t).2.1 := by
  have hgo : ¬ (c.stopped = true ∨ c.nextNonce ≠ id.nonce) := fun hno =>
    InsertCursor.not_at_iff.mpr hno h
  simp only [insertVisit, if_neg hgo]
  exact ⟨rfl, ⟨rfl, rfl⟩, rfl, rfl⟩

/-- After the first gap nothing is written. -/
theorem insertVisit_of_not_at (h : ¬ c.At id.nonce) :
    (insertVisit balance insertedTxId c id t).1.stopped = true
      ∧ (insertVisit balance insertedTxId c id t).2.1 = t := by
  simp only [insertVisit, if_pos (InsertCursor.not_at_iff.mp h), and_self]

/-- A cursor that is still running comes from a rechecked entry. -/
theorem at_of_insertVisit (h : (insertVisit balance insertedTxId c id t).1.At n) :
    c.At id.nonce ∧ n = id.nonce + 1 := by
  by_cases hat : c.At id.nonce
  · exact ⟨hat, h.2.symm.trans (insertVisit_of_at hat).next.2⟩
  · have hrun := h.1
    rw [(insertVisit_of_not_at hat).1] at hrun
    nomatch hrun

end

/-! ## The loop -/

variable {a : AllTransactions} {tx : ValidPoolTransaction} {balance : U256}
  {nonce : Nat} {id : TransactionId} {t t0 : PoolInternalTransaction}

/-- The cursor the loop starts with. -/
def insertStart (a : AllTransactions) (tx : ValidPoolTransaction) (onChainNonce : Nat) :
    InsertCursor :=
  ⟨false, onChainNonce, false, 0, (a.poolTx tx onChainNonce).state⟩

/-- The cursor an entry is visited with. -/
def insertCursor (a : AllTransactions) (tx : ValidPoolTransaction) (onChainBalance : U256)
    (onChainNonce : Nat) (id : TransactionId) : InsertCursor :=
  cursorAt (insertVisit onChainBalance tx.id)
    (descendantTxsInclusive (a.placed tx onChainNonce).txs ⟨tx.senderId, onChainNonce⟩)
    (a.insertStart tx onChainNonce) id

/-- The visit of an entry. -/
def insertVisited (a : AllTransactions) (tx : ValidPoolTransaction) (onChainBalance : U256)
    (onChainNonce : Nat) (id : TransactionId) (t : PoolInternalTransaction) :
    InsertCursor × PoolInternalTransaction × List PoolUpdate :=
  insertVisit onChainBalance tx.id (a.insertCursor tx onChainBalance onChainNonce id) id t

theorem mem_descendantTxsInclusive {txs : ExtTreeMap TransactionId PoolInternalTransaction} :
    (id, t) ∈ descendantTxsInclusive txs start ↔
      txs[id]? = some t ∧ id.sender = start.sender ∧ start.nonce ≤ id.nonce := by
  rw [descendantTxsInclusive, mem_filter, mem_toList, Bool.and_eq_true, beq_iff_eq,
    decide_eq_true_eq]

theorem sorted_descendantTxsInclusive (txs : ExtTreeMap TransactionId PoolInternalTransaction)
    (start : TransactionId) :
    (descendantTxsInclusive txs start).Pairwise (compare ·.1 ·.1 = .lt) :=
  (sorted_toList txs).sublist (descendantTxsInclusive_sublist txs start)

/-- **THE ENTRY AFTER THE LOOP.** -/
theorem insertSweep_at (ht : (a.placed tx nonce).txs[id]? = some t)
    (hs : id.sender = tx.senderId) (hn : nonce ≤ id.nonce) :
    (a.insertSweep tx balance nonce).2.1[id]?
      = some (a.insertVisited tx balance nonce id t).2.1 := by
  have hkey : ∀ c, ∀ e ∈ descendantTxsInclusive (a.placed tx nonce).txs
      ⟨tx.senderId, nonce⟩, ∀ u ∈ (insertVisit balance tx.id c e.1 e.2).2.2,
        u.id = e.1 := by
    intro c e _ u hu
    by_cases hid : tx.id = e.1
    · rw [hid, (insertVisit_self balance e.1 c e.2).2] at hu
      nomatch hu
    · exact mem_singleton.mp ((visits_insert balance c hid e.2).update_id.subset
        (mem_map_of_mem hu))
  exact (sweep_at hkey (sorted_descendantTxsInclusive _ _)
    (mem_descendantTxsInclusive.mpr ⟨ht, hs, hn⟩) _ _).1

/-- Other senders and lower nonces are left alone. -/
theorem insertSweep_other (h : id.sender ≠ tx.senderId ∨ id.nonce < nonce) :
    (a.insertSweep tx balance nonce).2.1[id]?
      = (a.placed tx nonce).txs[id]? := by
  refine sweep_get_of_not_mem _ _ _ _ fun hmem => ?_
  obtain ⟨⟨i, t⟩, he, rfl⟩ := mem_map.mp hmem
  obtain ⟨-, hs, hn⟩ := mem_descendantTxsInclusive.mp he
  rcases h with hne | hlt
  · exact hne hs
  · exact absurd hlt (not_lt.mpr hn)

theorem insertCursor_cases (ht : (a.placed tx nonce).txs[id]? = some t)
    (hs : id.sender = tx.senderId) (hn : nonce ≤ id.nonce) :
    a.insertCursor tx balance nonce id = a.insertStart tx nonce
        ∧ (∀ m, nonce ≤ m → m < id.nonce →
          (a.placed tx nonce).txs[TransactionId.mk tx.senderId m]? = none)
      ∨ ∃ m t0, nonce ≤ m ∧ m < id.nonce
        ∧ (a.placed tx nonce).txs[TransactionId.mk tx.senderId m]? = some t0
        ∧ (∀ k, m < k → k < id.nonce →
          (a.placed tx nonce).txs[TransactionId.mk tx.senderId k]? = none)
        ∧ a.insertCursor tx balance nonce id
          = (a.insertVisited tx balance nonce ⟨tx.senderId, m⟩ t0).1 := by
  have hbefore : ∀ m t1, nonce ≤ m →
      (a.placed tx nonce).txs[TransactionId.mk tx.senderId m]? = some t1 →
      ((⟨tx.senderId, m⟩ : TransactionId), t1) ∈ descendantTxsInclusive
        (a.placed tx nonce).txs ⟨tx.senderId, nonce⟩ := fun m t1 hm ht1 =>
    mem_descendantTxsInclusive.mpr ⟨ht1, rfl, hm⟩
  have hlisted : (id, t) ∈ descendantTxsInclusive (a.placed tx nonce).txs
      ⟨tx.senderId, nonce⟩ := mem_descendantTxsInclusive.mpr ⟨ht, hs, hn⟩
  rcases cursorAt_cases (insertVisit balance tx.id) (sorted_descendantTxsInclusive _ _)
    hlisted (a.insertStart tx nonce) with
    ⟨hc, hno⟩ | ⟨⟨i, t0⟩, he, hlt, hlast, hc⟩
  · refine .inl ⟨hc, fun m hm hlt => Option.eq_none_iff_forall_ne_some.mpr fun t1 ht1 => ?_⟩
    exact hno (⟨tx.senderId, m⟩, t1) (hbefore m t1 hm ht1)
      (TransactionId.compare_eq_lt.mpr (Or.inr ⟨hs.symm, hlt⟩))
  · obtain ⟨ht0, hi, hm⟩ := mem_descendantTxsInclusive.mp he
    obtain ⟨i, m⟩ := i
    obtain rfl : i = tx.senderId := hi
    have hmlt : m < id.nonce := by
      rcases TransactionId.compare_eq_lt.mp hlt with h | ⟨-, h⟩
      · exact absurd hs.symm (ne_of_lt h)
      · exact h
    refine .inr ⟨m, t0, hm, hmlt, ht0, fun k hk hlt => ?_, hc⟩
    refine Option.eq_none_iff_forall_ne_some.mpr fun t1 ht1 => ?_
    rcases hlast (⟨tx.senderId, k⟩, t1) (hbefore k t1 (le_trans hm (le_of_lt hk)) ht1)
      (TransactionId.compare_eq_lt.mpr (Or.inr ⟨hs.symm, hlt⟩)) with heq | h
    · rw [(TransactionId.mk.inj (Prod.mk.inj heq).1).2] at hk
      exact lt_irrefl m hk
    · rcases TransactionId.compare_eq_lt.mp h with h | ⟨-, h⟩
      · exact absurd rfl (ne_of_lt h)
      · exact lt_asymm hk h

theorem insertCursor_first
    (ht : (a.placed tx nonce).txs[TransactionId.mk tx.senderId nonce]? = some t) :
    a.insertCursor tx balance nonce ⟨tx.senderId, nonce⟩
      = a.insertStart tx nonce := by
  rcases insertCursor_cases ht rfl le_rfl with ⟨hc, -⟩ | ⟨m, -, hm, hlt, -⟩
  · exact hc
  · exact absurd hlt (not_lt.mpr hm)

theorem insertCursor_succ (hn : nonce ≤ n)
    (ht : (a.placed tx nonce).txs[TransactionId.mk tx.senderId (n + 1)]? = some t)
    (ht0 : (a.placed tx nonce).txs[TransactionId.mk tx.senderId n]? = some t0) :
    a.insertCursor tx balance nonce ⟨tx.senderId, n + 1⟩
      = (a.insertVisited tx balance nonce ⟨tx.senderId, n⟩ t0).1 := by
  rcases insertCursor_cases ht rfl (Nat.le_succ_of_le hn) with ⟨-, hno⟩ | ⟨m, t1, -, hlt, ht1, hno, hc⟩
  · rw [hno n hn (Nat.lt_succ_self n)] at ht0
    nomatch ht0
  · rcases Nat.lt_or_eq_of_le (Nat.lt_succ_iff.mp hlt) with hmn | rfl
    · rw [hno n hmn (Nat.lt_succ_self n)] at ht0
      nomatch ht0
    · rw [ht0] at ht1
      rw [hc, Option.some.inj ht1]

/-- The loop does not get past a missing nonce. -/
theorem insertCursor_gap (hn : nonce ≤ n)
    (ht : (a.placed tx nonce).txs[TransactionId.mk tx.senderId (n + 1)]? = some t)
    (hat : (a.insertCursor tx balance nonce ⟨tx.senderId, n + 1⟩).At (n + 1)) :
    ∃ t0, (a.placed tx nonce).txs[TransactionId.mk tx.senderId n]? = some t0
      ∧ (a.insertCursor tx balance nonce ⟨tx.senderId, n⟩).At n := by
  rcases insertCursor_cases ht rfl (Nat.le_succ_of_le hn) with ⟨hc, -⟩ | ⟨m, t0, -, -, ht0, -, hc⟩
  · rw [hc] at hat
    exact absurd hat.2 (ne_of_lt (Nat.lt_succ_of_le hn))
  · rw [hc] at hat
    obtain ⟨hat0, hm⟩ := at_of_insertVisit hat
    obtain rfl : n = m := Nat.succ.inj hm
    exact ⟨t0, ht0, hat0⟩

theorem insertVisited_of_at (hat : (a.insertCursor tx balance nonce ⟨tx.senderId, n⟩).At n)
    (t : PoolInternalTransaction) :
    Rechecks balance (a.insertCursor tx balance nonce ⟨tx.senderId, n⟩)
      ⟨tx.senderId, n⟩ t (a.insertVisited tx balance nonce ⟨tx.senderId, n⟩ t).1
      (a.insertVisited tx balance nonce ⟨tx.senderId, n⟩ t).2.1 :=
  insertVisit_of_at hat

/-- **WHAT IS RECHECKED**: the entries with everything down to the on-chain nonce in the pool. -/
theorem insertCursor_at (d : Nat) (t : PoolInternalTransaction)
    (ht : (a.placed tx nonce).txs[TransactionId.mk tx.senderId (nonce + d)]? = some t) :
    ((a.insertCursor tx balance nonce ⟨tx.senderId, nonce + d⟩).At (nonce + d) ↔ ∀ i < d,
      (a.placed tx nonce).txs[TransactionId.mk tx.senderId (nonce + i)]? ≠
      none) := by
  induction d generalizing t with
  | zero =>
    rw [add_zero] at ht ⊢
    rw [insertCursor_first ht]
    exact ⟨fun _ i hi => absurd hi (Nat.not_lt_zero i), fun _ => ⟨rfl, rfl⟩⟩
  | succ d ih =>
    have hn := Nat.le_add_right nonce d
    constructor
    · intro hat i hi
      obtain ⟨t0, ht0, hat0⟩ := insertCursor_gap hn ht hat
      rcases Nat.lt_or_eq_of_le (Nat.lt_succ_iff.mp hi) with hlt | rfl
      · exact (ih t0 ht0).mp hat0 i hlt
      · rw [ht0]
        exact Option.some_ne_none t0
    · intro hall
      obtain ⟨t0, ht0⟩ := Option.ne_none_iff_exists'.mp (hall d (Nat.lt_succ_self d))
      have hat0 := (ih t0 ht0).mpr fun i hi => hall i (Nat.lt_succ_of_lt hi)
      rw [← add_assoc, insertCursor_succ hn ht ht0]
      exact (insertVisited_of_at hat0 t0).next

end AllTransactions

end TransactionPool
