import Pasifika.Pool.Ancestors

/-! # Reported promotions

Operations that can make transactions pending report which ones they promoted.
A report is EXACT if it lists the transactions that are in the pending sub-pool
after the call and were not before.

* `update_accounts` is always exact.
* `add_transaction` rechecks its sender from the on-chain nonce on. It reports the
  promotions if the new transaction becomes pending itself; `AddedTransaction::Parked`
  has no place for them.
* `on_canonical_state_change` adds up the promotions of its passes. A blob
  transaction that the account pass promotes may be demoted again when the blob fee
  rises. -/

namespace TransactionPool

open Std (ExtTreeMap)
open OrderedMap AllTransactions List Option Nat Function

variable {V : Type}

/-! ## The transactions an insertion makes pending -/

namespace AllTransactions

/-- The cost of a transaction of the pool, or of the submitted one, if its fee caps are met. -/
def metCost (a : AllTransactions) (tx : ValidPoolTransaction) (id : TransactionId) : Option U256 :=
  if tx.id = id then
    if a.pendingFees.baseFee ≤ tx.maxFeePerGas ∧
        (tx.isEip4844 = true → a.pendingFees.blobFee ≤ tx.maxFeePerBlobGas.getD 0) then
      some tx.cost
    else none
  else
    match a.txs[id]? with
    | none => none
    | some t =>
      if t.state.enoughFeeCapBlock = true ∧ t.state.enoughBlobFeeCapBlock = true then
        some t.transaction.cost
      else none

/-- What the first transactions from the on-chain nonce on cost, if all are there, meet the fees,
    and can be paid one after the other. -/
def payable (a : AllTransactions) (tx : ValidPoolTransaction) (onChainBalance : U256)
    (onChainNonce : Nat) : Nat → Option U256
  | 0 => some 0
  | d + 1 =>
    match a.payable tx onChainBalance onChainNonce d,
        a.metCost tx ⟨tx.senderId, onChainNonce + d⟩ with
    | some total, some cost => if total + cost ≤ onChainBalance then some (total + cost) else none
    | _, _ => none

variable {a : AllTransactions} {tx : ValidPoolTransaction} {balance : U256}
  {nonce : Nat} {id : TransactionId} {t : PoolInternalTransaction}

theorem metCost_of_placed (ht : (a.placed tx nonce).txs[id]? = some t) :
    a.metCost tx id =
      if t.state.enoughFeeCapBlock = true ∧ t.state.enoughBlobFeeCapBlock = true then
        some t.transaction.cost
      else none := by
  rw [txs_placed, get_insert] at ht
  by_cases hid : tx.id = id
  · rw [if_pos hid] at ht
    cases ht
    rw [metCost, if_pos hid]
    refine if_congr ?_ rfl rfl
    simp [poolTx, initialState, or_iff_not_imp_left]
  · rw [if_neg hid] at ht
    rw [metCost, if_neg hid, ht]

theorem metCost_of_none (ht : (a.placed tx nonce).txs[id]? = none) : a.metCost tx id = none := by
  rw [txs_placed, get_insert] at ht
  by_cases hid : tx.id = id
  · rw [if_pos hid] at ht
    nomatch ht
  · rw [if_neg hid] at ht
    rw [metCost, if_neg hid, ht]

/-- What a step adds to the payable transactions. -/
theorem payable_succ {d : Nat} :
    (a.payable tx balance nonce (d + 1)).isSome = true ↔
      ∃ total cost, a.payable tx balance nonce d = some total ∧
        a.metCost tx ⟨tx.senderId, nonce + d⟩ = some cost ∧
        total + cost ≤ balance := by
  rw [payable]
  cases a.payable tx balance nonce d with
  | none => simp
  | some total =>
    cases a.metCost tx ⟨tx.senderId, nonce + d⟩ with
    | none => simp
    | some cost =>
      by_cases hle : total + cost ≤ balance
      · simp [hle]
      · simp [hle]

theorem payable_mono : ∀ {d e}, d ≤ e → (a.payable tx balance nonce e).isSome = true →
    (a.payable tx balance nonce d).isSome = true := by
  intro d e hle
  induction hle with
  | refl => intro h; exact h
  | step _ ih =>
    intro h
    obtain ⟨total, cost, htotal, -⟩ := payable_succ.mp h
    exact ih (htotal ▸ rfl)

/-- The cursor has passed exactly what can be paid. -/
def InsertCursor.Passed (c : InsertCursor) : Option U256 → Prop
  | some total => c.hasParkedAncestor = false ∧ c.cumulativeCost = total
  | none => c.hasParkedAncestor = true

/-- A rechecked entry is pending if it can be paid after the ones before it. -/
theorem rechecked_isPending (hc : c.Passed (a.payable tx balance nonce d))
    (ht : (a.placed tx nonce).txs[TransactionId.mk tx.senderId (nonce + d)]? = some t)
    (hr : t.Routed) : (rechecked balance c t).state.isPending = true ↔
      (a.payable tx balance nonce (d + 1)).isSome = true := by
  have hpending : (rechecked balance c t).state.isPending = true ↔
      c.hasParkedAncestor = false ∧ c.cumulativeCost + t.transaction.cost ≤ balance ∧
        t.state.enoughFeeCapBlock = true ∧ t.state.enoughBlobFeeCapBlock = true := by
    rw [TxState.isPending_iff, TxState.ready_iff]
    simp only [rechecked, hr.gas, Bool.not_eq_true', decide_eq_true_eq, and_true, true_and,
      and_assoc]
  rw [hpending, payable_succ, metCost_of_placed ht]
  cases hpay : a.payable tx balance nonce d with
  | none =>
    rw [hpay] at hc
    simp [show c.hasParkedAncestor = true from hc]
  | some total =>
    rw [hpay] at hc
    rw [hc.1, hc.2]
    by_cases hfees : t.state.enoughFeeCapBlock = true ∧ t.state.enoughBlobFeeCapBlock = true
    · rw [if_pos hfees]
      constructor
      · rintro ⟨-, hle, -⟩
        exact ⟨total, _, rfl, rfl, hle⟩
      · rintro ⟨total', cost, htotal, hcost, hle⟩
        cases htotal
        cases hcost
        exact ⟨rfl, hle, hfees⟩
    · rw [if_neg hfees]
      constructor
      · rintro ⟨-, -, h⟩
        exact absurd h hfees
      · rintro ⟨total', cost, -, hcost, -⟩
        nomatch hcost

theorem insertCursor_passed (hr : Routed a) (d : Nat) (t : PoolInternalTransaction)
    (ht : (a.placed tx nonce).txs[TransactionId.mk tx.senderId (nonce + d)]? = some t)
    (hall : ∀ i < d, (a.placed tx nonce).txs[TransactionId.mk tx.senderId (nonce + i)]? ≠ none) :
    (a.insertCursor tx balance nonce ⟨tx.senderId, nonce + d⟩).Passed
      (a.payable tx balance nonce d) := by
  induction d generalizing t with
  | zero =>
    rw [add_zero] at ht ⊢
    rw [insertCursor_first ht]
    exact ⟨rfl, rfl⟩
  | succ d ih =>
    have hn := le_add_right nonce d
    obtain ⟨t0, ht0⟩ := ne_none_iff_exists'.mp (hall d (lt_succ_self d))
    have hbelow := fun i hi => hall i (lt_succ_of_lt hi)
    have hat : (a.insertCursor tx balance nonce ⟨tx.senderId, nonce + d⟩).At
        (nonce + d) := (insertCursor_at d t0 ht0).mpr hbelow
    have hv := insertVisited_of_at hat t0
    have hpassed := ih t0 ht0 hbelow
    have hpend := rechecked_isPending hpassed ht0 (hr.placed tx nonce _ t0 ht0)
    rw [← add_assoc, insertCursor_succ hn ht ht0]
    cases hpay : a.payable tx balance nonce (d + 1) with
    | none =>
      rw [hpay] at hpend
      show _ = true
      rw [hv.parked, Bool.eq_false_iff.mpr fun h => (nomatch hpend.mp h)]
      rfl
    | some total =>
      rw [hpay] at hpend
      refine ⟨by rw [hv.parked, hpend.mpr rfl]; rfl, ?_⟩
      obtain ⟨total0, cost, htotal, hcost, hle⟩ := payable_succ.mp (by rw [hpay]; rfl)
      rw [htotal] at hpassed
      rw [payable, htotal, hcost] at hpay
      dsimp only at hpay
      rw [if_pos hle] at hpay
      cases hpay
      rw [metCost_of_placed ht0] at hcost
      split at hcost
      · cases hcost
        rw [hv.cost, hpassed.2]
      · nomatch hcost

/-- Entries that are not rechecked stay as they were placed. -/
theorem insertSweep_same (ht : (a.placed tx nonce).txs[id]? = some t)
    (hno : ∀ d, id = ⟨tx.senderId, nonce + d⟩ →
      ∃ i < d, (a.placed tx nonce).txs[TransactionId.mk tx.senderId (nonce + i)]? = none) :
    (a.insertSweep tx balance nonce).2.1[id]? = some t := by
  by_cases hs : id.sender = tx.senderId
  · by_cases hn : nonce ≤ id.nonce
    · obtain ⟨d, hd⟩ := Nat.exists_eq_add_of_le hn
      obtain rfl : id = ⟨tx.senderId, nonce + d⟩ := TransactionId.ext hs hd
      obtain ⟨i, hi, hnone⟩ := hno d rfl
      rw [insertSweep_at ht rfl hn]
      refine congrArg some (insertVisit_of_not_at fun hat => ?_).2
      exact (insertCursor_at d t ht).mp hat i hi hnone
    · rw [insertSweep_other (Or.inr (Nat.lt_of_not_le hn)), ht]
  · rw [insertSweep_other (Or.inl hs), ht]

/-- **THE PENDING ENTRIES OF THE SENDER**, from the on-chain nonce on without a gap. -/
theorem insertSweep_pending (hr : Routed a) {d : Nat}
    (ht : (a.placed tx nonce).txs[TransactionId.mk tx.senderId (nonce + d)]? = some t)
    (hall : ∀ i < d, (a.placed tx nonce).txs[TransactionId.mk tx.senderId (nonce + i)]? ≠ none) :
    ∃ t', (a.insertSweep tx balance nonce).2.1[(⟨tx.senderId, nonce + d⟩ :
        TransactionId)]? = some t' ∧ t'.transaction = t.transaction ∧
      (t'.subpool = .pending ↔
        (a.payable tx balance nonce (d + 1)).isSome = true) := by
  have hat : (a.insertCursor tx balance nonce ⟨tx.senderId, nonce + d⟩).At
      (nonce + d) := (insertCursor_at d t ht).mpr hall
  have hv := insertVisited_of_at hat t
  refine ⟨_, insertSweep_at ht rfl (le_add_right _ _), ?_, ?_⟩
  · rw [hv.entry]
    rfl
  · rw [hv.entry, ← rechecked_isPending (insertCursor_passed hr d t ht hall) ht
      (hr.placed tx nonce _ t ht)]
    exact TxState.subPool_eq_pending

end AllTransactions

/-! ## Insertion -/

/-- **AN EXACT REPORT**: the listed transactions are those that are in the pending
    sub-pool now and were not before. -/
def Exact (p p' : TxPool V) (report : List ValidPoolTransaction) : Prop :=
  ∀ tx, tx ∈ report ↔
    p'.subpoolGet .pending tx.id = some tx ∧ p.subpoolGet .pending tx.id ≠ some tx

theorem exact_iff (h : Sound p) (h' : Sound p') :
    Exact p p' report ↔ ∀ tx, tx ∈ report ↔ TxPool.NewlyPending p p' tx := by
  refine forall_congr' fun tx => ?_
  rw [h'.subpoolGet_eq_some, Ne, h.subpoolGet_eq_some]
  rfl

/-- The transactions that the answer to a submission names as pending. -/
def reportedPending : Except PoolError AddedTransaction → List ValidPoolTransaction
  | .ok (.pending transaction _ promoted _) => transaction :: promoted
  | _ => []

namespace TxPool

/-- Whether a submission passes every check; the hash is new, the authorities are free and
    the transaction can be inserted. -/
def accepts (p : TxPool V) (tx : ValidPoolTransaction) (onChainBalance : U256)
    (onChainNonce : Nat) (onChainCodeHash : Option Nat) : Bool :=
  !p.allTransactions.contains tx.hash &&
    (p.validateAuth tx onChainNonce onChainCodeHash).isOk &&
    (p.allTransactions.ensureInsertable tx onChainBalance onChainNonce).isOk &&
    p.allTransactions.txs[tx.id]?.all (fun existing =>
      !existing.transaction.isUnderpriced tx p.allTransactions.priceBumps)

/-- **WHAT A PARKED SUBMISSION MAY DO**: the transactions before it that can be paid are
    pending already. -/
def leavesParked (p : TxPool V) (tx : ValidPoolTransaction) (onChainBalance : U256)
    (onChainNonce : Nat) : Prop :=
  ∀ d < tx.nonce - onChainNonce,
    (p.allTransactions.payable tx onChainBalance onChainNonce (d + 1)).isSome = true →
      ∃ t, p.allTransactions.txs[(⟨tx.senderId, onChainNonce + d⟩ : TransactionId)]? = some t ∧
        t.subpool = .pending

section

variable {p p' : TxPool V} {tx : ValidPoolTransaction} {balance : U256}
  {nonce : Nat} {ok : InsertOk} {o : UpdateOutcome}

/-- The new transaction is pending if everything up to it can be paid. -/
theorem Inserted.moveTo_pending (hp : Sound p) (hin : Inserted p tx balance nonce ok o p') :
    ok.moveTo = .pending ↔ (p.allTransactions.payable tx balance nonce
      (tx.nonce - nonce + 1)).isSome = true := by
  obtain ⟨a', hins, htxs⟩ := hin.inserts
  obtain ⟨d, hd⟩ := Nat.exists_eq_add_of_le hins.nonce_le
  have hid : tx.id = ⟨tx.senderId, nonce + d⟩ := by rw [tx.id_eq, hd]
  have hplaced : (p.allTransactions.placed tx nonce).txs[tx.id]? =
      some (p.allTransactions.poolTx tx nonce) := by
    rw [txs_placed, get_insert_self]
  have hget : ∀ t, (p.allTransactions.insertSweep tx balance nonce).2.1[tx.id]? =
      some t → ok.moveTo = t.subpool := by
    intro t ht
    have hplace := hin.placed
    rw [place, htxs, hins.set_eq] at hplace
    obtain ⟨t', ht', heq⟩ := map_eq_some_iff.mp hplace
    rw [show t' = t from some.inj (ht'.symm.trans ht)] at heq
    exact (congrArg Prod.fst heq).symm
  rw [hd, Nat.add_sub_cancel_left]
  by_cases hall : ∀ i < d, (p.allTransactions.placed tx nonce).txs[(⟨tx.senderId,
      nonce + i⟩ : TransactionId)]? ≠ none
  · obtain ⟨t', ht', -, hpend⟩ := @insertSweep_pending _ _ balance nonce _ hp.routed
      d (hid ▸ hplaced) hall
    rw [← hid] at ht'
    rw [hget t' ht', hpend]
  · simp only [not_forall, not_not] at hall
    obtain ⟨i, hi, hnone⟩ := hall
    have hsame : (p.allTransactions.insertSweep tx balance nonce).2.1[tx.id]? =
        some (p.allTransactions.poolTx tx nonce) :=
      insertSweep_same hplaced (fun e he => by
        have hde := (TransactionId.mk.inj (hid.symm.trans he)).2
        exact ⟨i, by omega, hnone⟩)
    rw [hget _ hsame]
    constructor
    · intro hpend
      -- with a gap before it the transaction starts as parked
      have hgap := (TxState.ready_iff.mp (TxState.isPending_iff.mp
        (TxState.subPool_eq_pending.mp hpend)).1).2.1
      have hlt : nonce < tx.nonce := by omega
      simp [initialState, TransactionId.ancestor, hlt] at hgap
    · intro hpay
      obtain ⟨total, cost, -, hcost, -⟩ := payable_succ.mp (payable_mono (by omega : i + 1 ≤ d + 1) hpay)
      rw [metCost_of_none hnone] at hcost
      cases hcost

/-- An entry that is pending after an insertion can be paid, or was left alone. -/
theorem Inserted.pending_cases (hp : Sound p)
    (hin : Inserted p tx balance nonce ok o p') {id : TransactionId}
    {tx' : ValidPoolTransaction} (hid : tx.id ≠ id)
    (hpend : p'.allTransactions.place id = some (.pending, tx')) :
    p.allTransactions.place id = some (.pending, tx') ∨
      ∃ d t, id = ⟨tx.senderId, nonce + d⟩ ∧ p.allTransactions.txs[id]? = some t ∧
        t.transaction = tx' ∧
        (p.allTransactions.payable tx balance nonce (d + 1)).isSome = true := by
  obtain ⟨a', hins, htxs⟩ := hin.inserts
  rw [place, htxs, hins.set_eq] at hpend
  obtain ⟨t', ht', heq⟩ := map_eq_some_iff.mp hpend
  replace ht' : (p.allTransactions.insertSweep tx balance nonce).2.1[id]? = some t' :=
    ht'
  have hpl : (p.allTransactions.placed tx nonce).txs[id]? = p.allTransactions.txs[id]? := by
    rw [txs_placed, get_insert_ne hid]
  cases ht : p.allTransactions.txs[id]? with
  | none =>
    rw [insertSweep, sweep_get_eq_none (fun e he => mem_toList.mp
      ((descendantTxsInclusive_sublist _ _).subset he)) (hpl.trans ht)] at ht'
    cases ht'
  | some t =>
    by_cases hrun : ∃ d, id = ⟨tx.senderId, nonce + d⟩ ∧ ∀ i < d,
        (p.allTransactions.placed tx nonce).txs[TransactionId.mk tx.senderId (nonce + i)]? ≠ none
    · obtain ⟨d, rfl, hall⟩ := hrun
      obtain ⟨t'', ht'', htx, hiff⟩ := @insertSweep_pending _ _ balance nonce _
        hp.routed d (hpl.trans ht) hall
      rw [ht'] at ht''
      cases ht''
      refine .inr ⟨d, t, rfl, rfl, htx.symm.trans (congrArg Prod.snd heq), ?_⟩
      exact hiff.mp (congrArg Prod.fst heq)
    · refine .inl ?_
      rw [insertSweep_same (hpl.trans ht) (fun d hd => by
        by_contra hno
        exact hrun ⟨d, hd, fun i hi hnone => hno ⟨i, hi, hnone⟩⟩)] at ht'
      cases ht'
      rw [place, ht]
      exact congrArg some heq

/-- **A PENDING SUBMISSION** reports itself and every promotion. -/
theorem Inserted.exact_of_pending (hp : Sound p)
    (hin : Inserted p tx balance nonce ok o p') (hmove : ok.moveTo = .pending) :
    Exact p p' (tx :: o.promoted) := by
  rw [exact_iff hp hin.sound]
  intro tx'
  have hnew : p.allTransactions.place tx.id ≠ some (.pending, tx) := by
    intro hplace
    obtain ⟨t, ht, -, htx⟩ := place_eq_some.mp hplace
    have hhash := (hp.indexed.byHash tx.hash tx).mpr ⟨rfl, tx_eq_some.mpr ⟨t, ht, htx⟩⟩
    have hfresh := hin.fresh
    rw [AllTransactions.contains, ExtTreeMap.contains_eq_isSome_getElem?, hhash] at hfresh
    cases hfresh
  rw [mem_cons, hin.promoted, hmove, NewlyPending]
  by_cases hid : tx'.id = tx.id
  · rw [hid, update_self, hin.placed, hmove]
    constructor
    · rintro (rfl | ⟨h, hne⟩)
      · exact ⟨rfl, hnew⟩
      · exact absurd h hne
    · rintro ⟨h, -⟩
      exact .inl (congrArg Prod.snd (some.inj h)).symm
  · rw [update_of_ne hid]
    exact ⟨fun h => h.resolve_left fun heq => hid (congrArg _ heq), .inr⟩

/-- **A PARKED SUBMISSION** reports nothing, and that is exact if it makes nothing pending. -/
theorem Inserted.exact_of_parked (hp : Sound p)
    (hin : Inserted p tx balance nonce ok o p') (hmove : ok.moveTo ≠ .pending) :
    Exact p p' [] ↔ p.leavesParked tx balance nonce := by
  rw [exact_iff hp hin.sound]
  obtain ⟨a', hins, htxs⟩ := hin.inserts
  constructor
  · intro hexact d hd hpay
    have hne : tx.id ≠ ⟨tx.senderId, nonce + d⟩ := by
      rw [tx.id_eq]
      intro heq
      have := (TransactionId.mk.inj heq).2
      omega
    have hpl : (p.allTransactions.placed tx nonce).txs[(⟨tx.senderId, nonce + d⟩ :
        TransactionId)]? = p.allTransactions.txs[(⟨tx.senderId, nonce + d⟩ :
          TransactionId)]? := by
      rw [txs_placed, get_insert_ne hne]
    have hthere : ∀ i < d + 1, (p.allTransactions.placed tx nonce).txs[(⟨tx.senderId,
        nonce + i⟩ : TransactionId)]? ≠ none := by
      intro i hi hnone
      obtain ⟨-, cost, -, hcost, -⟩ := payable_succ.mp (payable_mono hi hpay)
      rw [metCost_of_none hnone] at hcost
      nomatch hcost
    obtain ⟨t, ht⟩ := ne_none_iff_exists'.mp (hthere d (lt_succ_self d))
    obtain ⟨t', ht', htx, hiff⟩ := @insertSweep_pending _ _ balance nonce _
      hp.routed d ht fun i hi => hthere i (lt_succ_of_lt hi)
    have hkey : t.transaction.id = ⟨tx.senderId, nonce + d⟩ :=
      hp.indexed.key (hpl.symm.trans ht)
    -- it is pending now, and nothing is newly pending
    have hnow : p'.allTransactions.place t.transaction.id = some (.pending, t.transaction) := by
      rw [hkey, place_eq_some]
      refine ⟨t', ?_, hiff.mpr hpay, htx⟩
      rw [htxs, hins.set_eq]
      exact ht'
    by_contra hno
    refine absurd ((hexact t.transaction).mpr ⟨hnow, fun hbefore => hno ?_⟩) not_mem_nil
    rw [hkey] at hbefore
    obtain ⟨t0, ht0, hs, -⟩ := place_eq_some.mp hbefore
    exact ⟨t0, ht0, hs⟩
  · intro hleaves tx'
    refine ⟨nofun, fun hnew => ?_⟩
    obtain ⟨hnow, hbefore⟩ := hnew
    by_cases hid : tx.id = tx'.id
    · rw [← hid, hin.placed] at hnow
      exact absurd (congrArg Prod.fst (some.inj hnow)) hmove
    rcases hin.pending_cases hp hid hnow with h | ⟨d, t, hd, ht, htx, hpay⟩
    · exact absurd h hbefore
    have hlt : d < tx.nonce - nonce := by
      by_contra hge
      refine hmove ((hin.moveTo_pending hp).mpr (payable_mono ?_ hpay))
      omega
    obtain ⟨t0, ht0, hs⟩ := hleaves d hlt hpay
    rw [← hd, ht] at ht0
    cases ht0
    exact absurd (place_eq_some.mpr ⟨t, ht, hs, htx⟩) hbefore

end

variable {r : Except PoolError AddedTransaction} {onChainCodeHash : Option Nat}

variable {tx : ValidPoolTransaction}

/-- A submission is answered with `Ok` if it passes every check. -/
theorem isOk_addTransaction {p p' : TxPool V} {balance : U256}
    {nonce : Nat}
    (hrun : p.addTransaction tx balance nonce onChainCodeHash = some (r, p')) :
    r.isOk = p.accepts tx balance nonce onChainCodeHash := by
  rw [addTransaction] at hrun
  rw [accepts]
  cases hcon : p.allTransactions.contains tx.hash with
  | true =>
    rw [hcon] at hrun
    cases hrun
    rfl
  | false =>
    rw [hcon] at hrun
    cases hauth : p.validateAuth tx nonce onChainCodeHash with
    | error e =>
      rw [hauth] at hrun
      cases hrun
      rfl
    | ok u =>
      rw [hauth] at hrun
      obtain ⟨res, hins, hrun⟩ := bind_eq_some_iff.mp hrun
      rw [insertTx] at hins
      split at hins
      · cases hins
      cases hcheck : p.allTransactions.ensureInsertable tx balance nonce with
      | error e =>
        rw [hcheck] at hins
        cases hins
        cases hrun
        rfl
      | ok u' =>
        rw [hcheck] at hins
        cases hex : p.allTransactions.txs[tx.id]? with
        | none =>
          rw [hex] at hins
          cases hins
          obtain ⟨q, -, hrun⟩ := bind_eq_some_iff.mp hrun
          cases hrun
          rfl
        | some existing =>
          rw [hex] at hins
          cases hunder : existing.transaction.isUnderpriced tx p.allTransactions.priceBumps with
          | true =>
            simp only [hunder, if_true] at hins
            cases hins
            cases hrun
            simp [Option.all, hunder]
            rfl
          | false =>
            simp only [hunder] at hins
            cases hins
            obtain ⟨q, -, hrun⟩ := bind_eq_some_iff.mp hrun
            cases hrun
            simp [Option.all, hunder]
            rfl

/-- **THE REPORT OF A SUBMISSION** is exact if it is rejected, becomes pending, or all before it
    that can be paid are pending. -/
theorem exact_addTransaction {p p' : TxPool V} (hp : Sound p)
    {balance : U256} {nonce : Nat}
    (hrun : p.addTransaction tx balance nonce onChainCodeHash = some (r, p')) :
    Exact p p' (reportedPending r) ↔
      (p.accepts tx balance nonce onChainCodeHash = true →
        (p.allTransactions.payable tx balance nonce (tx.nonce - nonce + 1)).isSome = true ∨
          p.leavesParked tx balance nonce) := by
  rw [← isOk_addTransaction hrun]
  have hadds : Adds p tx balance nonce r p' := by
    rcases addTransaction_spec hp tx balance nonce onChainCodeHash with
      ⟨r', q, heq, hadds⟩ | ⟨hnone, -⟩
    · rw [heq] at hrun
      cases hrun
      exact hadds
    · rw [hnone] at hrun
      nomatch hrun
  have hnothing : ∀ q : TxPool V, q.pendingPool = p.pendingPool → Exact p q [] := fun q hq tx' =>
    ⟨nofun, fun ⟨h, hne⟩ => absurd (show p.pendingPool.get tx'.id = some tx' from hq ▸ h) hne⟩
  cases hadds with
  | rejected e => exact ⟨nofun, fun _ => hnothing p rfl⟩
  | refused e => exact ⟨nofun, fun _ => hnothing _ rfl⟩
  | @inserted ok o _ hin =>
    obtain ⟨a', hins, -⟩ := hin.inserts
    have htx : ok.transaction = tx := by rw [hins.ok_eq]
    have hmove := hin.moveTo_pending hp
    by_cases hpend : ok.moveTo = .pending
    · rw [added, if_pos hpend, htx]
      exact ⟨fun _ _ => .inl (hmove.mp hpend), fun _ => hin.exact_of_pending hp hpend⟩
    · rw [added, if_neg hpend]
      have hparked := hin.exact_of_parked hp hpend
      exact ⟨fun h _ => .inr (hparked.mp h), fun h => hparked.mpr
        ((h rfl).resolve_left fun hpay => hpend (hmove.mpr hpay))⟩

end TxPool

/-! ## The account pass and the fee swings -/

namespace AllTransactions

/-- A cursor that follows the nonces of a sender. -/
def Cursor.isRunning : Cursor → Bool
  | .running .. => true
  | _ => false

variable {a : AllTransactions} {changed : ExtTreeMap SenderId SenderInfo} {baseFee : Nat}
  {c c' : Cursor} {id : TransactionId} {t t' : PoolInternalTransaction} {d : Bool}

theorem AccountVisit.transaction (hv : AccountVisit changed baseFee c id t c' t' d) :
    t'.transaction = t.transaction ∧
      t'.state.enoughBlobFeeCapBlock = t.state.enoughBlobFeeCapBlock := by
  cases hv <;> exact ⟨rfl, rfl⟩

/-- An entry that is followed has its fee flag refreshed. -/
theorem AccountVisit.of_running (hv : AccountVisit changed baseFee c id t c' t' d)
    (hrun : c'.isRunning = true) :
    t'.state.enoughFeeCapBlock = decide (baseFee ≤ t.transaction.maxFeePerGas) := by
  cases hv with
  | discard | gapped | skipped => nomatch hrun
  | opened | followed | consecutive => rfl

theorem AccountVisit.of_not_running (hv : AccountVisit changed baseFee c id t c' t' d)
    (hrun : c'.isRunning = false) : t' = t := by
  cases hv with
  | discard | gapped | skipped => rfl
  | opened | followed | consecutive => nomatch hrun

variable {m n : Nat} {s : SenderId} {tm : PoolInternalTransaction}

/-- The first entry of a sender that is not discarded has none before it. -/
theorem Indexed.discarding_of_fresh (h : Indexed a) (ht : a.txs[TransactionId.mk s n]? = some t)
    (htm : a.txs[TransactionId.mk s m]? = some tm) (hlt : m < n)
    (hfresh : (a.cursor changed ⟨s, n⟩).sender? ≠ some s) :
    discarding (a.visited changed ⟨s, m⟩ tm).2.2 = true := by
  have hmn : compare (⟨s, m⟩ : TransactionId) ⟨s, n⟩ = .lt :=
    TransactionId.compare_eq_lt.mpr (Or.inr ⟨rfl, hlt⟩)
  rcases cursor_cases changed ht with ⟨-, hno⟩ | ⟨i, ti, hti, hi, hlast, hc⟩
  · exact absurd hmn (hno _ _ htm)
  -- the entry right before has the same sender and is discarded
  have hs : i.sender = s := by
    rcases hlast _ _ htm hmn with heq | hmi
    · rw [← heq]
    · rcases TransactionId.compare_eq_lt.mp hmi with h1 | ⟨h1, -⟩
      · rcases TransactionId.compare_eq_lt.mp hi with h2 | ⟨h2, -⟩
        · exact absurd h1 (lt_asymm h2)
        · exact h2
      · exact h1.symm
  have hv := h.visited_cases changed hti
  have hsend := hv.sender?
  rw [← hc] at hsend
  cases hd : discarding (a.visited changed i ti).2.2 with
  | false =>
    rw [hd, hs] at hsend
    exact absurd hsend hfresh
  | true =>
    rw [hd] at hv
    have hm : m ≤ i.nonce := by
      rcases hlast _ _ htm hmn with heq | hmi
      · rw [← heq]
      · rcases TransactionId.compare_eq_lt.mp hmi with h1 | ⟨-, h1⟩
        · exact absurd (hs ▸ h1) (lt_irrefl _)
        · exact le_of_lt h1
    generalize (a.visited changed i ti).1 = c0 at hv
    generalize (a.visited changed i ti).2.1 = t0 at hv
    cases hv with
    | @discard info _ hinfo hbelow =>
      rw [hs] at hinfo
      have hno : ¬ info.stateNonce ≤ m := Nat.not_le_of_lt (Nat.lt_of_le_of_lt hm hbelow)
      have hvm := h.visited_cases changed htm
      generalize (a.visited changed ⟨s, m⟩ tm).1 = c1 at hvm
      generalize (a.visited changed ⟨s, m⟩ tm).2.1 = t1 at hvm
      generalize discarding (a.visited changed ⟨s, m⟩ tm).2.2 = d at hvm
      cases hvm with
      | discard => rfl
      | gapped _ hinfo' _ | followed _ hinfo' _ => exact absurd (le_of_lt (hinfo' info hinfo)) hno
      | opened _ hinfo' heq =>
        rw [show changed[s]? = _ from hinfo'] at hinfo
        cases hinfo
        exact absurd (le_of_eq heq.symm) hno
      | skipped hsender _ =>
        exact absurd (le_of_lt (h.cursor_above htm hsender hinfo)) hno
      | consecutive hrun =>
        exact absurd (le_of_lt (h.cursor_above htm (by rw [hrun]; rfl) hinfo)) hno

/-- **EVERYTHING BEFORE A FOLLOWED ENTRY** is followed as well, or discarded. -/
theorem Indexed.running_below (h : Indexed a) (ht : a.txs[TransactionId.mk s n]? = some t)
    (hrun : (a.visited changed ⟨s, n⟩ t).1.isRunning = true) (hm : m ≤ n)
    (htm : a.txs[TransactionId.mk s m]? = some tm)
    (hdis : discarding (a.visited changed ⟨s, m⟩ tm).2.2 = false) :
    (a.visited changed ⟨s, m⟩ tm).1.isRunning = true := by
  induction n generalizing t m tm with
  | zero =>
    obtain rfl := le_zero.mp hm
    rw [ht] at htm
    cases htm
    exact hrun
  | succ n ih =>
    rcases lt_or_eq_of_le hm with hlt | rfl
    · have hnot : ¬ (a.cursor changed ⟨s, n + 1⟩).sender? ≠ some s := by
        intro hfresh
        rw [h.discarding_of_fresh ht htm hlt hfresh] at hdis
        nomatch hdis
      have hv := h.visited_cases changed ht
      generalize hcur : (a.visited changed ⟨s, n + 1⟩ t).1 = c' at hv hrun
      generalize (a.visited changed ⟨s, n + 1⟩ t).2.1 = t' at hv
      generalize discarding (a.visited changed ⟨s, n + 1⟩ t).2.2 = d at hv
      cases hv with
      | discard hfresh | gapped hfresh | opened hfresh | followed hfresh => exact absurd hfresh hnot
      | skipped => nomatch hrun
      | consecutive hc =>
        -- the cursor comes from the nonce before
        obtain ⟨k, t0, hk, ht0, hprev⟩ := cursor_running h ht hc
        obtain rfl := succ.inj hk
        exact ih ht0 (by rw [hprev]; rfl) (le_of_lt_succ hlt) htm hdis
    · rw [ht] at htm
      cases htm
      exact hrun

end AllTransactions

namespace TxPool

section

variable {p p' : TxPool V} {changed : ExtTreeMap SenderId SenderInfo} {o : UpdateOutcome}
  {id : TransactionId} {tx : ValidPoolTransaction}

/-- The transaction of an entry after the account pass was there before. -/
theorem Accounted.tx_before (hacc : Accounted changed p o p') (hp : Sound p)
    (htx : p'.allTransactions.tx id = some tx) : p.allTransactions.tx id = some tx := by
  obtain ⟨t', ht', rfl⟩ := tx_eq_some.mp htx
  obtain ⟨t, c', ht, -, hv⟩ := hacc.entry hp ht'
  exact tx_eq_some.mpr ⟨t, ht, hv.transaction.1.symm⟩

variable {id' : TransactionId} {s : SubPool} {a : AllTransactions} {mined : List TxHash}

variable {tx' : ValidPoolTransaction}

/-- **PROMOTED BY THE ACCOUNT PASS**: no pending transaction of the sender before it misses
    the base fee. -/
theorem Accounted.fees_below (hacc : Accounted changed p o p') (hp : Sound p)
    (hnew : NewlyPending p p' tx)
    (hpend : p'.allTransactions.place id' = some (.pending, tx')) (hs : id'.sender = tx.id.sender)
    (hle : id'.nonce ≤ tx.id.nonce) :
    p.allTransactions.pendingFees.baseFee ≤ tx'.maxFeePerGas := by
  obtain ⟨t', ht', hsub, htx⟩ := place_eq_some.mp hnew.1
  obtain ⟨t, c', ht, hc', hv⟩ := hacc.entry hp ht'
  have hrun : c'.isRunning = true := by
    by_contra hno
    have heq := hv.of_not_running (Bool.eq_false_iff.mpr hno)
    exact hnew.2 (place_eq_some.mpr ⟨t, ht, heq ▸ hsub, heq ▸ htx⟩)
  obtain ⟨u', hu', husub, hutx⟩ := place_eq_some.mp hpend
  obtain ⟨u, e', hu, he', hw⟩ := hacc.entry hp hu'
  have hid' : id' = ⟨tx.id.sender, id'.nonce⟩ := TransactionId.ext hs rfl
  have hdis : discarding (p.allTransactions.visited changed id' u).2.2 = false := by
    have hd := (hp.indexed.update_at changed hu).2
    rw [← hd]
    by_contra hyes
    rw [hacc.txs, if_pos (Bool.eq_true_of_not_eq_false hyes)] at hu'
    nomatch hu'
  have hrun' : e'.isRunning = true := by
    rw [← he']
    rw [hid'] at hu hdis ⊢
    exact hp.indexed.running_below ht (hc' ▸ hrun) hle hu hdis
  have hflag := hw.of_running hrun'
  have hroute := (hacc.sound.routed _ u' hu').subpool.symm.trans husub
  rw [(TxState.isPending_iff.mp (TxState.subPool_eq_pending.mp hroute)).2.1] at hflag
  rw [← hutx, hw.transaction.1]
  exact of_decide_eq_true hflag.symm

/-- **DEMOTED BY THE ACCOUNT PASS**: what covers the base fee is not ready. -/
theorem Accounted.not_ready (hacc : Accounted changed p o p') (hp : Sound p)
    (hbefore : p.allTransactions.place id = some (.pending, tx))
    (ht' : p'.allTransactions.txs[id]? = some t') (hsub : t'.subpool ≠ .pending)
    (hfee : p.allTransactions.pendingFees.baseFee ≤ tx.maxFeePerGas) :
    t'.state.ready = false := by
  obtain ⟨t, c', ht, -, hv⟩ := hacc.entry hp ht'
  obtain ⟨t0, ht0, hpend, htx⟩ := place_eq_some.mp hbefore
  rw [ht] at ht0
  cases ht0
  have hrun : c'.isRunning = true := by
    by_contra hno
    exact hsub (hv.of_not_running (Bool.eq_false_iff.mpr hno) ▸ hpend)
  have hblob : t.state.enoughBlobFeeCapBlock = true := by
    have hroute := (hp.routed _ t ht).subpool.symm.trans hpend
    exact (TxState.isPending_iff.mp (TxState.subPool_eq_pending.mp hroute)).2.2
  have hflag := hv.of_running hrun
  rw [htx, decide_eq_true hfee] at hflag
  by_contra hready
  refine hsub ((hacc.sound.routed _ t' ht').subpool.trans (TxState.subPool_eq_pending.mpr
    (TxState.isPending_iff.mpr ⟨Bool.eq_true_of_not_eq_false hready, hflag, ?_⟩)))
  rw [hv.transaction.2, hblob]

theorem tx_of_place (h : a.place id = some (s, tx)) : a.tx id = some tx := by
  obtain ⟨t, ht, -, htx⟩ := place_eq_some.mp h
  exact tx_eq_some.mpr ⟨t, ht, htx⟩

variable {promoted : List ValidPoolTransaction} {sel : TransactionId → Prop}
variable {f : TxState → TxState} {ord : Ordering} {fees : PendingFees} {q : TxPool V}

theorem Swung.tx_eq (hsw : Swung f sel p promoted p') (id : TransactionId) :
    p'.allTransactions.tx id = p.allTransactions.tx id := by
  rw [AllTransactions.tx, AllTransactions.tx]
  by_cases hs : sel id
  · rw [hsw.selected id hs, Option.map_map]
    rfl
  · rw [hsw.untouched id hs]

theorem Swung.place_eq (hsw : Swung f sel p promoted p') (hno : ¬ sel id) :
    p'.allTransactions.place id = p.allTransactions.place id := by
  rw [place, place, hsw.untouched id hno]

/-- What a swing promotes is selected, and its rewritten state is pending. -/
theorem Swung.of_promoted (hsw : Swung f sel p promoted p') (hin : tx ∈ promoted) :
    sel tx.id ∧ ∃ t, p.allTransactions.txs[tx.id]? = some t ∧
      t.transaction = tx ∧ (f t.state).subPool = .pending := by
  obtain ⟨hnow, hbefore⟩ := (hsw.promoted tx).mp hin
  have hsel : sel tx.id := by
    by_contra hno
    exact hbefore ((hsw.place_eq hno).symm.trans hnow)
  obtain ⟨t', ht', hsub, htx⟩ := place_eq_some.mp hnow
  rw [hsw.selected _ hsel] at ht'
  obtain ⟨t, ht, rfl⟩ := map_eq_some_iff.mp ht'
  exact ⟨hsel, t, ht, htx, hsub⟩

theorem not_head_of_pending (hs : s ≠ .pending) (h : a.place id = some (.pending, tx)) :
    ¬ Head a s good id := by
  rintro ⟨⟨tx', h'⟩, -⟩
  rw [h] at h'
  exact hs (congrArg Prod.fst (some.inj h')).symm

/-- A transaction that the account pass promoted keeps its place when the base fee is swung. -/
theorem BasefeeSwing.keeps_promoted (hacc : Accounted changed p o p') (hp : Sound p)
    (hsw : BasefeeSwing (p'.withFees fees) p.allTransactions.pendingFees.baseFee promoted ord q)
    (hnew : NewlyPending p p' tx) : q.allTransactions.place tx.id = some (.pending, tx) := by
  cases hsw with
  | rise _ hsw =>
    refine (hsw.place_eq ?_).trans hnew.1
    rintro ⟨-, id', tx', hpend, hs, hle, hbad⟩
    exact absurd (hacc.fees_below hp hnew hpend hs hle) (Nat.not_le_of_lt hbad)
  | same => exact hnew.1
  | fall _ hsw => exact (hsw.place_eq (not_head_of_pending (by decide) hnew.1)).trans hnew.1

/-- A transaction that was pending before the account pass and lost its place is not
    promoted when the base fee falls. -/
theorem BasefeeSwing.not_promoted (hacc : Accounted changed p o p') (hp : Sound p)
    (hsw : BasefeeSwing (p'.withFees fees) p.allTransactions.pendingFees.baseFee promoted ord q)
    (hin : tx ∈ promoted) : p.allTransactions.place tx.id ≠ some (.pending, tx) := by
  intro hbefore
  cases hsw with
  | rise | same => nomatch hin
  | fall _ hsw =>
    obtain ⟨⟨⟨tx', hplace⟩, hgood⟩, t', ht', rfl, -⟩ := hsw.of_promoted hin
    replace ht' : p'.allTransactions.txs[t'.transaction.id]? = some t' := ht'
    obtain ⟨t, ht, hsub, rfl⟩ := place_eq_some.mp hplace
    replace ht : p'.allTransactions.txs[t'.transaction.id]? = some t := ht
    rw [ht'] at ht
    cases ht
    have hfee := hgood _ _ hplace rfl le_rfl
    have hready := hacc.not_ready hp hbefore ht' (by rw [hsub]; decide) hfee
    have hroute := (hacc.sound.routed _ t' ht').subpool.symm.trans hsub
    rw [(TxState.subPool_eq_baseFee.mp hroute).1] at hready
    nomatch hready

/-- **RISING BLOB FEES**: parked blob transactions that are not mined cover the new one, with all
    before them of their sender. -/
def blobRiseCovered (p : TxPool V) (info : BlockInfo) (mined : List TxHash) : Bool :=
  let fee := (nextFees p.allTransactions.pendingFees info).blobFee
  decide (fee ≤ p.allTransactions.pendingFees.blobFee) ||
    p.allTransactions.txs.toList.all (fun e =>
      e.2.subpool != .blob || mined.contains e.2.transaction.hash ||
        p.allTransactions.txs.toList.all (fun e' =>
          e'.1.sender != e.1.sender || decide (e.1.nonce < e'.1.nonce) ||
            e'.2.transaction.coversBlobFee fee))

theorem covers_of_blobRiseCovered (h : p.blobRiseCovered info mined = true)
    (hrise : p.allTransactions.pendingFees.blobFee < (nextFees p.allTransactions.pendingFees
      info).blobFee) (hplace : p.allTransactions.place id = some (.blob, tx))
    (hmined : tx.hash ∉ mined) (htx' : p.allTransactions.tx id' = some tx')
    (hs : id'.sender = id.sender) (hle : id'.nonce ≤ id.nonce) :
    tx'.coversBlobFee (nextFees p.allTransactions.pendingFees info).blobFee = true := by
  obtain ⟨t, ht, hsub, htx⟩ := place_eq_some.mp hplace
  obtain ⟨t', ht', rfl⟩ := tx_eq_some.mp htx'
  rw [blobRiseCovered, Bool.or_eq_true, decide_eq_true_eq] at h
  have hall := all_eq_true.mp (h.resolve_left (Nat.not_le_of_lt hrise)) (id, t) (mem_toList.mpr ht)
  simp only [Bool.or_eq_true, bne_iff_ne, ne_eq, hsub, not_true_eq_false, false_or,
    List.contains_iff_mem, htx, hmined] at hall
  have hcov := List.all_eq_true.mp hall (id', t') (mem_toList.mpr ht')
  simp only [Bool.or_eq_true, bne_iff_ne, ne_eq, hs, not_true_eq_false, false_or,
    decide_eq_true_eq] at hcov
  exact hcov.resolve_left (Nat.not_lt_of_le hle)

/-- Pruning leaves the transactions that are not mined where they are. -/
theorem Pruned.place_before (hprune : Pruned mined p p')
    (h : p'.allTransactions.place id = some e) :
    p.allTransactions.place id = some e ∧ e.2.hash ∉ mined := by
  obtain ⟨t, ht, rfl⟩ := map_eq_some_iff.mp h
  rw [hprune.txs, filter_eq_some_iff] at ht
  exact ⟨place_of_get ht.1, of_decide_eq_true ht.2⟩

/-- A blob transaction that is not pending is in the blob sub-pool. -/
theorem subPool_eq_blob {s : TxState} (hblob : s.blobTransaction = true)
    (hno : s.subPool ≠ .pending) : s.subPool = .blob := by
  rw [Ne, TxState.subPool_eq_pending] at hno
  rw [TxState.subPool, if_neg hno, TxState.isBlob, if_pos hblob]

/-- A transaction that was pending before the account pass is not promoted by a falling blob fee. -/
theorem BlobFeeSwing.not_promoted (hacc : Accounted changed p o p') (hp : Sound p)
    (hbase : BasefeeSwing (p'.withFees fees) p.allTransactions.pendingFees.baseFee pr1 ord q)
    (hblob : BlobFeeSwing q blobFee ord pr2 p3) (hin : tx ∈ pr2) :
    p.allTransactions.place tx.id ≠ some (.pending, tx) := by
  intro hbefore
  cases hblob with
  | rise | same => nomatch hin
  | fall _ hsw =>
    obtain ⟨⟨⟨tx', hplace⟩, hgood⟩, t, ht, rfl, hpend⟩ := hsw.of_promoted hin
    replace ht : q.allTransactions.txs[t.transaction.id]? = some t := ht
    obtain ⟨t0, ht0, hsub, rfl⟩ := place_eq_some.mp hplace
    rw [ht] at ht0
    cases ht0
    have htype := (hbase.sound.routed _ t ht).isEip4844 hsub
    have hready : t.state.ready = true :=
      (TxState.isPending_iff.mp (TxState.subPool_eq_pending.mp hpend)).1
    have hq : q.allTransactions.pendingFees.baseFee = p.allTransactions.pendingFees.baseFee := by
      rw [hbase.context.pendingFees]
      rfl
    rw [hq] at hgood
    have hfee := (hgood _ _ hplace rfl le_rfl).2
    -- the entry is the one the account pass left, unless the base fee swing took it
    have hparked : p'.allTransactions.txs[t.transaction.id]? ≠ some t := fun ht' => by
      have hno := hacc.not_ready hp hbefore ht' (by rw [hsub]; decide) hfee
      rw [hready] at hno
      nomatch hno
    cases hbase with
    | same => exact hparked ht
    | rise _ hsw1 =>
      by_cases htail : Tail p'.allTransactions .pending
          (·.maxFeePerGas < p.allTransactions.pendingFees.baseFee)
          t.transaction.id
      · obtain ⟨-, id', b, hpend', hs, hle, hbad⟩ := htail
        -- the transaction that misses the base fee is a blob transaction before it
        obtain ⟨u, hu, husub, rfl⟩ := place_eq_some.mp hpend'
        have hutail : Tail p'.allTransactions .pending
            (·.maxFeePerGas < p.allTransactions.pendingFees.baseFee) id' :=
          ⟨⟨_, hpend'⟩, id', _, hpend', rfl, le_rfl, hbad⟩
        have hu' : q.allTransactions.txs[id']? = some (restate (TxState.setFee false) u) := by
          rw [hsw1.selected _ hutail]
          exact congrArg (Option.map _) hu
        have hutype := hsw1.sound.indexed.exclusive (tx_eq_some.mpr ⟨_, hu', rfl⟩)
          (tx_eq_some.mpr ⟨t, ht, rfl⟩) hs
        have hroute := hsw1.sound.routed _ _ hu'
        have hublob := subPool_eq_blob (hroute.blob.trans (hutype.trans htype))
          (TxState.setFee_false_subPool u.state)
        refine absurd (hgood id' u.transaction ?_ hs hle).2 (Nat.not_le_of_lt hbad)
        exact place_eq_some.mpr ⟨_, hu', hublob, rfl⟩
      · exact hparked ((hsw1.untouched _ htail).symm.trans ht)
    | fall _ hsw1 =>
      by_cases hhead : Head p'.allTransactions .baseFee
          (p.allTransactions.pendingFees.baseFee ≤ ·.maxFeePerGas)
          t.transaction.id
      · -- the base fee pool holds no blob transaction
        obtain ⟨⟨tx', hplace'⟩, -⟩ := hhead
        obtain ⟨u, hu, husub, -⟩ := place_eq_some.mp hplace'
        have hroute := hacc.sound.routed _ u hu
        have hutype := (TxState.subPool_eq_baseFee.mp (hroute.subpool.symm.trans husub)).2.1
        have htxq : q.allTransactions.tx t.transaction.id =
            p'.allTransactions.tx t.transaction.id := hsw1.tx_eq _
        rw [tx_eq_some.mpr ⟨t, ht, rfl⟩, tx_eq_some.mpr ⟨u, hu, rfl⟩] at htxq
        rw [hroute.blob, ← some.inj htxq, htype] at hutype
        nomatch hutype
      · exact hparked ((hsw1.untouched _ hhead).symm.trans ht)

end

/-- **THE REPORT OF A NEW CANONICAL STATE** is exact if a rising blob fee is covered. -/
theorem CanonicalChange.exact (hp : Sound p) {mined : List TxHash}
    {changed : ExtTreeMap SenderId SenderInfo} (hch : CanonicalChange p info mined changed o p')
    (hcov : p.blobRiseCovered info mined = true) : Exact p p' o.promoted := by
  rw [exact_iff hp hch.sound]
  cases hch with | @mk p1 p2 p3 o promoted hprune hacc hfees => ?_
  cases hfees with | @mk pr1 pr2 ord q _ hbase hblob => ?_
  intro tx
  have hp1 := hprune.sound.withFees (nextFees p.allTransactions.pendingFees info)
  -- what is pending in the pruned pool was pending before, and what was pending and is
  -- still there is pending in the pruned pool
  have hback : p1.allTransactions.tx tx.id = some tx →
      p.allTransactions.place tx.id = some (.pending, tx) →
      p1.allTransactions.place tx.id = some (.pending, tx) := by
    intro htx hbefore
    obtain ⟨t, ht, rfl⟩ := tx_eq_some.mp htx
    have hplace := place_of_get ht
    rw [(hprune.place_before hplace).1] at hbefore
    rw [hplace, hbefore]
  have htx2 : p2.allTransactions.tx tx.id = some tx → p1.allTransactions.tx tx.id = some tx :=
    fun h => hacc.tx_before hp1 h
  obtain ⟨f1, sel1, hsw1⟩ := hbase.swung
  obtain ⟨f2, sel2, hsw2⟩ := hblob.swung
  have htxq : q.allTransactions.tx tx.id = p2.allTransactions.tx tx.id := hsw1.tx_eq tx.id
  have htx3 : p3.allTransactions.tx tx.id = q.allTransactions.tx tx.id := hsw2.tx_eq tx.id
  rw [mem_append, mem_append]
  constructor
  · rintro (hin | hin | hin)
    · have hnew := (hacc.promoted tx).mp hin
      refine ⟨?_, fun hbefore => hnew.2 (hback (htx2 (tx_of_place hnew.1)) hbefore)⟩
      have hq := hbase.keeps_promoted hacc hp1 hnew
      cases hblob with
      | same => exact hq
      | fall _ hsw => exact (hsw.place_eq (not_head_of_pending (by decide) hq)).trans hq
      | rise hlt _ hsw =>
        refine (hsw.place_eq ?_).trans hq
        rintro ⟨-, id', tx', hpend, hs, hle, htype', hno⟩
        have hrise : p.allTransactions.pendingFees.blobFee <
            (nextFees p.allTransactions.pendingFees info).blobFee := by
          rw [hbase.context.pendingFees] at hlt
          exact hlt
        have htx' : p1.allTransactions.tx id' = some tx' :=
          hacc.tx_before hp1 ((hsw1.tx_eq id').symm.trans (tx_of_place hpend))
        obtain ⟨t', ht', rfl⟩ := tx_eq_some.mp htx'
        obtain ⟨t, ht, rfl⟩ := tx_eq_some.mp (htx2 (tx_of_place hnew.1))
        -- the promoted transaction was a parked blob transaction
        have htype := hprune.sound.indexed.exclusive (tx_eq_some.mpr ⟨t', ht', rfl⟩)
          (tx_eq_some.mpr ⟨t, ht, rfl⟩) hs
        have hroute := hprune.sound.routed _ t ht
        have hsub : t.subpool = .blob := by
          rw [hroute.subpool]
          refine subPool_eq_blob (hroute.blob.trans (htype.symm.trans htype')) fun hsub => ?_
          exact hnew.2 (place_eq_some.mpr ⟨t, ht, hroute.subpool.trans hsub, rfl⟩)
        obtain ⟨hplace, hmined⟩ := hprune.place_before (place_of_get ht)
        rw [hsub] at hplace
        rw [covers_of_blobRiseCovered hcov hrise hplace hmined
          (tx_of_place (hprune.place_before (place_of_get ht')).1) hs hle] at hno
        nomatch hno
    · have hnew := (hsw1.promoted tx).mp hin
      refine ⟨?_, fun hbefore => ?_⟩
      · cases hbase with
        | rise | same => nomatch hin
        | fall =>
          cases hblob with
          | rise _ ho | same _ ho => exact absurd rfl ho
          | fall _ hsw =>
            exact (hsw.place_eq (not_head_of_pending (by decide) hnew.1)).trans hnew.1
      · exact hbase.not_promoted hacc hp1 hin
          (hback (htx2 (htxq.symm.trans (tx_of_place hnew.1))) hbefore)
    · have hnew := (hsw2.promoted tx).mp hin
      refine ⟨hnew.1, fun hbefore => ?_⟩
      exact BlobFeeSwing.not_promoted hacc hp1 hbase hblob hin
        (hback (htx2 (htxq.symm.trans (htx3.symm.trans (tx_of_place hnew.1)))) hbefore)
  · rintro ⟨hnow, hbefore⟩
    by_cases hq : q.allTransactions.place tx.id = some (.pending, tx)
    · by_cases h2 : p2.allTransactions.place tx.id = some (.pending, tx)
      · refine .inl ((hacc.promoted tx).mpr ⟨h2, fun h1 => hbefore ?_⟩)
        exact (hprune.place_before h1).1
      · exact .inr (.inl ((hsw1.promoted tx).mpr ⟨hq, h2⟩))
    · exact .inr (.inr ((hsw2.promoted tx).mpr ⟨hnow, hq⟩))

/-! ## Reachable pools -/

variable [LinearOrder V]

/-- **PROMOTION REPORTS** in every reachable pool: of an account update, always exact; of a
    submission, if it is rejected, becomes pending, or all before it that can be paid are pending;
    of a new canonical state, if a rising blob fee is covered. -/
theorem reports_exact {p : TxPool V} (h : Reachable p) :
    (∀ changed o p', p.updateAccounts changed = some (o, p') → Exact p p' o.promoted) ∧
    (∀ tx onChainBalance onChainNonce onChainCodeHash r p',
      p.addTransaction tx onChainBalance onChainNonce onChainCodeHash = some (r, p') →
      (Exact p p' (reportedPending r) ↔
        (p.accepts tx onChainBalance onChainNonce onChainCodeHash = true →
          (p.allTransactions.payable tx onChainBalance onChainNonce
              (tx.nonce - onChainNonce + 1)).isSome = true ∨
            p.leavesParked tx onChainBalance onChainNonce))) ∧
    ∀ info mined changed o p', p.onCanonicalStateChange info mined changed = some (o, p') →
      p.blobRiseCovered info mined = true → Exact p p' o.promoted := by
  have hp := h.sound
  refine ⟨?_, ?_, ?_⟩
  · intro changed o p' hrun
    obtain ⟨o', q, heq, hacc⟩ := updateAccounts_spec hp changed
    rw [heq] at hrun
    cases hrun
    exact (exact_iff hp hacc.sound).mpr hacc.promoted
  · intro tx onChainBalance onChainNonce onChainCodeHash r p' hrun
    exact exact_addTransaction hp hrun
  · intro info mined changed o p' hrun hcov
    obtain ⟨o', q, heq, hch⟩ := onCanonicalStateChange_spec hp info mined changed
    rw [heq] at hrun
    cases hrun
    exact hch.exact hp hcov

/-- A transaction waits for balance. One with a nonce gap brings it: it is parked and reports
    nothing, and the first one is pending now. -/
theorem parked_promotes_silently :
    ∃ (p p' : TxPool Nat) (r : Except PoolError AddedTransaction), Reachable p
      ∧ p.addTransaction (sampleTx 2 1 5 1 100 none) 5000#256 0 none = some (r, p')
      ∧ reportedPending r = []
      ∧ p'.subpoolGet .pending ⟨1, 0⟩ = some (sampleTx 1 1 0 100 100 none)
      ∧ p.subpoolGet .pending ⟨1, 0⟩ = none := by
  have hrun : (run 9 [.addTransaction (sampleTx 1 1 0 100 100 none) 50#256 0 none]
      (samplePool .default)).any (fun p =>
        p.subpoolGet .pending ⟨1, 0⟩ == none &&
          (p.addTransaction (sampleTx 2 1 5 1 100 none) 5000#256 0 none).any (fun r =>
            reportedPending r.1 == [] &&
              r.2.subpoolGet .pending ⟨1, 0⟩ == some (sampleTx 1 1 0 100 100 none))) = true := by
    decide +kernel
  obtain ⟨p, hp, hcheck⟩ := (any_eq_true _ _).mp hrun
  rw [Bool.and_eq_true, beq_iff_eq] at hcheck
  obtain ⟨⟨r, p'⟩, hadd, hr⟩ := (any_eq_true _ _).mp hcheck.2
  rw [Bool.and_eq_true, beq_iff_eq, beq_iff_eq] at hr
  exact ⟨p, p', r, reachable_samplePool hp, hadd, hr.1, hr.2, hcheck.1⟩

theorem reports_exact_sample :
    ∃ (p p' : TxPool Nat) (r : Except PoolError AddedTransaction),
      run 9 [.addTransaction (sampleTx 1 1 0 100 100 none) 50#256 0 none] (samplePool .default)
        = some p
      ∧ p.addTransaction (sampleTx 2 1 1 1 100 none) 5000#256 0 none = some (r, p')
      ∧ reportedPending r = [sampleTx 2 1 1 1 100 none, sampleTx 1 1 0 100 100 none]
      ∧ Exact p p' (reportedPending r) := by
  have hrun : (run 9 [.addTransaction (sampleTx 1 1 0 100 100 none) 50#256 0 none]
      (samplePool .default)).any (fun p =>
        (p.allTransactions.payable (sampleTx 2 1 1 1 100 none) 5000#256 0 2).isSome &&
          (p.addTransaction (sampleTx 2 1 1 1 100 none) 5000#256 0 none).any (fun r =>
            reportedPending r.1 == [sampleTx 2 1 1 1 100 none, sampleTx 1 1 0 100 100 none]))
      = true := by
    decide +kernel
  obtain ⟨p, hp, hcheck⟩ := (any_eq_true _ _).mp hrun
  rw [Bool.and_eq_true] at hcheck
  obtain ⟨⟨r, p'⟩, hadd, hr⟩ := (any_eq_true _ _).mp hcheck.2
  exact ⟨p, p', r, hp, hadd, beq_iff_eq.mp hr,
    ((reports_exact (reachable_samplePool hp)).2.1 _ _ _ _ _ _ hadd).mpr fun _ => .inl hcheck.1⟩

end TxPool

end TransactionPool
