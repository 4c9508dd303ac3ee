import Pasifika.Pool.Promotions

/-! # Balance checks over whole senders

The transactions of a sender with consecutive nonces from its state nonce on form a
PREFIX. A transaction of the prefix has enough balance if the costs up to it, added
up without a bound, are covered by the balance last given for the sender.

`insert_tx` and `update` carry a cumulative cost through the prefix in 256-bit
arithmetic, which wraps. They agree with the unbounded sum as long as the costs of a
sender fit, and a submission that is refused after its account data was taken over
leaves the flags as they were. -/

namespace TransactionPool

open Std (ExtTreeMap)
open OrderedMap AllTransactions List Option Nat Bool BitVec

variable {V : Type}

/-! ## Prefixes and their costs -/

namespace AllTransactions

/-- The cost of the transaction with an id; nothing costs nothing. -/
def costAt (a : AllTransactions) (id : TransactionId) : Nat :=
  a.txs[id]?.elim 0 (fun t => t.transaction.cost.toNat)

/-- What the next transactions of a sender from a nonce on cost, without a bound. -/
def prefixCost (a : AllTransactions) (s : SenderId) (n : Nat) : Nat → Nat
  | 0 => 0
  | d + 1 => a.prefixCost s n d + a.costAt ⟨s, n + d⟩

/-- What all transactions of a sender cost. -/
def senderCost (a : AllTransactions) (s : SenderId) : Nat :=
  total (fun t => if t.transaction.senderId = s then t.transaction.cost.toNat else 0) a.txs

/-- No run of consecutive nonces costs more than 256 bits can hold. -/
def CostsFit (a : AllTransactions) : Prop := ∀ s n d, a.prefixCost s n d < 2 ^ 256

section

variable {a a' : AllTransactions} {s : SenderId} {n : Nat} {d : Nat}

theorem prefixCost_le (h : ∀ i < d, a'.costAt ⟨s, n + i⟩ ≤ a.costAt ⟨s, n + i⟩) :
    a'.prefixCost s n d ≤ a.prefixCost s n d := by
  induction d with
  | zero => exact le_rfl
  | succ d ih =>
    exact Nat.add_le_add (ih fun i hi => h i (lt_succ_of_lt hi)) (h d (lt_succ_self d))

theorem prefixCost_congr (h : ∀ i < d, a'.costAt ⟨s, n + i⟩ = a.costAt ⟨s, n + i⟩) :
    a'.prefixCost s n d = a.prefixCost s n d :=
  le_antisymm (prefixCost_le fun i hi => le_of_eq (h i hi))
    (prefixCost_le fun i hi => le_of_eq (h i hi).symm)

theorem Indexed.prefixCost_le_senderCost (h : Indexed a) (s : SenderId) (n d : Nat) :
    a.prefixCost s n d ≤ a.senderCost s := by
  have hsum : ∀ d, a.prefixCost s n d =
      (((range d).map fun i => (⟨s, n + i⟩ : TransactionId)).map (fun id =>
        a.txs[id]?.elim 0 (fun t =>
          if t.transaction.senderId = s then t.transaction.cost.toNat else 0))).sum := by
    intro d
    induction d with
    | zero => rfl
    | succ d ih =>
      rw [prefixCost, ih, range_succ, map_append, map_append, List.sum_append]
      refine congrArg _ ?_
      show a.costAt _ = (a.txs[TransactionId.mk s (n + d)]?.elim 0 _) + 0
      rw [costAt]
      cases ht : a.txs[TransactionId.mk s (n + d)]? with
      | none => rfl
      | some t =>
        have hs : t.transaction.senderId = s := congrArg TransactionId.sender (h.key ht)
        show _ = (if t.transaction.senderId = s then _ else 0) + 0
        rw [if_pos hs]
        rfl
  rw [hsum]
  refine sum_lookup_le_total (Nodup.map (fun i j hij => ?_) nodup_range)
  exact add_left_cancel (TransactionId.mk.inj hij).2

end

theorem add_le_iff (h : x + cost.toNat < 2 ^ 256) :
    BitVec.ofNat 256 x + cost ≤ balance ↔ x + cost.toNat ≤ balance.toNat := by
  rw [le_def, toNat_add, toNat_ofNat, mod_add_mod, mod_eq_of_lt h]

theorem ofNat_add_cost (x : Nat) (cost : U256) :
    BitVec.ofNat 256 x + cost = BitVec.ofNat 256 (x + cost.toNat) := by
  rw [BitVec.ofNat_add, BitVec.ofNat_toNat, BitVec.setWidth_eq]

end AllTransactions

/-! ## Exact balance checks -/

/-- **BALANCE CHECKS ARE EXACT**: the unbounded sum of the costs up to a transaction is compared
    with the balance last given. -/
def BalancesExact (p : TxPool V) : Prop :=
  ∀ (s : SenderId) (info : SenderInfo), p.senderInfo[s]? = some info →
    ∀ (d : Nat) (t : PoolInternalTransaction),
      (∀ i < d, p.allTransactions.txs[(⟨s, info.stateNonce + i⟩ : TransactionId)]? ≠ none) →
      p.allTransactions.txs[(⟨s, info.stateNonce + d⟩ : TransactionId)]? = some t →
      (t.state.enoughBalance = true ↔
        p.allTransactions.prefixCost s info.stateNonce (d + 1) ≤ info.balance.toNat)

/-- Entries that are left keep their transaction and their balance flag. -/
def KeepsBalances (a a' : AllTransactions) : Prop :=
  ∀ (id : TransactionId) (t' : PoolInternalTransaction), a'.txs[id]? = some t' →
    ∃ t, a.txs[id]? = some t ∧ t'.transaction = t.transaction ∧
      t'.state.enoughBalance = t.state.enoughBalance

section

variable {a a' a'' : AllTransactions}

theorem KeepsBalances.refl (a : AllTransactions) : KeepsBalances a a :=
  fun _ t ht => ⟨t, ht, rfl, rfl⟩

theorem KeepsBalances.trans (h : KeepsBalances a a') (h' : KeepsBalances a' a'') :
    KeepsBalances a a'' := by
  intro id t'' ht''
  obtain ⟨t', ht', htx', hb'⟩ := h' id t'' ht''
  obtain ⟨t, ht, htx, hb⟩ := h id t' ht'
  exact ⟨t, ht, htx'.trans htx, hb'.trans hb⟩

theorem KeepsBalances.costAt_eq (h : KeepsBalances a a') {id : TransactionId}
    (hsome : a'.txs[id]? ≠ none) : a'.costAt id = a.costAt id := by
  obtain ⟨t', ht'⟩ := ne_none_iff_exists'.mp hsome
  obtain ⟨t, ht, htx, -⟩ := h id t' ht'
  rw [costAt, costAt, ht', ht, elim_some, elim_some, htx]

theorem KeepsBalances.costsFit (h : KeepsBalances a a') (hfit : CostsFit a) : CostsFit a' := by
  intro s n d
  refine lt_of_le_of_lt (prefixCost_le fun i _ => ?_) (hfit s n d)
  by_cases hnone : a'.txs[TransactionId.mk s (n + i)]? = none
  · rw [costAt, hnone]
    exact zero_le _
  · exact le_of_eq (h.costAt_eq hnone)

/-- The prefix may only get shorter. -/
theorem BalancesExact.keeps {p p' : TxPool V} (h : BalancesExact p)
    (hk : KeepsBalances p.allTransactions p'.allTransactions)
    (hinfo : p'.senderInfo = p.senderInfo) : BalancesExact p' := by
  intro s info hs d t' hbelow ht'
  rw [hinfo] at hs
  obtain ⟨t, ht, -, hb⟩ := hk _ t' ht'
  rw [hb, h s info hs d t (fun i hi hnone => ?_) ht]
  · have heq : p'.allTransactions.prefixCost s info.stateNonce (d + 1) =
        p.allTransactions.prefixCost s info.stateNonce (d + 1) := by
      refine prefixCost_congr fun i hi => hk.costAt_eq ?_
      rcases lt_or_eq_of_le (le_of_lt_succ hi) with hlt | rfl
      · exact hbelow i hlt
      · rw [ht']
        exact some_ne_none t'
    rw [heq]
  · obtain ⟨u', hu'⟩ := ne_none_iff_exists'.mp (hbelow i hi)
    obtain ⟨u, hu, -⟩ := hk _ u' hu'
    rw [hu] at hnone
    nomatch hnone

end

/-! ## Insertion -/

namespace AllTransactions

variable {a : AllTransactions} {tx : ValidPoolTransaction} {balance : U256} {nonce : Nat}

theorem tx_insertSweep (id : TransactionId) :
    ({ a.placed tx nonce with
      txs := (a.insertSweep tx balance nonce).2.1 } : AllTransactions).costAt id =
      (a.placed tx nonce).costAt id := by
  show (a.insertSweep tx balance nonce).2.1[id]?.elim 0 _ = _
  cases ht : (a.placed tx nonce).txs[id]? with
  | none =>
    rw [insertSweep, sweep_get_eq_none (fun e he => mem_toList.mp
      ((descendantTxsInclusive_sublist _ _).subset he)) ht, costAt, ht]
  | some t =>
    by_cases hin : id.sender = tx.senderId ∧ nonce ≤ id.nonce
    · rw [insertSweep_at ht hin.1 hin.2, costAt, ht, elim_some, elim_some]
      exact congrArg (fun tx => BitVec.toNat (ValidPoolTransaction.cost tx))
        (insertVisit_transaction _ _ _ _ _)
    · rw [insertSweep_other (by
        rcases Decidable.not_and_iff_or_not.mp hin with h | h
        · exact .inl h
        · exact .inr (Nat.lt_of_not_le h)), ht, costAt, ht]

/-- The cumulative cost that is carried is the cost of the prefix, in 256 bits. -/
theorem insertCursor_cost (d : Nat) (t : PoolInternalTransaction)
    (ht : (a.placed tx nonce).txs[TransactionId.mk tx.senderId (nonce + d)]? = some t)
    (hall : ∀ i < d, (a.placed tx nonce).txs[TransactionId.mk tx.senderId (nonce + i)]? ≠ none) :
    (a.insertCursor tx balance nonce ⟨tx.senderId, nonce + d⟩).cumulativeCost
      = BitVec.ofNat 256 ((a.placed tx nonce).prefixCost tx.senderId nonce d) := by
  induction d generalizing t with
  | zero =>
    rw [add_zero] at ht ⊢
    rw [insertCursor_first ht]
    rfl
  | succ d ih =>
    obtain ⟨t0, ht0⟩ := ne_none_iff_exists'.mp (hall d (lt_succ_self d))
    have hbelow := fun i hi => hall i (lt_succ_of_lt hi)
    have hat : (a.insertCursor tx balance nonce ⟨tx.senderId, nonce + d⟩).At
        (nonce + d) := (insertCursor_at d t0 ht0).mpr hbelow
    rw [← add_assoc, insertCursor_succ (le_add_right nonce d) ht ht0,
      (insertVisited_of_at hat t0).cost, ih t0 ht0 hbelow, ofNat_add_cost, prefixCost, costAt, ht0]
    rfl

theorem prefixCost_placed (a : AllTransactions) (tx : ValidPoolTransaction) (nonce : Nat)
    (s : SenderId) (n : Nat) : ∀ d, (a.placed tx nonce).prefixCost s n d ≤
      a.prefixCost s n d +
        if s = tx.senderId ∧ n ≤ tx.nonce ∧ tx.nonce < n + d then tx.cost.toNat else 0 := by
  have hcost : ∀ id, (a.placed tx nonce).costAt id =
      if tx.id = id then tx.cost.toNat else a.costAt id := by
    intro id
    rw [costAt, txs_placed, get_insert]
    by_cases hid : tx.id = id
    · rw [if_pos hid, if_pos hid]
      rfl
    · rw [if_neg hid, if_neg hid]
      rfl
  intro d
  induction d with
  | zero => exact zero_le _
  | succ d ih =>
    rw [prefixCost, prefixCost, hcost, tx.id_eq]
    by_cases hid : (⟨tx.senderId, tx.nonce⟩ : TransactionId) = ⟨s, n + d⟩
    · obtain ⟨hs, hn⟩ := TransactionId.mk.inj hid
      rw [if_pos hid, if_pos ⟨hs.symm, by omega, by omega⟩]
      rw [if_neg fun h => absurd h.2.2 (by omega)] at ih
      omega
    · rw [if_neg hid]
      by_cases hin : s = tx.senderId ∧ n ≤ tx.nonce ∧ tx.nonce < n + d
      · rw [if_pos hin] at ih
        rw [if_pos ⟨hin.1, hin.2.1, by omega⟩]
        omega
      · rw [if_neg hin] at ih
        omega

end AllTransactions

namespace TxPool

section

variable {p p' : TxPool V} {tx : ValidPoolTransaction} {balance : U256}
  {nonce : Nat} {ok : InsertOk} {o : UpdateOutcome}

theorem Inserted.costsFit (hp : Sound p) (hfit : CostsFit p.allTransactions)
    (hcost : p.allTransactions.senderCost tx.senderId + tx.cost.toNat < 2 ^ 256) (n d : Nat)
    (s : SenderId) :
    (p.allTransactions.placed tx nonce).prefixCost s n d < 2 ^ 256 := by
  refine lt_of_le_of_lt (prefixCost_placed _ _ _ s n d) ?_
  by_cases hs : s = tx.senderId
  · subst hs
    refine lt_of_le_of_lt (Nat.add_le_add
      (hp.indexed.prefixCost_le_senderCost tx.senderId n d) ?_) hcost
    split
    · exact le_rfl
    · exact zero_le _
  · rw [if_neg (hs ·.1)]
    exact hfit s n d

/-- **INSERTION** checks the balance over the whole prefix. -/
theorem Inserted.balancesExact (hp : Sound p) (h : BalancesExact p)
    (hfit : CostsFit p.allTransactions)
    (hcost : p.allTransactions.senderCost tx.senderId + tx.cost.toNat < 2 ^ 256)
    (hin : Inserted p tx balance nonce ok o p') :
    BalancesExact p' ∧ CostsFit p'.allTransactions := by
  obtain ⟨a', hins, htxs⟩ := hin.inserts
  have hcost' : ∀ id, p'.allTransactions.costAt id =
      (p.allTransactions.placed tx nonce).costAt id := by
    intro id
    rw [← @tx_insertSweep _ _ balance nonce id, ← hins.set_eq, costAt, costAt, htxs]
  have hcosts : ∀ s n d, p'.allTransactions.prefixCost s n d =
      (p.allTransactions.placed tx nonce).prefixCost s n d :=
    fun s n d => prefixCost_congr fun i _ => hcost' _
  have hfit' : ∀ s n d, (p.allTransactions.placed tx nonce).prefixCost s n d < 2 ^ 256 :=
    fun s n d => Inserted.costsFit hp hfit hcost n d s
  have hget : ∀ id : TransactionId, p'.allTransactions.txs[id]? =
      (p.allTransactions.insertSweep tx balance nonce).2.1[id]? := by
    intro id
    rw [htxs, hins.set_eq]
  have hthere : ∀ id : TransactionId, p'.allTransactions.txs[id]? ≠ none →
      (p.allTransactions.placed tx nonce).txs[id]? ≠ none := by
    intro id hsome hnone
    rw [hget, insertSweep, sweep_get_eq_none (fun e he => mem_toList.mp
      ((descendantTxsInclusive_sublist _ _).subset he)) hnone] at hsome
    exact hsome rfl
  refine ⟨fun s info hinfo d t' hbelow ht' => ?_, fun s n d => by rw [hcosts]; exact hfit' s n d⟩
  rw [hin.context.senderInfo] at hinfo
  replace hinfo := (get_insert _ _ _ _).symm.trans hinfo
  by_cases hs : tx.senderId = s
  · -- the prefix is rechecked
    subst hs
    rw [if_pos rfl] at hinfo
    cases hinfo
    obtain ⟨t, ht⟩ := ne_none_iff_exists'.mp (hthere _ (by rw [ht']; exact some_ne_none t'))
    have hbelow' := fun i hi => hthere _ (hbelow i hi)
    have hat : (p.allTransactions.insertCursor tx balance nonce
        ⟨tx.senderId, nonce + d⟩).At (nonce + d) := (insertCursor_at d t ht).mpr hbelow'
    rw [hget, insertSweep_at ht rfl (le_add_right _ _), (insertVisited_of_at hat t).entry] at ht'
    cases ht'
    show decide (_ ≤ _) = true ↔ _
    rw [decide_eq_true_eq, insertCursor_cost d t ht hbelow', hcosts, prefixCost, costAt, ht]
    refine add_le_iff ?_
    have hlt := hfit' tx.senderId nonce (d + 1)
    rw [prefixCost, costAt, ht] at hlt
    exact hlt
  · -- other senders are left alone
    rw [if_neg hs] at hinfo
    have hsame : ∀ n, p'.allTransactions.txs[TransactionId.mk s n]? =
        p.allTransactions.txs[TransactionId.mk s n]? := by
      intro n
      rw [hget, insertSweep_other (Or.inl (Ne.symm hs)), txs_placed, get_insert_ne]
      rw [tx.id_eq]
      exact fun heq => hs (TransactionId.mk.inj heq).1
    have heq : p'.allTransactions.prefixCost s info.stateNonce (d + 1) =
        p.allTransactions.prefixCost s info.stateNonce (d + 1) :=
      prefixCost_congr fun i _ => by rw [costAt, costAt, hsame]
    rw [heq]
    refine h s info hinfo d t' (fun i hi => ?_) (hsame _ ▸ ht')
    rw [← hsame]
    exact hbelow i hi

end

/-! ## Account updates -/

section

variable {p p' : TxPool V} {changed : ExtTreeMap SenderId SenderInfo} {o : UpdateOutcome}
  {s : SenderId}

/-- The balance a sender is followed with is the one that was given. -/
theorem running_balance (hp : Sound p) : ∀ {n} {t},
    p.allTransactions.txs[TransactionId.mk s n]? = some t →
    ∀ {m} {hasParkedAncestor} {cost} {balance},
      (p.allTransactions.visited changed ⟨s, n⟩ t).1 = .running s m hasParkedAncestor cost balance →
      balance = changed[s]?.map SenderInfo.balance := by
  intro n
  induction n using Nat.strongRecOn with
  | ind n ih =>
    intro t ht m parked cost balance hrun
    have hv := hp.indexed.visited_cases changed ht
    rw [hrun] at hv
    generalize (p.allTransactions.visited changed ⟨s, n⟩ t).2.1 = t' at hv
    generalize discarding (p.allTransactions.visited changed ⟨s, n⟩ t).2.2 = d at hv
    generalize hr : Cursor.running s m parked cost balance = r at hv
    cases hv with
    | discard | gapped | skipped => nomatch hr
    | opened _ hinfo _ =>
      rw [show changed[s]? = _ from hinfo]
      exact (Cursor.running.inj hr).2.2.2.2
    | followed => exact (Cursor.running.inj hr).2.2.2.2
    | consecutive hc =>
      obtain ⟨k, t0, rfl, ht0, hprev⟩ := cursor_running hp.indexed ht hc
      rw [(Cursor.running.inj hr).2.2.2.2]
      exact ih k (lt_succ_self k) ht0 hprev

/-- Senders whose account did not change keep their flags. -/
theorem Accounted.keeps_unchanged (hacc : Accounted changed p o p') (hp : Sound p)
    (hnone : changed[s]? = none) (ht' : p'.allTransactions.txs[TransactionId.mk s n]? = some t') :
    ∃ t, p.allTransactions.txs[TransactionId.mk s n]? = some t ∧
      t'.transaction = t.transaction ∧ t'.state.enoughBalance = t.state.enoughBalance := by
  obtain ⟨t, c', ht, -, hv⟩ := hacc.entry hp ht'
  refine ⟨t, ht, hv.transaction.1, ?_⟩
  cases hv with
  | gapped | skipped | followed => rfl
  | opened _ hinfo _ =>
    rw [show changed[s]? = _ from hinfo] at hnone
    nomatch hnone
  | consecutive hc =>
    obtain ⟨k, t0, rfl, ht0, hprev⟩ := cursor_running hp.indexed ht hc
    have hbal := running_balance hp ht0 hprev
    rw [hnone] at hbal
    subst hbal
    rfl

/-- **AN ACCOUNT UPDATE** checks the balance over the whole prefix of a changed sender. -/
theorem Accounted.visits_costs (hacc : Accounted changed p o p') (hp : Sound p)
    (hinfo : changed[s]? = some info) :
    ∀ {d} {t'},
      (∀ i < d, p'.allTransactions.txs[TransactionId.mk s (info.stateNonce + i)]? ≠ none) →
      p'.allTransactions.txs[TransactionId.mk s (info.stateNonce + d)]? = some t' →
      ∃ t hasParkedAncestor,
        p.allTransactions.txs[TransactionId.mk s (info.stateNonce + d)]? = some t ∧
        (p.allTransactions.visited changed ⟨s, info.stateNonce + d⟩ t).1 =
          .running s (info.stateNonce + d + 1) hasParkedAncestor
            (BitVec.ofNat 256 (p.allTransactions.prefixCost s info.stateNonce (d + 1)))
            (some info.balance) ∧
        t'.state.enoughBalance = decide (BitVec.ofNat 256
          (p.allTransactions.prefixCost s info.stateNonce d) + t.transaction.cost
            ≤ info.balance) := by
  have hadd : ∀ {d t}, p.allTransactions.txs[TransactionId.mk s (info.stateNonce + d)]? = some t →
      BitVec.ofNat 256 (p.allTransactions.prefixCost s info.stateNonce d) + t.transaction.cost =
        BitVec.ofNat 256 (p.allTransactions.prefixCost s info.stateNonce (d + 1)) := by
    intro d t ht
    rw [ofNat_add_cost, prefixCost, costAt, ht]
    rfl
  intro d
  induction d with
  | zero =>
    intro t' _ ht'
    obtain ⟨t, c', ht, hc', hv⟩ := hacc.entry hp ht'
    have habove : ¬ info.stateNonce < info.stateNonce := lt_irrefl _
    cases hv with
    | gapped _ hinfo' _ | followed _ hinfo' _ => exact absurd (hinfo' info hinfo) habove
    | skipped hsender _ => exact absurd (hp.indexed.cursor_above ht hsender hinfo) habove
    | consecutive hc =>
      exact absurd (hp.indexed.cursor_above ht (by rw [hc]; rfl) hinfo) habove
    | opened _ hinfo' _ =>
      rw [show changed[s]? = _ from hinfo'] at hinfo
      cases hinfo
      refine ⟨t, !(firstEntry p.allTransactions.pendingFees.baseFee
        (openSender info t)).state.isPending, ht, ?_, ?_⟩
      · rw [hc', ← hadd ht]
        rfl
      · show decide (t.transaction.cost ≤ _) = decide (0#256 + t.transaction.cost ≤ _)
        rw [BitVec.zero_add]
  | succ d ih =>
    intro t' hbelow ht'
    obtain ⟨t0', ht0'⟩ := ne_none_iff_exists'.mp (hbelow d (lt_succ_self d))
    obtain ⟨t0, parked, ht0, hrun, -⟩ := ih (fun i hi => hbelow i (lt_succ_of_lt hi)) ht0'
    obtain ⟨t, c', ht, hc', hv⟩ := hacc.entry hp ht'
    -- the cursor comes from the transaction before
    have hcur : p.allTransactions.cursor changed ⟨s, info.stateNonce + (d + 1)⟩ =
        .running s (info.stateNonce + (d + 1)) parked
          (BitVec.ofNat 256 (p.allTransactions.prefixCost s info.stateNonce (d + 1)))
          (some info.balance) :=
      (cursor_of_predecessor changed ht ht0).trans hrun
    rw [hcur] at hv
    cases hv with
    | gapped hfresh | followed hfresh | opened hfresh => exact absurd rfl hfresh
    | skipped _ hno => exact absurd rfl (hno _ _ _)
    | @consecutive parked' cost balance hc =>
      obtain ⟨-, -, -, rfl, rfl⟩ := Cursor.running.inj hc
      exact ⟨t, _, ht, by rw [hc', hadd ht], rfl⟩

theorem Accounted.balancesExact (hacc : Accounted changed p o p') (hp : Sound p)
    (h : BalancesExact p) (hfit : CostsFit p.allTransactions) : BalancesExact p' := by
  have hcost : ∀ {s n t'}, p'.allTransactions.txs[TransactionId.mk s n]? = some t' →
      p'.allTransactions.costAt ⟨s, n⟩ = p.allTransactions.costAt ⟨s, n⟩ := by
    intro s n t' ht'
    obtain ⟨t, ht, htx⟩ := tx_eq_some.mp (hacc.tx_before hp (tx_eq_some.mpr ⟨t', ht', rfl⟩))
    rw [costAt, costAt, ht', ht, elim_some, elim_some, htx]
  intro s info hinfo d t' hbelow ht'
  have hcosts : p'.allTransactions.prefixCost s info.stateNonce (d + 1) =
      p.allTransactions.prefixCost s info.stateNonce (d + 1) := by
    refine prefixCost_congr fun i hi => ?_
    rcases lt_or_eq_of_le (le_of_lt_succ hi) with hlt | rfl
    · obtain ⟨u', hu'⟩ := ne_none_iff_exists'.mp (hbelow i hlt)
      exact hcost hu'
    · exact hcost ht'
  rw [hacc.senderInfo, get_extend] at hinfo
  rw [hcosts]
  cases hch : changed[s]? with
  | some info' =>
    rw [hch] at hinfo
    cases hinfo
    obtain ⟨t, parked, ht, -, hflag⟩ := hacc.visits_costs hp hch hbelow ht'
    have hlt := hfit s info.stateNonce (d + 1)
    rw [prefixCost, costAt, ht] at hlt ⊢
    rw [hflag, decide_eq_true_eq]
    exact add_le_iff hlt
  | none =>
    rw [hch] at hinfo
    obtain ⟨t, ht, -, hflag⟩ := hacc.keeps_unchanged hp hch ht'
    rw [hflag]
    refine h s info hinfo d t (fun i hi hnone => ?_) ht
    obtain ⟨u', hu'⟩ := ne_none_iff_exists'.mp (hbelow i hi)
    obtain ⟨u, hu, -⟩ := hacc.keeps_unchanged hp hch hu'
    rw [hu] at hnone
    nomatch hnone

theorem Accounted.costsFit (hacc : Accounted changed p o p') (hp : Sound p)
    (hfit : CostsFit p.allTransactions) : CostsFit p'.allTransactions := by
  intro s n d
  refine lt_of_le_of_lt (prefixCost_le fun i _ => ?_) (hfit s n d)
  cases ht' : p'.allTransactions.txs[TransactionId.mk s (n + i)]? with
  | none =>
    rw [costAt, ht']
    exact zero_le _
  | some t' =>
    obtain ⟨t, ht, htx⟩ := tx_eq_some.mp (hacc.tx_before hp (tx_eq_some.mpr ⟨t', ht', rfl⟩))
    rw [costAt, costAt, ht', ht, elim_some, elim_some, htx]

end

/-! ## Pruning, removals and fees -/

section

variable {p p' : TxPool V} {promoted : List ValidPoolTransaction} {o : Ordering} {fee : Nat}

theorem Pruned.keeps (h : Pruned mined p p') :
    KeepsBalances p.allTransactions p'.allTransactions := by
  intro id t' ht'
  rw [h.txs] at ht'
  exact ⟨t', (filter_eq_some_iff.mp ht').1, rfl, rfl⟩

theorem Removed.keeps (h : Removed p p') : KeepsBalances p.allTransactions p'.allTransactions := by
  intro id t' ht'
  obtain ⟨t, ht, rfl | rfl⟩ := h.trimmed.entries id t' ht'
  · exact ⟨t', ht, rfl, rfl⟩
  · exact ⟨t, ht, rfl, rfl⟩

theorem Swung.keeps (h : Swung f sel p promoted p')
    (hf : ∀ s, (f s).enoughBalance = s.enoughBalance) :
    KeepsBalances p.allTransactions p'.allTransactions := by
  intro id t' ht'
  by_cases hsel : sel id
  · rw [h.selected id hsel] at ht'
    obtain ⟨t, ht, rfl⟩ := map_eq_some_iff.mp ht'
    exact ⟨t, ht, rfl, hf t.state⟩
  · rw [h.untouched id hsel] at ht'
    exact ⟨t', ht', rfl, rfl⟩

theorem BasefeeSwing.keeps (h : BasefeeSwing p fee promoted o p') :
    KeepsBalances p.allTransactions p'.allTransactions := by
  cases h with
  | rise _ hsw => exact hsw.keeps (fun _ => rfl)
  | same => exact .refl _
  | fall _ hsw => exact hsw.keeps fun _ => rfl

theorem BlobFeeSwing.keeps (h : BlobFeeSwing p fee o promoted p') :
    KeepsBalances p.allTransactions p'.allTransactions := by
  cases h with
  | rise _ _ hsw => exact hsw.keeps (fun _ => rfl)
  | same => exact .refl _
  | fall _ hsw => exact hsw.keeps fun _ => rfl

theorem FeesSwing.keeps (h : FeesSwing p fees promoted p') :
    KeepsBalances p.allTransactions p'.allTransactions := by
  obtain ⟨hbase, hblob⟩ := h
  exact hbase.keeps.trans hblob.keeps

theorem BlockSwing.keeps (h : BlockSwing p info p') :
    KeepsBalances p.allTransactions p'.allTransactions ∧ p'.senderInfo = p.senderInfo := by
  cases h with
  | base _ hbase => exact ⟨hbase.keeps, hbase.context.senderInfo⟩
  | both _ hbase hblob =>
    exact ⟨hbase.keeps.trans hblob.keeps, hblob.context.senderInfo.trans hbase.context.senderInfo⟩

end

/-! ## Runs -/

/-- What a run preserves. -/
structure Balanced (p : TxPool V) : Prop where
  sound : Sound p
  exact : BalancesExact p
  fit : CostsFit p.allTransactions

/-- **WHAT A SUBMISSION MUST MEET**: the sender's costs fit in 256 bits with the new one, and a
    refused one comes with the account data last given, unless the pool has nothing of the sender.
    -/
def balanceKnown (p : TxPool V) : Op → Bool
  | .addTransaction tx onChainBalance onChainNonce onChainCodeHash =>
    if p.accepts tx onChainBalance onChainNonce onChainCodeHash then
      decide (p.allTransactions.senderCost tx.senderId + tx.cost.toNat < 2 ^ 256)
    else
      p.allTransactions.contains tx.hash ||
        !(p.validateAuth tx onChainNonce onChainCodeHash).isOk ||
        p.senderInfo[tx.senderId]? == some ⟨onChainNonce, onChainBalance⟩ ||
        p.allTransactions.txs.toList.all (fun e => decide (e.1.sender ≠ tx.senderId))
  | _ => true

section

variable {p p' : TxPool V}

theorem Balanced.keeps (h : Balanced p) (hs : Sound p')
    (hk : KeepsBalances p.allTransactions p'.allTransactions)
    (hinfo : p'.senderInfo = p.senderInfo) : Balanced p' :=
  ⟨hs, h.exact.keeps hk hinfo, hk.costsFit h.fit⟩

variable {changed : ExtTreeMap SenderId SenderInfo} {r : Except PoolError AddedTransaction}

theorem Accounted.balanced (hacc : Accounted changed p o p') (h : Balanced p) :
    Balanced p' :=
  ⟨hacc.sound, hacc.balancesExact h.sound h.exact h.fit, hacc.costsFit h.sound h.fit⟩

variable {nonce : Nat} {balance : U256} {tx : ValidPoolTransaction}

/-- Account data that a refused submission came with. -/
theorem Balanced.withSender (h : Balanced p)
    (hknown : p.senderInfo[tx.senderId]? = some ⟨nonce, balance⟩ ∨
      ∀ n, p.allTransactions.txs[TransactionId.mk tx.senderId n]? = none) :
    Balanced (p.withSender tx.senderId ⟨nonce, balance⟩) := by
  refine ⟨⟨h.sound.indexed, h.sound.routed, h.sound.located.congr rfl rfl rfl rfl⟩, ?_, h.fit⟩
  intro s info hinfo d t hbelow ht
  replace hinfo := (get_insert _ _ _ _).symm.trans hinfo
  by_cases hs : tx.senderId = s
  · subst hs
    rcases hknown with hsame | hnone
    · rw [if_pos rfl] at hinfo
      exact h.exact _ info (hsame.trans hinfo) d t hbelow ht
    · exact nomatch (hnone _).symm.trans ht
  · rw [if_neg hs] at hinfo
    exact h.exact s info hinfo d t hbelow ht

variable {onChainCodeHash : Option Nat}

/-- A submission that is refused changes at most the account data. -/
theorem addTransaction_refused (hp : Sound p)
    (hrun : p.addTransaction tx balance nonce onChainCodeHash = some (r, p'))
    (hno : p.accepts tx balance nonce onChainCodeHash = false) :
    p' = p ∨ (p.allTransactions.contains tx.hash = false
      ∧ (p.validateAuth tx nonce onChainCodeHash).isOk = true
      ∧ p' = p.withSender tx.senderId ⟨nonce, balance⟩) := by
  have hok := isOk_addTransaction hrun
  rw [hno] at hok
  rcases addTransaction_spec hp tx balance nonce onChainCodeHash with
    ⟨r', q, heq, hadds⟩ | ⟨heq, -⟩
  · rw [heq] at hrun
    cases hrun
    cases hadds with
    | rejected => exact .inl rfl
    | inserted => cases hok
    | refused e =>
      rw [addTransaction] at heq
      cases hcon : p.allTransactions.contains tx.hash with
      | true =>
        rw [hcon] at heq
        exact .inl (Prod.mk.inj (some.inj heq)).2.symm
      | false =>
        rw [hcon] at heq
        cases hauth : p.validateAuth tx nonce onChainCodeHash with
        | error e' =>
          rw [hauth] at heq
          exact .inl (Prod.mk.inj (some.inj heq)).2.symm
        | ok u => exact .inr ⟨rfl, rfl, rfl⟩
  · rw [heq] at hrun
    cases hrun

theorem Balanced.addTransaction (h : Balanced p)
    (hrun : p.addTransaction tx balance nonce onChainCodeHash = some (r, p'))
    (hknown : p.balanceKnown (.addTransaction tx balance nonce onChainCodeHash) = true) :
    Balanced p' := by
  rw [balanceKnown] at hknown
  cases hacc : p.accepts tx balance nonce onChainCodeHash with
  | true =>
    rw [hacc, if_pos rfl, decide_eq_true_eq] at hknown
    have hok := isOk_addTransaction hrun
    rw [hacc] at hok
    rcases addTransaction_spec h.sound tx balance nonce onChainCodeHash with
      ⟨r', q, heq, hadds⟩ | ⟨heq, -⟩
    · rw [heq] at hrun
      cases hrun
      cases hadds with
      | rejected | refused => nomatch hok
      | inserted hin =>
        obtain ⟨hex, hfit⟩ := hin.balancesExact h.sound h.exact h.fit hknown
        exact ⟨hin.sound, hex, hfit⟩
    · rw [heq] at hrun
      nomatch hrun
  | false =>
    rw [hacc] at hknown
    rcases addTransaction_refused h.sound hrun hacc with rfl | ⟨hcon, hauth, rfl⟩
    · exact h
    · rw [hcon, hauth] at hknown
      refine h.withSender ?_
      rcases or_eq_true_iff.mp hknown with hsame | hall
      · exact .inl (beq_iff_eq.mp hsame)
      · refine .inr (fun n => eq_none_iff_forall_ne_some.mpr fun t ht => ?_)
        have hne := all_eq_true.mp hall _ (mem_toList.mpr ht)
        exact of_decide_eq_true hne rfl

variable [LinearOrder V]

/-- **ONE STEP.** -/
theorem Balanced.step (h : Balanced p) (hknown : p.balanceKnown op = true) (hstep : Step p op p') :
    Balanced p' := by
  cases step_cases h.sound hstep with
  | adds =>
    obtain ⟨fuel, hrun⟩ := hstep
    obtain ⟨⟨r, q⟩, heq, rfl⟩ := map_eq_some_iff.mp hrun
    exact h.addTransaction heq hknown
  | canonical hch =>
    have hs := hch.sound
    obtain ⟨hprune, hacc, hfees⟩ := hch
    have h1 := h.keeps hprune.sound hprune.keeps hprune.context.senderInfo
    have h2 := hacc.balanced (h1.keeps (h1.sound.withFees _) (fun _ t ht => ⟨t, ht, rfl, rfl⟩) rfl)
    exact h2.keeps hs hfees.keeps hfees.context.senderInfo
  | block hsw =>
    exact h.keeps hsw.sound hsw.keeps.1 hsw.keeps.2
  | accounts hacc => exact hacc.balanced h
  | removes hrm => exact h.keeps hrm.sound hrm.keeps hrm.context.senderInfo

end

variable [LinearOrder V]

/-- **BALANCE CHECKS ARE EXACT IN EVERY RUN** whose submissions fit and are not refused with new
    account data; no cost wraps. -/
theorem balances_exact_of_run {ordering : TransactionOrdering V} {blobTxPriority : BlobTxPriority}
    {config : PoolConfig} {p : TxPool V}
    (h : Runs.ReachedBy Step (fun p op => p.balanceKnown op = true)
      (TxPool.new ordering blobTxPriority config) p) :
    BalancesExact p ∧ CostsFit p.allTransactions := by
  have hb : Balanced p := by
    refine h.invariant (I := Balanced) ?_ fun s op s' _ hs hg hstep => hs.step hg hstep
    have hempty : ∀ id : TransactionId,
        (TxPool.new ordering blobTxPriority config).allTransactions.txs[id]? = none :=
      fun id => ExtTreeMap.getElem?_empty
    refine ⟨sound_new ordering blobTxPriority config, fun s info _ d t _ ht => ?_, fun s n d => ?_⟩
    · exact nomatch (hempty _).symm.trans ht
    have hzero : ∀ d, (TxPool.new ordering blobTxPriority config).allTransactions.prefixCost s n d
        = 0 := by
      intro d
      induction d with
      | zero => rfl
      | succ d ih => rw [prefixCost, ih, costAt, hempty]; rfl
    rw [hzero]
    decide
  exact ⟨hb.exact, hb.fit⟩

/-- Two transactions cost the whole balance of `2 ^ 255` each: the sum wraps to zero and the second
    counts as covered. -/
theorem wrapped_cost_is_covered :
    ∃ (p : TxPool Nat) (t : PoolInternalTransaction), Reachable p
      ∧ p.senderInfo[1]? = some ⟨0, BitVec.ofNat 256 (2 ^ 255)⟩
      ∧ p.allTransactions.txs[(⟨1, 0⟩ : TransactionId)]? ≠ none
      ∧ p.allTransactions.txs[(⟨1, 1⟩ : TransactionId)]? = some t
      ∧ t.state.enoughBalance = true
      ∧ p.allTransactions.prefixCost 1 0 2 = 2 ^ 256 ∧ ¬ BalancesExact p := by
  have hrun : (run 9
      [.addTransaction (sampleTx 1 1 0 (2 ^ 255) 100 none) (BitVec.ofNat 256 (2 ^ 255)) 0 none,
       .addTransaction (sampleTx 2 1 1 (2 ^ 255) 100 none) (BitVec.ofNat 256 (2 ^ 255)) 0 none]
      (samplePool .default)).any (fun p =>
        p.senderInfo[1]? == some ⟨0, BitVec.ofNat 256 (2 ^ 255)⟩ &&
          (p.allTransactions.txs[(⟨1, 0⟩ : TransactionId)]?.isSome &&
          (p.allTransactions.txs[(⟨1, 1⟩ : TransactionId)]?.any (·.state.enoughBalance) &&
            p.allTransactions.prefixCost 1 0 2 == 2 ^ 256))) = true := by
    decide +kernel
  obtain ⟨p, hp, hcheck⟩ := (any_eq_true _ _).mp hrun
  rw [and_eq_true, and_eq_true, and_eq_true, beq_iff_eq, beq_iff_eq, isSome_iff_ne_none] at hcheck
  obtain ⟨hinfo, hfirst, hsecond, hcost⟩ := hcheck
  obtain ⟨t, ht, hflag⟩ := (any_eq_true _ _).mp hsecond
  refine ⟨p, t, reachable_samplePool hp, hinfo, hfirst, ht, hflag, hcost, fun hex => ?_⟩
  have hle := (hex 1 _ hinfo 1 t (fun i hi => by
    rw [lt_one_iff.mp hi]
    exact hfirst) ht).mp hflag
  rw [hcost] at hle
  exact absurd hle (by decide)

theorem balances_exact_of_run_sample :
    ∃ (p : TxPool Nat) (t t' : PoolInternalTransaction),
      p.allTransactions.txs[(⟨1, 0⟩ : TransactionId)]? = some t ∧ t.state.enoughBalance = true
      ∧ p.allTransactions.txs[(⟨1, 1⟩ : TransactionId)]? = some t'
      ∧ t'.state.enoughBalance = false
      ∧ BalancesExact p ∧ CostsFit p.allTransactions := by
  obtain ⟨p, hp, hcheck⟩ := Runs.exists_of_apply apply balanceKnown 9
    [.addTransaction (sampleTx 1 1 0 60 100 none) 100#256 0 none,
     .addTransaction (sampleTx 2 1 1 60 100 none) 100#256 0 none,
     .setBlockInfo ⟨0, 1, 30000000, 60, some 4⟩] (samplePool .default)
    (fun p => p.allTransactions.txs[(⟨1, 0⟩ : TransactionId)]?.any (·.state.enoughBalance) &&
      p.allTransactions.txs[(⟨1, 1⟩ : TransactionId)]?.any (!·.state.enoughBalance))
    (by decide +kernel)
  rw [and_eq_true] at hcheck
  obtain ⟨t, ht, hflag⟩ := (any_eq_true _ _).mp hcheck.1
  obtain ⟨t', ht', hflag'⟩ := (any_eq_true _ _).mp hcheck.2
  exact ⟨p, t, t', ht, hflag, ht', (not_eq_true' _).mp hflag', balances_exact_of_run hp⟩

end TxPool

end TransactionPool
