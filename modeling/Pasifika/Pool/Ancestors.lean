import Pasifika.Pool.InsertPass
import Pasifika.Pool.Reachable

/-! # Ancestors of pending transactions

A pending transaction should have all of its ancestors down to the sender's
state nonce in the pending sub-pool. `Chained` is the local form of this: a
transaction without a nonce gap has its predecessor in the pool, also without
a gap; a transaction without parked ancestors has a ready predecessor; and a
pending one has a pending predecessor.

Fee swings, removals and insertions keep the chains. The account pass reads
the pending state of a predecessor before it refreshes that predecessor's fee
flag, so it keeps them only when no flag it reads is stale. -/

namespace TransactionPool

open Std (ExtTreeMap)
open OrderedMap AllTransactions List Option Nat Bool TxState

variable {V : Type}

/-! ## Chains -/

/-- What an entry may rely on about its predecessor `t₀`. -/
structure Linked (t₀ t : PoolInternalTransaction) : Prop where
  gapless : t₀.state.noNonceGaps = true
  ready : t.state.noParkedAncestors = true → t₀.state.ready = true
  pending : t.subpool = .pending → t₀.subpool = .pending

/-- **CHAINS**: above the state nonces `nonces`, entries without a gap are linked
    to their predecessors. -/
def Chained (nonces : SenderId → Nat) (a : AllTransactions) : Prop :=
  ∀ (s : SenderId) (n : Nat) (t : PoolInternalTransaction),
    a.txs[(⟨s, n + 1⟩ : TransactionId)]? = some t → nonces s ≤ n → t.state.noNonceGaps = true →
      ∃ t₀, a.txs[(⟨s, n⟩ : TransactionId)]? = some t₀ ∧ Linked t₀ t

variable {a : AllTransactions} {nonces : SenderId → Nat} {p : TxPool V}
variable {t : PoolInternalTransaction}

theorem Chained.mono {nonces nonces' : SenderId → Nat} (h : Chained nonces a)
    (hle : ∀ s, nonces s ≤ nonces' s) : Chained nonces' a :=
  fun s n t ht hn hgap => h s n t ht (le_trans (hle s) hn) hgap

theorem Chained.congr {a a' : AllTransactions} (h : Chained nonces a)
    (htxs : ∀ id : TransactionId, a'.txs[id]? = a.txs[id]?) : Chained nonces a' := by
  intro s n t ht hn hgap
  rw [htxs] at ht
  obtain ⟨t₀, ht0, hl⟩ := h s n t ht hn hgap
  exact ⟨t₀, by rw [htxs, ht0], hl⟩

theorem Chained.withFees (h : Chained nonces p.allTransactions) (fees : PendingFees) :
    Chained nonces (p.withFees fees).allTransactions :=
  h.congr fun _ => rfl

/-- **NO PARKED ANCESTORS**: from a pending transaction down to the state nonce,
    everything is pending. -/
theorem Chained.pending (h : Chained nonces a) (hr : AllTransactions.Routed a) (s : SenderId)
    (d n : Nat) (t : PoolInternalTransaction)
    (ht : a.txs[TransactionId.mk s (n + d)]? = some t) (hp : t.subpool = .pending)
    (hn : nonces s ≤ n) :
    ∃ t₀, a.txs[TransactionId.mk s n]? = some t₀ ∧ t₀.subpool = .pending := by
  induction d generalizing n t with
  | zero => exact ⟨t, ht, hp⟩
  | succ d ih =>
    have hpending := TxState.subPool_eq_pending.mp ((hr _ t ht).subpool ▸ hp)
    have hgap := (TxState.ready_iff.mp (TxState.isPending_iff.mp hpending).1).2.1
    obtain ⟨t1, ht1, hl⟩ := h s (n + d) t ht (le_add_right_of_le hn) hgap
    exact ih n t1 ht1 (hl.pending hp) hn

/-- Without a gap, everything down to the state nonce is in the pool. -/
theorem Chained.present (h : Chained nonces a) (s : SenderId) (d n : Nat)
    (t : PoolInternalTransaction) (ht : a.txs[TransactionId.mk s (n + d)]? = some t)
    (hgap : t.state.noNonceGaps = true) (hn : nonces s ≤ n) :
    ∃ t₀, a.txs[TransactionId.mk s n]? = some t₀ := by
  induction d generalizing n t with
  | zero => exact ⟨t, ht⟩
  | succ d ih =>
    obtain ⟨t1, ht1, hl⟩ := h s (n + d) t ht (le_add_right_of_le hn) hgap
    exact ih n t1 ht1 hl.gapless hn

/-! ## Removals -/

theorem Chained.trimmed (h : Chained nonces a) (htrim : TxPool.Trimmed a a') :
    Chained nonces a' := by
  intro s n t' ht' hn hgap
  obtain ⟨t, ht, hor⟩ := htrim.entries _ t' ht'
  have heq : t' = t := by
    rcases hor with heq | rfl
    · exact heq
    · cases hgap
  subst heq
  obtain ⟨t₀, ht0, hl⟩ := h s n t' ht hn hgap
  refine ⟨t₀, ?_, hl⟩
  by_contra hne
  have hdesc : TxPool.isDescendant (⟨s, n⟩ : TransactionId) ⟨s, n + 1⟩ = true := by
    rw [TxPool.isDescendant, and_eq_true, beq_iff_eq, decide_eq_true_eq]
    exact ⟨rfl, lt_succ_self n⟩
  rw [htrim.tail _ _ t₀ t' ht0 hne hdesc ht'] at hgap
  cases hgap

variable {mined : List TxHash}

theorem Chained.pruned {V : Type} {p p' : TxPool V}
    (h : Chained nonces p.allTransactions) (hp : TxPool.Pruned mined p p')
    (hmined : ∀ (id : TransactionId) (t : PoolInternalTransaction),
      p.allTransactions.txs[id]? = some t → t.transaction.hash ∈ mined →
      id.nonce < nonces id.sender) :
    Chained nonces p'.allTransactions := by
  intro s n t ht hn hgap
  rw [hp.txs, filter_eq_some_iff] at ht
  obtain ⟨t₀, ht0, hl⟩ := h s n t ht.1 hn hgap
  refine ⟨t₀, ?_, hl⟩
  rw [hp.txs, filter_eq_some_iff]
  refine ⟨ht0, decide_eq_true fun hin => ?_⟩
  exact absurd (hmined _ t₀ ht0 hin) (not_lt.mpr hn)

/-! ## Fee swings -/

/-- The rewrite leaves the flags that chains are about alone. -/
structure KeepsReady (f : TxState → TxState) : Prop where
  noNonceGaps : ∀ s, (f s).noNonceGaps = s.noNonceGaps
  noParkedAncestors : ∀ s, (f s).noParkedAncestors = s.noParkedAncestors
  ready : ∀ s, (f s).ready = s.ready

section

variable {nonces : SenderId → Nat} {f : TxState → TxState} {sel : TransactionId → Prop}
  {p p' : TxPool V} {promoted : List ValidPoolTransaction}

/-- Chains survive a swing if pending entries keep pending predecessors. -/
theorem Chained.swung (h : Chained nonces p.allTransactions) (hf : KeepsReady f)
    (hsw : TxPool.Swung f sel p promoted p')
    (hpend : ∀ (s : SenderId) (n : Nat) (t t₀ t' t0' : PoolInternalTransaction),
      p.allTransactions.txs[TransactionId.mk s (n + 1)]? = some t →
      p.allTransactions.txs[TransactionId.mk s n]? = some t₀ → Linked t₀ t →
      p'.allTransactions.txs[TransactionId.mk s (n + 1)]? = some t' →
      p'.allTransactions.txs[TransactionId.mk s n]? = some t0' →
      t'.subpool = .pending → t0'.subpool = .pending) : Chained nonces p'.allTransactions := by
  -- an entry after the swing is an old one with the same flags
  have hget : ∀ (id : TransactionId) (t : PoolInternalTransaction),
      p.allTransactions.txs[id]? = some t → ∃ t', p'.allTransactions.txs[id]? = some t' ∧
        t'.state.noNonceGaps = t.state.noNonceGaps ∧
        t'.state.noParkedAncestors = t.state.noParkedAncestors ∧
        t'.state.ready = t.state.ready := by
    intro id t ht
    by_cases hs : sel id
    · refine ⟨restate f t, by rw [hsw.selected id hs, ht]; rfl, hf.noNonceGaps _,
        hf.noParkedAncestors _, hf.ready _⟩
    · exact ⟨t, by rw [hsw.untouched id hs, ht], rfl, rfl, rfl⟩
  intro s n t' ht' hn hgap
  obtain ⟨t, ht⟩ : ∃ t, p.allTransactions.txs[TransactionId.mk s (n + 1)]? = some t := by
    by_cases hs : sel ⟨s, n + 1⟩
    · rw [hsw.selected _ hs] at ht'
      obtain ⟨t, ht, -⟩ := map_eq_some_iff.mp ht'
      exact ⟨t, ht⟩
    · exact ⟨t', by rw [← hsw.untouched _ hs, ht']⟩
  obtain ⟨t1, ht1, hg1, hp1, hr1⟩ := hget _ t ht
  obtain rfl : t1 = t' := some.inj (ht1.symm.trans ht')
  obtain ⟨t₀, ht0, hl⟩ := h s n t ht hn (hg1 ▸ hgap)
  obtain ⟨t0', ht0', hg0, -, hr0⟩ := hget _ t₀ ht0
  exact ⟨t0', ht0', hg0.trans hl.gapless, fun hpk => hr0.trans (hl.ready (hp1 ▸ hpk)),
    hpend s n t t₀ t1 t0' ht ht0 hl ht' ht0'⟩

/-- Demotions take the tails of senders. -/
theorem Chained.swung_tail
    (hsw : TxPool.Swung f (TxPool.Tail p.allTransactions .pending bad) p promoted p')
    (h : Chained nonces p.allTransactions) (hf : KeepsReady f)
    (hdown : ∀ s, (f s).subPool ≠ .pending) :
    Chained nonces p'.allTransactions := by
  refine h.swung hf hsw ?_
  intro s n t t₀ t' t0' ht ht0 hl ht' ht0' hp
  have hno : ¬ TxPool.Tail p.allTransactions .pending bad ⟨s, n + 1⟩ := by
    intro hsel
    rw [hsw.selected _ hsel, ht] at ht'
    rw [← some.inj ht'] at hp
    exact hdown _ hp
  rw [hsw.untouched _ hno, ht] at ht'
  obtain rfl := some.inj ht'
  have hno0 : ¬ TxPool.Tail p.allTransactions .pending bad ⟨s, n⟩ := by
    rintro ⟨-, id', tx', hpl, hs, hle, hbad⟩
    exact hno ⟨⟨_, place_eq_some.mpr ⟨t, ht, hp, rfl⟩⟩, id', tx', hpl, hs, le_succ_of_le hle, hbad⟩
  rw [hsw.untouched _ hno0, ht0] at ht0'
  rw [← some.inj ht0']
  exact hl.pending hp

/-- Promotions take the heads of senders. -/
theorem Chained.swung_head
    (hsw : TxPool.Swung f (TxPool.Head p.allTransactions s0 good) p promoted p')
    (h : Chained nonces p.allTransactions) (hr : AllTransactions.Routed p.allTransactions)
    (hf : KeepsReady f) (hs0 : s0 ≠ .pending)
    (hside : ∀ s n t t₀, p.allTransactions.txs[TransactionId.mk s (n + 1)]? = some t →
      p.allTransactions.txs[TransactionId.mk s n]? = some t₀ → t.subpool = s0 → t₀.state.ready =
      true → t₀.subpool = .pending ∨ t₀.subpool = s0)
    (hup : ∀ t : PoolInternalTransaction, t.Routed → t.state.ready = true → t.subpool = s0 → (f
      t.state).subPool = .pending) :
    Chained nonces p'.allTransactions := by
  refine h.swung hf hsw ?_
  intro s n t t₀ t' t0' ht ht0 hl ht' ht0' hp
  -- a pending predecessor is not in the sub-pool that is promoted from
  have hstay : t₀.subpool = .pending → t0'.subpool = .pending := by
    intro hp0
    have hno0 : ¬ TxPool.Head p.allTransactions s0 good ⟨s, n⟩ := by
      rintro ⟨⟨tx, hpl⟩, -⟩
      obtain ⟨t1, ht1, hs1, -⟩ := place_eq_some.mp hpl
      rw [ht0] at ht1
      exact hs0 (hs1.symm.trans (some.inj ht1 ▸ hp0))
    rw [hsw.untouched _ hno0, ht0] at ht0'
    rw [← some.inj ht0', hp0]
  by_cases hsel : TxPool.Head p.allTransactions s0 good ⟨s, n + 1⟩
  · rw [hsw.selected _ hsel, ht] at ht'
    obtain rfl := some.inj ht'
    have hready := (TxState.isPending_iff.mp (TxState.subPool_eq_pending.mp hp)).1
    have hready0 := hl.ready (by
      rw [← hf.noParkedAncestors]
      exact (ready_iff.mp hready).1)
    obtain ⟨⟨tx, hpl⟩, hgood⟩ := hsel
    obtain ⟨t1, ht1, hs1, -⟩ := place_eq_some.mp hpl
    rw [ht] at ht1
    obtain rfl := some.inj ht1
    rcases hside s n t t₀ ht ht0 hs1 hready0 with hp0 | hb0
    · exact hstay hp0
    · have hsel0 : TxPool.Head p.allTransactions s0 good ⟨s, n⟩ :=
        ⟨⟨_, place_eq_some.mpr ⟨t₀, ht0, hb0, rfl⟩⟩, fun id' tx' hpl' hs' hle =>
          hgood id' tx' hpl' hs' (le_succ_of_le hle)⟩
      rw [hsw.selected _ hsel0, ht0] at ht0'
      rw [← some.inj ht0']
      exact hup t₀ (hr _ t₀ ht0) hready0 hb0
  · rw [hsw.untouched _ hsel, ht] at ht'
    obtain rfl := some.inj ht'
    exact hstay (hl.pending hp)

end

theorem keepsReady_setFee (b : Bool) : KeepsReady (TxState.setFee b) :=
  ⟨fun _ => rfl, fun _ => rfl, fun _ => rfl⟩

theorem PoolInternalTransaction.Routed.subpool_of_ready (h : t.Routed)
    (hready : t.state.ready = true) :
    t.subpool = .pending ∨ t.subpool = if t.transaction.isEip4844 then .blob else .baseFee := by
  rw [h.subpool, ← h.blob]
  revert hready
  obtain ⟨a, b, c, d, e, f, g⟩ := t.state
  revert a b c d e f g
  decide

theorem Sound.same_type (h : Sound p) (ht : p.allTransactions.txs[TransactionId.mk s n]? = some t)
    (ht0 : p.allTransactions.txs[TransactionId.mk s m]? = some t₀) :
    t₀.transaction.isEip4844 = t.transaction.isEip4844 :=
  h.indexed.exclusive (tx_eq_some.mpr ⟨t₀, ht0, rfl⟩) (tx_eq_some.mpr ⟨t, ht, rfl⟩) rfl

section

variable {nonces : SenderId → Nat} {p p' : TxPool V} {fee : Nat} {o : Ordering}
  {promoted : List ValidPoolTransaction}

theorem Chained.basefeeSwing (h : Chained nonces p.allTransactions) (hp : Sound p)
    (hsw : TxPool.BasefeeSwing p fee promoted o p') : Chained nonces p'.allTransactions := by
  cases hsw with
  | rise hlt hsw =>
    exact Chained.swung_tail (p := p.withBaseFee fee)
      hsw h (keepsReady_setFee false) TxState.setFee_false_subPool
  | same heq _ => exact h
  | fall hlt hsw =>
    refine Chained.swung_head (p := p.withBaseFee fee)
      hsw h hp.routed (keepsReady_setFee true) (by decide) ?_
      (fun t hr _ hs => TxPool.subPool_setFee_true hr hs)
    intro s n t t₀ ht ht0 hs hready
    have hblob := (TxState.subPool_eq_baseFee.mp ((hp.routed _ t ht).subpool ▸ hs)).2.1
    have htype := hp.same_type ht ht0
    rw [← (hp.routed _ t ht).blob, hblob] at htype
    have := (hp.routed _ t₀ ht0).subpool_of_ready hready
    rw [htype] at this
    exact this

theorem Chained.blobFeeSwing (h : Chained nonces p.allTransactions) (hp : Sound p)
    (hsw : TxPool.BlobFeeSwing p fee o promoted p') : Chained nonces p'.allTransactions := by
  cases hsw with
  | rise hlt _ hsw =>
    exact Chained.swung_tail (p := p.withBlobFee fee)
      hsw h ⟨fun _ => rfl, fun _ => rfl, fun _ => rfl⟩ TxState.dropBlobFee_subPool
  | same heq _ _ => exact h
  | fall hlt hsw =>
    refine Chained.swung_head (p := p.withBlobFee fee)
      hsw h hp.routed ⟨fun _ => rfl, fun _ => rfl, fun _ => rfl⟩ (by decide) ?_
      (fun t _ hready _ => ?_)
    · intro s n t t₀ ht ht0 hs hready
      have htype := hp.same_type ht ht0
      rw [(hp.routed _ t ht).isEip4844 hs] at htype
      have := (hp.routed _ t₀ ht0).subpool_of_ready hready
      rw [htype] at this
      exact this
    · rw [TxState.subPool_eq_pending, TxState.isPending_iff]
      exact ⟨hready, rfl, rfl⟩

/-- **NEW FEES** keep the chains. -/
theorem Chained.feesSwing {fees : PendingFees} (h : Chained nonces p.allTransactions)
    (hp : Sound p) (hsw : TxPool.FeesSwing p fees promoted p') :
    Chained nonces p'.allTransactions := by
  obtain ⟨hbase, hblob⟩ := hsw
  exact (h.basefeeSwing hp hbase).blobFeeSwing hbase.sound hblob

end

/-! ## The account pass -/

/-- The state nonces after an account update. -/
def reported (nonces : SenderId → Nat) (changed : ExtTreeMap SenderId SenderInfo)
    (s : SenderId) : Nat :=
  match changed[s]? with
  | some info => info.stateNonce
  | none => nonces s

/-- **NO STALE FEE FLAG** between a predecessor that stays and a successor. -/
def Fresh (changed : ExtTreeMap SenderId SenderInfo) (baseFee : Nat) (a : AllTransactions) : Prop :=
  ∀ (s : SenderId) (n : Nat) (t : PoolInternalTransaction),
    a.txs[(⟨s, n⟩ : TransactionId)]? ≠ none →
    a.txs[(⟨s, n + 1⟩ : TransactionId)]? = some t →
    a.txs[(⟨s, n + 2⟩ : TransactionId)]? ≠ none →
    (∀ info, changed[s]? = some info → info.stateNonce ≤ n) →
    t.state.enoughFeeCapBlock = true → baseFee ≤ t.transaction.maxFeePerGas

section

variable {nonces : SenderId → Nat} {changed : ExtTreeMap SenderId SenderInfo} {p p' : TxPool V}
  {o : UpdateOutcome}

omit V in
/-- The link a visited entry leaves to the next one, which was told `parked`. -/
theorem linked_follower (hgap : x.state.noNonceGaps = true)
    (hparked : parked = false → (refreshed baseFee x).state.isPending = true) :
    Linked (refreshed baseFee x)
      (refreshed baseFee (follower parked cumulativeCost changedBalance t)) := by
  refine ⟨hgap, fun h => ?_, fun h => ?_⟩
  · have hb : (!parked) = true := h
    exact (isPending_iff.mp (hparked (by simpa using hb))).1
  · have hpend := isPending_iff.mp (subPool_eq_pending.mp h)
    have hb : (!parked) = true := (ready_iff.mp hpend.1).1
    exact subPool_eq_pending.mpr (hparked (by simpa using hb))

/-- **THE ACCOUNT PASS** keeps the chains if it reads no stale fee flag. -/
theorem Chained.accounted (h : Chained nonces p.allTransactions) (hp : Sound p)
    (hnonces : ∀ s info, changed[s]? = some info → nonces s = info.stateNonce)
    (hfresh : Fresh changed p.allTransactions.pendingFees.baseFee p.allTransactions)
    (hacc : TxPool.Accounted changed p o p') : Chained nonces p'.allTransactions := by
  intro s n t' ht' hn hgap
  obtain ⟨t, c', ht, -, hv⟩ := hacc.entry hp ht'
  -- a predecessor is not discarded, so the cursor behind it is at the sender
  have hpred : ∀ t₀, p.allTransactions.txs[TransactionId.mk s n]? = some t₀ →
      (p.allTransactions.cursor changed ⟨s, n + 1⟩).sender? = some s := by
    intro t₀ ht0
    have hv0 := hp.indexed.visited_cases changed ht0
    rw [cursor_of_predecessor changed ht ht0]
    generalize (p.allTransactions.visited changed ⟨s, n⟩ t₀).1 = c0 at hv0
    generalize (p.allTransactions.visited changed ⟨s, n⟩ t₀).2.1 = t0' at hv0
    generalize hd : discarding (p.allTransactions.visited changed ⟨s, n⟩ t₀).2.2 = d at hv0
    have hsend := hv0.sender?
    cases hv0 with
    | discard _ hinfo hlt =>
      exact absurd hlt (not_lt.mpr (hnonces s _ hinfo ▸ hn))
    | gapped | opened | followed | skipped | consecutive => exact hsend
  generalize hcur : p.allTransactions.cursor changed ⟨s, n + 1⟩ = c at hv hpred
  cases hv with
  | gapped _ _ hno =>
    rw [hno] at hgap
    nomatch hgap
  | opened _ hinfo heq =>
    rw [hnonces s _ hinfo, ← heq] at hn
    exact absurd hn (not_succ_le_self n)
  | followed hf _ hold =>
    obtain ⟨t₀, ht0, -⟩ := h s n t ht hn hold
    exact absurd (hpred t₀ ht0) hf
  | skipped _ hno =>
    obtain ⟨t₀, ht0, hl⟩ := h s n t' ht hn hgap
    refine ⟨t₀, ?_, hl⟩
    have hv0 := hp.indexed.visited_cases changed ht0
    have hc := cursor_of_predecessor changed ht ht0
    rw [hcur] at hc
    generalize hc0 : (p.allTransactions.visited changed ⟨s, n⟩ t₀).1 = c0 at hv0 hc
    generalize ht0' : (p.allTransactions.visited changed ⟨s, n⟩ t₀).2.1 = t0' at hv0
    generalize discarding (p.allTransactions.visited changed ⟨s, n⟩ t₀).2.2 = d at hv0
    subst hc
    cases hv0 with
    | discard _ hinfo hlt =>
      exact absurd hlt (not_lt.mpr (hnonces s _ hinfo ▸ hn))
    | gapped _ _ hno0 =>
      rw [hl.gapless] at hno0
      nomatch hno0
    | opened | followed | consecutive => exact absurd rfl (hno _ _ _)
    | skipped => exact hacc.kept hp ht0 hc0 nofun ht0'
  | consecutive hrun =>
    -- the cursor comes from the predecessor
    obtain ⟨m, t₀, hm, ht0, hvis⟩ := cursor_running hp.indexed ht (hcur.trans hrun)
    obtain rfl : n = m := succ.inj hm
    have hv0 := hp.indexed.visited_cases changed ht0
    generalize ht0' : (p.allTransactions.visited changed ⟨s, n⟩ t₀).2.1 = t0' at hv0
    generalize discarding (p.allTransactions.visited changed ⟨s, n⟩ t₀).2.2 = d at hv0
    have hkept := hacc.kept hp ht0 hvis nofun ht0'
    rw [hvis] at hv0
    refine ⟨t0', hkept, ?_⟩
    generalize hr : Cursor.running _ _ _ _ _ = r at hv0
    cases hv0 with
    | discard | gapped | skipped => nomatch hr
    | opened =>
      obtain ⟨-, -, rfl, -⟩ := Cursor.running.inj hr
      exact linked_follower rfl (not_eq_eq_eq_not.mp ·)
    | followed _ _ hold =>
      obtain ⟨-, -, rfl, -⟩ := Cursor.running.inj hr
      exact linked_follower hold (not_eq_eq_eq_not.mp ·)
    | consecutive hrun0 =>
      obtain ⟨-, -, rfl, -⟩ := Cursor.running.inj hr
      refine linked_follower rfl fun hparked => ?_
      -- the flag that was read is not stale
      have hpend := isPending_iff.mp (by simpa using hparked)
      obtain ⟨k, t1, hk, ht1, -⟩ := cursor_running hp.indexed ht0 hrun0
      have habove : ∀ info, changed[s]? = some info → info.stateNonce < n := fun info hinfo =>
        hp.indexed.cursor_above ht0 (by rw [hrun0]; rfl) hinfo
      subst hk
      have hfee := hfresh s k t₀ (by rw [ht1]; exact some_ne_none t1) ht0
        (by rw [ht]; exact some_ne_none t)
        (fun info hinfo => Nat.lt_succ_iff.mp (habove info hinfo)) hpend.2.1
      exact isPending_iff.mpr ⟨hpend.1, decide_eq_true hfee, hpend.2.2⟩

end

/-! ## Insertion -/

section

variable {nonces nonces' : SenderId → Nat} {a a' : AllTransactions} {tx : ValidPoolTransaction}
  {balance : U256} {nonce : Nat} {ok : InsertOk}

theorem AllTransactions.Rechecks.linked {id : TransactionId} (h : Rechecks balance c id t₀ c' t0') :
    Linked t0' (rechecked balance c' t) := by
  rw [h.entry]
  have hpend : (!c'.hasParkedAncestor) = true →
      (rechecked balance c t₀).state.isPending = true := by
    intro hb
    rwa [h.parked, Bool.not_not] at hb
  refine ⟨rfl, fun hready => (isPending_iff.mp (hpend hready)).1, fun hp => ?_⟩
  have hready := (isPending_iff.mp (subPool_eq_pending.mp hp)).1
  exact subPool_eq_pending.mpr (hpend (ready_iff.mp hready).1)

/-- An entry without a gap above the on-chain nonce is rechecked. -/
theorem Chained.insertCursor_at (h : Chained nonces a) (hle : nonces tx.senderId ≤ nonce)
    (hn : nonce ≤ n)
    (ht : (a.placed tx nonce).txs[TransactionId.mk tx.senderId (n + 1)]? = some t)
    (hgap : t.state.noNonceGaps = true) :
    (a.insertCursor tx balance nonce ⟨tx.senderId, n + 1⟩).At (n + 1) := by
  obtain ⟨d, rfl⟩ := Nat.exists_eq_add_of_le hn
  refine (AllTransactions.insertCursor_at (d + 1) t ht).mpr fun i hi => ?_
  rw [txs_placed, get_insert]
  by_cases hself : tx.id = ⟨tx.senderId, nonce + i⟩
  · rw [if_pos hself]
    exact some_ne_none _
  rw [if_neg hself]
  rw [txs_placed, get_insert] at ht
  by_cases htop : tx.id = ⟨tx.senderId, nonce + d + 1⟩
  · -- the inserted transaction itself starts with a gap
    rw [if_pos htop] at ht
    rw [← some.inj ht] at hgap
    have hnonce : tx.nonce = nonce + d + 1 := by rw [tx.nonce_eq, htop]
    have hlt : nonce < tx.nonce := by omega
    have hfalse : (TransactionId.ancestor tx.nonce nonce tx.id.sender).isNone = true := hgap
    rw [TransactionId.ancestor, if_pos hlt] at hfalse
    cases hfalse
  · rw [if_neg htop] at ht
    have heq : nonce + d + 1 = nonce + i + (d + 1 - i) := by omega
    rw [heq] at ht
    obtain ⟨t₀, ht0⟩ := h.present tx.senderId (d + 1 - i) (nonce + i) t ht hgap
      (le_add_right_of_le hle)
    rw [ht0]
    exact some_ne_none t₀

/-- **INSERTION** rebuilds the chain of the sender and leaves the other ones. -/
theorem Chained.inserts (h : Chained nonces a) (hins : Inserts a tx balance nonce ok a')
    (hle : nonces tx.senderId ≤ nonce) (hself : nonces' tx.senderId = nonce)
    (hother : ∀ s, s ≠ tx.senderId → nonces' s = nonces s) : Chained nonces' a' := by
  have htxs : a'.txs = (a.insertSweep tx balance nonce).2.1 := by rw [hins.set_eq]
  intro s n t' ht' hn hgap
  rw [htxs] at ht'
  by_cases hs : s = tx.senderId
  · subst hs
    rw [hself] at hn
    -- what the entry was before the loop
    obtain ⟨t, ht⟩ : ∃ t, (a.placed tx nonce).txs[(⟨tx.senderId, n + 1⟩ :
        TransactionId)]? = some t := by
      by_contra hno
      have hnone := eq_none_iff_forall_ne_some.mpr fun t ht => hno ⟨t, ht⟩
      rw [insertSweep, sweep_get_eq_none (fun e he => mem_toList.mp
        ((descendantTxsInclusive_sublist _ _).subset he)) hnone] at ht'
      cases ht'
    rw [insertSweep_at ht rfl (le_succ_of_le hn)] at ht'
    have hat : (a.insertCursor tx balance nonce ⟨tx.senderId, n + 1⟩).At (n + 1) := by
      by_contra hno
      have heq : (a.insertVisited tx balance nonce ⟨tx.senderId, n + 1⟩ t).2.1 = t :=
        (insertVisit_of_not_at hno).2
      rw [← some.inj ht', heq] at hgap
      exact hno (h.insertCursor_at hle hn ht hgap)
    obtain ⟨t₀, ht0, hat0⟩ := insertCursor_gap hn ht hat
    refine ⟨_, by rw [htxs, insertSweep_at ht0 rfl hn], ?_⟩
    rw [← some.inj ht', (insertVisited_of_at hat t).entry, insertCursor_succ hn ht ht0]
    exact (insertVisited_of_at hat0 t₀).linked
  · have hget : ∀ m, a'.txs[TransactionId.mk s m]? = a.txs[TransactionId.mk s m]? := by
      intro m
      rw [htxs, insertSweep_other (Or.inl hs), txs_placed, get_insert_ne]
      exact fun heq => hs (congrArg TransactionId.sender heq).symm
    rw [← htxs, hget] at ht'
    obtain ⟨t₀, ht0, hl⟩ := h s n t' ht' (hother s hs ▸ hn) hgap
    exact ⟨t₀, by rw [hget, ht0], hl⟩

end

/-! ## Runs -/

namespace TxPool

/-- The state nonce last reported for a sender. -/
def lastNonce (p : TxPool V) (s : SenderId) : Nat :=
  (p.senderInfo[s]?.map SenderInfo.stateNonce).getD 0

/-- **NO PARKED ANCESTORS**: below a pending transaction, down to the last state nonce, all nonces
    are pending. -/
def NoParkedAncestors (p : TxPool V) : Prop :=
  ∀ (id : TransactionId) (tx : ValidPoolTransaction), p.pendingPool.get id = some tx →
    ∀ m, p.lastNonce id.sender ≤ m → m ≤ id.nonce →
      ∃ t, p.allTransactions.txs[(⟨id.sender, m⟩ : TransactionId)]? = some t
        ∧ p.pendingPool.get ⟨id.sender, m⟩ = some t.transaction

theorem noParkedAncestors_of_chained (hp : Sound p) (h : Chained p.lastNonce p.allTransactions) :
    NoParkedAncestors p := by
  intro id tx hget m hm hle
  obtain ⟨s, n⟩ := id
  obtain ⟨t, ht, hpend, -⟩ := place_eq_some.mp (hp.subpoolGet_eq_some (s := .pending).mp hget)
  obtain ⟨d, rfl⟩ := Nat.exists_eq_add_of_le hle
  obtain ⟨t₀, ht0, hpend0⟩ := h.pending hp.routed s d m t ht hpend hm
  exact ⟨t₀, ht0, hp.subpoolGet_eq_some (s := .pending).mpr
    (place_eq_some.mpr ⟨t₀, ht0, hpend0, rfl⟩)⟩

/-! ### What a step has to respect -/

/-- The reported state nonces never decrease. -/
def noncesGrow (p : TxPool V) : Op → Bool
  | .addTransaction tx _ onChainNonce _ => decide (p.lastNonce tx.senderId ≤ onChainNonce)
  | .onCanonicalStateChange _ _ changed =>
    changed.toList.all (fun e => decide (p.lastNonce e.1 ≤ e.2.stateNonce))
  | .updateAccounts changed =>
    changed.toList.all (fun e => decide (p.lastNonce e.1 ≤ e.2.stateNonce))
  | _ => true

/-- The entry of an id, unless it is mined. -/
def unmined (mined : List TxHash) (a : AllTransactions) (id : TransactionId) :
    Option PoolInternalTransaction :=
  a.txs[id]?.filter (fun t => decide (t.transaction.hash ∉ mined))

/-- A stale fee flag that the account pass would read: it says that the base fee is met, which it is
    not, between a predecessor that is not discarded and a successor. -/
def staleFee (mined : List TxHash) (changed : ExtTreeMap SenderId SenderInfo) (baseFee : Nat)
    (a : AllTransactions) (id : TransactionId) (t : PoolInternalTransaction) : Bool :=
  decide (t.transaction.hash ∉ mined) && t.state.enoughFeeCapBlock
    && decide (t.transaction.maxFeePerGas < baseFee)
    && decide ((changed[id.sender]?.map SenderInfo.stateNonce).getD 0 < id.nonce)
    && (unmined mined a ⟨id.sender, id.nonce - 1⟩).isSome
    && (unmined mined a ⟨id.sender, id.nonce + 1⟩).isSome

def noStaleFee (mined : List TxHash) (changed : ExtTreeMap SenderId SenderInfo) (baseFee : Nat)
    (a : AllTransactions) : Bool :=
  a.txs.toList.all (fun e => !staleFee mined changed baseFee a e.1 e.2)

/-- Mined transactions are below the state nonce of their sender. -/
def minedCovered (p : TxPool V) (mined : List TxHash)
    (changed : ExtTreeMap SenderId SenderInfo) : Bool :=
  p.allTransactions.txs.toList.all (fun e =>
    decide (e.2.transaction.hash ∈ mined → e.1.nonce < reported p.lastNonce changed e.1.sender))

/-- **THE CONDITION ON A STEP**: the account pass reads no stale flag, and the new state nonces
    cover exactly what is mined. -/
def ancestorsSafe (p : TxPool V) : Op → Bool
  | .updateAccounts changed =>
    noStaleFee [] changed p.allTransactions.pendingFees.baseFee p.allTransactions
  | .onCanonicalStateChange info mined changed =>
    minedCovered p mined changed && noStaleFee mined changed info.pendingBasefee p.allTransactions
  | _ => true

variable {changed : ExtTreeMap SenderId SenderInfo} {p' : TxPool V}

theorem fresh_of_noStaleFee {baseFee : Nat} (h : noStaleFee mined changed baseFee a = true)
    (htxs : ∀ id, a'.txs[id]? = unmined mined a id) : Fresh changed baseFee a' := by
  intro s n t hpred ht hsucc hstate hflag
  rw [htxs] at hpred ht hsucc
  obtain ⟨hta, hhash⟩ := filter_eq_some_iff.mp ht
  have hno := all_eq_true.mp h (⟨s, n + 1⟩, t) (mem_toList.mpr hta)
  by_contra hlt
  have hnonce : (changed[s]?.map SenderInfo.stateNonce).getD 0 < n + 1 := by
    cases hc : changed[s]? with
    | none => exact succ_pos n
    | some info => exact lt_succ_of_le (hstate info hc)
  have hstale : staleFee mined changed baseFee a ⟨s, n + 1⟩ t = true := by
    simp only [staleFee, and_eq_true, decide_eq_true_eq]
    exact ⟨⟨⟨⟨⟨of_decide_eq_true hhash, hflag⟩, not_le.mp hlt⟩, hnonce⟩,
      isSome_iff_ne_none.mpr hpred⟩, isSome_iff_ne_none.mpr hsucc⟩
  rw [hstale] at hno
  nomatch hno

theorem lastNonce_of_extend (h : p'.senderInfo = extend p.senderInfo changed) :
    p'.lastNonce = reported p.lastNonce changed := by
  funext s
  rw [lastNonce, h, get_extend, reported]
  cases changed[s]? with
  | none | some info => rfl

theorem lastNonce_withSender (p : TxPool V) (sender : SenderId) (info : SenderInfo) (s : SenderId) :
    (p.withSender sender info).lastNonce s
      = if sender = s then info.stateNonce else p.lastNonce s := by
  rw [lastNonce, withSender, get_insert, apply_ite (Option.map _), apply_ite (Option.getD · 0)]
  rfl

theorem le_reported
    (h : changed.toList.all (fun e => decide (p.lastNonce e.1 ≤ e.2.stateNonce)) = true)
    (s : SenderId) : p.lastNonce s ≤ reported p.lastNonce changed s := by
  rw [reported]
  cases hc : changed[s]? with
  | none => exact le_rfl
  | some info =>
    exact of_decide_eq_true (all_eq_true.mp h (s, info) (mem_toList.mpr hc))

theorem reported_eq {nonces : SenderId → Nat} (s : SenderId) (info : SenderInfo)
    (h : changed[s]? = some info) :
    reported nonces changed s = info.stateNonce := by
  rw [reported, h]

/-! ### One step -/

theorem Chained.adds {tx : ValidPoolTransaction} {balance : U256} {nonce : Nat}
    (h : Chained p.lastNonce p.allTransactions) (hle : p.lastNonce tx.senderId ≤ nonce)
    (hadds : Adds p tx balance nonce r p') :
    Chained p'.lastNonce p'.allTransactions := by
  cases hadds with
  | rejected => exact h
  | refused =>
    refine h.mono fun s => ?_
    rw [lastNonce_withSender]
    by_cases hs : tx.senderId = s
    · rw [if_pos hs, ← hs]
      exact hle
    · rw [if_neg hs]
  | inserted hin =>
    obtain ⟨a', hins, htxs⟩ := hin.inserts
    have hlast : p'.lastNonce
        = (p.withSender tx.senderId ⟨nonce, balance⟩).lastNonce := by
      funext s
      rw [lastNonce, hin.context.senderInfo]
      rfl
    rw [hlast]
    refine Chained.congr (h.inserts hins hle ?_ ?_) htxs
    · rw [lastNonce_withSender, if_pos rfl]
    · intro s hs
      rw [lastNonce_withSender, if_neg (Ne.symm hs)]

theorem Chained.canonical {info : BlockInfo}
    {o : OnNewCanonicalStateOutcome} (h : Chained p.lastNonce p.allTransactions)
    (hgrow : changed.toList.all (fun e => decide (p.lastNonce e.1 ≤ e.2.stateNonce)) = true)
    (hmined : minedCovered p mined changed = true)
    (hfresh : noStaleFee mined changed info.pendingBasefee p.allTransactions = true)
    (hch : CanonicalChange p info mined changed o p') :
    Chained p'.lastNonce p'.allTransactions := by
  rw [lastNonce_of_extend hch.context.senderInfo]
  obtain ⟨hprune, haccount, hfees⟩ := hch
  have h1 := (h.mono (le_reported hgrow)).pruned hprune (fun id t ht hin =>
    of_decide_eq_true (all_eq_true.mp hmined (id, t) (mem_toList.mpr ht)) hin)
  -- the account pass and the swing each start from other fees
  have h2 := (h1.withFees (nextFees p.allTransactions.pendingFees info)).accounted
    (hprune.sound.withFees _) reported_eq (fresh_of_noStaleFee hfresh hprune.txs) haccount
  have h3 := (h2.withFees p.allTransactions.pendingFees).feesSwing (haccount.sound.withFees _) hfees
  exact h3.congr fun _ => rfl

variable [LinearOrder V]

/-- **ONE STEP** keeps the chains. -/
theorem Chained.step (hp : Sound p) (h : Chained p.lastNonce p.allTransactions)
    (hguard : (noncesGrow p op && ancestorsSafe p op) = true) (hstep : Step p op p') :
    Chained p'.lastNonce p'.allTransactions := by
  obtain ⟨hgrow, hsafe⟩ := and_eq_true_iff.mp hguard
  cases step_cases hp hstep with
  | adds hadds => exact Chained.adds h (of_decide_eq_true hgrow) hadds
  | canonical hch =>
    obtain ⟨hmined, hfresh⟩ := and_eq_true_iff.mp hsafe
    exact Chained.canonical h hgrow hmined hfresh hch
  | block hsw =>
    have hlast : p'.lastNonce = p.lastNonce := by
      funext s
      rw [lastNonce, hsw.context.senderInfo]
      rfl
    rw [hlast]
    cases hsw with
    | base _ hbase => exact (h.basefeeSwing hp hbase).congr (fun _ => rfl)
    | both _ hbase hblob =>
      exact ((h.basefeeSwing hp hbase).blobFeeSwing hbase.sound hblob).congr fun _ => rfl
  | accounts hacc =>
    rw [lastNonce_of_extend hacc.senderInfo]
    refine (h.mono (le_reported hgrow)).accounted hp reported_eq
      (fresh_of_noStaleFee hsafe fun id => ?_) hacc
    rw [unmined]
    cases p.allTransactions.txs[id]? with
    | none | some t => rfl
  | removes hrm =>
    have hlast : p'.lastNonce = p.lastNonce := by
      funext s
      rw [lastNonce, hrm.context.senderInfo]
      rfl
    rw [hlast]
    exact h.trimmed hrm.trimmed

/-- **EVERY GUARDED RUN** leaves no pending transaction with a parked or missing ancestor. -/
theorem noParkedAncestors_of_run {ordering : TransactionOrdering V}
    {blobTxPriority : BlobTxPriority} {config : PoolConfig} {p : TxPool V}
    (h : Runs.ReachedBy Step (fun p op => (noncesGrow p op && ancestorsSafe p op) = true)
      (TxPool.new ordering blobTxPriority config) p) : NoParkedAncestors p := by
  have hp : Sound p := Reachable.sound ⟨_, _, _, h.reachable⟩
  refine noParkedAncestors_of_chained hp
    (h.invariant (I := fun p => Chained p.lastNonce p.allTransactions) ?_ ?_)
  · intro s n t ht
    rw [show (TxPool.new ordering blobTxPriority config).allTransactions.txs[_]? = none from
      ExtTreeMap.getElem?_empty] at ht
    nomatch ht
  · intro q op q' hq hch hguard hstep
    exact Chained.step (Reachable.sound ⟨_, _, _, hq⟩) hch hguard hstep

/-! ### Runs on samples -/

/-- Three transactions of one sender; the one in the middle has the lowest fee cap. -/
def ancestorOps : List Op :=
  [.addTransaction (sampleTx 1 1 0 5 100 none) 1000#256 0 none,
   .addTransaction (sampleTx 2 1 1 5 50 none) 1000#256 0 none,
   .addTransaction (sampleTx 3 1 2 5 100 none) 1000#256 0 none]

/-- A block that raises the base fee to 70 parks the transaction in the middle and
    leaves the last one pending. -/
theorem parked_ancestor_of_baseFee_rise :
    ∃ p, Runs.ReachedBy Step (fun p op => noncesGrow p op = true) (samplePool .default) p
      ∧ ¬ NoParkedAncestors p := by
  obtain ⟨p, hp, hcheck⟩ := Runs.exists_of_apply apply noncesGrow 9
    (ancestorOps ++ [.onCanonicalStateChange ⟨0, 1, 30000000, 70, none⟩ [] ∅])
    (samplePool .default)
    (fun p => (p.pendingPool.get ⟨1, 2⟩).isSome && (p.pendingPool.get ⟨1, 1⟩).isNone
      && decide (p.lastNonce 1 ≤ 1)) (by decide +kernel)
  simp only [and_eq_true, decide_eq_true_eq, isNone_iff_eq_none] at hcheck
  obtain ⟨⟨hsome, hnone⟩, hle⟩ := hcheck
  refine ⟨p, hp, fun hno => ?_⟩
  obtain ⟨tx, htx⟩ := isSome_iff_exists.mp hsome
  obtain ⟨t, -, hget⟩ := hno ⟨1, 2⟩ tx htx 1 hle (by decide)
  rw [hnone] at hget
  nomatch hget

theorem noParkedAncestors_of_run_sample :
    ∃ p, Runs.ReachedBy Step (fun p op => (noncesGrow p op && ancestorsSafe p op) = true)
        (samplePool .default) p
      ∧ (p.pendingPool.get ⟨1, 2⟩).isSome ∧ p.lastNonce 1 = 1 ∧ NoParkedAncestors p := by
  obtain ⟨p, hp, hcheck⟩ := Runs.exists_of_apply apply (fun p op => noncesGrow p op && ancestorsSafe p op) 9
    (ancestorOps ++ [.onCanonicalStateChange ⟨0, 1, 30000000, 40, none⟩ [1]
      (changedAccount 1 1 1000)])
    (samplePool .default)
    (fun p => (p.pendingPool.get ⟨1, 2⟩).isSome && decide (p.lastNonce 1 = 1)) (by decide +kernel)
  simp only [and_eq_true, decide_eq_true_eq] at hcheck
  exact ⟨p, hp, hcheck.1, hcheck.2, noParkedAncestors_of_run hp⟩

end TxPool

end TransactionPool
