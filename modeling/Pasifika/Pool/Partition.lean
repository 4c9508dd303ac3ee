import Pasifika.Pool.TxPool
import Pasifika.Pool.Routing
import Pasifika.Runs

/-! # The sub-pools partition the pool

The abstract pool is a `Placement`: each transaction id is held nowhere, or
by one sub-pool. `Located p loc` says that the four sub-pools of `p` hold
exactly what `loc` says and that each is sound by itself.

Removing from and adding to a sub-pool are updates of the placement
(`Located.removeFromSubpool`, `Located.addTransactionToSubpool`); everything
above is built from these two and from what `AllTransactions` does. The
pool is sound when `loc` is what the metadata says. -/

namespace TransactionPool

open Std OrderedMap AllTransactions List Option Function

variable {V : Type}

namespace TxPool

/-- The transaction a sub-pool holds under an id. -/
def subpoolGet (p : TxPool V) : SubPool → TransactionId → Option ValidPoolTransaction
  | .queued => p.queuedPool.get
  | .baseFee => p.basefeePool.get
  | .blob => p.blobPool.get
  | .pending => p.pendingPool.get

end TxPool

/-- What a place says about one sub-pool. -/
def heldIn (s : SubPool) (e : Option (SubPool × ValidPoolTransaction)) :
    Option ValidPoolTransaction :=
  e.bind (fun e => if e.1 = s then some e.2 else none)

@[simp] theorem heldIn_none (s : SubPool) : heldIn s none = none := rfl

@[simp] theorem heldIn_self (s : SubPool) (tx : ValidPoolTransaction) :
    heldIn s (some (s, tx)) = some tx := if_pos rfl

theorem heldIn_ne (h : s' ≠ s) (tx : ValidPoolTransaction) :
    heldIn s (some (s', tx)) = none := if_neg h

variable {s : SubPool} {out : List ValidPoolTransaction} {loc : Placement} {p p' : TxPool V}
  {tx : ValidPoolTransaction} {p p' p'' : TxPool V}

theorem heldIn_eq_some :
    heldIn s e = some tx ↔ e = some (s, tx) := by
  cases e with
  | none => simp
  | some e =>
    obtain ⟨s', tx'⟩ := e
    by_cases hs : s' = s
    · subst hs
      simp
    · rw [heldIn_ne hs]
      simp [hs]

/-- **THE SUB-POOLS HOLD WHAT THE PLACEMENT SAYS.** -/
structure Located (p : TxPool V) (loc : Placement) : Prop where
  queued : p.queuedPool.WF
  baseFee : p.basefeePool.WF
  blob : p.blobPool.WF
  pending : p.pendingPool.WF
  holds : ∀ s id, p.subpoolGet s id = heldIn s (loc id)

/-- What moving transactions between sub-pools leaves alone. -/
structure SameTracking (p p' : TxPool V) : Prop where
  allTransactions : p'.allTransactions = p.allTransactions
  senderInfo : p'.senderInfo = p.senderInfo
  config : p'.config = p.config

theorem SameTracking.trans (h : SameTracking p p') (h' : SameTracking p' p'') :
    SameTracking p p'' :=
  ⟨h'.allTransactions.trans h.allTransactions, h'.senderInfo.trans h.senderInfo,
    h'.config.trans h.config⟩

namespace Located

variable {p : TxPool V} {loc : Placement} {id : TransactionId}

/-- A transaction is held under its own id. -/
theorem key (h : Located p loc) (hl : loc id = some (s, tx)) : tx.id = id := by
  have hg : p.subpoolGet s id = some tx := by rw [h.holds, hl, heldIn_self]
  cases s with
  | queued => exact h.queued.get_key hg
  | baseFee => exact h.baseFee.get_key hg
  | blob => exact h.blob.get_key hg
  | pending => exact h.pending.get_key hg

theorem of_eq (h : Located p loc) (heq : ∀ id, loc id = loc' id) :
    Located p loc' :=
  (funext heq : loc = loc') ▸ h

theorem congr (h : Located p loc) (hq : p'.queuedPool = p.queuedPool)
    (hf : p'.basefeePool = p.basefeePool) (hb : p'.blobPool = p.blobPool)
    (hp : p'.pendingPool = p.pendingPool) : Located p' loc := by
  refine ⟨hq ▸ h.queued, hf ▸ h.baseFee, hb ▸ h.blob, hp ▸ h.pending, fun s id => ?_⟩
  rw [← h.holds s id]
  cases s with
  | queued => show p'.queuedPool.get id = _; rw [hq]; rfl
  | baseFee => show p'.basefeePool.get id = _; rw [hf]; rfl
  | blob => show p'.blobPool.get id = _; rw [hb]; rfl
  | pending => show p'.pendingPool.get id = _; rw [hp]; rfl

/-- The placement after one sub-pool changed under one id. -/
private theorem holds_update (h : Located p loc) (s : SubPool) (id : TransactionId)
    (e : Option ValidPoolTransaction) (get' : SubPool → TransactionId → Option ValidPoolTransaction)
    (hself : ∀ id', get' s id' = if id = id' then e else p.subpoolGet s id')
    (hother : ∀ s', s' ≠ s → ∀ id', get' s' id' = p.subpoolGet s' id')
    (hfree : ∀ s', s' ≠ s → p.subpoolGet s' id = none) (s' : SubPool) (id' : TransactionId) :
    get' s' id' = heldIn s' (update loc id (e.map fun tx => (s, tx)) id') := by
  rw [update_apply]
  by_cases hs : s' = s
  · subst hs
    rw [hself]
    by_cases hid : id = id'
    · rw [if_pos hid, if_pos hid.symm]
      cases e with
      | none => rfl
      | some tx => exact (heldIn_self _ _).symm
    · rw [if_neg hid, if_neg (Ne.symm hid), h.holds]
  · rw [hother s' hs]
    by_cases hid : id = id'
    · rw [if_pos hid.symm, ← hid, hfree s' hs]
      cases e with
      | none => rfl
      | some tx => exact (heldIn_ne (Ne.symm hs) tx).symm
    · rw [if_neg (Ne.symm hid), h.holds]

/-- **REMOVING** from the sub-pool that holds an id, if one does. -/
theorem removeFromSubpool (h : Located p loc) (s : SubPool) (id : TransactionId)
    (hs : ∀ e, loc id = some e → e.1 = s) :
    ∃ p', p.removeFromSubpool s id = some ((loc id).map Prod.snd, p')
      ∧ Located p' (update loc id none) ∧ SameTracking p p' := by
  have hfree : ∀ s', s' ≠ s → p.subpoolGet s' id = none := by
    intro s' hs'
    rw [h.holds]
    cases hl : loc id with
    | none => rfl
    | some e => exact if_neg fun heq => hs' (heq.symm.trans (hs e hl))
  have hout : p.subpoolGet s id = (loc id).map Prod.snd := by
    rw [h.holds]
    cases hl : loc id with
    | none => rfl
    | some e => exact if_pos (hs e hl)
  have hupd := fun get' hself hother =>
    h.holds_update s id none get' hself hother hfree
  cases s with
  | queued =>
    obtain ⟨q, hq, hwf, hget⟩ := h.queued.removeTransaction id
    refine ⟨{ p with queuedPool := q }, ?_,
      ⟨hwf, h.baseFee, h.blob, h.pending, hupd _ hget ?_⟩, ⟨rfl, rfl, rfl⟩⟩
    · rw [← hout]
      simp only [TxPool.removeFromSubpool, hq]
      rfl
    · intro s' hs' id'
      cases s' <;> first | rfl | exact absurd rfl hs'
  | baseFee =>
    obtain ⟨q, hq, hwf, hget⟩ := h.baseFee.removeTransaction id
    refine ⟨{ p with basefeePool := q }, ?_,
      ⟨h.queued, hwf, h.blob, h.pending, hupd _ hget ?_⟩, ⟨rfl, rfl, rfl⟩⟩
    · rw [← hout]
      simp only [TxPool.removeFromSubpool, hq]
      rfl
    · intro s' hs' id'
      cases s' <;> first | rfl | exact absurd rfl hs'
  | blob =>
    obtain ⟨hq, hwf, hget⟩ := h.blob.removeTransaction id
    refine ⟨{ p with blobPool := (p.blobPool.removeTransaction id).2 }, ?_,
      ⟨h.queued, h.baseFee, hwf, h.pending, hupd _ hget ?_⟩, ⟨rfl, rfl, rfl⟩⟩
    · rw [← hout]
      simp only [TxPool.removeFromSubpool, hq]
      rfl
    · intro s' hs' id'
      cases s' <;> first | rfl | exact absurd rfl hs'
  | pending =>
    obtain ⟨hq, hwf, hget⟩ := h.pending.removeTransaction id
    refine ⟨{ p with pendingPool := (p.pendingPool.removeTransaction id).2 }, ?_,
      ⟨h.queued, h.baseFee, h.blob, hwf, hupd _ hget ?_⟩, ⟨rfl, rfl, rfl⟩⟩
    · rw [← hout]
      simp only [TxPool.removeFromSubpool, hq]
      rfl
    · intro s' hs' id'
      cases s' <;> first | rfl | exact absurd rfl hs'

/-- **ADDING** a transaction that no sub-pool holds. -/
theorem addTransactionToSubpool (h : Located p loc) (s : SubPool) (tx : ValidPoolTransaction)
    (hnew : loc tx.id = none) (hblob : s = .blob → tx.isEip4844 = true) :
    ∃ p', p.addTransactionToSubpool s tx = some p'
      ∧ Located p' (update loc tx.id (some (s, tx))) ∧ SameTracking p p' := by
  have hfree : ∀ s', p.subpoolGet s' tx.id = none := by
    intro s'
    rw [h.holds, hnew]
    rfl
  have hupd := fun get' hself hother =>
    h.holds_update s tx.id (some tx) get' hself hother fun s' _ => hfree s'
  cases s with
  | queued =>
    refine ⟨_, rfl, ⟨h.queued.addTransaction (hfree .queued), h.baseFee, h.blob, h.pending,
      hupd _ (fun id' => ParkedPool.get_addTransaction _ tx id') ?_⟩, ⟨rfl, rfl, rfl⟩⟩
    intro s' hs' id'
    cases s' <;> first | rfl | exact absurd rfl hs'
  | baseFee =>
    refine ⟨_, rfl, ⟨h.queued, h.baseFee.addTransaction (hfree .baseFee), h.blob, h.pending,
      hupd _ (fun id' => ParkedPool.get_addTransaction _ tx id') ?_⟩, ⟨rfl, rfl, rfl⟩⟩
    intro s' hs' id'
    cases s' <;> first | rfl | exact absurd rfl hs'
  | blob =>
    obtain ⟨q, hq, hwf, hget⟩ := h.blob.addTransaction (hblob rfl) (hfree .blob)
    refine ⟨{ p with blobPool := q }, ?_,
      ⟨h.queued, h.baseFee, hwf, h.pending, hupd _ hget ?_⟩, ⟨rfl, rfl, rfl⟩⟩
    · simp only [TxPool.addTransactionToSubpool, hq]
      rfl
    · intro s' hs' id'
      cases s' <;> first | rfl | exact absurd rfl hs'
  | pending =>
    refine ⟨_, rfl, ⟨h.queued, h.baseFee, h.blob, h.pending.addTransaction (hfree .pending) _,
      hupd _ (fun id' => PendingPool.get_addTransaction _ tx _ id') ?_⟩, ⟨rfl, rfl, rfl⟩⟩
    intro s' hs' id'
    cases s' <;> first | rfl | exact absurd rfl hs'

/-- Dropping an entry of `txs` from the sub-pool it names; the sub-pool may
    already have given the transaction up. -/
theorem drop (h : Located p loc) (hi : Indexed p.allTransactions)
    (ht : p.allTransactions.txs[id]? = some t)
    (hl : loc id = none ∨ loc id = p.allTransactions.place id) :
    ∃ p', TxPool.removeFromSubpool
          { p with allTransactions := p.allTransactions.without id t.transaction }
          t.subpool t.transaction.id = some ((loc id).map Prod.snd, p')
      ∧ Located p' (update loc id none)
      ∧ p'.allTransactions = p.allTransactions.without id t.transaction
      ∧ p'.senderInfo = p.senderInfo ∧ p'.config = p.config := by
  have h' : Located { p with allTransactions := p.allTransactions.without id t.transaction } loc :=
    h.congr rfl rfl rfl rfl
  have hs : ∀ e, loc id = some e → e.1 = t.subpool := by
    intro e he
    rcases hl with hl | hl
    · rw [hl] at he
      nomatch he
    · rw [hl, place_of_get ht] at he
      exact congrArg Prod.fst (some.inj he).symm
  obtain ⟨p', heq, hloc, hsame⟩ := h'.removeFromSubpool t.subpool id hs
  rw [hi.key ht]
  exact ⟨p', heq, hloc, hsame.allTransactions, hsame.senderInfo, hsame.config⟩

end Located

/-! ## A sub-pool gives up transactions -/

/-- The placement after some transactions were taken out of their sub-pool. -/
def withdrawn (loc : Placement) (out : List ValidPoolTransaction) : Placement :=
  fun id => if id ∈ out.map ValidPoolTransaction.id then none else loc id

theorem withdrawn_of_mem (h : tx ∈ out) : withdrawn loc out tx.id = none :=
  if_pos (mem_map_of_mem h)

theorem withdrawn_of_not_mem {id : TransactionId} (h : id ∉ out.map (·.id)) :
    withdrawn loc out id = loc id :=
  if_neg h

/-- The placement follows what one sub-pool withdraws. -/
theorem Located.withdraw (h : Located p loc) (hq : p'.queuedPool.WF) (hf : p'.basefeePool.WF)
    (hb : p'.blobPool.WF) (hp : p'.pendingPool.WF)
    (hw : Withdraws (·.id) (p.subpoolGet s) (p'.subpoolGet s) out)
    (hother : ∀ s', s' ≠ s → p'.subpoolGet s' = p.subpoolGet s') :
    Located p' (withdrawn loc out) ∧ ∀ tx ∈ out, loc tx.id = some (s, tx) := by
  have hout : ∀ tx ∈ out, loc tx.id = some (s, tx) := by
    intro tx htx
    have := hw.held tx htx
    rw [h.holds] at this
    exact heldIn_eq_some.mp this
  refine ⟨⟨hq, hf, hb, hp, fun s' id => ?_⟩, hout⟩
  unfold withdrawn
  by_cases hs : s' = s
  · subst hs
    rw [hw.rest, h.holds]
    by_cases hid : id ∈ out.map (·.id)
    · rw [if_pos hid, if_pos hid]
      rfl
    · rw [if_neg hid, if_neg hid]
  · rw [hother s' hs, h.holds]
    by_cases hid : id ∈ out.map (·.id)
    · obtain ⟨tx, htx, rfl⟩ := mem_map.mp hid
      rw [if_pos hid, hout tx htx, heldIn_ne (Ne.symm hs)]
      rfl
    · rw [if_neg hid]

/-! ## A sound pool -/

/-- An entry with a rewritten state, rerouted. -/
def restate (f : TxState → TxState) (t : PoolInternalTransaction) : PoolInternalTransaction :=
  { t with state := f t.state, subpool := (f t.state).subPool }

/-- **A SOUND POOL**: exact indexes, routed entries, and every transaction held by
    the sub-pool its entry names and by no other one. -/
structure Sound (p : TxPool V) : Prop where
  indexed : Indexed p.allTransactions
  routed : AllTransactions.Routed p.allTransactions
  located : Located p p.allTransactions.place

/-- What a change of the transactions leaves alone. -/
structure SameContext (p p' : TxPool V) : Prop where
  pendingFees : p'.allTransactions.pendingFees = p.allTransactions.pendingFees
  senderInfo : p'.senderInfo = p.senderInfo
  config : p'.config = p.config

theorem SameContext.refl (p : TxPool V) : SameContext p p := ⟨rfl, rfl, rfl⟩

theorem SameContext.trans (h : SameContext p p') (h' : SameContext p' p'') : SameContext p p'' :=
  ⟨h'.pendingFees.trans h.pendingFees, h'.senderInfo.trans h.senderInfo, h'.config.trans h.config⟩

namespace TxPool

/-! ### Carrying out updates -/

/-- What `process_updates` did. -/
structure Processed (p : TxPool V) (loc : Placement) (us : List PoolUpdate) (o : UpdateOutcome)
    (p' : TxPool V) : Prop where
  indexed : Indexed p'.allTransactions
  routed : AllTransactions.Routed p'.allTransactions
  located : Located p' (settle loc p.allTransactions us)
  context : SameContext p p'
  txs : ∀ id : TransactionId, p'.allTransactions.txs[id]?
    = if discards us id then none else p.allTransactions.txs[id]?
  promoted : ∀ tx, tx ∈ o.promoted ↔
    ∃ u ∈ us, u.destination = .pool .pending ∧ p.allTransactions.tx u.id = some tx
  discarded : ∀ tx, tx ∈ o.discarded ↔
    ∃ u ∈ us, u.destination = .discard ∧ p.allTransactions.tx u.id = some tx

variable {t : PoolInternalTransaction} {id : TransactionId} {o : UpdateOutcome}
variable {us : List PoolUpdate}

theorem moveTransaction_spec (h : Located p loc) (hr : t.Routed)
    (hl : loc id = some (current, t.transaction)) :
    ∃ p', p.moveTransaction current t.subpool id = some (some t.transaction, p')
      ∧ Located p' (update loc id (some (t.subpool, t.transaction)))
      ∧ SameTracking p p' := by
  have hid : t.transaction.id = id := h.key hl
  obtain ⟨p1, hrem, h1, hs1⟩ := h.removeFromSubpool current id (fun e he => by
    rw [hl] at he
    exact congrArg Prod.fst (some.inj he).symm)
  obtain ⟨p2, hadd, h2, hs2⟩ := h1.addTransactionToSubpool t.subpool t.transaction
    (by rw [hid, update_self]) hr.isEip4844
  rw [hid, update_idem] at h2
  refine ⟨p2, ?_, h2, hs1.trans hs2⟩
  rw [hl] at hrem
  simp only [moveTransaction, hrem, hadd, map_some, bind_eq_bind, bind_some]

theorem pruneTransactionById_spec (h : Located p loc) (hi : Indexed p.allTransactions)
    (ht : p.allTransactions.txs[id]? = some t)
    (hl : loc id = none ∨ loc id = p.allTransactions.place id) :
    ∃ p', p.pruneTransactionById id = some ((loc id).map Prod.snd, p')
      ∧ Located p' (update loc id none)
      ∧ p'.allTransactions = p.allTransactions.without id t.transaction
      ∧ p'.senderInfo = p.senderInfo ∧ p'.config = p.config := by
  obtain ⟨p', hrem, hrest⟩ := h.drop hi ht hl
  refine ⟨p', ?_, hrest⟩
  have hh := hi.byHash_of_tx (tx_eq_some.mpr ⟨t, ht, rfl⟩)
  simp only [pruneTransactionById, AllTransactions.removeTransactionById, ht,
    AllTransactions.txDecr_eq, AllTransactions.removeAuths_eq, hh]
  exact hrem

section

variable {id : TransactionId} {current : SubPool} {us : List PoolUpdate}
  {t : PoolInternalTransaction} {p p1 p' : TxPool V} {o : UpdateOutcome}

variable {loc : Placement}

theorem Processed.cons_move
    (hp : Processed p1 (update loc id (some (t.subpool, t.transaction))) us o p')
    (hid : id ∉ us.map PoolUpdate.id) (hs : SameTracking p p1)
    (ht : p.allTransactions.txs[id]? = some t) :
    Processed p loc (⟨id, current, .pool t.subpool⟩ :: us)
      ⟨(if t.subpool = .pending then [t.transaction] else []) ++ o.promoted, o.discarded⟩ p' := by
  have htx : p.allTransactions.tx id = some t.transaction := tx_eq_some.mpr ⟨t, ht, rfl⟩
  obtain ⟨hi, hr, hloc, hcx, htxs, hprom, hdisc⟩ := hp
  rw [hs.allTransactions] at htxs hprom hdisc hloc
  refine ⟨hi, hr, settle_cons_move hid ht ▸ hloc, ⟨by rw [hcx.pendingFees, hs.allTransactions],
    hcx.senderInfo.trans hs.senderInfo, hcx.config.trans hs.config⟩, ?_, ?_, ?_⟩
  · intro id'
    rw [htxs id']
    simp [discards]
  · intro tx
    rw [mem_append, hprom]
    by_cases hpend : t.subpool = .pending
    · simp [hpend, htx, eq_comm]
    · simp [hpend]
  · intro tx
    rw [hdisc]
    simp

theorem Processed.cons_discard (hp : Processed p1 (update loc id none) us o p')
    (hid : id ∉ us.map PoolUpdate.id) (htx : p.allTransactions.tx id = some t.transaction)
    (ha : p1.allTransactions = p.allTransactions.without id t.transaction)
    (hsi : p1.senderInfo = p.senderInfo) (hcf : p1.config = p.config) :
    Processed p loc (⟨id, current, .discard⟩ :: us)
      ⟨o.promoted, [t.transaction] ++ o.discarded⟩ p' := by
  have htx1 : ∀ u' ∈ us, p1.allTransactions.tx u'.id = p.allTransactions.tx u'.id := by
    intro u' hu'
    have hne : id ≠ u'.id := fun heq => hid (heq ▸ mem_map_of_mem hu')
    rw [ha, tx_without, if_neg hne]
  -- membership in the tail of the updates reads the same before and after
  have htail : ∀ d tx, (∃ u ∈ us, u.destination = d ∧ p1.allTransactions.tx u.id = some tx) ↔
      ∃ u ∈ us, u.destination = d ∧ p.allTransactions.tx u.id = some tx := by
    intro d tx
    refine exists_congr fun u => and_congr_right fun hu => ?_
    rw [htx1 u hu]
  have hloc := hp.located
  rw [ha, settle_cons_discard hid] at hloc
  refine ⟨hp.indexed, hp.routed, hloc, ⟨by rw [hp.context.pendingFees, ha]; rfl,
    hp.context.senderInfo.trans hsi, hp.context.config.trans hcf⟩, ?_, ?_, ?_⟩
  · intro id'
    rw [hp.txs id', ha]
    show (if discards us id' then none else (p.allTransactions.txs.erase id)[id']?) = _
    rw [get_erase]
    by_cases hiu : id = id'
    · simp [discards, hiu]
    · simp [discards, hiu]
  · intro tx
    rw [hp.promoted, htail]
    simp
  · intro tx
    rw [mem_append, hp.discarded, htail]
    simp [htx, eq_comm]

end

/-- **PROCESSING UPDATES**: every recorded update is carried out. -/
theorem processUpdates_spec (us : List PoolUpdate) (h : Located p loc)
    (hi : Indexed p.allTransactions) (hr : AllTransactions.Routed p.allTransactions)
    (hc : Recorded loc p.allTransactions us) :
    ∃ o p', processUpdates us p = some (o, p') ∧ Processed p loc us o p' := by
  induction us generalizing p loc with
  | nil =>
    exact ⟨_, _, rfl, hi, hr, h, SameContext.refl p, fun id => by simp [discards], by simp,
      by simp⟩
  | cons u us ih =>
    obtain ⟨t, ht, hl, hdest⟩ := hc.listed u (by simp)
    have htx : p.allTransactions.tx u.id = some t.transaction := tx_eq_some.mpr ⟨t, ht, rfl⟩
    obtain ⟨id, current, destination⟩ := u
    rcases hdest with ⟨hd, -⟩ | ⟨hd, hcur⟩
    · obtain rfl : destination = .pool t.subpool := hd
      obtain ⟨p1, hmove, h1, hs⟩ := moveTransaction_spec h (hr id t ht) hl
      obtain ⟨o, p', hproc, hp⟩ := ih h1 (hs.allTransactions ▸ hi) (hs.allTransactions ▸ hr)
        (hs.allTransactions ▸ hc.of_move _)
      refine ⟨_, p', ?_, hp.cons_move hc.not_mem hs ht⟩
      simp only [processUpdates, hmove, hproc, bind_eq_bind, bind_some]
      rfl
    · obtain rfl : destination = .discard := hd
      obtain ⟨p1, hprune, h1, ha, hsi, hcf⟩ := pruneTransactionById_spec h hi ht
        (Or.inr (by rw [hl, place_of_get ht]; exact congrArg (fun s => some (s, _)) hcur))
      obtain ⟨o, p', hproc, hp⟩ := ih h1 (ha ▸ hi.without htx) (ha ▸ hr.without _ _)
        (ha ▸ hc.of_discard _)
      refine ⟨_, p', ?_, hp.cons_discard hc.not_mem htx ha hsi hcf⟩
      rw [hl] at hprune
      simp only [processUpdates, hprune, hproc, bind_eq_bind, bind_some]
      rfl

/-- When the updates were all that was missing, the pool is sound again. -/
theorem Processed.sound (hp : Processed p loc us o p') (hc : Catches loc p.allTransactions us) :
    Sound p' :=
  ⟨hp.indexed, hp.routed, hc.settle_eq hp.txs ▸ hp.located⟩

/-- **PROMOTIONS**: what `process_updates` reports are the transactions that are
    pending now and were not before. -/
theorem Processed.promoted_iff (hp : Processed p loc us o p') (hi : Indexed p.allTransactions)
    (hc : Catches loc p.allTransactions us) (tx : ValidPoolTransaction) :
    tx ∈ o.promoted ↔ p'.allTransactions.place tx.id = some (.pending, tx)
      ∧ loc tx.id ≠ some (.pending, tx) := by
  have hplace : p'.allTransactions.place tx.id
      = if discards us tx.id then none else p.allTransactions.place tx.id := by
    rw [place, hp.txs, apply_ite (Option.map _)]
    rfl
  rw [hp.promoted]
  constructor
  · rintro ⟨u, hu, hd, htx⟩
    have hid : u.id = tx.id := (hi.tx_key htx).symm
    obtain ⟨t, ht, hl, hdest⟩ := hc.listed u hu
    rw [hd] at hdest
    obtain ⟨hd', hne⟩ := hdest.resolve_right fun h => by cases h.1
    have hsub : t.subpool = .pending := (Destination.pool.inj hd').symm
    have htt : t.transaction = tx := some.inj ((tx_eq_some.mpr ⟨t, ht, rfl⟩).symm.trans htx)
    rw [hid] at ht hl
    have hno : discards us tx.id = false := by
      rw [discards, List.any_eq_false]
      intro u' hu'
      rw [decide_eq_true_eq]
      rintro ⟨hid', hdis⟩
      have : u' = u := inj_on_of_nodup_map hc.nodup hu' hu (hid'.trans hid.symm)
      rw [this, hd] at hdis
      cases hdis
    rw [hplace, hno, hl, place_of_get ht, hsub, htt]
    refine ⟨rfl, fun heq => hne ?_⟩
    rw [hsub]
    exact congrArg Prod.fst (some.inj heq)
  · rintro ⟨hnew, hold⟩
    rw [hplace] at hnew
    by_cases hdis : discards us tx.id = true
    · rw [if_pos hdis] at hnew
      cases hnew
    rw [if_neg hdis] at hnew
    have hmem : tx.id ∈ us.map PoolUpdate.id := by
      by_contra hno
      exact hold ((hc.rest _ hno).trans hnew)
    obtain ⟨u, hu, hid⟩ := mem_map.mp hmem
    obtain ⟨t, ht, -, hdest⟩ := hc.listed u hu
    obtain ⟨t', ht', hs', htx'⟩ := place_eq_some.mp hnew
    rw [hid, ht'] at ht
    obtain rfl := some.inj ht
    refine ⟨u, hu, ?_, tx_eq_some.mpr ⟨t', hid ▸ ht', htx'⟩⟩
    rcases hdest with ⟨hd, -⟩ | ⟨hd, -⟩
    · rw [hd, hs']
    · refine absurd ?_ hdis
      rw [discards, List.any_eq_true]
      exact ⟨u, hu, decide_eq_true ⟨hid, hd⟩⟩

end TxPool

end TransactionPool
