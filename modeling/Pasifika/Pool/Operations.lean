import Pasifika.Pool.AccountPass
import Pasifika.Pool.FeeSwings
import Pasifika.Pool.Eviction

/-! # The operations of the pool

Each public operation of `TxPool` is inverted once: what it can do to a sound
pool, in terms of the metadata pass it runs, the fee swings it causes and the
entries it removes. Every invariant of the pool is derived from these. -/

namespace TransactionPool

open Std OrderedMap AllTransactions Function

variable {V : Type}

namespace TxPool

/-! ## Account updates -/

/-- What `update_accounts` did: the pass of `update`, carried out. -/
structure Accounted (changed : ExtTreeMap SenderId SenderInfo) (p : TxPool V) (o : UpdateOutcome)
    (p' : TxPool V) : Prop where
  sound : Sound p'
  pendingFees : p'.allTransactions.pendingFees = p.allTransactions.pendingFees
  senderInfo : p'.senderInfo = extend p.senderInfo changed
  config : p'.config = p.config
  txs : ∀ id : TransactionId, p'.allTransactions.txs[id]?
    = if discards (p.allTransactions.update changed).1 id then none
      else (p.allTransactions.update changed).2.txs[id]?
  promoted : ∀ tx, tx ∈ o.promoted ↔ NewlyPending p p' tx

variable {p p' : TxPool V} {changed : ExtTreeMap SenderId SenderInfo} {info : BlockInfo}

theorem updateAccounts_spec (h : Sound p) (changed : ExtTreeMap SenderId SenderInfo) :
    ∃ o p', p.updateAccounts changed = some (o, p') ∧ Accounted changed p o p' := by
  have hc := h.indexed.catches_update changed
  have hl : Located ({ p with
      allTransactions := (p.allTransactions.update changed).2
      senderInfo := extend p.senderInfo changed } : TxPool V) p.allTransactions.place :=
    h.located.congr rfl rfl rfl rfl
  obtain ⟨o, p', heq, hp⟩ := processUpdates_spec (p.allTransactions.update changed).1 hl
    (h.indexed.update changed) (h.indexed.routed_sweep h.routed (List.Sublist.refl _)
      (fun c _ _ hid => (AllTransactions.visits_update changed _ c hid).rewrites) _) hc.toRecorded
  exact ⟨o, p', heq, hp.sound hc, hp.context.pendingFees, hp.context.senderInfo, hp.context.config,
    hp.txs, hp.promoted_iff (h.indexed.update changed) hc⟩

variable {t' : PoolInternalTransaction} {id : TransactionId} {o : UpdateOutcome}
variable {nonce : Nat} {balance : U256} {tx : ValidPoolTransaction}
variable {mined : List TxHash} {op : Op}

theorem Accounted.entry (hacc : Accounted changed p o p') (hp : Sound p)
    (ht' : p'.allTransactions.txs[id]? = some t') :
    ∃ t c', p.allTransactions.txs[id]? = some t ∧ (p.allTransactions.visited changed id t).1 = c'
      ∧ AccountVisit changed p.allTransactions.pendingFees.baseFee
          (p.allTransactions.cursor changed id) id t c' t' false := by
  rw [hacc.txs] at ht'
  cases ht : p.allTransactions.txs[id]? with
  | none =>
    rw [update_get_none ht] at ht'
    split at ht' <;> nomatch ht'
  | some t =>
    obtain ⟨hget, hdis⟩ := hp.indexed.update_at changed ht
    have hv := hp.indexed.visited_cases changed ht
    rw [← hdis] at hv
    by_cases hd : discards (p.allTransactions.update changed).1 id = true
    · rw [if_pos hd] at ht'
      nomatch ht'
    · rw [if_neg hd, hget] at ht'
      rw [Option.some.inj ht', Bool.eq_false_iff.mpr hd] at hv
      exact ⟨t, _, rfl, rfl, hv⟩

/-- An entry that is not discarded is there after the pass. -/
theorem Accounted.kept (hacc : Accounted changed p o p') (hp : Sound p)
    (ht : p.allTransactions.txs[id]? = some t)
    (hc : (p.allTransactions.visited changed id t).1 = c') (hne : c' ≠ .next)
    (ht' : (p.allTransactions.visited changed id t).2.1 = t') :
    p'.allTransactions.txs[id]? = some t' := by
  obtain ⟨hget, hdis⟩ := hp.indexed.update_at changed ht
  have hsend := (hp.indexed.visited_cases changed ht).sender?
  rw [hacc.txs, hdis]
  cases hd : discarding (p.allTransactions.visited changed id t).2.2 with
  | true =>
    rw [hd, hc] at hsend
    cases c' with
    | next => exact absurd rfl hne
    | skipping | running => nomatch hsend
  | false =>
    rw [← ht', ← hget]
    rfl

/-! ## New canonical states -/

/-- The fees a block info asks for. -/
def nextFees (fees : PendingFees) (info : BlockInfo) : PendingFees :=
  ⟨info.pendingBasefee, info.pendingBlobFee.getD fees.blobFee⟩

/-- What pruning the mined transactions did. -/
structure Pruned (mined : List TxHash) (p p' : TxPool V) : Prop where
  sound : Sound p'
  context : SameContext p p'
  txs : ∀ i : TransactionId, p'.allTransactions.txs[i]?
    = p.allTransactions.txs[i]?.filter (fun t => decide (t.transaction.hash ∉ mined))

/-- `on_canonical_state_change`: prune, run the account pass under the new fees, then swing the fees
    from the old ones. -/
inductive CanonicalChange (p : TxPool V) (info : BlockInfo) (mined : List TxHash)
    (changed : ExtTreeMap SenderId SenderInfo) : OnNewCanonicalStateOutcome → TxPool V → Prop
  | mk {p₁ p₂ p₃ : TxPool V} {o : UpdateOutcome} {promoted : List ValidPoolTransaction}
      (hprune : Pruned mined p p₁)
      (haccount : Accounted changed (p₁.withFees (nextFees p.allTransactions.pendingFees info)) o p₂)
      (hfees : FeesSwing (p₂.withFees p.allTransactions.pendingFees)
        (nextFees p.allTransactions.pendingFees info) promoted p₃) :
      CanonicalChange p info mined changed
        ⟨info.lastSeenBlockHash, mined, o.promoted ++ promoted, o.discarded⟩ (p₃.withBlock info)

theorem onCanonicalStateChange_spec (h : Sound p) (info : BlockInfo) (mined : List TxHash)
    (changed : ExtTreeMap SenderId SenderInfo) :
    ∃ o p', p.onCanonicalStateChange info mined changed = some (o, p')
      ∧ CanonicalChange p info mined changed o p' := by
  obtain ⟨p₁, heq1, h1, hc1, ht1⟩ := pruneMined_spec mined h
  have hfees : p₁.allTransactions.pendingFees = p.allTransactions.pendingFees := hc1.pendingFees
  obtain ⟨o, p₂, heq2, hacc⟩ := updateAccounts_spec
    (h1.withFees (nextFees p.allTransactions.pendingFees info)) changed
  obtain ⟨promoted, p₃, heq3, hsw⟩ := applyFeeUpdates_spec hacc.sound
    p.allTransactions.pendingFees.baseFee p.allTransactions.pendingFees.blobFee
  rw [hacc.pendingFees] at hsw
  refine ⟨_, p₃.withBlock info, ?_, .mk ⟨h1, hc1, ht1⟩ hacc hsw⟩
  rw [onCanonicalStateChange, heq1]
  show Option.bind (updateAccounts (p₁.withFees (nextFees p₁.allTransactions.pendingFees info)) _) _
    = _
  rw [hfees, heq2]
  show Option.bind (applyFeeUpdates p₂ p₁.allTransactions.pendingFees.baseFee
    p₁.allTransactions.pendingFees.blobFee) _ = _
  rw [hfees, heq3]
  rfl

/-! ## Insertion -/

/-- The pool with the account data a submission came with. -/
def withSender (p : TxPool V) (sender : SenderId) (info : SenderInfo) : TxPool V :=
  { p with senderInfo := p.senderInfo.insert sender info }

/-- The answer to an accepted transaction. -/
def added (ok : InsertOk) (o : UpdateOutcome) : AddedTransaction :=
  if ok.moveTo = .pending then
    .pending ok.transaction (ok.replacedTx.map Prod.fst) o.promoted o.discarded
  else
    .parked ok.transaction (ok.replacedTx.map Prod.fst) ok.moveTo
      (ok.state.determineQueuedReason ok.moveTo)

/-- What an accepted transaction did to the pool. -/
structure Inserted (p : TxPool V) (tx : ValidPoolTransaction) (onChainBalance : U256)
    (onChainNonce : Nat) (ok : InsertOk) (o : UpdateOutcome) (p' : TxPool V) : Prop where
  sound : Sound p'
  context : SameContext (p.withSender tx.senderId ⟨onChainNonce, onChainBalance⟩) p'
  fresh : p.allTransactions.contains tx.hash = false
  inserts : ∃ a', Inserts p.allTransactions tx onChainBalance onChainNonce ok a'
    ∧ ∀ id : TransactionId, p'.allTransactions.txs[id]? = a'.txs[id]?
  placed : p'.allTransactions.place tx.id = some (ok.moveTo, tx)
  promoted : ∀ tx', tx' ∈ o.promoted ↔ p'.allTransactions.place tx'.id = some (.pending, tx')
    ∧ Function.update p.allTransactions.place tx.id (some (ok.moveTo, tx)) tx'.id
        ≠ some (.pending, tx')

/-- What `add_transaction` can do. -/
inductive Adds (p : TxPool V) (tx : ValidPoolTransaction) (onChainBalance : U256)
    (onChainNonce : Nat) : Except PoolError AddedTransaction → TxPool V → Prop
  | rejected (e : PoolError) : Adds p tx onChainBalance onChainNonce (.error e) p
  | refused (e : PoolError) : Adds p tx onChainBalance onChainNonce (.error e)
      (p.withSender tx.senderId ⟨onChainNonce, onChainBalance⟩)
  | inserted {ok : InsertOk} {o : UpdateOutcome} {p' : TxPool V}
      (h : Inserted p tx onChainBalance onChainNonce ok o p') :
      Adds p tx onChainBalance onChainNonce (.ok (added ok o)) p'

/-- The pass of `insert_tx` discards nothing. -/
theorem discards_insertSweep (a : AllTransactions) (tx : ValidPoolTransaction)
    (balance : U256) (nonce : Nat) (i : TransactionId) :
    discards (a.insertSweep tx balance nonce).2.2 i = false := by
  rw [discards, List.any_eq_false]
  intro u hu
  rw [decide_eq_true_eq]
  rintro ⟨-, hd⟩
  rcases (mem_sweep_updates _ _ _ _).mp hu with h | ⟨l1, k, t, l2, -, h⟩
  · cases h
  simp only [insertVisit] at h
  split at h
  · cases h
  · split at h
    · cases h
    · simp only [reroute] at h
      split at h
      · rw [List.mem_singleton.mp h] at hd
        cases hd
      · cases h

/-- The replaced transaction leaves its sub-pool and the new one takes its place. -/
theorem addNewTransaction_spec (h : Located p loc) (tx : ValidPoolTransaction)
    (hs : s = .blob → tx.isEip4844 = true) (hloc : loc tx.id = replaced) :
    ∃ p', p.addNewTransaction tx (replaced.map Prod.swap) s = some p'
      ∧ Located p' (update loc tx.id (some (s, tx))) ∧ SameTracking p p' := by
  cases replaced with
  | none =>
    obtain ⟨p', hadd, h', hsame⟩ := h.addTransactionToSubpool s tx hloc hs
    exact ⟨p', hadd, h', hsame⟩
  | some e =>
    obtain ⟨pool, old⟩ := e
    have hid : old.id = tx.id := h.key hloc
    obtain ⟨p₁, hrem, h1, hsame1⟩ := h.removeFromSubpool pool tx.id (fun e he => by
      rw [hloc] at he
      exact congrArg Prod.fst (Option.some.inj he).symm)
    obtain ⟨p', hadd, h', hsame⟩ := h1.addTransactionToSubpool s tx (update_self _ _ _) hs
    rw [update_idem] at h'
    refine ⟨p', ?_, h', hsame1.trans hsame⟩
    simp only [addNewTransaction, Option.map_some, Prod.swap, hid, hrem, Option.bind_eq_bind,
      Option.bind_some, hadd]

/-- The sub-pool half of an accepted insertion. -/
theorem finishAdd_spec (h : Sound p) (hfresh : p.allTransactions.contains tx.hash = false)
    (hins : Inserts p.allTransactions tx balance nonce ok a') :
    ∃ o p', { p.withSender tx.senderId ⟨nonce, balance⟩ with
        allTransactions := a' }.finishAdd ok = some (added ok o, p')
      ∧ Inserted p tx balance nonce ok o p' := by
  have hi' := h.indexed.inserts hins hfresh
  have hr' := hins.routed h.indexed h.routed hfresh
  have hc := hins.catches h.indexed h.routed hfresh
  have hl : Located ({ p.withSender tx.senderId ⟨nonce, balance⟩ with
      allTransactions := a' } : TxPool V) p.allTransactions.place :=
    h.located.congr rfl rfl rfl rfl
  obtain ⟨t, ht, hstate, htx⟩ := insertSweep_state p.allTransactions tx balance nonce
  have ht' : a'.txs[tx.id]? = some t := by
    rw [hins.set_eq]
    exact ht
  have hmove : t.subpool = ok.moveTo := by
    rw [(hr' _ t ht').subpool, hstate, hins.ok_eq]
  have htransaction : ok.transaction = tx := by rw [hins.ok_eq]
  obtain ⟨p₁, hadd, h1, hsame⟩ := addNewTransaction_spec hl tx (s := ok.moveTo)
    (fun hb => htx ▸ (hr' _ t ht').isEip4844 (hmove.trans hb)) rfl
  have hreplaced : (p.allTransactions.place tx.id).map Prod.swap = ok.replacedTx := by
    rw [hins.ok_eq, place, Option.map_map]
    rfl
  rw [hreplaced] at hadd
  have ha1 : p₁.allTransactions = a' := hsame.allTransactions
  obtain ⟨o, p', hproc, hp⟩ := processUpdates_spec ok.updates h1 (ha1 ▸ hi') (ha1 ▸ hr')
    (ha1 ▸ hc.toRecorded)
  have hdisc : ∀ i, discards ok.updates i = false := by
    intro i
    rw [hins.ok_eq]
    exact discards_insertSweep _ _ _ _ i
  have htxs : ∀ id : TransactionId, p'.allTransactions.txs[id]? = a'.txs[id]? := by
    intro id
    rw [hp.txs, hdisc, ha1]
    rfl
  refine ⟨o, p', ?_, hp.sound (ha1 ▸ hc), ⟨?_, ?_, ?_⟩, hfresh, ⟨a', hins, htxs⟩, ?_,
    hp.promoted_iff (ha1 ▸ hi') (ha1 ▸ hc)⟩
  · simp only [finishAdd, htransaction, hadd, hproc, Option.bind_eq_bind, Option.bind_some, added]
  · rw [hp.context.pendingFees, ha1, hins.set_eq]
    simp only [placed, base, AllTransactions.withTx]
    cases p.allTransactions.txs[tx.id]? <;> rfl
  · rw [hp.context.senderInfo, hsame.senderInfo]
  · rw [hp.context.config, hsame.config]
  · rw [place, htxs, ht', ← hmove, ← htx]
    rfl

/-- **INSERTION** returns unless the nonce assertion fails. -/
theorem addTransaction_spec (h : Sound p) (tx : ValidPoolTransaction) (balance : U256)
    (nonce : Nat) (onChainCodeHash : Option Nat) :
    (∃ r p', p.addTransaction tx balance nonce onChainCodeHash = some (r, p')
      ∧ Adds p tx balance nonce r p')
    ∨ p.addTransaction tx balance nonce onChainCodeHash = none
      ∧ tx.nonce < nonce := by
  by_cases hcon : p.allTransactions.contains tx.hash = true
  · refine .inl ⟨_, p, ?_, .rejected ⟨tx.hash, .alreadyImported⟩⟩
    rw [addTransaction, if_pos hcon]
  have hfresh : p.allTransactions.contains tx.hash = false := Bool.eq_false_iff.mpr hcon
  cases hauth : p.validateAuth tx nonce onChainCodeHash with
  | error e =>
    refine .inl ⟨_, p, ?_, .rejected e⟩
    rw [addTransaction, if_neg hcon, hauth]
  | ok u =>
    rw [addTransaction, if_neg hcon, hauth]
    obtain ⟨⟩ := u
    dsimp only
    cases hins : p.allTransactions.insertTx tx balance nonce with
    | none =>
      refine .inr ⟨rfl, ?_⟩
      by_contra hge
      rw [insertTx, if_neg hge] at hins
      split at hins
      · cases hins
      · split at hins
        · cases hins
        · split at hins
          · cases hins
          · cases hins
    | some r =>
      refine .inl ?_
      rcases h.indexed.insertTx_cases hins with ⟨err, rfl⟩ | ⟨ok, a', rfl, hin⟩
      · exact ⟨_, _, rfl, .refused _⟩
      · obtain ⟨o, p', heq, hinserted⟩ := finishAdd_spec h hfresh hin
        refine ⟨.ok (added ok o), p', ?_, .inserted hinserted⟩
        rw [Option.bind_eq_bind, Option.bind_some]
        exact Option.bind_eq_some_iff.mpr ⟨_, heq, rfl⟩

theorem Adds.sound (h : Sound p) (hadds : Adds p tx balance nonce r p') : Sound p' := by
  cases hadds with
  | rejected => exact h
  | refused => exact ⟨h.indexed, h.routed, h.located.congr rfl rfl rfl rfl⟩
  | inserted hin => exact hin.sound

theorem FeesSwing.sound (h : FeesSwing p fees promoted p') : Sound p' := by
  obtain ⟨-, hblob⟩ := h
  exact hblob.sound

theorem sound_withBlock (h : Sound p) (info : BlockInfo) : Sound (p.withBlock info) :=
  ⟨h.indexed.congr (fun _ => rfl) rfl rfl rfl, h.routed, h.located.congr rfl rfl rfl rfl⟩

theorem BlockSwing.sound (h : BlockSwing p info p') : Sound p' := by
  cases h with
  | base _ hsw | both _ _ hsw => exact sound_withBlock hsw.sound info

theorem CanonicalChange.sound {o : OnNewCanonicalStateOutcome}
    (h : CanonicalChange p info mined changed o p') : Sound p' := by
  obtain ⟨-, -, hfees⟩ := h
  exact sound_withBlock hfees.sound info

/-! ## Fees and sender data -/

theorem BlockSwing.context (h : BlockSwing p info p') :
    SameContext (p.withFees (nextFees p.allTransactions.pendingFees info)) p' := by
  cases h with
  | base _ hbase =>
    refine ⟨?_, hbase.context.senderInfo, hbase.context.config⟩
    show nextFees _ info = nextFees _ info
    rw [hbase.context.pendingFees]
    rfl
  | both hsome hbase hblob =>
    refine ⟨?_, hblob.context.senderInfo.trans hbase.context.senderInfo,
      hblob.context.config.trans hbase.context.config⟩
    show nextFees _ info = nextFees _ info
    rw [nextFees, nextFees, hsome]
    rfl

/-- The pool with the data of some senders replaced. -/
def withSenders (p : TxPool V) (changed : ExtTreeMap SenderId SenderInfo) : TxPool V :=
  { p with senderInfo := extend p.senderInfo changed }

theorem CanonicalChange.context {o : OnNewCanonicalStateOutcome}
    (h : CanonicalChange p info mined changed o p') :
    SameContext ((p.withSenders changed).withFees
      (nextFees p.allTransactions.pendingFees info)) p' := by
  obtain ⟨hprune, haccount, hfees⟩ := h
  refine ⟨?_, ?_, ?_⟩
  · show nextFees _ info = nextFees _ info
    rw [hfees.context.pendingFees]
    simp only [nextFees]
    cases info.pendingBlobFee with
    | none | some fee => rfl
  · show _ = extend p.senderInfo changed
    rw [← hprune.context.senderInfo]
    exact hfees.context.senderInfo.trans haccount.senderInfo
  · exact hfees.context.config.trans (haccount.config.trans hprune.context.config)

theorem get_extend (m changed : ExtTreeMap SenderId SenderInfo) (s : SenderId) :
    (extend m changed)[s]? = changed[s]?.or m[s]? := by
  refine Option.ext fun info => ?_
  rw [extend, get_foldl_insert _ _ (nodup_keys changed), mem_toList, ← get_eq_none_iff,
    Option.or_eq_some_iff]

/-! ## Runs -/

/-- The public operations, with their arguments. -/
inductive Op
  | addTransaction (tx : ValidPoolTransaction) (onChainBalance : U256) (onChainNonce : Nat)
      (onChainCodeHash : Option Nat)
  | onCanonicalStateChange (blockInfo : BlockInfo) (minedTransactions : List TxHash)
      (changedSenders : ExtTreeMap SenderId SenderInfo)
  | setBlockInfo (info : BlockInfo)
  | updateAccounts (changedSenders : ExtTreeMap SenderId SenderInfo)
  | removeTransactions (hashes : List TxHash)
  | removeTransactionsAndDescendants (hashes : List TxHash)
  | removeTransactionsBySender (sender : SenderId)
  | discardWorst

variable [LinearOrder V]

/-- The pool after an operation; `fuel` bounds the loops of `discard_worst`. -/
def apply (fuel : Nat) (p : TxPool V) : Op → Option (TxPool V)
  | .addTransaction tx onChainBalance onChainNonce onChainCodeHash =>
    (p.addTransaction tx onChainBalance onChainNonce onChainCodeHash).map Prod.snd
  | .onCanonicalStateChange blockInfo mined changed =>
    (p.onCanonicalStateChange blockInfo mined changed).map Prod.snd
  | .setBlockInfo info => p.setBlockInfo info
  | .updateAccounts changed => (p.updateAccounts changed).map Prod.snd
  | .removeTransactions hashes => (removeTransactions hashes p).map Prod.snd
  | .removeTransactionsAndDescendants hashes =>
    (removeTransactionsAndDescendants hashes p).map Prod.snd
  | .removeTransactionsBySender sender => (p.removeTransactionsBySender sender).map Prod.snd
  | .discardWorst => (p.discardWorst fuel).map Prod.snd

/-- The operation returned with the pool `p'`. -/
def Step (p : TxPool V) (op : Op) (p' : TxPool V) : Prop := ∃ fuel, p.apply fuel op = some p'

omit [LinearOrder V] in
/-- What an operation that returned did. -/
inductive Effect (p : TxPool V) : Op → TxPool V → Prop
  | adds {tx : ValidPoolTransaction} {onChainBalance : U256} {onChainNonce : Nat}
      {onChainCodeHash : Option Nat} {r : Except PoolError AddedTransaction} {p' : TxPool V}
      (h : Adds p tx onChainBalance onChainNonce r p') :
      Effect p (.addTransaction tx onChainBalance onChainNonce onChainCodeHash) p'
  | canonical {info : BlockInfo} {mined : List TxHash}
      {changed : ExtTreeMap SenderId SenderInfo} {o : OnNewCanonicalStateOutcome} {p' : TxPool V}
      (h : CanonicalChange p info mined changed o p') :
      Effect p (.onCanonicalStateChange info mined changed) p'
  | block {info : BlockInfo} {p' : TxPool V} (h : BlockSwing p info p') :
      Effect p (.setBlockInfo info) p'
  | accounts {changed : ExtTreeMap SenderId SenderInfo} {o : UpdateOutcome} {p' : TxPool V}
      (h : Accounted changed p o p') : Effect p (.updateAccounts changed) p'
  | removes {op : Op} {p' : TxPool V} (h : Removed p p') : Effect p op p'

/-- **INVERSION OF A STEP.** -/
theorem step_cases (h : Sound p) (hs : Step p op p') : Effect p op p' := by
  obtain ⟨fuel, hs⟩ := hs
  cases op with
  | addTransaction tx balance nonce onChainCodeHash =>
    rcases addTransaction_spec h tx balance nonce onChainCodeHash with
      ⟨r, q, heq, hadds⟩ | ⟨hnone, -⟩
    · rw [apply, heq] at hs
      cases hs
      exact .adds hadds
    · rw [apply, hnone] at hs
      nomatch hs
  | onCanonicalStateChange info mined changed =>
    obtain ⟨o, q, heq, hch⟩ := onCanonicalStateChange_spec h info mined changed
    rw [apply, heq] at hs
    cases hs
    exact .canonical hch
  | setBlockInfo info =>
    obtain ⟨q, heq, hsw⟩ := setBlockInfo_spec h info
    rw [apply, heq] at hs
    cases hs
    exact .block hsw
  | updateAccounts changed =>
    obtain ⟨o, q, heq, hacc⟩ := updateAccounts_spec h changed
    rw [apply, heq] at hs
    cases hs
    exact .accounts hacc
  | removeTransactions hashes =>
    obtain ⟨out, q, heq, hrm⟩ := removeTransactions_spec hashes h
    rw [apply, heq] at hs
    cases hs
    exact .removes hrm
  | removeTransactionsAndDescendants hashes =>
    obtain ⟨out, q, heq, hrm⟩ := removeTransactionsAndDescendants_spec hashes h
    rw [apply, heq] at hs
    cases hs
    exact .removes hrm
  | removeTransactionsBySender sender =>
    obtain ⟨out, q, heq, hrm⟩ := removeTransactionsBySender_removed h sender
    rw [apply, heq] at hs
    cases hs
    exact .removes hrm
  | discardWorst =>
    obtain ⟨⟨out, q⟩, heq, hq⟩ := Option.map_eq_some_iff.mp hs
    cases hq
    exact .removes (discardWorstOf_discarded _ h heq).toRemoved

omit [LinearOrder V] in
theorem Effect.sound (h : Sound p) (he : Effect p op p') : Sound p' := by
  cases he with
  | adds hadds => exact hadds.sound h
  | canonical hch | block hch | accounts hch | removes hch => exact hch.sound

end TxPool

end TransactionPool
