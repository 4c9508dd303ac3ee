import Pasifika.Pool.Partition

/-! # Fee swings

When the base fee or the blob fee changes, one sub-pool gives up the
transactions the new fee affects, their fee flags are rewritten, and each is
added to the sub-pool it is routed to now. This module says that the pool
stays sound through this, and exactly which entries change and how. -/

namespace TransactionPool

open OrderedMap AllTransactions List Option Function Nat

variable {V : Type}

/-! ## Rerouting what was given up -/

variable {id : TransactionId} {p : TxPool V} {t : PoolInternalTransaction}
  {a : AllTransactions} {t' : PoolInternalTransaction} {s : SubPool}

theorem AllTransactions.Indexed.insert_same (h : Indexed a) (ht : a.txs[id]? = some t)
    (htx : t'.transaction = t.transaction) :
    Indexed { a with txs := a.txs.insert id t' } := by
  refine h.congr (fun id' => ?_) rfl rfl rfl
  show (a.txs.insert id t')[id']?.map _ = a.tx id'
  rw [get_insert]
  by_cases hid : id = id'
  · rw [if_pos hid, ← hid, AllTransactions.tx, ht]
    exact congrArg some htx
  · rw [if_neg hid]
    rfl

theorem AllTransactions.Routed.insert (h : AllTransactions.Routed a) (id : TransactionId)
    (ht' : t'.Routed) :
    AllTransactions.Routed { a with txs := a.txs.insert id t' } := by
  intro id' t ht
  have ht0 : (a.txs.insert id t')[id']? = some t := ht
  rw [get_insert] at ht0
  by_cases hid : id = id'
  · rw [if_pos hid] at ht0
    exact some.inj ht0 ▸ ht'
  · rw [if_neg hid] at ht0
    exact h id' t ht0

namespace TxPool

variable {t : PoolInternalTransaction} {promoted : List ValidPoolTransaction}
variable {ids : List TransactionId} {loc : Placement} {p p' : TxPool V}

theorem setState_of_get (ht : p.allTransactions.txs[id]? = some t) (f : TxState → TxState) :
    p.setState id f = some ((f t.state).subPool,
      { p with
        allTransactions := { p.allTransactions with
          txs := p.allTransactions.txs.insert id (restate f t) } }) := by
  simp only [setState, ht]
  rfl

/-- What rerouting a list of transactions did. -/
structure Rerouted (f : TxState → TxState) (p : TxPool V) (loc : Placement)
    (ids : List TransactionId) (promoted : List ValidPoolTransaction) (p' : TxPool V) : Prop where
  indexed : Indexed p'.allTransactions
  routed : AllTransactions.Routed p'.allTransactions
  located : Located p' (fun id => if id ∈ ids then p'.allTransactions.place id else loc id)
  context : SameContext p p'
  txs : ∀ id : TransactionId, p'.allTransactions.txs[id]?
    = if id ∈ ids then p.allTransactions.txs[id]?.map (restate f) else p.allTransactions.txs[id]?
  promoted : ∀ tx, tx ∈ promoted ↔ tx.id ∈ ids ∧ ∃ t, p.allTransactions.txs[tx.id]? = some t ∧
    t.transaction = tx ∧ (f t.state).subPool = .pending

variable {f : TxState → TxState}

theorem Rerouted.cons {p p₁ p' : TxPool V}
    (ht : p.allTransactions.txs[t.transaction.id]? = some t) (hid : t.transaction.id ∉ ids)
    (ha : p₁.allTransactions = { p.allTransactions with
      txs := p.allTransactions.txs.insert t.transaction.id (restate f t) })
    (hsi : p₁.senderInfo = p.senderInfo) (hcf : p₁.config = p.config)
    (h : Rerouted f p₁ (update loc t.transaction.id
      (some ((f t.state).subPool, t.transaction))) ids promoted p') :
    Rerouted f p loc (t.transaction.id :: ids)
      ((if (f t.state).subPool = .pending then [t.transaction] else []) ++ promoted) p' := by
  have hget : ∀ id : TransactionId, p₁.allTransactions.txs[id]?
      = if t.transaction.id = id then some (restate f t) else p.allTransactions.txs[id]? := by
    intro id
    rw [ha]
    exact get_insert _ _ _ _
  refine ⟨h.indexed, h.routed, ?_, ?_, ?_, ?_⟩
  · refine h.located.of_eq (fun id => ?_)
    by_cases hin : id ∈ ids
    · simp [hin]
    · by_cases hti : id = t.transaction.id
      · subst hti
        have : p'.allTransactions.txs[t.transaction.id]? = some (restate f t) := by
          rw [h.txs, if_neg hin, hget, if_pos rfl]
        rw [if_neg hin, update_self, if_pos (by simp), place_of_get this]
        rfl
      · rw [if_neg hin, update_of_ne hti, if_neg (by simp [hti, hin])]
  · exact ⟨by rw [h.context.pendingFees, ha], h.context.senderInfo.trans hsi,
      h.context.config.trans hcf⟩
  · intro id
    rw [h.txs id, hget]
    by_cases hti : t.transaction.id = id
    · subst hti
      rw [if_neg hid, if_pos rfl, if_pos (by simp), ht]
      rfl
    · rw [if_neg hti]
      simp [Ne.symm hti]
  · intro tx
    rw [mem_append, h.promoted]
    by_cases hti : t.transaction.id = tx.id
    · have hno : tx.id ∉ ids := hti ▸ hid
      have htx : ∀ t', p.allTransactions.txs[tx.id]? = some t' → t' = t := by
        intro t' ht'
        rw [← hti, ht] at ht'
        exact (some.inj ht').symm
      have hiff : (∃ t', p.allTransactions.txs[tx.id]? = some t' ∧ t'.transaction = tx ∧
          (f t'.state).subPool = .pending) ↔ t.transaction = tx ∧ (f t.state).subPool = .pending := by
        constructor
        · rintro ⟨t', ht', rfl, hp⟩
          rw [htx t' ht'] at hp ⊢
          exact ⟨rfl, hp⟩
        · rintro ⟨rfl, hp⟩
          exact ⟨t, ht, rfl, hp⟩
      rw [hiff, hti]
      by_cases hpend : (f t.state).subPool = .pending
      · simp [hpend, hno, eq_comm]
      · simp [hpend, hno]
    · have hne : ¬ (tx ∈ if (f t.state).subPool = .pending then [t.transaction] else []) := by
        split
        · rw [mem_singleton]
          rintro rfl
          exact hti rfl
        · exact not_mem_nil
      simp only [hne, false_or, mem_cons, Ne.symm hti, hget, if_neg hti]

/-- **REROUTING**: transactions that no sub-pool holds are rewritten and each is
    added where it belongs now. -/
theorem rerouteRemoved_spec (removed : List ValidPoolTransaction) (h : Located p loc)
    (hi : Indexed p.allTransactions) (hr : AllTransactions.Routed p.allTransactions)
    (hnd : (removed.map (·.id)).Nodup)
    (hall : ∀ tx ∈ removed, loc tx.id = none ∧ ∃ t, p.allTransactions.txs[tx.id]? = some t ∧
      t.transaction = tx ∧ (restate f t).Routed) :
    ∃ promoted p', rerouteRemoved f removed p = some (promoted, p') ∧
      Rerouted f p loc (removed.map (·.id)) promoted p' := by
  induction removed generalizing p loc with
  | nil =>
    exact ⟨_, _, rfl, hi, hr, h.of_eq fun _ => rfl, SameContext.refl p, fun _ => rfl, by simp⟩
  | cons tx removed ih =>
    obtain ⟨hid, hnd'⟩ := nodup_cons.mp hnd
    obtain ⟨hl, t, ht, rfl, hrt⟩ := hall tx (by simp)
    have hset := setState_of_get ht f
    generalize hp1 : ({ p with
      allTransactions := { p.allTransactions with
        txs := p.allTransactions.txs.insert t.transaction.id (restate f t) } } : TxPool V) = p₁
      at hset
    have h1 : Located p₁ loc := hp1 ▸ h.congr rfl rfl rfl rfl
    obtain ⟨p₂, hadd, h2, hs⟩ := h1.addTransactionToSubpool (f t.state).subPool t.transaction hl
      (fun hb => hrt.isEip4844 hb)
    have ha : p₂.allTransactions = { p.allTransactions with
        txs := p.allTransactions.txs.insert t.transaction.id (restate f t) } := by
      rw [hs.allTransactions, ← hp1]
    obtain ⟨promoted, p', heq, hre⟩ := ih h2 (ha ▸ hi.insert_same ht rfl)
      (ha ▸ hr.insert _ hrt) hnd' (fun tx' htx' => by
        have hne : t.transaction.id ≠ tx'.id := fun heq => hid (mem_map.mpr ⟨tx', htx', heq.symm⟩)
        obtain ⟨hl', t', ht', hrest⟩ := hall tx' (mem_cons_of_mem _ htx')
        refine ⟨by rw [update_of_ne (Ne.symm hne), hl'], t', ?_, hrest⟩
        rw [ha]
        exact (get_insert_ne hne).trans ht')
    refine ⟨_, p', ?_, hre.cons ht hid ha (by rw [hs.senderInfo, ← hp1])
      (by rw [hs.config, ← hp1])⟩
    simp only [rerouteRemoved, hset, hadd, heq, bind_eq_bind, bind_some]

theorem Rerouted.sound (h : Rerouted f p loc ids promoted p')
    (hloc : ∀ id ∉ ids, loc id = p.allTransactions.place id) : Sound p' := by
  refine ⟨h.indexed, h.routed, h.located.of_eq fun id => ?_⟩
  by_cases hid : id ∈ ids
  · rw [if_pos hid]
  · rw [if_neg hid, hloc id hid, place, place, h.txs, if_neg hid]

/-! ## The whole swing -/

/-- The transactions a call moved into the pending sub-pool, by the metadata. -/
def NewlyPending (p p' : TxPool V) (tx : ValidPoolTransaction) : Prop :=
  p'.allTransactions.place tx.id = some (.pending, tx)
    ∧ p.allTransactions.place tx.id ≠ some (.pending, tx)

/-- What a swing of one fee did: the selected entries were rewritten with `f`. -/
structure Swung (f : TxState → TxState) (sel : TransactionId → Prop) (p : TxPool V)
    (promoted : List ValidPoolTransaction) (p' : TxPool V) : Prop where
  sound : Sound p'
  context : SameContext p p'
  selected : ∀ id : TransactionId, sel id →
    p'.allTransactions.txs[id]? = p.allTransactions.txs[id]?.map (restate f)
  untouched : ∀ id : TransactionId, ¬ sel id →
    p'.allTransactions.txs[id]? = p.allTransactions.txs[id]?
  promoted : ∀ tx, tx ∈ promoted ↔ NewlyPending p p' tx

theorem Swung.refl (h : Sound p) (f : TxState → TxState) : Swung f (fun _ => False) p [] p where
  sound := h
  context := SameContext.refl p
  selected := fun _ hsel => hsel.elim
  untouched := fun _ _ => rfl
  promoted := fun _ => ⟨nofun, fun h => absurd h.1 h.2⟩

section

variable {f : TxState → TxState} {p p' : TxPool V} {loc : Placement} {ids : List TransactionId}
  {promoted : List ValidPoolTransaction}

/-- Transactions from a parked sub-pool: those routed to pending are reported. -/
theorem Rerouted.swung_up (h : Rerouted f p loc ids promoted p')
    (hloc : ∀ id ∉ ids, loc id = p.allTransactions.place id)
    (hparked : ∀ id ∈ ids, ∀ tx, p.allTransactions.place id ≠ some (.pending, tx)) :
    Swung f (· ∈ ids) p promoted p' := by
  refine ⟨h.sound hloc, h.context, fun id hid => by rw [h.txs, if_pos hid],
    fun id hid => by rw [h.txs, if_neg hid], fun tx => ?_⟩
  rw [h.promoted, NewlyPending, place_eq_some]
  constructor
  · rintro ⟨hid, t, ht, rfl, hp⟩
    refine ⟨⟨restate f t, ?_, hp, rfl⟩, hparked _ hid _⟩
    rw [h.txs, if_pos hid, ht]
    rfl
  · rintro ⟨⟨t', ht', hp, htx⟩, hne⟩
    rw [h.txs] at ht'
    by_cases hid : tx.id ∈ ids
    · rw [if_pos hid] at ht'
      obtain ⟨t, ht, rfl⟩ := map_eq_some_iff.mp ht'
      exact ⟨hid, t, ht, htx, hp⟩
    · rw [if_neg hid] at ht'
      exact absurd (place_eq_some.mpr ⟨t', ht', hp, htx⟩) hne

/-- Transactions that lose a flag they need: none is promoted. -/
theorem Rerouted.swung_down (h : Rerouted f p loc ids promoted p')
    (hloc : ∀ id ∉ ids, loc id = p.allTransactions.place id)
    (hf : ∀ s, (f s).subPool ≠ .pending) : Swung f (· ∈ ids) p [] p' := by
  refine ⟨h.sound hloc, h.context, fun id hid => by rw [h.txs, if_pos hid],
    fun id hid => by rw [h.txs, if_neg hid], fun tx => ⟨nofun, ?_⟩⟩
  rintro ⟨hnew, hold⟩
  obtain ⟨t', ht', hp, htx⟩ := place_eq_some.mp hnew
  rw [h.txs] at ht'
  by_cases hid : tx.id ∈ ids
  · rw [if_pos hid] at ht'
    obtain ⟨t, ht, rfl⟩ := map_eq_some_iff.mp ht'
    exact absurd hp (hf t.state)
  · rw [if_neg hid] at ht'
    exact absurd (place_eq_some.mpr ⟨t', ht', hp, htx⟩) hold

theorem Swung.of_iff (h : Swung f sel p promoted p') (hsel : ∀ id, sel id ↔ sel' id) :
    Swung f sel' p promoted p' :=
  ⟨h.sound, h.context, fun id hid => h.selected id ((hsel id).mpr hid),
    fun id hid => h.untouched id fun hs => hid ((hsel id).mp hs), h.promoted⟩

end

/-- A sub-pool gives up transactions and they are rerouted. -/
theorem rerouteRemoved_withdrawn (h : Sound p) (hsame : SameTracking p q) (hq : q.queuedPool.WF)
    (hf : q.basefeePool.WF) (hb : q.blobPool.WF) (hp : q.pendingPool.WF)
    (hw : Withdraws (·.id) (p.subpoolGet s) (q.subpoolGet s) out)
    (hother : ∀ s', s' ≠ s → q.subpoolGet s' = p.subpoolGet s')
    (hrt : ∀ t, p.allTransactions.txs[t.transaction.id]? = some t → t.transaction ∈ out → t.Routed
      → (restate f t).Routed) :
    ∃ promoted p', rerouteRemoved f out q = some (promoted, p')
      ∧ Rerouted f p (withdrawn p.allTransactions.place out) (out.map (·.id))
          promoted p' := by
  obtain ⟨hl, hout⟩ := h.located.withdraw hq hf hb hp hw hother
  obtain ⟨promoted, p', heq, hre⟩ := rerouteRemoved_spec (f := f) out hl
    (hsame.allTransactions ▸ h.indexed) (hsame.allTransactions ▸ h.routed) hw.nodup (by
      intro tx htx
      obtain ⟨t, ht, -, rfl⟩ := place_eq_some.mp (hout tx htx)
      refine ⟨withdrawn_of_mem htx, t, hsame.allTransactions ▸ ht, rfl, ?_⟩
      exact hrt t ht htx (h.routed _ t ht))
  obtain ⟨hi, hr, hloc, hcx, htxs, hprom⟩ := hre
  rw [hsame.allTransactions] at htxs hprom
  exact ⟨promoted, p', heq, hi, hr, hloc, ⟨by rw [hcx.pendingFees, hsame.allTransactions],
    hcx.senderInfo.trans hsame.senderInfo, hcx.config.trans hsame.config⟩, htxs, hprom⟩

/-- The pool with other pending fees. -/
def withFees (p : TxPool V) (fees : PendingFees) : TxPool V :=
  { p with allTransactions := { p.allTransactions with pendingFees := fees } }

abbrev withBaseFee (p : TxPool V) (fee : Nat) : TxPool V :=
  p.withFees { p.allTransactions.pendingFees with baseFee := fee }

abbrev withBlobFee (p : TxPool V) (fee : Nat) : TxPool V :=
  p.withFees { p.allTransactions.pendingFees with blobFee := fee }

/-! ## Selections -/

/-- In sub-pool `s` and not before the first bad transaction of its sender there. -/
def Tail (a : AllTransactions) (s : SubPool) (bad : ValidPoolTransaction → Prop)
    (id : TransactionId) : Prop :=
  (∃ tx, a.place id = some (s, tx)) ∧ ∃ id' tx', a.place id' = some (s, tx') ∧
    id'.sender = id.sender ∧ id'.nonce ≤ id.nonce ∧ bad tx'

/-- In sub-pool `s` and before the first transaction of its sender there that is not good. -/
def Head (a : AllTransactions) (s : SubPool) (good : ValidPoolTransaction → Prop)
    (id : TransactionId) : Prop :=
  (∃ tx, a.place id = some (s, tx)) ∧ ∀ id' tx', a.place id' = some (s, tx') →
    id'.sender = id.sender → id'.nonce ≤ id.nonce → good tx'

end TxPool

open TxPool (withFees withBlobFee Tail Head Swung rerouteRemoved_withdrawn)

theorem Sound.withFees (h : Sound p) (fees : PendingFees) : Sound (p.withFees fees) :=
  ⟨h.indexed.congr (fun _ => rfl) rfl rfl rfl, h.routed, h.located.congr rfl rfl rfl rfl⟩

theorem Sound.subpoolGet_eq_some (h : Sound p) {tx : ValidPoolTransaction} :
    p.subpoolGet s id = some tx ↔ p.allTransactions.place id = some (s, tx) := by
  rw [h.located.holds, heldIn_eq_some]

theorem Sound.subpoolGet_isSome (h : Sound p) :
    (p.subpoolGet s id).isSome = true ↔ ∃ tx, p.allTransactions.place id = some (s, tx) := by
  rw [isSome_iff_exists]
  exact exists_congr fun _ => h.subpoolGet_eq_some

/-- The selection of a pass over one sub-pool, by the lookups of that sub-pool. -/
theorem Sound.tail_iff (h : Sound p) (s : SubPool) (bad : ValidPoolTransaction → Prop)
    (id : TransactionId) :
    Tail p.allTransactions s bad id ↔ (p.subpoolGet s id).isSome = true ∧
      ∃ id' tx', p.subpoolGet s id' = some tx' ∧ id'.sender = id.sender ∧ id'.nonce ≤ id.nonce
        ∧ bad tx' := by
  rw [Tail, h.subpoolGet_isSome]
  simp only [h.subpoolGet_eq_some]

theorem Sound.head_iff (h : Sound p) (s : SubPool) (good : ValidPoolTransaction → Prop)
    (id : TransactionId) :
    Head p.allTransactions s good id ↔ (p.subpoolGet s id).isSome = true ∧
      ∀ id' tx', p.subpoolGet s id' = some tx' → id'.sender = id.sender → id'.nonce ≤ id.nonce →
        good tx' := by
  rw [Head, h.subpoolGet_isSome]
  simp only [h.subpoolGet_eq_some]

/-! ## The flags a swing sets -/

/-- Set the base fee flag. -/
def TxState.setFee (b : Bool) (s : TxState) : TxState := { s with enoughFeeCapBlock := b }

/-- Clear the blob fee flag. -/
def TxState.dropBlobFee (s : TxState) : TxState := { s with enoughBlobFeeCapBlock := false }

/-- Set both fee flags. -/
def TxState.meetFees (s : TxState) : TxState :=
  { s with enoughBlobFeeCapBlock := true, enoughFeeCapBlock := true }

theorem TxState.setFee_false_subPool (s : TxState) : (s.setFee false).subPool ≠ .pending := by
  rw [Ne, subPool_eq_pending, isPending_iff]
  exact fun h => nomatch h.2.1

theorem TxState.dropBlobFee_subPool (s : TxState) : s.dropBlobFee.subPool ≠ .pending := by
  rw [Ne, subPool_eq_pending, isPending_iff]
  exact fun h => nomatch h.2.2

theorem routed_setFee (h : t.Routed) (b : Bool) : (restate (TxState.setFee b) t).Routed :=
  ⟨rfl, h.blob, h.gas, h.blobFee⟩

namespace TxPool

/-! ## Swings of the base fee -/

variable {fee : Nat} {o : Ordering} {promoted : List ValidPoolTransaction} {p' : TxPool V}

/-- **THE BASE FEE RISES**: the tails below it leave the pending sub-pool. -/
theorem updateBasefee_rise (h : Sound p) (hlt : p.allTransactions.pendingFees.baseFee < fee) :
    ∃ p', p.updateBasefee fee = some ([], .gt, p')
      ∧ Swung (TxState.setFee false)
          (Tail p.allTransactions .pending (·.maxFeePerGas < fee)) (p.withBaseFee fee) [] p' := by
  have h0 : Sound (p.withBaseFee fee) := h.withFees _
  obtain ⟨hwf, hw⟩ := h.located.pending.updateBaseFee fee
  obtain ⟨promoted, p', heq, hre⟩ := rerouteRemoved_withdrawn (f := TxState.setFee false)
    (q := { p.withBaseFee fee with pendingPool := (p.pendingPool.updateBaseFee fee).2 })
    (s := .pending) h0 ⟨rfl, rfl, rfl⟩ h.located.queued h.located.baseFee h.located.blob hwf hw
    (fun s' hs' => by cases s' <;> first | rfl | exact absurd rfl hs')
    (fun t _ _ hr => routed_setFee hr false)
  refine ⟨p', ?_, (hre.swung_down (fun id hid => withdrawn_of_not_mem hid)
    TxState.setFee_false_subPool).of_iff fun id => ?_⟩
  · rw [updateBasefee, Nat.compare_eq_gt.mpr hlt]
    exact congrArg (bind · _) heq
  · rw [h.tail_iff]
    exact h.located.pending.mem_updateBaseFee

variable {t : PoolInternalTransaction}

/-- An entry of the base fee sub-pool lacks the base fee flag only. -/
theorem subPool_setFee_true (h : t.Routed) (hs : t.subpool = .baseFee) :
    (t.state.setFee true).subPool = .pending := by
  obtain ⟨hready, hblob, -⟩ := TxState.subPool_eq_baseFee.mp (h.subpool ▸ hs)
  rw [TxState.subPool_eq_pending, TxState.isPending_iff]
  exact ⟨hready, rfl, h.blobFee (h.blob ▸ hblob)⟩

theorem place_insert (a : AllTransactions) (id : TransactionId) (t : PoolInternalTransaction) :
    { a with txs := a.txs.insert id t }.place
      = update a.place id (some (t.subpool, t.transaction)) := by
  funext id'
  show (a.txs.insert id t)[id']?.map _ = _
  rw [get_insert, update_apply]
  by_cases hid : id = id'
  · rw [if_pos hid, if_pos hid.symm]
    rfl
  · rw [if_neg hid, if_neg (Ne.symm hid)]
    rfl

theorem promoteBasefee_cons
    (hrem : p.basefeePool.removeTransaction t.transaction.id = some (some t.transaction, q))
    (ht : p.allTransactions.txs[t.transaction.id]? = some t)
    (hpend : (t.state.setFee true).subPool = .pending) (fee : Nat) (ids : List TransactionId) :
    promoteBasefee fee (t.transaction.id :: ids) p
      = (promoteBasefee fee ids { p with
          basefeePool := q
          pendingPool := p.pendingPool.addTransaction t.transaction fee
          allTransactions := { p.allTransactions with
            txs := p.allTransactions.txs.insert t.transaction.id
              (restate (TxState.setFee true) t) } }).bind
          (fun rs => some ([t.transaction] ++ rs.1, rs.2)) := by
  have hset := setState_of_get (p := { p with basefeePool := q }) ht (TxState.setFee true)
  rw [hpend] at hset
  rw [promoteBasefee, hrem]
  show bind (setState _ _ (TxState.setFee true)) _ = _
  rw [hset]
  rfl

/-- The handler takes each listed transaction from the base fee sub-pool to the pending one. -/
theorem promoteBasefee_spec (ids : List TransactionId) (h : Sound p)
    (hfee : p.allTransactions.pendingFees.baseFee = fee) (hnd : ids.Nodup)
    (hall : ∀ id ∈ ids, ∃ tx, p.allTransactions.place id = some (.baseFee, tx)) :
    ∃ promoted p', promoteBasefee fee ids p = some (promoted, p') ∧
      Rerouted (TxState.setFee true) p p.allTransactions.place ids promoted p' := by
  induction ids generalizing p with
  | nil =>
    exact ⟨_, _, rfl, h.indexed, h.routed, h.located.of_eq fun _ => rfl, SameContext.refl p,
      fun _ => rfl, by simp⟩
  | cons id ids ih =>
    obtain ⟨hid, hnd'⟩ := nodup_cons.mp hnd
    obtain ⟨tx, hpl⟩ := hall id (by simp)
    obtain ⟨t, ht, hs, rfl⟩ := place_eq_some.mp hpl
    have hkey : t.transaction.id = id := h.indexed.key ht
    subst hkey
    have hpend : (t.state.setFee true).subPool = .pending :=
      subPool_setFee_true (h.routed _ t ht) hs
    -- out of the base fee sub-pool
    obtain ⟨q, hrem, hq, hqget⟩ := h.located.baseFee.removeTransaction t.transaction.id
    rw [show p.basefeePool.get t.transaction.id = some t.transaction from
      h.subpoolGet_eq_some.mpr hpl] at hrem
    obtain ⟨p0, hrem0, h0, -⟩ := h.located.removeFromSubpool .baseFee t.transaction.id
      (fun e he => by rw [hpl] at he; exact congrArg Prod.fst (some.inj he).symm)
    rw [removeFromSubpool, hrem] at hrem0
    obtain rfl : { p with basefeePool := q } = p0 :=
      congrArg Prod.snd (some.inj hrem0)
    -- into the pending one, with the flag set
    have h1 : Located ({ p with
        basefeePool := q
        allTransactions := { p.allTransactions with
          txs := p.allTransactions.txs.insert t.transaction.id
            (restate (TxState.setFee true) t) } } : TxPool V) _ := h0.congr rfl rfl rfl rfl
    obtain ⟨p₂, hadd, h2, hs2⟩ := h1.addTransactionToSubpool .pending t.transaction
      (update_self _ _ _) (by simp)
    rw [update_idem] at h2
    have hplace : p₂.allTransactions.place = update p.allTransactions.place
        t.transaction.id (some (.pending, t.transaction)) := by
      rw [hs2.allTransactions, place_insert, ← hpend]
      rfl
    have hsound : Sound p₂ := ⟨hs2.allTransactions ▸ h.indexed.insert_same ht rfl,
      hs2.allTransactions ▸ h.routed.insert _ (routed_setFee (h.routed _ t ht) true),
      hplace ▸ h2⟩
    obtain ⟨promoted, p', heq, hre⟩ := ih hsound (by rw [hs2.allTransactions]; exact hfee) hnd'
      (fun id' hid' => by
        have hne : id' ≠ t.transaction.id := fun heq => hid (heq ▸ hid')
        rw [hplace, update_of_ne hne]
        exact hall id' (mem_cons_of_mem _ hid'))
    rw [hplace, ← hpend] at hre
    have hcons := hre.cons ht hid hs2.allTransactions hs2.senderInfo hs2.config
    rw [if_pos hpend] at hcons
    refine ⟨_, p', ?_, hcons⟩
    rw [promoteBasefee_cons hrem ht hpend, ← hfee]
    rw [addTransactionToSubpool] at hadd
    rw [some.inj hadd, hfee, heq]
    rfl

/-- **THE BASE FEE FALLS**: the heads that meet it leave the base fee sub-pool and are promoted. -/
theorem updateBasefee_fall (h : Sound p) (hlt : fee < p.allTransactions.pendingFees.baseFee) :
    ∃ promoted p', p.updateBasefee fee = some (promoted, .lt, p')
      ∧ Swung (TxState.setFee true) (Head p.allTransactions .baseFee (fee ≤ ·.maxFeePerGas))
          (p.withBaseFee fee) promoted p' := by
  have h0 : Sound (p.withBaseFee fee) := h.withFees _
  have hsel : ∀ id, id ∈ p.basefeePool.satisfyBaseFeeIds fee ↔
      Head p.allTransactions .baseFee (fee ≤ ·.maxFeePerGas) id := by
    intro id
    rw [h.head_iff]
    exact ParkedPool.mem_satisfyBaseFeeIds
  obtain ⟨promoted, p', heq, hre⟩ := promoteBasefee_spec (p.basefeePool.satisfyBaseFeeIds fee) h0
    rfl (ParkedPool.satisfyBaseFeeIds_nodup _ _) fun id hid => ((hsel id).mp hid).1
  refine ⟨promoted, p', ?_, (hre.swung_up (fun _ _ => rfl) ?_).of_iff hsel⟩
  · rw [updateBasefee, Nat.compare_eq_lt.mpr hlt]
    exact congrArg (bind · _) heq
  · intro id hid tx hpl
    obtain ⟨tx', hpl'⟩ := ((hsel id).mp hid).1
    rw [show p.allTransactions.place id = some (.pending, tx) from hpl] at hpl'
    nomatch hpl'

/-- What `update_basefee` can do. -/
inductive BasefeeSwing (p : TxPool V) (fee : Nat) :
    List ValidPoolTransaction → Ordering → TxPool V → Prop
  | rise {p' : TxPool V} (hlt : p.allTransactions.pendingFees.baseFee < fee)
      (hsw : Swung (TxState.setFee false)
        (Tail p.allTransactions .pending (fun tx => tx.maxFeePerGas < fee))
        (p.withFees { p.allTransactions.pendingFees with baseFee := fee }) [] p') :
      BasefeeSwing p fee [] .gt p'
  | same (heq : fee = p.allTransactions.pendingFees.baseFee) (h : Sound p) :
      BasefeeSwing p fee [] .eq p
  | fall {promoted : List ValidPoolTransaction} {p' : TxPool V}
      (hlt : fee < p.allTransactions.pendingFees.baseFee)
      (hsw : Swung (TxState.setFee true)
        (Head p.allTransactions .baseFee (fun tx => fee ≤ tx.maxFeePerGas))
        (p.withFees { p.allTransactions.pendingFees with baseFee := fee }) promoted p') :
      BasefeeSwing p fee promoted .lt p'

theorem updateBasefee_spec (h : Sound p) (fee : Nat) :
    ∃ promoted o p', p.updateBasefee fee = some (promoted, o, p')
      ∧ BasefeeSwing p fee promoted o p' := by
  rcases lt_trichotomy fee p.allTransactions.pendingFees.baseFee with hlt | heq | hgt
  · obtain ⟨promoted, p', heq, hsw⟩ := updateBasefee_fall h hlt
    exact ⟨promoted, _, p', heq, .fall hlt hsw⟩
  · refine ⟨[], _, p, ?_, .same heq h⟩
    rw [updateBasefee, Nat.compare_eq_eq.mpr heq, heq]
  · obtain ⟨p', heq, hsw⟩ := updateBasefee_rise h hgt
    exact ⟨[], _, p', heq, .rise hgt hsw⟩

theorem BasefeeSwing.swung (h : BasefeeSwing p fee promoted o p') :
    ∃ f sel, Swung f sel (p.withBaseFee fee) promoted p' := by
  cases h with
  | rise _ hsw | fall _ hsw => exact ⟨_, _, hsw⟩
  | same heq h =>
    refine ⟨id, fun _ => False, ?_⟩
    rw [heq]
    exact Swung.refl h id

/-! ## Swings of the blob fee -/

/-- **THE BLOB FEE RISES**, the base fee does not fall: tails of blob transactions leave the pending
    sub-pool. -/
theorem updateBlobFee_rise (h : Sound p) (hlt : p.allTransactions.pendingFees.blobFee < fee)
    (ho : o ≠ .lt) :
    ∃ p', p.updateBlobFee fee o = some ([], p')
      ∧ Swung TxState.dropBlobFee
          (Tail p.allTransactions .pending
            (fun tx => tx.isEip4844 = true ∧ tx.coversBlobFee fee = false))
          (p.withBlobFee fee) [] p' := by
  have h0 : Sound (p.withBlobFee fee) := h.withFees _
  obtain ⟨hwf, hw⟩ := h.located.pending.updateBlobFee fee
  have hsel : ∀ id, id ∈ (p.pendingPool.updateBlobFee fee).1.map (·.id) ↔
      Tail p.allTransactions .pending
        (fun tx => tx.isEip4844 = true ∧ tx.coversBlobFee fee = false) id := by
    intro id
    rw [h.tail_iff]
    exact h.located.pending.mem_updateBlobFee
  obtain ⟨promoted, p', heq, hre⟩ := rerouteRemoved_withdrawn (f := TxState.dropBlobFee)
    (q := { p.withBlobFee fee with pendingPool := (p.pendingPool.updateBlobFee fee).2 })
    (s := .pending) h0 ⟨rfl, rfl, rfl⟩ h.located.queued h.located.baseFee h.located.blob hwf hw
    (fun s' hs' => by cases s' <;> first | rfl | exact absurd rfl hs')
    (fun t ht hmem hr => by
      -- a blob transaction of the same sender fails, so this is one as well
      obtain ⟨-, id', tx', hpl', hs', -, hb', -⟩ := (hsel _).mp (mem_map_of_mem hmem)
      obtain ⟨t', ht', -, rfl⟩ := place_eq_some.mp hpl'
      have htx : p.allTransactions.tx t.transaction.id = some t.transaction :=
        tx_eq_some.mpr ⟨t, ht, rfl⟩
      have htx' : p.allTransactions.tx id' = some t'.transaction := tx_eq_some.mpr ⟨t', ht', rfl⟩
      have hblob := (h.indexed.exclusive htx' htx hs').symm.trans hb'
      exact ⟨rfl, hr.blob, hr.gas, fun hno => absurd (hblob.symm.trans hno) (by decide)⟩)
  refine ⟨p', ?_, (hre.swung_down (fun id hid => withdrawn_of_not_mem hid)
    TxState.dropBlobFee_subPool).of_iff hsel⟩
  have hc := Nat.compare_eq_gt.mpr hlt
  cases o with
  | lt => exact absurd rfl ho
  | eq | gt => simp only [updateBlobFee, hc]; exact congrArg (bind · _) heq

/-- **A FEE FALLS**: the heads that meet both fees leave the blob sub-pool. -/
theorem updateBlobFee_fall (h : Sound p)
    (hlt : fee < p.allTransactions.pendingFees.blobFee ∨ o = .lt) :
    ∃ promoted p', p.updateBlobFee fee o = some (promoted, p')
      ∧ Swung TxState.meetFees
          (Head p.allTransactions .blob (fun tx => tx.coversBlobFee fee = true
            ∧ p.allTransactions.pendingFees.baseFee ≤ tx.maxFeePerGas))
          (p.withBlobFee fee) promoted p' := by
  have h0 : Sound (p.withBlobFee fee) := h.withFees _
  obtain ⟨r, hr, hwf, hw, hids⟩ := h.located.blob.enforcePendingFees
    { p.allTransactions.pendingFees with blobFee := fee }
  obtain ⟨promoted, p', heq, hre⟩ := rerouteRemoved_withdrawn (f := TxState.meetFees)
    (q := { p.withBlobFee fee with blobPool := r.2 })
    (s := .blob) h0 ⟨rfl, rfl, rfl⟩ h.located.queued h.located.baseFee hwf h.located.pending hw
    (fun s' hs' => by cases s' <;> first | rfl | exact absurd rfl hs')
    (fun t _ _ hr => ⟨rfl, hr.blob, hr.gas, fun _ => rfl⟩)
  have hsel : ∀ id, id ∈ r.1.map (·.id) ↔
      Head p.allTransactions .blob (fun tx => tx.coversBlobFee fee = true
        ∧ p.allTransactions.pendingFees.baseFee ≤ tx.maxFeePerGas) id := by
    intro id
    rw [hids, h.head_iff]
    exact BlobTransactions.mem_satisfyPendingFeeIds
  refine ⟨promoted, p', ?_, (hre.swung_up (fun id hid => withdrawn_of_not_mem hid) ?_).of_iff hsel⟩
  · rw [← heq]
    rcases lt_trichotomy fee p.allTransactions.pendingFees.blobFee with hb | hb | hb
    · simp only [updateBlobFee, Nat.compare_eq_lt.mpr hb]
      exact congrArg (Option.bind · _) hr
    · obtain rfl := hlt.resolve_left (not_lt.mpr hb.ge)
      simp only [updateBlobFee, Nat.compare_eq_eq.mpr hb]
      exact congrArg (Option.bind · _) hr
    · obtain rfl := hlt.resolve_left (not_lt.mpr (le_of_lt hb))
      simp only [updateBlobFee, Nat.compare_eq_gt.mpr hb]
      exact congrArg (Option.bind · _) hr
  · intro id hid tx hpl
    obtain ⟨tx', hpl'⟩ := ((hsel id).mp hid).1
    rw [show p.allTransactions.place id = some (.pending, tx) from hpl] at hpl'
    nomatch hpl'

/-- What `update_blob_fee` can do, by the movement `o` of the base fee. -/
inductive BlobFeeSwing (p : TxPool V) (fee : Nat) (o : Ordering) :
    List ValidPoolTransaction → TxPool V → Prop
  | rise {p' : TxPool V} (hlt : p.allTransactions.pendingFees.blobFee < fee) (ho : o ≠ .lt)
      (hsw : Swung TxState.dropBlobFee
        (Tail p.allTransactions .pending
          (fun tx => tx.isEip4844 = true ∧ tx.coversBlobFee fee = false))
        (p.withFees { p.allTransactions.pendingFees with blobFee := fee }) [] p') :
      BlobFeeSwing p fee o [] p'
  | same (heq : fee = p.allTransactions.pendingFees.blobFee) (ho : o ≠ .lt) (h : Sound p) :
      BlobFeeSwing p fee o [] p
  | fall {promoted : List ValidPoolTransaction} {p' : TxPool V}
      (hlt : fee < p.allTransactions.pendingFees.blobFee ∨ o = .lt)
      (hsw : Swung TxState.meetFees
        (Head p.allTransactions .blob (fun tx => tx.coversBlobFee fee = true
          ∧ p.allTransactions.pendingFees.baseFee ≤ tx.maxFeePerGas))
        (p.withFees { p.allTransactions.pendingFees with blobFee := fee }) promoted p') :
      BlobFeeSwing p fee o promoted p'

theorem updateBlobFee_spec (h : Sound p) (fee : Nat) (o : Ordering) :
    ∃ promoted p', p.updateBlobFee fee o = some (promoted, p')
      ∧ BlobFeeSwing p fee o promoted p' := by
  by_cases hfall : fee < p.allTransactions.pendingFees.blobFee ∨ o = .lt
  · obtain ⟨promoted, p', heq, hsw⟩ := updateBlobFee_fall h hfall
    exact ⟨promoted, p', heq, .fall hfall hsw⟩
  obtain ⟨hle, ho⟩ := not_or.mp hfall
  rcases lt_or_eq_of_le (not_lt.mp hle) with hgt | heq
  · obtain ⟨p', heq, hsw⟩ := updateBlobFee_rise h hgt ho
    exact ⟨[], p', heq, .rise hgt ho hsw⟩
  · refine ⟨[], p, ?_, .same heq.symm ho h⟩
    have hc := Nat.compare_eq_eq.mpr heq.symm
    cases o with
    | lt => exact absurd rfl ho
    | eq | gt => simp only [updateBlobFee, hc]; rw [← heq]

theorem BlobFeeSwing.swung (h : BlobFeeSwing p fee o promoted p') :
    ∃ f sel, Swung f sel (p.withBlobFee fee) promoted p' := by
  cases h with
  | rise _ _ hsw | fall _ hsw => exact ⟨_, _, hsw⟩
  | same heq _ h =>
    refine ⟨id, fun _ => False, ?_⟩
    rw [heq]
    exact Swung.refl h id

/-! ## Both fees -/

/-- The pool with the tracked block data replaced. -/
def withBlock (p : TxPool V) (info : BlockInfo) : TxPool V :=
  { p with allTransactions := p.allTransactions.setBlockInfo info }

/-- What `set_block_info` can do: the blob fee may be left alone. -/
inductive BlockSwing (p : TxPool V) (info : BlockInfo) : TxPool V → Prop
  | base {promoted : List ValidPoolTransaction} {o : Ordering} {p₁ : TxPool V}
      (hnone : info.pendingBlobFee = none)
      (hbase : BasefeeSwing p info.pendingBasefee promoted o p₁) :
      BlockSwing p info (p₁.withBlock info)
  | both {promoted promoted' : List ValidPoolTransaction} {o : Ordering} {p₁ p₂ : TxPool V}
      {fee : Nat} (hsome : info.pendingBlobFee = some fee)
      (hbase : BasefeeSwing p info.pendingBasefee promoted o p₁)
      (hblob : BlobFeeSwing p₁ fee o promoted' p₂) : BlockSwing p info (p₂.withBlock info)

/-- What `apply_fee_updates` does: from the previous fees to the current ones. -/
inductive FeesSwing (p : TxPool V) (fees : PendingFees) :
    List ValidPoolTransaction → TxPool V → Prop
  | mk {promoted promoted' : List ValidPoolTransaction} {o : Ordering} {p₁ p₂ : TxPool V}
      (hbase : BasefeeSwing p fees.baseFee promoted o p₁)
      (hblob : BlobFeeSwing p₁ fees.blobFee o promoted' p₂) :
      FeesSwing p fees (promoted ++ promoted') p₂

theorem BasefeeSwing.sound (h : BasefeeSwing p fee promoted o p') : Sound p' := by
  obtain ⟨f, sel, hsw⟩ := h.swung
  exact hsw.sound

theorem BlobFeeSwing.sound (h : BlobFeeSwing p fee o promoted p') : Sound p' := by
  obtain ⟨f, sel, hsw⟩ := h.swung
  exact hsw.sound

theorem BasefeeSwing.context (h : BasefeeSwing p fee promoted o p') :
    SameContext (p.withBaseFee fee) p' := by
  obtain ⟨f, sel, hsw⟩ := h.swung
  exact hsw.context

theorem BlobFeeSwing.context (h : BlobFeeSwing p fee o promoted p') :
    SameContext (p.withBlobFee fee) p' := by
  obtain ⟨f, sel, hsw⟩ := h.swung
  exact hsw.context

theorem FeesSwing.context (h : FeesSwing p fees promoted p') :
    SameContext (p.withFees fees) p' := by
  obtain ⟨hbase, hblob⟩ := h
  refine SameContext.trans ?_ hblob.context
  exact ⟨by rw [withBlobFee, withFees, hbase.context.pendingFees]; rfl, hbase.context.senderInfo,
    hbase.context.config⟩

theorem setBlockInfo_spec (h : Sound p) (info : BlockInfo) :
    ∃ p', p.setBlockInfo info = some p' ∧ BlockSwing p info p' := by
  obtain ⟨promoted, o, p₁, heq, hbase⟩ := updateBasefee_spec h info.pendingBasefee
  cases hb : info.pendingBlobFee with
  | none =>
    refine ⟨p₁.withBlock info, ?_, .base hb hbase⟩
    simp only [setBlockInfo, heq, hb, bind_eq_bind, bind_some]
    rfl
  | some fee =>
    obtain ⟨promoted', p₂, heq', hblob⟩ := updateBlobFee_spec hbase.sound fee o
    refine ⟨p₂.withBlock info, ?_, .both hb hbase hblob⟩
    simp only [setBlockInfo, heq, hb, heq', bind_eq_bind, bind_some]
    rfl

theorem applyFeeUpdates_spec (h : Sound p) (prevBaseFee prevBlobFee : Nat) :
    ∃ promoted p', p.applyFeeUpdates prevBaseFee prevBlobFee = some (promoted, p')
      ∧ FeesSwing (p.withFees ⟨prevBaseFee, prevBlobFee⟩) p.allTransactions.pendingFees
          promoted p' := by
  by_cases hsame : p.allTransactions.pendingFees.baseFee = prevBaseFee ∧
      p.allTransactions.pendingFees.blobFee = prevBlobFee
  · refine ⟨[], p, by simp only [applyFeeUpdates, if_pos hsame], ?_⟩
    obtain ⟨rfl, rfl⟩ := hsame
    exact @FeesSwing.mk _ p _ [] [] .eq p p (.same rfl h) (.same rfl (by decide) h)
  · obtain ⟨promoted, o, p₁, heq, hbase⟩ := updateBasefee_spec
      (h.withFees ⟨prevBaseFee, prevBlobFee⟩) p.allTransactions.pendingFees.baseFee
    obtain ⟨promoted', p₂, heq', hblob⟩ := updateBlobFee_spec hbase.sound
      p.allTransactions.pendingFees.blobFee o
    refine ⟨promoted ++ promoted', p₂, ?_, .mk hbase hblob⟩
    rw [applyFeeUpdates, if_neg hsame]
    show Option.bind (updateBasefee (p.withFees ⟨prevBaseFee, prevBlobFee⟩) _) _ = _
    rw [heq, bind_some, heq']
    rfl

end TxPool

end TransactionPool
