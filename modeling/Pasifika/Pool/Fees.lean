import Pasifika.Pool.Reachable

/-! # The fee law of the pending sub-pool

After a fee update every pending transaction should meet the pending fees.
A swing only demotes what is pending, and only in the direction it looks at:
`update_blob_fee` takes the promotion branch alone whenever the base fee
falls. So `set_block_info` establishes the law exactly when every pending
transaction either meets the new fees or is demoted (`blockSafe`), and
`on_canonical_state_change` when the blob fee flags its account pass relies on
are true of the new blob fee (`canonicalSafe`). -/

namespace TransactionPool

open Std (ExtTreeMap)
open OrderedMap AllTransactions List Option Bool

variable {V : Type}

namespace TxPool

/-- The fee caps of a transaction cover the fees. -/
def meetsFees (fees : PendingFees) (tx : ValidPoolTransaction) : Bool :=
  decide (fees.baseFee ≤ tx.maxFeePerGas) &&
    (!tx.isEip4844 || decide (fees.blobFee ≤ tx.maxFeePerBlobGas.getD 0))

variable {tx : ValidPoolTransaction} {fees : PendingFees} {p : TxPool V} {info : BlockInfo}

theorem meetsFees_iff :
    meetsFees fees tx = true ↔ fees.baseFee ≤ tx.maxFeePerGas
      ∧ (tx.isEip4844 = true → tx.coversBlobFee fees.blobFee = true) := by
  rw [meetsFees, and_eq_true, decide_eq_true_eq]
  refine and_congr_right fun _ => ?_
  cases hb : tx.isEip4844 with
  | false => simp
  | true => simp [ValidPoolTransaction.coversBlobFee_iff hb]

/-- **THE FEE LAW.** -/
def FeeLaw (p : TxPool V) : Prop :=
  ∀ (id : TransactionId) (tx : ValidPoolTransaction), p.pendingPool.get id = some tx →
    p.allTransactions.pendingFees.baseFee ≤ tx.maxFeePerGas ∧
      (tx.isEip4844 = true →
        p.allTransactions.pendingFees.blobFee ≤ tx.maxFeePerBlobGas.getD 0)

theorem feeLaw_iff (h : Sound p) : FeeLaw p ↔
    ∀ id tx,
      p.allTransactions.place id = some (.pending, tx) →
        meetsFees p.allTransactions.pendingFees tx = true := by
  refine forall_congr' fun id => forall_congr' fun tx => ?_
  refine imp_congr (h.subpoolGet_eq_some (s := .pending)) ?_
  rw [meetsFees_iff]
  refine and_congr_right fun _ => forall_congr' fun hb => ?_
  rw [ValidPoolTransaction.coversBlobFee_iff hb]

/-! ## Pending transactions through a swing -/

section

variable {f : TxState → TxState} {p p' : TxPool V} {promoted : List ValidPoolTransaction}
  (id : TransactionId) (tx : ValidPoolTransaction)

/-- A demotion keeps the pending transactions outside of the tails, and no others. -/
theorem Swung.pending_tail (hsw : Swung f (Tail p.allTransactions .pending bad) p promoted p')
    (hdown : ∀ s, (f s).subPool ≠ .pending) :
    p'.allTransactions.place id = some (.pending, tx) ↔
      p.allTransactions.place id = some (.pending, tx)
        ∧ ¬ Tail p.allTransactions .pending bad id := by
  by_cases hsel : Tail p.allTransactions .pending bad id
  · refine ⟨fun h => ?_, fun h => absurd hsel h.2⟩
    obtain ⟨t', ht', hp, -⟩ := place_eq_some.mp h
    rw [hsw.selected id hsel] at ht'
    obtain ⟨t, -, rfl⟩ := map_eq_some_iff.mp ht'
    exact absurd hp (hdown _)
  · rw [place, place, hsw.untouched id hsel]
    exact ⟨fun h => ⟨h, hsel⟩, fun h => h.1⟩

/-- A promotion keeps the pending transactions and adds good ones. -/
theorem Swung.pending_head (hsw : Swung f (Head p.allTransactions s0 good) p promoted p')
    (hs0 : s0 ≠ .pending) :
    (p.allTransactions.place id = some (.pending, tx) →
        p'.allTransactions.place id = some (.pending, tx))
      ∧ (p'.allTransactions.place id = some (.pending, tx) →
        p.allTransactions.place id = some (.pending, tx)
          ∨ p.allTransactions.place id = some (s0, tx) ∧ good tx) := by
  by_cases hsel : Head p.allTransactions s0 good id
  · obtain ⟨⟨tx0, hpl⟩, hgood⟩ := hsel
    refine ⟨fun h => ?_, fun h => Or.inr ?_⟩
    · rw [hpl] at h
      exact absurd (congrArg Prod.fst (some.inj h)) hs0
    · obtain ⟨t', ht', -, rfl⟩ := place_eq_some.mp h
      rw [hsw.selected id ⟨⟨tx0, hpl⟩, hgood⟩] at ht'
      obtain ⟨t, ht, rfl⟩ := map_eq_some_iff.mp ht'
      obtain ⟨t1, ht1, hs1, rfl⟩ := place_eq_some.mp hpl
      rw [ht] at ht1
      obtain rfl := some.inj ht1
      exact ⟨hpl, hgood id t.transaction hpl rfl le_rfl⟩
  · rw [place, place, hsw.untouched id hsel]
    exact ⟨fun h => h, Or.inl⟩

end

section

variable {p p1 p' : TxPool V} {fee : Nat} {o : Ordering} {promoted : List ValidPoolTransaction}
  {id : TransactionId} {tx : ValidPoolTransaction}

/-- Demoted by a rise of the base fee. -/
def BaseTail (p : TxPool V) (fee : Nat) (id : TransactionId) : Prop :=
  p.allTransactions.pendingFees.baseFee < fee
    ∧ Tail p.allTransactions .pending (fun tx => tx.maxFeePerGas < fee) id

/-- Demoted by a rise of the blob fee. -/
def BlobTail (p : TxPool V) (fee : Nat) (o : Ordering) (id : TransactionId) : Prop :=
  (p.allTransactions.pendingFees.blobFee < fee ∧ o ≠ .lt)
    ∧ Tail p.allTransactions .pending
        (fun tx => tx.isEip4844 = true ∧ tx.coversBlobFee fee = false) id

/-- **PENDING AFTER A BASE FEE SWING.** -/
theorem BasefeeSwing.pending (hp : Sound p) (hsw : BasefeeSwing p fee promoted o p') :
    (p.allTransactions.place id = some (.pending, tx) → ¬ BaseTail p fee id →
        p'.allTransactions.place id = some (.pending, tx))
      ∧ (p'.allTransactions.place id = some (.pending, tx) →
        p.allTransactions.place id = some (.pending, tx) ∧ ¬ BaseTail p fee id
          ∨ fee ≤ tx.maxFeePerGas ∧ tx.isEip4844 = false) := by
  cases hsw with
  | rise hlt hsw =>
    have hiff := Swung.pending_tail id tx (p := p.withBaseFee fee) hsw TxState.setFee_false_subPool
    refine ⟨fun h hno => hiff.mpr ⟨h, fun ht => hno ⟨hlt, ht⟩⟩, fun h => Or.inl ?_⟩
    obtain ⟨hpl, hno⟩ := hiff.mp h
    exact ⟨hpl, fun ht => hno ht.2⟩
  | same heq _ =>
    refine ⟨fun h _ => h, fun h => Or.inl ⟨h, fun ht => ?_⟩⟩
    exact absurd heq (ne_of_gt ht.1)
  | fall hlt hsw =>
    have hboth := Swung.pending_head id tx (p := p.withBaseFee fee) hsw (by decide)
    refine ⟨fun h _ => hboth.1 h, fun h => ?_⟩
    rcases hboth.2 h with hpl | ⟨hpl, hgood⟩
    · exact .inl ⟨hpl, fun ht => absurd ht.1 (lt_asymm hlt)⟩
    · obtain ⟨t, ht, hs, rfl⟩ := place_eq_some.mp hpl
      refine .inr ⟨hgood, ?_⟩
      rw [← (hp.routed id t ht).blob]
      exact (TxState.subPool_eq_baseFee.mp ((hp.routed id t ht).subpool ▸ hs)).2.1

/-- **PENDING AFTER A BLOB FEE SWING.** -/
theorem BlobFeeSwing.pending (hsw : BlobFeeSwing p fee o promoted p') :
    (p.allTransactions.place id = some (.pending, tx) → ¬ BlobTail p fee o id →
        p'.allTransactions.place id = some (.pending, tx))
      ∧ (p'.allTransactions.place id = some (.pending, tx) →
        p.allTransactions.place id = some (.pending, tx) ∧ ¬ BlobTail p fee o id
          ∨ p.allTransactions.pendingFees.baseFee ≤ tx.maxFeePerGas
            ∧ tx.coversBlobFee fee = true) := by
  cases hsw with
  | rise hlt ho hsw =>
    have hiff := Swung.pending_tail id tx (p := p.withBlobFee fee) hsw TxState.dropBlobFee_subPool
    refine ⟨fun h hno => hiff.mpr ⟨h, fun ht => hno ⟨⟨hlt, ho⟩, ht⟩⟩, fun h => Or.inl ?_⟩
    obtain ⟨hpl, hno⟩ := hiff.mp h
    exact ⟨hpl, fun ht => hno ht.2⟩
  | same heq _ _ =>
    refine ⟨fun h _ => h, fun h => Or.inl ⟨h, fun ht => ?_⟩⟩
    exact absurd heq (ne_of_gt ht.1.1)
  | fall hlt hsw =>
    have hboth := Swung.pending_head id tx (p := p.withBlobFee fee) hsw (by decide)
    refine ⟨fun h _ => hboth.1 h, fun h => ?_⟩
    rcases hboth.2 h with hpl | ⟨-, hgood⟩
    · refine .inl ⟨hpl, fun ht => ?_⟩
      rcases hlt with hlt | ho
      · exact absurd ht.1.1 (lt_asymm hlt)
      · exact ht.1.2 ho
    · exact .inr ⟨hgood.2, hgood.1⟩

theorem BaseTail.descendant (h : BaseTail p fee id)
    (hpl : p.allTransactions.place id' = some (.pending, tx')) (hs : id.sender = id'.sender)
    (hle : id.nonce ≤ id'.nonce) : BaseTail p fee id' := by
  obtain ⟨hlt, -, i, x, hx, hsi, hni, hbad⟩ := h
  exact ⟨hlt, ⟨tx', hpl⟩, i, x, hx, hsi.trans hs, le_trans hni hle, hbad⟩

/-- Demoted by the way to the given fees. -/
def Demoted (p : TxPool V) (fees : PendingFees) (id : TransactionId) : Prop :=
  BaseTail p fees.baseFee id
    ∨ (p.allTransactions.pendingFees.baseFee ≤ fees.baseFee
        ∧ p.allTransactions.pendingFees.blobFee < fees.blobFee)
      ∧ Tail p.allTransactions .pending
          (fun tx => tx.isEip4844 = true ∧ tx.coversBlobFee fees.blobFee = false) id

theorem BasefeeSwing.ordering (hsw : BasefeeSwing p fee promoted o p') :
    o ≠ .lt ↔ p.allTransactions.pendingFees.baseFee ≤ fee := by
  cases hsw with
  | rise hlt _ => exact ⟨fun _ => le_of_lt hlt, fun _ => by decide⟩
  | same heq _ => exact ⟨fun _ => le_of_eq heq.symm, fun _ => by decide⟩
  | fall hlt _ => exact ⟨fun h => absurd rfl h, fun h => absurd hlt (not_lt.mpr h)⟩

/-- **THE LAW AFTER BOTH SWINGS**: every pending transaction is demoted or meets the new fees. -/
theorem FeesSwing.law (hp : Sound p) (hsw : FeesSwing p fees promoted p') :
    (∀ id tx, p'.allTransactions.place id = some (.pending, tx) → meetsFees fees tx = true)
      ↔ ∀ id tx,
        p.allTransactions.place id = some (.pending, tx) →
          Demoted p fees id ∨ meetsFees fees tx = true := by
  obtain ⟨hbase, hblob⟩ := hsw
  rename_i o p1
  have hfee1 : p1.allTransactions.pendingFees
      = ⟨fees.baseFee, p.allTransactions.pendingFees.blobFee⟩ := hbase.context.pendingFees
  constructor
  · intro hlaw id tx hpl
    by_cases hdem : Demoted p fees id
    · exact .inl hdem
    obtain ⟨hno, hno'⟩ := not_or.mp hdem
    have hpl1 := (hbase.pending hp).1 hpl hno
    refine .inr (hlaw id tx (hblob.pending.1 hpl1 ?_))
    -- the first bad one after the base fee swing was pending before
    rintro ⟨⟨hlt, ho⟩, -, id', tx', hpl', hs, hn, hbad⟩
    rw [hfee1] at hlt
    refine hno' ⟨⟨hbase.ordering.mp ho, hlt⟩, ⟨tx, hpl⟩, id', tx', ?_, hs, hn, hbad⟩
    rcases (hbase.pending hp).2 hpl' with ⟨h, -⟩ | ⟨-, hb⟩
    · exact h
    · rw [hb] at hbad
      nomatch hbad.1
  · intro hcond id tx hpl
    rw [meetsFees_iff]
    rcases hblob.pending.2 hpl with ⟨hpl1, hno1⟩ | ⟨hle, hcov⟩
    · rcases (hbase.pending hp).2 hpl1 with ⟨hpl0, hno0⟩ | ⟨hle, hb⟩
      · rcases hcond id tx hpl0 with (hdem | ⟨hmoves, -, id', tx', hpl', hs, hn, hbad⟩) | hmeets
        · exact absurd hdem hno0
        · -- the bad one outlives the base fee swing as well
          refine absurd ?_ hno1
          have hpl1' := (hbase.pending hp).1 hpl' fun ht => hno0 (ht.descendant hpl0 hs hn)
          refine ⟨⟨?_, hbase.ordering.mpr hmoves.1⟩, ⟨tx, hpl1⟩, id', tx', hpl1', hs, hn, hbad⟩
          rw [hfee1]
          exact hmoves.2
        · exact meetsFees_iff.mp hmeets
      · exact ⟨hle, fun h => absurd h (by rw [hb]; decide)⟩
    · rw [hfee1] at hle
      exact ⟨hle, fun _ => hcov⟩

/-- The same when the blob fee is left alone. -/
theorem BasefeeSwing.law (hp : Sound p) (hsw : BasefeeSwing p fee promoted o p') :
    (∀ id tx,
        p'.allTransactions.place id = some (.pending, tx) →
          meetsFees ⟨fee, p.allTransactions.pendingFees.blobFee⟩ tx = true)
      ↔ ∀ id tx,
        p.allTransactions.place id = some (.pending, tx) →
          Demoted p ⟨fee, p.allTransactions.pendingFees.blobFee⟩ id
            ∨ meetsFees ⟨fee, p.allTransactions.pendingFees.blobFee⟩ tx = true := by
  constructor
  · intro hlaw id tx hpl
    by_cases hdem : BaseTail p fee id
    · exact .inl (Or.inl hdem)
    · exact .inr (hlaw id tx ((hsw.pending hp).1 hpl hdem))
  · intro hcond id tx hpl
    rcases (hsw.pending hp).2 hpl with ⟨hpl0, hno⟩ | ⟨hle, hb⟩
    · rcases hcond id tx hpl0 with (hdem | ⟨hmoves, -⟩) | hmeets
      · exact absurd hdem hno
      · exact absurd hmoves.2 (lt_irrefl _)
      · exact hmeets
    · exact meetsFees_iff.mpr ⟨hle, fun h => absurd h (by rw [hb]; decide)⟩

theorem BlockSwing.law (hp : Sound p) (hsw : BlockSwing p info p') :
    FeeLaw p' ↔ ∀ id tx,
      p.allTransactions.place id = some (.pending, tx) →
        Demoted p (nextFees p.allTransactions.pendingFees info) id
          ∨ meetsFees (nextFees p.allTransactions.pendingFees info) tx = true := by
  rw [feeLaw_iff hsw.sound, hsw.context.pendingFees]
  cases hsw with
  | base hnone hbase =>
    rw [nextFees, hnone]
    have hlaw := hbase.law hp
    exact hlaw
  | both hsome hbase hblob =>
    rw [nextFees, hsome]
    have hfees : FeesSwing p ⟨info.pendingBasefee, _⟩ _ _ := .mk hbase hblob
    have hlaw := hfees.law hp
    exact hlaw

end

/-! ## The conditions -/

/-- Some pending transaction of the sender, not above the nonce, falls below a fee that rises; the
    blob fee counts only if the base fee does not fall. -/
def demoted (a : AllTransactions) (fees : PendingFees) (id : TransactionId) : Bool :=
  a.txs.toList.any (fun e => decide (e.2.subpool = .pending) && e.1.sender == id.sender
    && decide (e.1.nonce ≤ id.nonce)
    && (decide (a.pendingFees.baseFee < fees.baseFee ∧ e.2.transaction.maxFeePerGas < fees.baseFee)
      || decide (a.pendingFees.baseFee ≤ fees.baseFee ∧ a.pendingFees.blobFee < fees.blobFee)
        && e.2.transaction.isEip4844 && !e.2.transaction.coversBlobFee fees.blobFee))

/-- **THE CONDITION ON `set_block_info`**: every pending transaction is demoted or
    meets the new fees. -/
def blockSafe (p : TxPool V) (info : BlockInfo) : Bool :=
  let fees := nextFees p.allTransactions.pendingFees info
  p.allTransactions.txs.toList.all (fun e => decide (e.2.subpool ≠ .pending)
    || demoted p.allTransactions fees e.1 || meetsFees fees e.2.transaction)

/-- **THE CONDITION ON `on_canonical_state_change`**, for transactions that are not mined: unless
    the base fee rises, pending ones meet it; and unless the blob fee rises while the base fee does
    not fall, the blob fee flag of one that may be pending is true of the new blob fee. -/
def canonicalSafe (p : TxPool V) (info : BlockInfo) (mined : List TxHash) : Bool :=
  let old := p.allTransactions.pendingFees
  let fees := nextFees old info
  p.allTransactions.txs.toList.all (fun e => decide (e.2.transaction.hash ∈ mined)
    || (decide (old.baseFee < fees.baseFee ∨ e.2.subpool ≠ .pending
        ∨ fees.baseFee ≤ e.2.transaction.maxFeePerGas)
      && decide (old.baseFee ≤ fees.baseFee ∧ old.blobFee < fees.blobFee
        ∨ e.2.transaction.isEip4844 = false ∨ e.2.state.enoughBlobFeeCapBlock = false
        ∨ e.2.subpool ≠ .pending ∧ e.2.transaction.maxFeePerGas < fees.baseFee
        ∨ fees.blobFee ≤ e.2.transaction.maxFeePerBlobGas.getD 0)))

theorem demoted_iff {id : TransactionId} (hpl : p.allTransactions.place id = some (.pending, tx)) :
    demoted p.allTransactions fees id = true ↔ Demoted p fees id := by
  simp only [demoted, List.any_eq_true, Bool.and_eq_true, Bool.or_eq_true, decide_eq_true_eq,
    beq_iff_eq, Bool.not_eq_true']
  constructor
  · rintro ⟨e, he, ⟨⟨hpend, hs⟩, hn⟩, hbad⟩
    have hpl' : p.allTransactions.place e.1 = some (.pending, e.2.transaction) :=
      place_eq_some.mpr ⟨e.2, mem_toList.mp he, hpend, rfl⟩
    rcases hbad with ⟨hlt, hbad⟩ | ⟨⟨hmoves, hb⟩, hcov⟩
    · exact .inl ⟨hlt, ⟨tx, hpl⟩, e.1, _, hpl', hs, hn, hbad⟩
    · exact .inr ⟨hmoves, ⟨tx, hpl⟩, e.1, _, hpl', hs, hn, hb, hcov⟩
  · rintro (⟨hlt, -, id', tx', hpl', hs, hn, hbad⟩ | ⟨hmoves, -, id', tx', hpl', hs, hn, hb, hcov⟩)
    · obtain ⟨t, ht, hpend, rfl⟩ := place_eq_some.mp hpl'
      exact ⟨(id', t), mem_toList.mpr ht, ⟨⟨hpend, hs⟩, hn⟩, Or.inl ⟨hlt, hbad⟩⟩
    · obtain ⟨t, ht, hpend, rfl⟩ := place_eq_some.mp hpl'
      exact ⟨(id', t), mem_toList.mpr ht, ⟨⟨hpend, hs⟩, hn⟩, Or.inr ⟨⟨hmoves, hb⟩, hcov⟩⟩

theorem blockSafe_iff : blockSafe p info = true ↔
    ∀ id tx,
      p.allTransactions.place id = some (.pending, tx) →
        Demoted p (nextFees p.allTransactions.pendingFees info) id
          ∨ meetsFees (nextFees p.allTransactions.pendingFees info) tx = true := by
  simp only [blockSafe, List.all_eq_true, Bool.or_eq_true, decide_eq_true_eq]
  constructor
  · intro h id tx hpl
    obtain ⟨t, ht, hpend, rfl⟩ := place_eq_some.mp hpl
    rcases h (id, t) (mem_toList.mpr ht) with (hne | hdem) | hmeets
    · exact absurd hpend hne
    · exact .inl ((demoted_iff hpl).mp hdem)
    · exact .inr hmeets
  · intro h e he
    by_cases hpend : e.2.subpool = .pending
    · have hpl : p.allTransactions.place e.1 = some (.pending, e.2.transaction) :=
        place_eq_some.mpr ⟨e.2, mem_toList.mp he, hpend, rfl⟩
      rcases h e.1 _ hpl with hdem | hmeets
      · exact .inl (Or.inr ((demoted_iff hpl).mpr hdem))
      · exact .inr hmeets
    · exact .inl (Or.inl hpend)

/-! ## The account pass -/

theorem CanonicalChange.law (hch : CanonicalChange p info mined changed o p')
    (hsafe : canonicalSafe p info mined = true) :
    FeeLaw p' := by
  rw [feeLaw_iff hch.sound, hch.context.pendingFees]
  obtain ⟨hprune, haccount, hfees⟩ := hch
  rename_i p1 p2 p3 o promoted
  have hlaw := hfees.law (haccount.sound.withFees _)
  refine hlaw.mpr fun id tx hpl => ?_
  -- where the pending entry comes from
  obtain ⟨t', ht', hpend, rfl⟩ := place_eq_some.mp hpl
  obtain ⟨t, c', ht, -, hv⟩ := haccount.entry (hprune.sound.withFees _) ht'
  obtain ⟨htx, hflag, hbase⟩ := hv.pending_fees hpend
  have htp := (hprune.txs id).symm.trans ht
  obtain ⟨htp, hmined⟩ := filter_eq_some_iff.mp htp
  have hrouted := haccount.sound.routed id t' ht'
  have hset := TxState.isPending_iff.mp (TxState.subPool_eq_pending.mp (hrouted.subpool ▸ hpend))
  have hcond := all_eq_true.mp hsafe (id, t) (mem_toList.mpr htp)
  simp only [or_eq_true, and_eq_true, decide_eq_true_eq] at hcond
  obtain ⟨hc1, hc2⟩ := hcond.resolve_left (of_decide_eq_true hmined)
  -- a transaction below a fee that rises is demoted
  by_cases hdem : Demoted (p2.withFees p.allTransactions.pendingFees)
      (nextFees p.allTransactions.pendingFees info) id
  · exact .inl hdem
  refine .inr (meetsFees_iff.mpr ?_)
  have hbelow : (nextFees p.allTransactions.pendingFees info).baseFee
      ≤ t.transaction.maxFeePerGas := by
    rcases hbase with rfl | hle
    · rcases hc1 with hlt | hne | hle
      · by_contra hno
        refine hdem (Or.inl ⟨hlt, ⟨_, hpl⟩, id, _, hpl, rfl, le_rfl, ?_⟩)
        exact not_le.mp hno
      · exact absurd hpend hne
      · exact hle
    · exact hle
  rw [htx]
  refine ⟨hbelow, fun hb => ?_⟩
  rcases hc2 with hmoves | hb' | hno | ⟨-, hlt⟩ | hle
  · by_contra hcov
    refine hdem (Or.inr ⟨hmoves, ⟨_, hpl⟩, id, _, hpl, rfl, le_rfl, ?_⟩)
    rw [htx]
    exact ⟨hb, eq_false_iff.mpr hcov⟩
  · rw [hb] at hb'
    nomatch hb'
  · rw [hflag, hno] at hset
    nomatch hset.2.2
  · exact absurd hlt (not_lt.mpr hbelow)
  · exact (ValidPoolTransaction.coversBlobFee_iff hb _).mpr hle

/-! ## Fee updates in reachable pools -/

variable [LinearOrder V]

/-- **THE FEE LAW AFTER A FEE UPDATE** of a reachable pool: for `set_block_info` exactly under its
    condition, for `on_canonical_state_change` under its own. -/
theorem feeLaw_after_update {p p' : TxPool V} (h : Reachable p) :
    (∀ info, Step p (.setBlockInfo info) p' → (FeeLaw p' ↔ blockSafe p info = true))
      ∧ ∀ info mined changed, Step p (.onCanonicalStateChange info mined changed) p' →
          canonicalSafe p info mined = true → FeeLaw p' := by
  refine ⟨fun info hstep => ?_, fun info mined changed hstep hsafe => ?_⟩
  · obtain ⟨q, heq, hsw⟩ := setBlockInfo_spec h.sound info
    obtain ⟨fuel, hrun⟩ := hstep
    obtain rfl : q = p' := some.inj (heq.symm.trans hrun)
    rw [hsw.law h.sound, blockSafe_iff]
  · obtain ⟨o, q, heq, hch⟩ := onCanonicalStateChange_spec h.sound info mined changed
    obtain ⟨fuel, hrun⟩ := hstep
    rw [apply, heq] at hrun
    obtain rfl : q = p' := some.inj hrun
    exact hch.law hsafe

/-- A pending blob transaction under the fees 10 and 1. -/
def blobFeeOps : List Op :=
  [.setBlockInfo ⟨0, 1, 30000000, 10, some 1⟩,
   .addTransaction (sampleBlobTx 1 1 0 5 100 5) 1000#256 0 none]

/-- The base fee falls to 9 while the blob fee rises to 8: a transaction with the
    blob fee cap 5 stays pending. -/
theorem blobFee_above_cap_of_baseFee_fall :
    ∃ p p' : TxPool Nat, Reachable p
      ∧ Step p (.setBlockInfo ⟨0, 2, 30000000, 9, some 8⟩) p' ∧ ¬ FeeLaw p' := by
  obtain ⟨p, hp, hcheck⟩ := Runs.exists_of_apply apply (fun _ _ => true) 9 blobFeeOps (samplePool .default)
    (fun p => (p.setBlockInfo ⟨0, 2, 30000000, 9, some 8⟩).any (fun p' : TxPool Nat =>
      decide (p'.allTransactions.pendingFees.blobFee = 8) &&
        (p'.pendingPool.get ⟨1, 0⟩).any (fun tx : ValidPoolTransaction =>
          tx.isEip4844 && decide (tx.maxFeePerBlobGas.getD 0 = 5)))) (by decide +kernel)
  obtain ⟨p', hstep, hcheck⟩ := (Option.any_eq_true _ _).mp hcheck
  rw [Bool.and_eq_true, decide_eq_true_eq, Option.any_eq_true] at hcheck
  obtain ⟨hfees, tx, hget, htx⟩ := hcheck
  rw [Bool.and_eq_true, decide_eq_true_eq] at htx
  refine ⟨p, p', ⟨_, _, _, hp.reachable⟩, ⟨0, hstep⟩, fun hlaw => ?_⟩
  have hle := (hlaw ⟨1, 0⟩ tx hget).2 htx.1
  rw [hfees, htx.2] at hle
  exact absurd hle (by decide)

theorem feeLaw_after_update_sample :
    ∃ p p' p'' : TxPool Nat, Reachable p ∧ Step p (.setBlockInfo ⟨0, 2, 30000000, 9, some 4⟩) p'
      ∧ Step p (.onCanonicalStateChange ⟨0, 2, 30000000, 12, some 8⟩ [] ∅) p''
      ∧ (p'.pendingPool.get ⟨1, 0⟩).isSome ∧ FeeLaw p' ∧ FeeLaw p'' := by
  obtain ⟨p, hp, hcheck⟩ := Runs.exists_of_apply apply (fun _ _ => true) 9 blobFeeOps (samplePool .default)
    (fun p => blockSafe p ⟨0, 2, 30000000, 9, some 4⟩
      && canonicalSafe p ⟨0, 2, 30000000, 12, some 8⟩ []
      && (p.setBlockInfo ⟨0, 2, 30000000, 9, some 4⟩).any (fun p' =>
        (p'.pendingPool.get ⟨1, 0⟩).isSome)) (by decide +kernel)
  rw [and_eq_true, and_eq_true] at hcheck
  obtain ⟨⟨hblock, hcanonical⟩, hcheck⟩ := hcheck
  obtain ⟨p', hstep, hget⟩ := (any_eq_true _ _).mp hcheck
  have hr : Reachable p := ⟨_, _, _, hp.reachable⟩
  have hasserted : (Op.onCanonicalStateChange ⟨0, 2, 30000000, 12, some 8⟩ [] ∅).Asserted := trivial
  obtain ⟨p'', hstep'⟩ := step_of_asserted hr.sound hasserted
  exact ⟨p, p', p'', hr, ⟨0, hstep⟩, hstep', hget,
    ((feeLaw_after_update hr).1 _ ⟨0, hstep⟩).mpr hblock,
    (feeLaw_after_update hr).2 _ _ _ hstep' hcanonical⟩

end TxPool

end TransactionPool
