import Pasifika.Pool.Indexes

/-! # Routing: the sub-pool field, its flags and the recorded moves

Each entry of `txs` says which sub-pool holds its transaction. `Routed`
ties that field to the state flags, and the flags that never change to the
transaction.

A metadata pass (`update`, `park_descendant_transactions`, the loop of
`insert_tx`) rewrites entries and records a `PoolUpdate` for each entry
whose sub-pool changed. Between the pass and `process_updates` the
sub-pools lag behind the metadata; `Catches` says that carrying out the
recorded updates is all that is missing. -/

namespace TransactionPool

open Std OrderedMap List Option Function

/-- The entry is in the sub-pool its flags select; the flags about its type and
    gas are those of its transaction. -/
structure PoolInternalTransaction.Routed (t : PoolInternalTransaction) : Prop where
  subpool : t.subpool = t.state.subPool
  blob : t.state.blobTransaction = t.transaction.isEip4844
  gas : t.state.notTooMuchGas = true
  blobFee : t.transaction.isEip4844 = false → t.state.enoughBlobFeeCapBlock = true

/-- Only blob transactions are routed to the blob sub-pool. -/
theorem PoolInternalTransaction.Routed.isEip4844 {t : PoolInternalTransaction} (h : t.Routed)
    (hs : t.subpool = .blob) : t.transaction.isEip4844 = true := by
  have hsub : t.state.subPool = .blob := h.subpool ▸ hs
  rw [← h.blob]
  revert hsub
  obtain ⟨a, b, c, d, e, f, g⟩ := t.state
  revert a b c d e f g
  decide

/-- Where each transaction is held. -/
abbrev Placement := TransactionId → Option (SubPool × ValidPoolTransaction)

namespace AllTransactions

/-- Every entry is routed. -/
def Routed (a : AllTransactions) : Prop :=
  ∀ (id : TransactionId) (t : PoolInternalTransaction), a.txs[id]? = some t → t.Routed

/-- Where the metadata places each transaction. -/
def place (a : AllTransactions) : Placement :=
  fun id => a.txs[id]?.map (fun t => (t.subpool, t.transaction))

variable {t : PoolInternalTransaction} {id : TransactionId} {a : AllTransactions}
variable {r : PoolInternalTransaction × List PoolUpdate}

theorem place_of_get (h : a.txs[id]? = some t) : a.place id = some (t.subpool, t.transaction) := by
  rw [place, h]
  rfl

theorem place_eq_none : a.place id = none ↔ a.txs[id]? = none := by
  rw [place, map_eq_none_iff]

theorem place_eq_some {s : SubPool} {tx : ValidPoolTransaction} : a.place id = some (s, tx) ↔
      ∃ t, a.txs[id]? = some t ∧ t.subpool = s ∧ t.transaction = tx := by
  rw [place, map_eq_some_iff]
  simp only [Prod.mk.injEq]

theorem place_without (a : AllTransactions) (id : TransactionId) (tx : ValidPoolTransaction) :
    (a.without id tx).place = Function.update a.place id none := by
  funext id'
  show (a.txs.erase id)[id']?.map _ = _
  rw [get_erase, update_apply]
  by_cases hid : id = id'
  · rw [if_pos hid, if_pos hid.symm]
    rfl
  · rw [if_neg hid, if_neg (Ne.symm hid)]
    rfl

theorem Routed.without (h : Routed a) (id : TransactionId) (tx : ValidPoolTransaction) :
    Routed (a.without id tx) := by
  intro id' t ht
  have ht' : (a.txs.erase id)[id']? = some t := ht
  rw [get_erase] at ht'
  by_cases hid : id = id'
  · rw [if_pos hid] at ht'
    nomatch ht'
  · rw [if_neg hid] at ht'
    exact h id' t ht'

/-! ## What one visit of a pass does -/

/-- The update a changed sub-pool is recorded with. -/
def moveUpdate (id : TransactionId) (t t' : PoolInternalTransaction) : List PoolUpdate :=
  if t.subpool ≠ t'.subpool then [⟨id, t.subpool, .pool t'.subpool⟩] else []

/-- An entry after a visit: the same transaction with the same type, gas and
    blob fee flags, rerouted. -/
structure Rewrites (t t' : PoolInternalTransaction) : Prop where
  transaction : t'.transaction = t.transaction
  blob : t'.state.blobTransaction = t.state.blobTransaction
  gas : t'.state.notTooMuchGas = t.state.notTooMuchGas
  blobFee : t'.state.enoughBlobFeeCapBlock = t.state.enoughBlobFeeCapBlock
  subpool : t.subpool = t.state.subPool → t'.subpool = t'.state.subPool

theorem Rewrites.refl (t : PoolInternalTransaction) : Rewrites t t :=
  ⟨rfl, rfl, rfl, rfl, fun h => h⟩

theorem Rewrites.routed (h : Rewrites t t') (ht : t.Routed) :
    t'.Routed := by
  refine ⟨h.subpool ht.subpool, ?_, ?_, ?_⟩
  · rw [h.blob, h.transaction]
    exact ht.blob
  · rw [h.gas]
    exact ht.gas
  · rw [h.transaction, h.blobFee]
    exact ht.blobFee

/-- One visit of a pass: a rewrite with its move recorded, or a discard. -/
inductive Visits (id : TransactionId) (t : PoolInternalTransaction) :
    PoolInternalTransaction × List PoolUpdate → Prop
  | move {t' : PoolInternalTransaction} (h : Rewrites t t') : Visits id t (t', moveUpdate id t t')
  | discard : Visits id t (t, [⟨id, t.subpool, .discard⟩])

theorem Visits.rewrites (h : Visits id t r) : Rewrites t r.1 := by
  cases h with
  | move h => exact h
  | discard => exact Rewrites.refl t

theorem Visits.update_id (h : Visits id t r) : (r.2.map PoolUpdate.id).Sublist [id] := by
  cases h with
  | move h =>
    unfold moveUpdate
    split
    · exact Sublist.refl _
    · exact nil_sublist _
  | discard => exact Sublist.refl _

/-- A recorded update leads from the old sub-pool to the new one, or out. -/
theorem Visits.of_mem (h : Visits id t r) (hu : u ∈ r.2) : u.current = t.subpool ∧
      (u.destination = .pool r.1.subpool ∧ u.current ≠ r.1.subpool
        ∨ u.destination = .discard ∧ u.current = r.1.subpool) := by
  cases h with
  | move h =>
    have hu' : u ∈ moveUpdate id t _ := hu
    unfold moveUpdate at hu'
    split at hu'
    · rename_i hne
      rw [mem_singleton.mp hu']
      exact ⟨rfl, Or.inl ⟨rfl, hne⟩⟩
    · nomatch hu'
  | discard =>
    rw [mem_singleton.mp hu]
    exact ⟨rfl, Or.inr ⟨rfl, rfl⟩⟩

theorem Visits.subpool_of_nil (h : Visits id t r) (hnil : r.2 = []) : r.1.subpool = t.subpool := by
  cases h with
  | move h =>
    have hnil' : moveUpdate id t _ = [] := hnil
    unfold moveUpdate at hnil'
    split at hnil'
    · nomatch hnil'
    · rename_i heq
      exact (not_not.mp heq).symm
  | discard => nomatch hnil

theorem visits_same (id : TransactionId) (t : PoolInternalTransaction) : Visits id t (t, []) := by
  have h : Visits id t (t, moveUpdate id t t) := Visits.move (Rewrites.refl t)
  rwa [moveUpdate, if_neg (not_not_intro rfl)] at h

/-- A rerouted entry with new ancestor, nonce, balance and base fee flags. -/
theorem visits_reroute (id : TransactionId) (htx : t1.transaction = t.transaction)
    (hsub : t1.subpool = t.subpool) (hblob : t1.state.blobTransaction = t.state.blobTransaction)
    (hgas : t1.state.notTooMuchGas = t.state.notTooMuchGas)
    (hfee : t1.state.enoughBlobFeeCapBlock = t.state.enoughBlobFeeCapBlock) :
    Visits id t (reroute id t1) := by
  have hw : Rewrites t { t1 with subpool := t1.state.subPool } :=
    ⟨htx, hblob, hgas, hfee, fun _ => rfl⟩
  have h := @Visits.move id t _ hw
  rw [moveUpdate, ← hsub] at h
  rw [reroute]
  exact h

theorem visits_park (c : Unit) (id : TransactionId) (t : PoolInternalTransaction) :
    Visits id t (parkVisit c id t).2 :=
  visits_reroute id rfl rfl rfl rfl rfl

theorem visits_first (hid : t.transaction.id = id) (htx : t1.transaction = t.transaction)
    (hsub : t1.subpool = t.subpool) (hblob : t1.state.blobTransaction = t.state.blobTransaction)
    (hgas : t1.state.notTooMuchGas = t.state.notTooMuchGas)
    (hfee : t1.state.enoughBlobFeeCapBlock = t.state.enoughBlobFeeCapBlock)
    (hsame : t1.state.hasNonceGap = true → t1 = t) :
    Visits id t (visitFirst baseFee changedBalance id t1).2 := by
  unfold visitFirst
  by_cases hgap : t1.state.hasNonceGap = true
  · rw [if_pos hgap, hsame hgap]
    exact visits_same id t
  · rw [if_neg hgap]
    have hid' : t1.transaction.id = id := by rw [htx, hid]
    show Visits id t (reroute t1.transaction.id _)
    rw [hid']
    exact visits_reroute id htx hsub hblob hgas hfee

variable (changed : ExtTreeMap SenderId SenderInfo)

variable (baseFee : Nat)

theorem visits_sender (hid : t.transaction.id = id) :
    Visits id t (visitSender changed baseFee id t).2 := by
  unfold visitSender
  split
  · rename_i info _
    split
    · rw [hid]
      exact Visits.discard
    · split
      · -- the sender's next transaction loses its nonce gap first
        exact visits_first hid rfl rfl rfl rfl rfl nofun
      · exact visits_first hid rfl rfl rfl rfl rfl fun _ => rfl
  · exact visits_first hid rfl rfl rfl rfl rfl fun _ => rfl

theorem visits_update (c : Cursor) (hid : t.transaction.id = id) :
    Visits id t (updateVisit changed baseFee c id t).2 := by
  unfold updateVisit
  split
  · exact visits_sender changed baseFee hid
  · split
    · exact visits_same id t
    · exact visits_sender changed baseFee hid
  · split
    · split
      · unfold visitConsecutive
        split
        all_goals
          show Visits id t (reroute t.transaction.id _)
          rw [hid]
          exact visits_reroute id rfl rfl rfl rfl rfl
      · exact visits_same id t
    · exact visits_sender changed baseFee hid

theorem visits_insert (balance : U256) (c : InsertCursor) (hne : insertedTxId ≠ id)
    (t : PoolInternalTransaction) :
    Visits id t (insertVisit balance insertedTxId c id t).2 := by
  unfold insertVisit
  by_cases hstop : c.stopped = true ∨ c.nextNonce ≠ id.nonce
  · rw [if_pos hstop]
    exact visits_same id t
  · simp only [if_neg hstop, if_neg hne]
    exact visits_reroute id rfl rfl rfl rfl rfl

theorem insertVisit_self (balance : U256) (id : TransactionId) (c : InsertCursor)
    (t : PoolInternalTransaction) :
    Rewrites t (insertVisit balance id c id t).2.1
      ∧ (insertVisit balance id c id t).2.2 = [] := by
  unfold insertVisit
  split
  · exact ⟨Rewrites.refl t, rfl⟩
  · exact ⟨⟨rfl, rfl, rfl, rfl, fun _ => rfl⟩, if_pos rfl⟩

/-! ## What a whole pass leaves to do -/

/-- The updates discard an id. -/
def discards (us : List PoolUpdate) (id : TransactionId) : Bool :=
  us.any (fun u => u.id = id ∧ u.destination = .discard)

/-- Each update starts where its transaction still is, and ends where the
    metadata already has it. -/
structure Recorded (loc : Placement) (a : AllTransactions) (us : List PoolUpdate) : Prop where
  nodup : (us.map PoolUpdate.id).Nodup
  listed : ∀ u ∈ us, ∃ t, a.txs[u.id]? = some t ∧ loc u.id = some (u.current, t.transaction) ∧
    (u.destination = .pool t.subpool ∧ u.current ≠ t.subpool
      ∨ u.destination = .discard ∧ u.current = t.subpool)

/-- The placement once the updates are carried out. -/
def settle (loc : Placement) (a : AllTransactions) (us : List PoolUpdate) : Placement :=
  fun id =>
    if id ∈ us.map PoolUpdate.id then (if discards us id then none else a.place id) else loc id

/-- **LAGGING SUB-POOLS**: carrying out the recorded updates is all that is missing. -/
structure Catches (loc : Placement) (a : AllTransactions) (us : List PoolUpdate) : Prop
    extends Recorded loc a us where
  rest : ∀ id, id ∉ us.map PoolUpdate.id → loc id = a.place id

section

variable {loc : Placement} {a : AllTransactions} {id : TransactionId} {current : SubPool}
  {destination : Destination} {us : List PoolUpdate} {t : PoolInternalTransaction}

theorem Recorded.not_mem (hc : Recorded loc a (⟨id, current, destination⟩ :: us)) :
    id ∉ us.map PoolUpdate.id :=
  (nodup_cons.mp hc.nodup).1

theorem Recorded.ne (hc : Recorded loc a (⟨id, current, destination⟩ :: us)) (hu : u ∈ us) :
    u.id ≠ id :=
  fun heq => hc.not_mem (heq ▸ mem_map_of_mem hu)

theorem discards_eq_false (hid : id ∉ us.map PoolUpdate.id) : discards us id = false := by
  rw [discards, List.any_eq_false]
  intro u hu
  rw [decide_eq_true_eq]
  exact fun h => hid (h.1 ▸ List.mem_map_of_mem hu)

theorem Recorded.of_move (hc : Recorded loc a (⟨id, current, destination⟩ :: us))
    (e : SubPool × ValidPoolTransaction) : Recorded (Function.update loc id (some e)) a us := by
  refine ⟨(nodup_cons.mp hc.nodup).2, fun u hu => ?_⟩
  rw [update_of_ne (hc.ne hu)]
  exact hc.listed u (mem_cons_of_mem _ hu)

theorem Recorded.of_discard (hc : Recorded loc a (⟨id, current, destination⟩ :: us))
    (tx : ValidPoolTransaction) :
    Recorded (Function.update loc id none) (a.without id tx) us := by
  refine ⟨(nodup_cons.mp hc.nodup).2, fun u hu => ?_⟩
  obtain ⟨t, ht, hl, hd⟩ := hc.listed u (mem_cons_of_mem _ hu)
  rw [update_of_ne (hc.ne hu)]
  exact ⟨t, (get_erase_ne (Ne.symm (hc.ne hu))).trans ht, hl, hd⟩

theorem settle_cons_move (hid : id ∉ us.map PoolUpdate.id) (ht : a.txs[id]? = some t) :
    settle (Function.update loc id (some (t.subpool, t.transaction))) a us
      = settle loc a (⟨id, current, .pool s⟩ :: us) := by
  funext id'
  unfold settle
  by_cases hi : id' = id
  · subst hi
    have hno : discards (⟨id', current, .pool s⟩ :: us) id' = false := by
      show (decide _ || discards us id') = false
      rw [discards_eq_false hid]
      simp
    rw [if_neg hid, update_self, if_pos (by simp), place_of_get ht, hno]
    rfl
  · rw [update_of_ne hi]
    simp [discards, hi]

theorem settle_cons_discard (hid : id ∉ us.map PoolUpdate.id) {tx : ValidPoolTransaction} :
    settle (Function.update loc id none) (a.without id tx) us
      = settle loc a (⟨id, current, .discard⟩ :: us) := by
  funext id'
  unfold settle
  rw [place_without]
  by_cases hi : id' = id
  · subst hi
    rw [if_neg hid, update_self, if_pos (by simp)]
    simp [discards]
  · rw [update_of_ne hi, update_of_ne hi]
    simp [discards, hi, Ne.symm hi]

end

/-- Sub-pools that have caught up agree with the metadata. -/
theorem Catches.settle_eq {loc : Placement} {a a' : AllTransactions} {us : List PoolUpdate}
    (hc : Catches loc a us) (ha : ∀ id : TransactionId,
      a'.txs[id]? = if discards us id then none else a.txs[id]?) : settle loc a us = a'.place := by
  funext id
  have hplace : a'.place id = if discards us id then none else a.place id := by
    rw [place, ha id, apply_ite (Option.map _)]
    rfl
  unfold settle
  by_cases hid : id ∈ us.map PoolUpdate.id
  · rw [if_pos hid, hplace]
  · rw [if_neg hid, hplace, hc.rest id hid, discards_eq_false hid]
    rfl

section

variable {S : Type}
  {visit : S → TransactionId → PoolInternalTransaction → S × PoolInternalTransaction × List PoolUpdate}
  {a : AllTransactions} {l : List (TransactionId × PoolInternalTransaction)}

/-- The entry of a visited id after the pass, and the updates recorded for it. -/
theorem sweep_entry (hl : l.Sublist a.txs.toList)
    (hid : ∀ s, ∀ e ∈ l, ∀ u ∈ (visit s e.1 e.2).2.2, u.id = e.1) (s : S)
    (ht : a.txs[id]? = some t) :
    (sweep visit l s a.txs []).2.1[id]? = some t
        ∧ (∀ u ∈ (sweep visit l s a.txs []).2.2, u.id ≠ id) ∧ (id, t) ∉ l
      ∨ ∃ c, (sweep visit l s a.txs []).2.1[id]? = some (visit c id t).2.1
        ∧ (∀ u, u.id = id → (u ∈ (sweep visit l s a.txs []).2.2 ↔ u ∈ (visit c id t).2.2))
        ∧ (id, t) ∈ l := by
  by_cases hmem : (id, t) ∈ l
  · obtain ⟨hget, hus⟩ := sweep_at hid ((sorted_toList a.txs).sublist hl) hmem s a.txs
    exact .inr ⟨_, hget, hus, hmem⟩
  · have hk : id ∉ l.map Prod.fst := by
      intro h
      obtain ⟨⟨id', t'⟩, he, rfl⟩ := mem_map.mp h
      have := mem_toList.mp (hl.subset he)
      rw [ht] at this
      exact hmem (some.inj this ▸ he)
    exact .inl ⟨by rw [sweep_get_of_not_mem l s _ _ hk, ht], sweep_no_update hid hk s a.txs, hmem⟩

/-- **A PASS RECORDS ITS MOVES**: with at most one transaction `x` that the pass
    itself does not record. -/
theorem catches_sweep (hl : l.Sublist a.txs.toList)
    (hvisit : ∀ s, ∀ e ∈ l, x ≠ some e.1 → Visits e.1 e.2 (visit s e.1 e.2).2)
    (hx : ∀ s, ∀ e ∈ l, x = some e.1 → (visit s e.1 e.2).2.2 = []) (s : S)
    (hloc : ∀ id, x ≠ some id → loc id = a.place id)
    (hlocx : ∀ id, x = some id → loc id = place { a with txs := (sweep visit l s a.txs []).2.1 }
      id) :
    Catches loc { a with txs := (sweep visit l s a.txs []).2.1 }
      (sweep visit l s a.txs []).2.2 := by
  have hsub : ∀ s, ∀ e ∈ l, ((visit s e.1 e.2).2.2.map PoolUpdate.id).Sublist [e.1] := by
    intro s e he
    by_cases hxe : x = some e.1
    · rw [hx s e he hxe]
      exact nil_sublist _
    · exact (hvisit s e he hxe).update_id
  have hid : ∀ s, ∀ e ∈ l, ∀ u ∈ (visit s e.1 e.2).2.2, u.id = e.1 := by
    intro s e he u hu
    have := (hsub s e he).subset (mem_map_of_mem hu)
    exact mem_singleton.mp this
  have hlisted : ∀ u ∈ (sweep visit l s a.txs []).2.2, ∃ t c, a.txs[u.id]? = some t ∧
      (u.id, t) ∈ l ∧ (sweep visit l s a.txs []).2.1[u.id]? = some (visit c u.id t).2.1 ∧
      u ∈ (visit c u.id t).2.2 := by
    intro u hu
    rcases (mem_sweep_updates l s a.txs []).mp hu with h | ⟨l1, k, t, l2, rfl, h⟩
    · nomatch h
    · have hmem : (k, t) ∈ l1 ++ (k, t) :: l2 := by simp
      have hk : u.id = k := hid _ (k, t) hmem u h
      subst hk
      have ht := mem_toList.mp (hl.subset hmem)
      rcases sweep_entry hl hid s ht with ⟨-, hno, -⟩ | ⟨c, hget, hus, -⟩
      · exact absurd rfl (hno u hu)
      · exact ⟨t, c, ht, hmem, hget, (hus u rfl).mp hu⟩
  refine ⟨⟨?_, ?_⟩, ?_⟩
  · have := sweep_updates_sublist PoolUpdate.id l s a.txs [] [] hsub (Sublist.refl _)
    exact ((nodup_keys a.txs).sublist (hl.map Prod.fst)).sublist this
  · intro u hu
    obtain ⟨t, c, ht, hmem, hget, hin⟩ := hlisted u hu
    have hxu : x ≠ some u.id := by
      intro hxe
      rw [hx c (u.id, t) hmem hxe] at hin
      nomatch hin
    have hv := hvisit c (u.id, t) hmem hxu
    obtain ⟨hcurrent, hdest⟩ := hv.of_mem hin
    refine ⟨(visit c u.id t).2.1, hget, ?_, hdest⟩
    rw [hloc u.id hxu, place_of_get ht, hcurrent, hv.rewrites.transaction]
  · intro id hno
    by_cases hxid : x = some id
    · exact hlocx id hxid
    rw [hloc id hxid]
    cases ht : a.txs[id]? with
    | none =>
      have : (sweep visit l s a.txs []).2.1[id]? = none :=
        sweep_get_eq_none (fun e he => mem_toList.mp (hl.subset he)) ht s []
      rw [place_eq_none.mpr ht, place_eq_none.mpr this]
    | some t =>
      rcases sweep_entry hl hid s ht with ⟨hget, -, -⟩ | ⟨c, hget, hus, hmem⟩
      · rw [place_of_get ht]
        exact (place_of_get hget).symm
      have hv := hvisit c (id, t) hmem hxid
      have hnone : (visit c id t).2.2 = [] := by
        rw [eq_nil_iff_forall_not_mem]
        intro u hu
        have huid : u.id = id := hid c (id, t) hmem u hu
        exact hno (huid ▸ mem_map_of_mem ((hus u huid).mpr hu))
      rw [place_of_get ht, place, hget]
      exact congrArg some (Prod.ext (hv.subpool_of_nil hnone).symm hv.rewrites.transaction.symm)

theorem Indexed.routed_sweep (h : Indexed a) (hr : Routed a) (hl : l.Sublist a.txs.toList)
    (hvisit : ∀ s id t, t.transaction.id = id → Rewrites t (visit s id t).2.1) (s : S) :
    Routed { a with txs := (sweep visit l s a.txs []).2.1 } := by
  have hP := sweep_induction visit
    (P := fun _ m _ => ∀ id t, m[id]? = some t → t.transaction.id = id ∧ t.Routed) ?_ l s a.txs []
    ((nodup_keys a.txs).sublist (hl.map Prod.fst)) (fun e he => mem_toList.mp (hl.subset he))
    (fun id t ht => ⟨h.key ht, hr id t ht⟩)
  · exact fun id t ht => (hP id t ht).2
  intro s m us k t hk hP id t' ht'
  rw [get_insert] at ht'
  by_cases hid : k = id
  · rw [if_pos hid] at ht'
    obtain ⟨hkey, hrt⟩ := hP k t hk
    have hw := hvisit s k t hkey
    rw [← some.inj ht', hw.transaction, ← hid]
    exact ⟨hkey, hw.routed hrt⟩
  · rw [if_neg hid] at ht'
    exact hP id t' ht'

end

/-! ## The three passes -/

theorem Indexed.catches_update (h : Indexed a) (changed : ExtTreeMap SenderId SenderInfo) :
    Catches a.place (a.update changed).2 (a.update changed).1 := by
  refine catches_sweep (x := none) (Sublist.refl _) ?_ (fun _ _ _ hx => nomatch hx) _
    (fun _ _ => rfl) nofun
  intro c e he _
  exact visits_update changed _ c (h.key (mem_toList.mp he))

theorem Indexed.routed_park (h : Indexed a) (hr : Routed a) (id : TransactionId) :
    Routed (a.parkDescendantTransactions id).2 :=
  h.routed_sweep hr (descendantTxsInclusive_sublist _ _)
    (fun c id t _ => (visits_park c id t).rewrites) _

theorem catches_park (a : AllTransactions) (id : TransactionId) :
    Catches a.place (a.parkDescendantTransactions id).2 (a.parkDescendantTransactions id).1 :=
  catches_sweep (x := none) (descendantTxsInclusive_sublist _ _)
    (fun c e _ _ => visits_park c e.1 e.2) (fun _ _ _ hx => nomatch hx) _
    (fun _ _ => rfl) nofun

theorem Routed.placed (hr : Routed a) (tx : ValidPoolTransaction) (nonce : Nat) :
    Routed (a.placed tx nonce) := by
  intro id t ht
  rw [txs_placed, get_insert] at ht
  by_cases hid : tx.id = id
  · rw [if_pos hid] at ht
    rw [← some.inj ht]
    refine ⟨rfl, rfl, rfl, fun h => ?_⟩
    have htx : tx.isEip4844 = false := h
    show (!tx.isEip4844 || _) = true
    rw [htx]
    rfl
  · rw [if_neg hid] at ht
    exact hr id t ht

/-- The state `insert_tx` reports is the one it leaves in the map. -/
theorem insertSweep_state (a : AllTransactions) (tx : ValidPoolTransaction) (balance : U256)
    (nonce : Nat) :
    ∃ t, (a.insertSweep tx balance nonce).2.1[tx.id]? = some t
      ∧ t.state = (a.insertSweep tx balance nonce).1.state
      ∧ t.transaction = tx := by
  unfold insertSweep
  refine sweep_induction _
    (P := fun (c : InsertCursor) m _ =>
      ∃ t, m[tx.id]? = some t ∧ t.state = c.state ∧ t.transaction = tx) ?_ _ _ _ _
    ((nodup_keys _).sublist ((descendantTxsInclusive_sublist _ _).map Prod.fst))
    (fun e he => mem_toList.mp ((descendantTxsInclusive_sublist _ _).subset he)) ?_
  · rintro c m us k t hk ⟨t0, ht0, hstate, htx⟩
    rw [get_insert]
    by_cases hid : k = tx.id
    · subst hid
      rw [hk] at ht0
      obtain rfl := some.inj ht0
      refine ⟨_, if_pos rfl, ?_, (insertVisit_transaction _ _ _ _ _).trans htx⟩
      unfold insertVisit
      by_cases hstop : c.stopped = true ∨ c.nextNonce ≠ tx.id.nonce
      · simp only [if_pos hstop]
        exact hstate
      · simp only [if_neg hstop, if_true]
        rfl
    · refine ⟨t0, by rw [if_neg hid, ht0], ?_, htx⟩
      rw [hstate]
      unfold insertVisit
      by_cases hstop : c.stopped = true ∨ c.nextNonce ≠ k.nonce
      · simp only [if_pos hstop]
      · simp only [if_neg hstop, if_neg (Ne.symm hid)]
  · refine ⟨a.poolTx tx nonce, ?_, rfl, rfl⟩
    rw [txs_placed, get_insert_self]

variable {a a' : AllTransactions} {tx : ValidPoolTransaction} {balance : U256}
  {nonce : Nat} {ok : InsertOk}

theorem Inserts.routed (hins : Inserts a tx balance nonce ok a') (h : Indexed a)
    (hr : Routed a) (hhash : a.contains tx.hash = false) : Routed a' := by
  rw [hins.set_eq]
  refine (h.placed hins.checked hhash).routed_sweep (hr.placed tx nonce)
    (descendantTxsInclusive_sublist _ _) ?_ _
  intro c id t _
  by_cases hid : tx.id = id
  · subst hid
    exact (insertVisit_self balance tx.id c t).1
  · exact (visits_insert balance c hid t).rewrites

/-- The new transaction goes where `insert_tx` says; the recorded updates are all that is left to
    do. -/
theorem Inserts.catches (hins : Inserts a tx balance nonce ok a') (h : Indexed a)
    (hr : Routed a) (hhash : a.contains tx.hash = false) :
    Catches (Function.update a.place tx.id (some (ok.moveTo, tx))) a' ok.updates := by
  have hr' := hins.routed h hr hhash
  rw [hins.ok_eq]
  rw [hins.set_eq] at hr' ⊢
  refine catches_sweep (x := some tx.id) (descendantTxsInclusive_sublist _ _) ?_ ?_ _ ?_ ?_
  · intro c e _ hx
    exact visits_insert balance c (fun heq => hx (congrArg some heq)) e.2
  · intro c e _ hx
    rw [← some.inj hx]
    exact (insertVisit_self balance tx.id c e.2).2
  · intro id hx
    have hne : tx.id ≠ id := fun heq => hx (congrArg some heq)
    rw [update_of_ne (Ne.symm hne), place, place, txs_placed, get_insert_ne hne]
  · intro id hx
    obtain rfl := some.inj hx
    obtain ⟨t, ht, hstate, htx⟩ := insertSweep_state a tx balance nonce
    rw [update_self]
    refine (Eq.trans (place_of_get ht) ?_).symm
    rw [htx, (hr' tx.id t ht).subpool, hstate]

end AllTransactions

end TransactionPool
