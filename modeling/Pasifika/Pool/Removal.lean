import Pasifika.Pool.Partition

/-! # Removals

Transactions leave the pool one by one, with their descendants, or after a
sub-pool evicted them. During an eviction the sub-pools run ahead: they no
longer hold transactions that `txs` still lists. The removals are therefore
specified for a placement that is `Below` the metadata, and `Dropped` says
exactly what each of them took. -/

namespace TransactionPool

open Std Nat
open Option (bind_eq_bind bind_some filter_some map_eq_some_iff ne_none_iff_exists')
open OrderedMap AllTransactions List Bool Function

variable {V : Type}

/-! ## Dropping entries -/

namespace AllTransactions

/-- The set without the transaction under an id, if there is one. -/
def drop (a : AllTransactions) (id : TransactionId) : AllTransactions :=
  match a.txs[id]? with
  | none => a
  | some t => a.without id t.transaction

variable {a : AllTransactions} {id : TransactionId}

theorem drop_of_none (h : a.txs[id]? = none) : a.drop id = a := by
  simp only [drop, h]

variable {t : PoolInternalTransaction}

theorem drop_of_some (h : a.txs[id]? = some t) : a.drop id = a.without id t.transaction := by
  simp only [drop, h]

theorem Indexed.removeTransaction_snd (h : Indexed a) (id : TransactionId) :
    (a.removeTransaction id).2 = a.drop id := by
  cases ht : a.txs[id]? with
  | none => simp only [removeTransaction, drop, ht]
  | some t => rw [h.removeTransaction_eq ht, drop_of_some ht]

theorem txs_drop (a : AllTransactions) (id i : TransactionId) :
    (a.drop id).txs[i]? = if id = i then none else a.txs[i]? := by
  cases ht : a.txs[id]? with
  | none =>
    rw [drop_of_none ht]
    by_cases hid : id = i
    · rw [if_pos hid, ← hid, ht]
    · rw [if_neg hid]
  | some t =>
    rw [drop_of_some ht]
    exact get_erase _ _ _

theorem size_drop (h : a.txs[id]? = some t) : (a.drop id).txs.size + 1 = a.txs.size := by
  rw [drop_of_some h]
  exact size_erase h

theorem Indexed.drop (h : Indexed a) (id : TransactionId) : Indexed (a.drop id) := by
  cases ht : a.txs[id]? with
  | none => rw [drop_of_none ht]; exact h
  | some t => rw [drop_of_some ht]; exact h.without (tx_eq_some.mpr ⟨t, ht, rfl⟩)

theorem Routed.drop (h : Routed a) (id : TransactionId) : Routed (a.drop id) := by
  cases ht : a.txs[id]? with
  | none => rw [drop_of_none ht]; exact h
  | some t => rw [drop_of_some ht]; exact h.without _ _

theorem pendingFees_drop (a : AllTransactions) (id : TransactionId) :
    (a.drop id).pendingFees = a.pendingFees := by
  cases ht : a.txs[id]? with
  | none => rw [drop_of_none ht]
  | some t => rw [drop_of_some ht]; rfl

end AllTransactions

/-- The placement without the ids in `gone`. -/
def keep (gone : TransactionId → Bool) (loc : Placement) : Placement :=
  fun id => if gone id then none else loc id

/-- The transactions a placement holds. -/
def heldOf (loc : Placement) (id : TransactionId) : Option ValidPoolTransaction :=
  (loc id).map Prod.snd

theorem heldOf_place (a : AllTransactions) : heldOf a.place = a.tx := by
  funext id
  rw [heldOf, place, Option.map_map]
  rfl

/-- The sub-pools hold no more than the metadata says. -/
def Below (loc : Placement) (a : AllTransactions) : Prop :=
  ∀ id, loc id = none ∨ loc id = a.place id

theorem below_place (a : AllTransactions) : Below a.place a := fun _ => Or.inr rfl

namespace TxPool

/-- **WHAT A REMOVAL TOOK**: the ids in `gone` left, and `out` lists what the sub-pools held under
    them. -/
structure Dropped (gone : TransactionId → Bool) (p : TxPool V) (loc : Placement)
    (out : List ValidPoolTransaction) (p' : TxPool V) : Prop where
  indexed : Indexed p'.allTransactions
  routed : AllTransactions.Routed p'.allTransactions
  located : Located p' (keep gone loc)
  context : SameContext p p'
  txs : ∀ i : TransactionId,
    p'.allTransactions.txs[i]? = if gone i then none else p.allTransactions.txs[i]?
  taken : Withdraws ValidPoolTransaction.id (heldOf loc) (heldOf (keep gone loc)) out

section

variable {gone gone' : TransactionId → Bool} {p p1 p' : TxPool V} {loc : Placement}
  {out out' : List ValidPoolTransaction}

theorem Dropped.place_eq (h : Dropped gone p loc out p') :
    p'.allTransactions.place = keep gone p.allTransactions.place := by
  funext id
  rw [place, h.txs, apply_ite (Option.map _)]
  rfl

theorem Dropped.below (h : Dropped gone p loc out p') (hb : Below loc p.allTransactions) :
    Below (keep gone loc) p'.allTransactions := by
  intro id
  rw [h.place_eq, keep, keep]
  by_cases hg : gone id = true
  · rw [if_pos hg]
    exact .inl rfl
  · rw [if_neg hg, if_neg hg]
    exact hb id

theorem Dropped.sound (h : Dropped gone p p.allTransactions.place out p') : Sound p' :=
  ⟨h.indexed, h.routed, h.place_eq ▸ h.located⟩

theorem Dropped.nil (hl : Located p loc) (hi : Indexed p.allTransactions)
    (hr : AllTransactions.Routed p.allTransactions) :
    Dropped (fun _ => false) p loc [] p :=
  ⟨hi, hr, hl, SameContext.refl p, fun _ => rfl, .nil fun _ => rfl⟩

theorem keep_keep (gone gone' : TransactionId → Bool) (loc : Placement) :
    keep gone' (keep gone loc) = keep (fun id => gone id || gone' id) loc := by
  funext id
  rw [keep, keep, keep]
  cases gone id <;> cases gone' id <;> rfl

theorem Dropped.trans (h : Dropped gone p loc out p1)
    (h' : Dropped gone' p1 (keep gone loc) out' p') :
    Dropped (fun id => gone id || gone' id) p loc (out ++ out') p' := by
  refine ⟨h'.indexed, h'.routed, keep_keep gone gone' loc ▸ h'.located, h.context.trans h'.context,
    fun i => ?_, keep_keep gone gone' loc ▸ h.taken.append h'.taken⟩
  rw [h'.txs, h.txs]
  cases gone i <;> cases gone' i <;> rfl

/-- Ids that are not held may be counted as gone or not. -/
theorem Dropped.of_eq (h : Dropped gone p loc out p') (hb : Below loc p.allTransactions)
    (heq : ∀ i, p.allTransactions.txs[i]? ≠ none → gone i = gone' i) :
    Dropped gone' p loc out p' := by
  have htxs : ∀ i, (if gone i then none else p.allTransactions.txs[i]?)
      = if gone' i then none else p.allTransactions.txs[i]? := by
    intro i
    by_cases hn : p.allTransactions.txs[i]? = none
    · rw [hn]
      simp
    · rw [heq i hn]
  have hkeep : keep gone loc = keep gone' loc := by
    funext i
    rw [keep, keep]
    by_cases hn : p.allTransactions.txs[i]? = none
    · have : loc i = none := (hb i).elim id (fun h => h.trans (place_eq_none.mpr hn))
      rw [this]
      simp
    · rw [heq i hn]
  exact ⟨h.indexed, h.routed, hkeep ▸ h.located, h.context, fun i => (h.txs i).trans (htxs i),
    hkeep ▸ h.taken⟩

end

variable {loc : Placement} {p p' : TxPool V} {id : TransactionId} {a : AllTransactions}

/-- `remove_transaction` drops one id from wherever it still is. -/
theorem removeTransaction_spec (h : Located p loc) (hi : Indexed p.allTransactions)
    (hr : AllTransactions.Routed p.allTransactions) (hb : Below loc p.allTransactions)
    (id : TransactionId) :
    ∃ p', p.removeTransaction id = some ((loc id).map Prod.snd, p')
      ∧ p'.allTransactions = p.allTransactions.drop id
      ∧ Dropped (fun i => decide (id = i)) p loc ((loc id).map Prod.snd).toList p' := by
  have hkeep : update loc id none = keep (fun i => decide (id = i)) loc := by
    funext i
    rw [update_apply, keep]
    simp only [decide_eq_true_eq, @eq_comm _ i id]
  have htaken : Withdraws (·.id) (heldOf loc)
      (heldOf (keep (fun i => decide (id = i)) loc)) ((loc id).map Prod.snd).toList := by
    refine Withdraws.single (k := id) (fun tx htx => ?_) fun i => ?_
    · obtain ⟨e, he, rfl⟩ := map_eq_some_iff.mp htx
      exact h.key he
    · rw [heldOf, keep, apply_ite (Option.map _)]
      simp only [decide_eq_true_eq]
      rfl
  have htxs : ∀ i, (p.allTransactions.drop id).txs[i]?
      = if decide (id = i) then none else p.allTransactions.txs[i]? := by
    intro i
    rw [txs_drop]
    simp only [decide_eq_true_eq]
  cases ht : p.allTransactions.txs[id]? with
  | none =>
    have hnone : loc id = none := (hb id).elim (fun h => h) fun h => h.trans (place_eq_none.mpr ht)
    have hdrop := drop_of_none ht
    refine ⟨p, ?_, hdrop.symm, hi, hr, ?_, SameContext.refl p, fun i => ?_, htaken⟩
    · simp only [removeTransaction, AllTransactions.removeTransaction, ht, hnone]
      rfl
    · rw [← hkeep, ← hnone, update_eq_self]
      exact h
    · rw [← htxs, hdrop]
  | some t =>
    obtain ⟨p', hrem, h', ha, hsi, hcf⟩ := h.drop hi ht (hb id)
    rw [← drop_of_some ht] at ha
    refine ⟨p', ?_, ha, ha ▸ hi.drop id, ha ▸ hr.drop id, hkeep ▸ h',
      ⟨by rw [ha, pendingFees_drop], hsi, hcf⟩, ha ▸ htxs, htaken⟩
    simp only [removeTransaction, hi.removeTransaction_eq ht]
    exact hrem

/-! ## Descendants -/

/-- The later transactions of the same sender. -/
def isDescendant (id i : TransactionId) : Bool := i.sender == id.sender && decide (id.nonce < i.nonce)

theorem mem_descendantTxsExclusive :
    e ∈ a.descendantTxsExclusive id ↔ a.txs[e.1]? = some e.2 ∧ isDescendant id e.1 = true := by
  rw [descendantTxsExclusive, List.mem_filter, mem_toList]
  rfl

variable {t : PoolInternalTransaction}

/-- The first descendant is before all other ones. -/
theorem first_descendant (hl : a.descendantTxsExclusive id = (d, t) :: l) (hi : a.txs[i]? ≠ none) :
    isDescendant id i = (decide (d = i) || isDescendant d i) := by
  have hd : (d, t) ∈ a.descendantTxsExclusive id := hl ▸ mem_cons_self
  obtain ⟨hds, hdn⟩ := and_eq_true_iff.mp (mem_descendantTxsExclusive.mp hd).2
  rw [beq_iff_eq] at hds
  rw [decide_eq_true_eq] at hdn
  obtain ⟨t', ht'⟩ := ne_none_iff_exists'.mp hi
  have hsorted : (a.descendantTxsExclusive id).Pairwise (compare ·.1 ·.1 = .lt) :=
    (sorted_toList a.txs).sublist filter_sublist
  rw [hl, pairwise_cons] at hsorted
  rw [Bool.eq_iff_iff, or_eq_true, decide_eq_true_eq]
  constructor
  · intro h
    have hmem : (i, t') ∈ (d, t) :: l := hl ▸ mem_descendantTxsExclusive.mpr ⟨ht', h⟩
    rcases mem_cons.mp hmem with heq | hmem
    · exact .inl (congrArg Prod.fst heq).symm
    refine .inr ?_
    have hlt : compare d i = .lt := hsorted.1 _ hmem
    rw [isDescendant, and_eq_true, beq_iff_eq] at h
    have hs : i.sender = d.sender := h.1.trans hds.symm
    rcases TransactionId.compare_eq_lt.mp hlt with hs' | ⟨-, hn⟩
    · exact absurd (hs ▸ hs') (Nat.lt_irrefl _)
    · rw [isDescendant, and_eq_true, beq_iff_eq, decide_eq_true_eq]
      exact ⟨hs, hn⟩
  · rintro (rfl | h)
    · rw [isDescendant, and_eq_true, beq_iff_eq, decide_eq_true_eq]
      exact ⟨hds, hdn⟩
    · rw [isDescendant, and_eq_true, beq_iff_eq, decide_eq_true_eq] at h ⊢
      exact ⟨h.1.trans hds, Nat.lt_trans hdn h.2⟩

/-- **REMOVING DESCENDANTS**: enough rounds drop all of them. -/
theorem removeDescendantsLoop_spec (fuel : Nat) (id : TransactionId) (h : Located p loc)
    (hi : Indexed p.allTransactions) (hr : AllTransactions.Routed p.allTransactions)
    (hb : Below loc p.allTransactions) (hf : p.allTransactions.txs.size < fuel) :
    ∃ out p', removeDescendantsLoop fuel id p = some (out, p') ∧
      Dropped (isDescendant id) p loc out p' := by
  induction fuel generalizing id p loc with
  | zero => nomatch hf
  | succ fuel ih =>
    cases hl : p.allTransactions.descendantTxsExclusive id with
    | nil =>
      refine ⟨[], p, by rw [removeDescendantsLoop, hl], ?_⟩
      refine (Dropped.nil h hi hr).of_eq hb fun i hn => ?_
      obtain ⟨t, ht⟩ := ne_none_iff_exists'.mp hn
      cases hd : isDescendant id i with
      | false => rfl
      | true =>
        have : (i, t) ∈ p.allTransactions.descendantTxsExclusive id :=
          mem_descendantTxsExclusive.mpr ⟨ht, hd⟩
        rw [hl] at this
        nomatch this
    | cons e l =>
      obtain ⟨d, t⟩ := e
      have ht : p.allTransactions.txs[d]? = some t :=
        (mem_descendantTxsExclusive.mp (hl ▸ mem_cons_self)).1
      obtain ⟨p1, hrem, ha, hd⟩ := removeTransaction_spec h hi hr hb d
      have hsize := size_drop ht
      obtain ⟨out, p', heq, hd'⟩ := ih d hd.located hd.indexed hd.routed (hd.below hb)
        (by rw [ha]; omega)
      refine ⟨_, p', ?_, (hd.trans hd').of_eq hb fun i hn => (first_descendant hl hn).symm⟩
      rw [removeDescendantsLoop, hl]
      simp only [hrem, heq, bind_eq_bind, bind_some]

theorem removeDescendants_spec (h : Located p loc) (hi : Indexed p.allTransactions)
    (hr : AllTransactions.Routed p.allTransactions) (hb : Below loc p.allTransactions)
    (id : TransactionId) :
    ∃ out p', p.removeDescendants id = some (out, p') ∧ Dropped (isDescendant id) p loc out p' :=
  removeDescendantsLoop_spec _ id h hi hr hb (lt_succ_self _)

theorem removeEach_spec (ids : List TransactionId) (h : Located p loc)
    (hi : Indexed p.allTransactions) (hr : AllTransactions.Routed p.allTransactions)
    (hb : Below loc p.allTransactions) :
    ∃ out p', removeEach ids p = some (out, p') ∧
      Dropped (fun i => decide (i ∈ ids)) p loc out p' := by
  induction ids generalizing p loc with
  | nil => exact ⟨_, _, rfl, (Dropped.nil h hi hr).of_eq hb fun i _ => by simp⟩
  | cons id ids ih =>
    obtain ⟨p1, hrem, -, hd⟩ := removeTransaction_spec h hi hr hb id
    obtain ⟨out, p', heq, hd'⟩ := ih hd.located hd.indexed hd.routed (hd.below hb)
    refine ⟨_, p', ?_, (hd.trans hd').of_eq hb fun i _ => ?_⟩
    · simp only [removeEach, hrem, heq, bind_eq_bind, bind_some]
    · rw [Bool.eq_iff_iff]
      simp only [or_eq_true, decide_eq_true_eq, mem_cons, @eq_comm _ id i]

theorem removeTransactionsBySender_spec (h : Sound p) (sender : SenderId) :
    ∃ out p', p.removeTransactionsBySender sender = some (out, p')
      ∧ Dropped (·.sender == sender) p p.allTransactions.place out p' := by
  obtain ⟨out, p', heq, hd⟩ := removeEach_spec
    ((p.allTransactions.txsIter sender).map (·.2.transaction.id)) h.located h.indexed
    h.routed (below_place _)
  refine ⟨out, p', heq, hd.of_eq (below_place _) fun i hn => ?_⟩
  obtain ⟨t, ht⟩ := Option.ne_none_iff_exists'.mp hn
  rw [Bool.eq_iff_iff, decide_eq_true_eq, List.mem_map]
  constructor
  · rintro ⟨e, he, rfl⟩
    rw [txsIter, List.mem_filter, mem_toList] at he
    rw [h.indexed.key he.1]
    exact he.2
  · intro hs
    refine ⟨(i, t), ?_, h.indexed.key ht⟩
    rw [txsIter, List.mem_filter, mem_toList]
    exact ⟨ht, hs⟩

/-! ## Pruning mined transactions -/

/-- `prune_transaction_by_hash` drops the transaction with the hash, if there is one. -/
theorem pruneTransactionByHash_spec (h : Sound p) (hash : TxHash) :
    ∃ out p', p.pruneTransactionByHash hash = some (out, p') ∧ Sound p' ∧ SameContext p p'
      ∧ ∀ i : TransactionId, p'.allTransactions.txs[i]?
          = p.allTransactions.txs[i]?.filter (fun t => decide (t.transaction.hash ≠ hash)) := by
  rcases h.indexed.removeTransactionByHash_cases hash with ⟨heq, hno⟩ | ⟨id, t, ht, hh, heq⟩
  · refine ⟨none, p, by simp only [pruneTransactionByHash, heq], h, SameContext.refl p, fun i => ?_⟩
    cases hi : p.allTransactions.txs[i]? with
    | none => rfl
    | some t =>
      rw [filter_some, if_pos]
      exact decide_eq_true (hno i _ (tx_eq_some.mpr ⟨t, hi, rfl⟩))
  · obtain ⟨p', hrem, h', ha, hsi, hcf⟩ := h.located.drop h.indexed ht (below_place _ id)
    have htx : p.allTransactions.tx id = some t.transaction := tx_eq_some.mpr ⟨t, ht, rfl⟩
    refine ⟨(p.allTransactions.place id).map Prod.snd, p', ?_,
      ⟨ha ▸ h.indexed.without htx, ha ▸ h.routed.without _ _, ?_⟩, ⟨by rw [ha]; rfl, hsi, hcf⟩, fun i => ?_⟩
    · simp only [pruneTransactionByHash, heq]
      exact hrem
    · rw [ha, place_without]
      exact h'
    rw [ha]
    show (p.allTransactions.txs.erase id)[i]? = _
    rw [get_erase]
    by_cases hi : id = i
    · rw [if_pos hi, ← hi, ht, filter_some, if_neg (by simp [hh])]
    rw [if_neg hi]
    cases hg : p.allTransactions.txs[i]? with
    | none => rfl
    | some t' =>
      rw [filter_some, if_pos]
      refine decide_eq_true fun hh' => hi ?_
      rw [← h.indexed.key ht, ← h.indexed.key hg,
        h.indexed.hash_inj htx (tx_eq_some.mpr ⟨t', hg, rfl⟩) (hh.trans hh'.symm)]

/-- The mined transactions leave the pool and nothing else changes. -/
theorem pruneMined_spec (hashes : List TxHash) (h : Sound p) :
    ∃ p', pruneMined hashes p = some p' ∧ Sound p' ∧ SameContext p p' ∧ ∀ i : TransactionId,
      p'.allTransactions.txs[i]? = p.allTransactions.txs[i]?.filter
      (fun t => decide (t.transaction.hash ∉ hashes)) := by
  induction hashes generalizing p with
  | nil =>
    refine ⟨p, rfl, h, SameContext.refl p, fun i => ?_⟩
    cases p.allTransactions.txs[i]? with
    | none => rfl
    | some t => rw [filter_some, if_pos (by simp)]
  | cons hash hashes ih =>
    obtain ⟨out, p1, heq, h1, hc1, ht1⟩ := pruneTransactionByHash_spec h hash
    obtain ⟨p', heq', h', hc', ht'⟩ := ih h1
    refine ⟨p', ?_, h', hc1.trans hc', fun i => ?_⟩
    · simp only [pruneMined, heq, heq', bind_eq_bind, bind_some]
    · rw [ht', ht1, Option.filter_filter]
      congr 1
      funext t
      rw [Bool.eq_iff_iff]
      simp

/-! ## Removal by hash: the descendants are parked -/

/-- The flag `park_descendant_transactions` clears. -/
def parked (s : TxState) : TxState := { s with noNonceGaps := false }

/-- From the parked id on, every entry of the sender has a nonce gap. -/
theorem txs_park (a : AllTransactions) (id i : TransactionId) :
    (a.parkDescendantTransactions id).2.txs[i]?
      = if i.sender = id.sender ∧ id.nonce ≤ i.nonce then a.txs[i]?.map (restate parked)
        else a.txs[i]? := by
  have hsub := descendantTxsInclusive_sublist a.txs id
  cases ht : a.txs[i]? with
  | none =>
    have : (a.parkDescendantTransactions id).2.txs[i]? = none :=
      sweep_get_eq_none (fun e he => mem_toList.mp (hsub.subset he)) ht () []
    rw [this]
    simp
  | some t =>
    have hmem : (i, t) ∈ descendantTxsInclusive a.txs id ↔
        i.sender = id.sender ∧ id.nonce ≤ i.nonce := by
      rw [descendantTxsInclusive, mem_filter, mem_toList, and_eq_true, beq_iff_eq,
        decide_eq_true_eq]
      exact and_iff_right ht
    have hid : ∀ s, ∀ e ∈ descendantTxsInclusive a.txs id,
        ∀ u ∈ (parkVisit s e.1 e.2).2.2, u.id = e.1 := by
      intro s e _ u hu
      exact mem_singleton.mp ((visits_park s e.1 e.2).update_id.subset (mem_map_of_mem hu))
    rcases sweep_entry hsub hid () ht with ⟨hget, -, hno⟩ | ⟨c, hget, -, hin⟩
    · rw [if_neg fun hc => hno (hmem.mpr hc)]
      exact hget
    · rw [if_pos (hmem.mp hin)]
      exact hget

theorem discards_park (a : AllTransactions) (id i : TransactionId) :
    discards (a.parkDescendantTransactions id).1 i = false := by
  rw [discards, any_eq_false]
  intro u hu
  rcases (mem_sweep_updates _ _ _ _).mp hu with h | ⟨l1, k, t, l2, -, h⟩
  · cases h
  · rw [decide_eq_true_eq]
    rintro ⟨-, hd⟩
    simp only [parkVisit, reroute] at h
    split at h
    · rw [mem_singleton.mp h] at hd
      cases hd
    · cases h

/-- The entries after the transaction under `id` was taken out by hash. -/
def parkedAfter (id i : TransactionId) (e : Option PoolInternalTransaction) :
    Option PoolInternalTransaction :=
  if id = i then none else if isDescendant id i then e.map (restate parked) else e

/-- What `remove_transaction_by_hash` did to a transaction that it found. -/
structure Cut (id : TransactionId) (p p' : TxPool V) : Prop where
  sound : Sound p'
  context : SameContext p p'
  txs : ∀ i : TransactionId,
    p'.allTransactions.txs[i]? = parkedAfter id i p.allTransactions.txs[i]?

theorem txs_park_without (a : AllTransactions) (id i : TransactionId) (tx : ValidPoolTransaction) :
    ((a.without id tx).parkDescendantTransactions id).2.txs[i]? = parkedAfter id i a.txs[i]? := by
  rw [txs_park]
  show (if _ then (a.txs.erase id)[i]?.map _ else (a.txs.erase id)[i]?) = _
  rw [get_erase, parkedAfter]
  by_cases hid : id = i
  · simp [hid]
  rw [if_neg hid, if_neg hid]
  have hiff : (i.sender = id.sender ∧ id.nonce ≤ i.nonce) ↔ isDescendant id i = true := by
    rw [isDescendant, and_eq_true, beq_iff_eq, decide_eq_true_eq]
    refine and_congr_right fun hs => ⟨fun hle => ?_, Nat.le_of_lt⟩
    rcases lt_or_eq_of_le hle with hlt | heq
    · exact hlt
    · exact absurd (TransactionId.ext hs.symm heq) hid
  simp only [hiff]

/-- **REMOVAL BY HASH** of a transaction that is in the pool. -/
theorem removeTransactionByHash_found (h : Sound p)
    (ht : p.allTransactions.txs[t.transaction.id]? = some t) :
    ∃ p', p.removeTransactionByHash t.transaction.hash = some (some t.transaction, p')
      ∧ Cut t.transaction.id p p' := by
  have htx : p.allTransactions.tx t.transaction.id = some t.transaction :=
    tx_eq_some.mpr ⟨t, ht, rfl⟩
  have hrm := h.indexed.removeTransactionByHash_eq ht
  generalize ha1 : p.allTransactions.without t.transaction.id t.transaction = a1 at hrm
  have hi1 : Indexed a1 := ha1 ▸ h.indexed.without htx
  have hr1 : AllTransactions.Routed a1 := ha1 ▸ h.routed.without _ _
  have hplace1 : a1.place = update p.allTransactions.place t.transaction.id none :=
    ha1 ▸ place_without _ _ _
  generalize hpk : a1.parkDescendantTransactions t.transaction.id = pk
  have hcatch : Catches a1.place pk.2 pk.1 := hpk ▸ catches_park a1 t.transaction.id
  have htxs : ∀ i,
      pk.2.txs[i]? = parkedAfter t.transaction.id i p.allTransactions.txs[i]? := by
    intro i
    rw [← hpk, ← ha1]
    exact txs_park_without _ _ _ _
  have hgone : pk.2.txs[t.transaction.id]? = none := by
    rw [htxs, parkedAfter, if_pos rfl]
  -- the sub-pools still hold the transaction that left `txs`
  have hl : Located { p with allTransactions := pk.2 } p.allTransactions.place :=
    h.located.congr rfl rfl rfl rfl
  have hrec : Recorded p.allTransactions.place pk.2 pk.1 := by
    refine ⟨hcatch.toRecorded.nodup, fun u hu => ?_⟩
    obtain ⟨t', ht', hl', hd⟩ := hcatch.toRecorded.listed u hu
    have hne : u.id ≠ t.transaction.id := fun heq => nomatch (heq ▸ hgone).symm.trans ht'
    exact ⟨t', ht', by rw [← hl', hplace1, update_of_ne hne], hd⟩
  obtain ⟨o, p1, hproc, hp⟩ := processUpdates_spec pk.1 hl (hpk ▸ hi1.parkDescendantTransactions _)
    (hpk ▸ hi1.routed_park hr1 _) hrec
  have hnot : t.transaction.id ∉ pk.1.map PoolUpdate.id := by
    intro hmem
    obtain ⟨u, hu, huid⟩ := mem_map.mp hmem
    obtain ⟨t', ht', -⟩ := hrec.listed u hu
    rw [huid, hgone] at ht'
    nomatch ht'
  have hlast : settle p.allTransactions.place pk.2 pk.1 t.transaction.id
      = some (t.subpool, t.transaction) := by
    rw [settle, if_neg hnot, place_of_get ht]
  obtain ⟨p', hrem, h', hs'⟩ := hp.located.removeFromSubpool t.subpool t.transaction.id
    (fun e he => by rw [hlast] at he; exact congrArg Prod.fst (Option.some.inj he).symm)
  rw [hlast] at hrem
  have hdisc : ∀ i, discards pk.1 i = false := fun i => hpk ▸ discards_park a1 _ i
  have hfinal : ∀ i : TransactionId, p'.allTransactions.txs[i]? = pk.2.txs[i]? := by
    intro i
    rw [hs'.allTransactions, hp.txs, hdisc]
    rfl
  refine ⟨p', ?_, ⟨hs'.allTransactions ▸ hp.indexed, hs'.allTransactions ▸ hp.routed,
    h'.of_eq fun i => ?_⟩, ⟨?_, ?_, ?_⟩, fun i => (hfinal i).trans (htxs i)⟩
  · simp only [removeTransactionByHash, hrm, hpk, hproc, hrem, bind_eq_bind, bind_some]
    rfl
  · have hsettle : settle a1.place pk.2 pk.1 = p'.allTransactions.place :=
      hcatch.settle_eq fun i => by rw [hfinal, hdisc]; rfl
    rw [← hsettle, update_apply]
    by_cases hid : i = t.transaction.id
    · rw [if_pos hid, hid, settle, if_neg hnot, hplace1, update_self]
    · rw [if_neg hid, settle, settle, hplace1, update_of_ne hid]
  · rw [hs'.allTransactions, hp.context.pendingFees, ← hpk, ← ha1]
    rfl
  · rw [hs'.senderInfo, hp.context.senderInfo]
  · rw [hs'.config, hp.context.config]

theorem removeTransactionByHash_spec (h : Sound p) (hash : TxHash) :
    p.removeTransactionByHash hash = some (none, p)
      ∨ ∃ (t : PoolInternalTransaction) (p' : TxPool V),
        p.allTransactions.txs[t.transaction.id]? = some t
        ∧ p.removeTransactionByHash hash = some (some t.transaction, p')
        ∧ Cut t.transaction.id p p' := by
  rcases h.indexed.removeTransactionByHash_cases hash with ⟨heq, -⟩ | ⟨id, t, ht, rfl, -⟩
  · exact .inl (by simp only [removeTransactionByHash, heq])
  · rw [← h.indexed.key ht] at ht
    obtain ⟨p', heq, hcut⟩ := removeTransactionByHash_found h ht
    exact .inr ⟨t, p', ht, heq, hcut⟩

/-! ## Trimmed pools -/

/-- **WHAT REMOVALS DO TO THE ENTRIES**: an entry is gone, kept or parked with a nonce gap; after
    one that is not kept, all that are left of its sender have a nonce gap. -/
structure Trimmed (a a' : AllTransactions) : Prop where
  entries : ∀ (i : TransactionId) (t' : PoolInternalTransaction), a'.txs[i]? = some t' →
    ∃ t, a.txs[i]? = some t ∧ (t' = t ∨ t' = restate parked t)
  tail : ∀ (i j : TransactionId) (t t' : PoolInternalTransaction), a.txs[i]? = some t →
    a'.txs[i]? ≠ some t → isDescendant i j = true → a'.txs[j]? = some t' →
      t'.state.noNonceGaps = false

section

variable {a a' a'' : AllTransactions}

theorem Trimmed.refl (a : AllTransactions) : Trimmed a a :=
  ⟨fun _ t' ht' => ⟨t', ht', Or.inl rfl⟩, fun _ _ _ _ ht hne => absurd ht hne⟩

theorem Trimmed.trans (h : Trimmed a a') (h' : Trimmed a' a'') : Trimmed a a'' := by
  constructor
  · intro i t'' ht''
    obtain ⟨t', ht', hor'⟩ := h'.entries i t'' ht''
    obtain ⟨t, ht, hor⟩ := h.entries i t' ht'
    refine ⟨t, ht, ?_⟩
    rcases hor' with rfl | rfl
    · exact hor
    · rcases hor with rfl | rfl
      · exact .inr rfl
      · exact .inr rfl
  · intro i j t t'' ht hne hd ht''
    by_cases hi : a'.txs[i]? = some t
    · exact h'.tail i j t t'' hi hne hd ht''
    · obtain ⟨t', ht', hor'⟩ := h'.entries j t'' ht''
      have hgap := h.tail i j t t' ht hi hd ht'
      rcases hor' with rfl | rfl
      · exact hgap
      · rfl

end

theorem isDescendant_trans (h : isDescendant i j = true) (h' : isDescendant j k = true) :
    isDescendant i k = true := by
  rw [isDescendant, and_eq_true, beq_iff_eq, decide_eq_true_eq] at *
  exact ⟨h'.1.trans h.1, Nat.lt_trans h.2 h'.2⟩

theorem Cut.trimmed (h : Cut id p p') : Trimmed p.allTransactions p'.allTransactions := by
  constructor
  · intro i t' ht'
    rw [h.txs, parkedAfter] at ht'
    split at ht'
    · nomatch ht'
    · split at ht'
      · obtain ⟨t, ht, rfl⟩ := map_eq_some_iff.mp ht'
        exact ⟨t, ht, Or.inr rfl⟩
      · exact ⟨t', ht', Or.inl rfl⟩
  · intro i j t t' ht hne hd ht'
    have hj : isDescendant id j = true := by
      by_cases hid : id = i
      · exact hid ▸ hd
      · by_cases hdi : isDescendant id i = true
        · exact isDescendant_trans hdi hd
        · rw [h.txs, parkedAfter, if_neg hid, if_neg hdi] at hne
          exact absurd ht hne
    rw [h.txs, parkedAfter, if_pos hj] at ht'
    split at ht'
    · nomatch ht'
    · obtain ⟨t0, -, rfl⟩ := map_eq_some_iff.mp ht'
      rfl

variable {gone : TransactionId → Bool}

/-- Dropping entries together with their descendants. -/
theorem trimmed_of_drop
    (htxs : ∀ i, a'.txs[i]? = if gone i then none else a.txs[i]?)
    (hup : ∀ i j, gone i = true → isDescendant i j = true → gone j = true) : Trimmed a a' := by
  constructor
  · intro i t' ht'
    rw [htxs] at ht'
    split at ht'
    · nomatch ht'
    · exact ⟨t', ht', Or.inl rfl⟩
  · intro i j t t' ht hne hd ht'
    have hi : gone i = true := by
      by_contra hno
      rw [htxs, if_neg hno] at hne
      exact hne ht
    rw [htxs, if_pos (hup i j hi hd)] at ht'
    nomatch ht'

/-- What every removal leaves behind. -/
structure Removed (p p' : TxPool V) : Prop where
  sound : Sound p'
  context : SameContext p p'
  trimmed : Trimmed p.allTransactions p'.allTransactions

theorem Removed.refl (h : Sound p) : Removed p p :=
  ⟨h, SameContext.refl p, Trimmed.refl _⟩

theorem Removed.trans (h : Removed p p1) (h' : Removed p1 p') : Removed p p' :=
  ⟨h'.sound, h.context.trans h'.context, h.trimmed.trans h'.trimmed⟩

theorem Cut.removed (h : Cut id p p') : Removed p p' :=
  ⟨h.sound, h.context, h.trimmed⟩

theorem Dropped.removed (h : Dropped gone p p.allTransactions.place out p')
    (hup : ∀ i j, gone i = true → isDescendant i j = true → gone j = true) : Removed p p' :=
  ⟨h.sound, h.context, trimmed_of_drop h.txs hup⟩

theorem removeTransactions_spec (hashes : List TxHash) (h : Sound p) :
    ∃ out p', removeTransactions hashes p = some (out, p') ∧ Removed p p' := by
  induction hashes generalizing p with
  | nil => exact ⟨_, _, rfl, .refl h⟩
  | cons hash hashes ih =>
    obtain ⟨out, p1, heq, hrm⟩ : ∃ out p1, p.removeTransactionByHash hash = some (out, p1)
        ∧ Removed p p1 := by
      rcases removeTransactionByHash_spec h hash with heq | ⟨t, p1, -, heq, hcut⟩
      · exact ⟨_, _, heq, .refl h⟩
      · exact ⟨_, _, heq, hcut.removed⟩
    obtain ⟨out', p', heq', hrm'⟩ := ih hrm.sound
    refine ⟨out.toList ++ out', p', ?_, hrm.trans hrm'⟩
    simp only [removeTransactions, heq, heq', bind_eq_bind, bind_some]

theorem removeTransactionsAndDescendants_spec (hashes : List TxHash) (h : Sound p) :
    ∃ out p', removeTransactionsAndDescendants hashes p = some (out, p') ∧ Removed p p' := by
  induction hashes generalizing p with
  | nil => exact ⟨_, _, rfl, .refl h⟩
  | cons hash hashes ih =>
    rcases removeTransactionByHash_spec h hash with heq | ⟨t, p1, -, heq, hcut⟩
    · obtain ⟨out, p', heq', hrm⟩ := ih h
      refine ⟨out, p', ?_, hrm⟩
      simp only [removeTransactionsAndDescendants, heq, heq', bind_eq_bind, bind_some]
    · obtain ⟨out, p2, hdesc, hd⟩ := removeDescendants_spec hcut.sound.located
        hcut.sound.indexed hcut.sound.routed (below_place _) t.transaction.id
      obtain ⟨out', p', heq', hrm⟩ := ih hd.sound
      refine ⟨t.transaction :: out ++ out', p', ?_, (hcut.removed.trans (hd.removed fun i j hi hj =>
        isDescendant_trans hi hj)).trans hrm⟩
      simp only [removeTransactionsAndDescendants, heq, hdesc, heq', bind_eq_bind, bind_some]

theorem removeTransactionsBySender_removed (h : Sound p) (sender : SenderId) :
    ∃ out p', p.removeTransactionsBySender sender = some (out, p') ∧ Removed p p' := by
  obtain ⟨out, p', heq, hd⟩ := removeTransactionsBySender_spec h sender
  refine ⟨out, p', heq, hd.removed fun i j hi hj => ?_⟩
  rw [isDescendant, and_eq_true, beq_iff_eq] at hj
  rw [beq_iff_eq] at hi ⊢
  exact hj.1.trans hi

end TxPool

end TransactionPool
