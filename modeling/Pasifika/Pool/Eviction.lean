import Pasifika.Pool.Removal

/-! # Eviction

`discard_worst` truncates a sub-pool that is over its limit and removes what
it evicted, with all descendants, from the total set. While it works through
an evicted list, the pool holds some transactions only in that list; `joined`
is the lookup over both. Each round takes exactly the transactions it
reports out of it. -/

namespace TransactionPool

open Std OrderedMap AllTransactions List Option Function

variable {V : Type}

namespace TxPool

/-- The transactions still to be reported: the evicted ones, then the set. -/
def joined (removed : List ValidPoolTransaction)
    (get : TransactionId → Option ValidPoolTransaction) (id : TransactionId) :
    Option ValidPoolTransaction :=
  (removed.find? (fun tx => decide (tx.id = id))).or (get id)

/-- An evicted transaction or a descendant of one. -/
def evicted (removed : List ValidPoolTransaction) (i : TransactionId) : Bool :=
  removed.any (fun tx => decide (tx.id = i) || isDescendant tx.id i)

theorem evicted_up (removed : List ValidPoolTransaction) (i j : TransactionId)
    (hi : evicted removed i = true) (hd : isDescendant i j = true) : evicted removed j = true := by
  rw [evicted, List.any_eq_true] at *
  obtain ⟨tx, htx, h⟩ := hi
  refine ⟨tx, htx, ?_⟩
  rw [Bool.or_eq_true, decide_eq_true_eq] at h ⊢
  rcases h with rfl | h
  · exact .inr hd
  · exact .inr (isDescendant_trans h hd)

variable {removed : List ValidPoolTransaction} {p : TxPool V}
  {id : TransactionId} {tx : ValidPoolTransaction} {p q p' : TxPool V} {s : SubPool}
variable {out : List ValidPoolTransaction} {fuel : Nat}

theorem find_eq_none (h : id ∉ removed.map (·.id)) :
    removed.find? (fun tx => decide (tx.id = id)) = none := by
  rw [find?_eq_none]
  intro tx htx heq
  exact h (of_decide_eq_true heq ▸ mem_map_of_mem htx)

theorem joined_of_mem (hnd : (removed.map (·.id)).Nodup) (h : tx ∈ removed)
    (get : TransactionId → Option ValidPoolTransaction) :
    joined removed get tx.id = some tx := by
  have hfind : removed.find? (fun tx' => decide (tx'.id = tx.id)) = some tx := by
    cases hf : removed.find? (fun tx' => decide (tx'.id = tx.id)) with
    | none =>
      exact absurd (decide_eq_true rfl) (find?_eq_none.mp hf tx h)
    | some tx' =>
      have hid : tx'.id = tx.id := by simpa using find?_some hf
      exact congrArg some (inj_on_of_nodup_map hnd (mem_of_find?_eq_some hf) h hid)
  rw [joined, hfind]
  rfl

theorem joined_of_not_mem (h : id ∉ removed.map (·.id))
    (get : TransactionId → Option ValidPoolTransaction) : joined removed get id = get id := by
  rw [joined, find_eq_none h]
  rfl

theorem joined_cons (hnd : ((tx :: removed).map (·.id)).Nodup)
    {get get' : TransactionId → Option ValidPoolTransaction} (hget : get' tx.id = none)
    (hrest : ∀ id, id ≠ tx.id → get' id = get id) :
    Withdraws (·.id) (joined (tx :: removed) get) (joined removed get') [tx] := by
  have hself : joined (tx :: removed) get tx.id = some tx := joined_of_mem hnd (by simp) get
  have hstep : ∀ id, joined removed get' id
      = if tx.id = id then none else joined (tx :: removed) get id := by
    intro id
    by_cases hid : tx.id = id
    · rw [if_pos hid, ← hid, joined_of_not_mem (nodup_cons.mp hnd).1, hget]
    · rw [if_neg hid, joined, joined, find?_cons_of_neg (by simpa using hid),
        hrest id (Ne.symm hid)]
  have hout : Withdraws (·.id) (joined (tx :: removed) get) (joined removed get')
      (joined (tx :: removed) get tx.id).toList := by
    refine Withdraws.single (fun t ht => ?_) hstep
    rw [hself] at ht
    exact congrArg _ (Option.some.inj ht).symm
  rw [hself] at hout
  exact hout

/-- What evicting a list from the total set did. -/
structure Evicted (removed : List ValidPoolTransaction) (p : TxPool V)
    (out : List ValidPoolTransaction) (p' : TxPool V) : Prop where
  sound : Sound p'
  context : SameContext p p'
  txs : ∀ i : TransactionId,
    p'.allTransactions.txs[i]? = if evicted removed i then none else p.allTransactions.txs[i]?
  taken : Withdraws ValidPoolTransaction.id (joined removed p.allTransactions.tx)
    p'.allTransactions.tx out

variable (a : AllTransactions)

theorem place_drop (id : TransactionId) : (a.drop id).place = update a.place id none := by
  funext i
  rw [place, txs_drop, update_apply]
  by_cases hid : id = i
  · rw [if_pos hid, if_pos hid.symm]
    rfl
  · rw [if_neg hid, if_neg (Ne.symm hid)]
    rfl

theorem tx_drop (id i : TransactionId) : (a.drop id).tx i = if id = i then none else a.tx i := by
  rw [tx, txs_drop, apply_ite (Option.map _)]
  rfl

/-- The evicted list is off the sub-pools already when its first transaction leaves `txs`. -/
theorem withdrawn_cons (tx : ValidPoolTransaction) (removed : List ValidPoolTransaction) :
    withdrawn a.place (tx :: removed) = withdrawn (a.drop tx.id).place removed := by
  funext i
  rw [withdrawn, withdrawn, place_drop, update_apply]
  by_cases hid : i = tx.id
  · simp [hid]
  · simp [hid]

theorem keep_withdrawn (gone : TransactionId → Bool) (loc : Placement)
    (removed : List ValidPoolTransaction) :
    keep gone (withdrawn loc removed) = withdrawn (keep gone loc) removed := by
  funext i
  rw [keep, withdrawn, withdrawn, keep]
  by_cases hi : i ∈ removed.map (·.id)
  · simp [hi]
  · simp [hi]

theorem below_withdrawn (removed : List ValidPoolTransaction) :
    Below (withdrawn a.place removed) a := by
  intro i
  rw [withdrawn]
  by_cases hi : i ∈ removed.map (·.id)
  · exact .inl (if_pos hi)
  · exact .inr (if_neg hi)

theorem joined_withdrawn (removed : List ValidPoolTransaction)
    (hnd : (removed.map (·.id)).Nodup) (a : AllTransactions) (i : TransactionId) :
    joined removed (heldOf (withdrawn a.place removed)) i = joined removed a.tx i := by
  by_cases hi : i ∈ removed.map (·.id)
  · obtain ⟨tx, htx, rfl⟩ := mem_map.mp hi
    rw [joined_of_mem hnd htx, joined_of_mem hnd htx]
  · rw [joined_of_not_mem hi, joined_of_not_mem hi, ← heldOf_place, heldOf, heldOf,
      withdrawn_of_not_mem hi]

/-- **EVICTING A LIST**: each transaction leaves with all of its descendants, and
    everything that left is reported once. -/
theorem discardRemoved_spec (removed : List ValidPoolTransaction)
    (h : Located p (withdrawn p.allTransactions.place removed)) (hi : Indexed p.allTransactions)
    (hr : AllTransactions.Routed p.allTransactions)
    (hnd : (removed.map (·.id)).Nodup) :
    ∃ out p', discardRemoved removed p = some (out, p') ∧ Evicted removed p out p' := by
  induction removed generalizing p with
  | nil =>
    exact ⟨_, _, rfl, ⟨hi, hr, h.of_eq fun _ => rfl⟩, SameContext.refl p, fun _ => rfl,
      .nil fun _ => rfl⟩
  | cons tx removed ih =>
    obtain ⟨hid, hnd'⟩ := nodup_cons.mp hnd
    generalize hp1 : ({ p with allTransactions := p.allTransactions.drop tx.id } : TxPool V) = p1
    have ha1 : p1.allTransactions = p.allTransactions.drop tx.id := by rw [← hp1]
    have h1 : Located p1 (withdrawn p1.allTransactions.place removed) := by
      rw [ha1, ← withdrawn_cons, ← hp1]
      exact h.congr rfl rfl rfl rfl
    obtain ⟨out2, p2, hdesc, hd⟩ := removeDescendants_spec h1 (ha1 ▸ hi.drop _)
      (ha1 ▸ hr.drop _) (below_withdrawn _ _) tx.id
    have hkeep : keep (isDescendant tx.id) (withdrawn p1.allTransactions.place removed)
        = withdrawn p2.allTransactions.place removed := by
      rw [keep_withdrawn, hd.place_eq]
    obtain ⟨out3, p', hrest, hev⟩ := ih (hkeep ▸ hd.located) hd.indexed hd.routed hnd'
    refine ⟨tx :: out2 ++ out3, p', ?_, hev.sound, ?_, fun i => ?_, ?_⟩
    · rw [discardRemoved, hi.removeTransaction_snd]
      simp only [hp1, hdesc, hrest, bind_eq_bind, bind_some]
    · refine SameContext.trans ⟨?_, ?_, ?_⟩ (hd.context.trans hev.context)
      · rw [ha1, pendingFees_drop]
      · rw [← hp1]
      · rw [← hp1]
    · rw [hev.txs, hd.txs, ha1, txs_drop, evicted, evicted, any_cons]
      by_cases hti : tx.id = i
      · simp [hti]
      · cases isDescendant tx.id i <;> simp [hti]
    · -- first the transaction itself, then its descendants, then the rest of the list
      have hfirst : Withdraws (·.id)
          (joined (tx :: removed) p.allTransactions.tx) (joined removed p1.allTransactions.tx)
          [tx] := by
        refine joined_cons hnd ?_ fun i hne => ?_
        · rw [ha1, tx_drop, if_pos rfl]
        · rw [ha1, tx_drop, if_neg (Ne.symm hne)]
      have hsecond : Withdraws (·.id) (joined removed p1.allTransactions.tx)
          (joined removed p2.allTransactions.tx) out2 := by
        refine (hd.taken.or (fun i => removed.find? fun tx => decide (tx.id = i))
          (fun t ht => find_eq_none fun hmem => ?_)).congr
          (fun i => (joined_withdrawn removed hnd' _ i).symm)
          (fun i => (joined_withdrawn removed hnd' _ i).symm.trans (by rw [← hkeep]; rfl))
        have := hd.taken.held t ht
        rw [heldOf, withdrawn, if_pos hmem] at this
        cases this
      exact (hfirst.append hsecond).append hev.taken

/-! ## Rounds -/

/-- What taking transactions out of the pool did. -/
structure Discarded (p : TxPool V) (out : List ValidPoolTransaction) (p' : TxPool V) : Prop
    extends Removed p p' where
  taken : Withdraws ValidPoolTransaction.id p.allTransactions.tx p'.allTransactions.tx out

theorem Discarded.refl (h : Sound p) : Discarded p [] p :=
  ⟨.refl h, .nil fun _ => rfl⟩

theorem Discarded.trans (h : Discarded p out p1) (h' : Discarded p1 out' p') :
    Discarded p (out ++ out') p' :=
  ⟨h.toRemoved.trans h'.toRemoved, h.taken.append h'.taken⟩

/-- What one sub-pool gave up by itself. -/
structure Truncated (s : SubPool) (p : TxPool V) (out : List ValidPoolTransaction)
    (q : TxPool V) : Prop where
  same : SameTracking p q
  queued : q.queuedPool.WF
  baseFee : q.basefeePool.WF
  blob : q.blobPool.WF
  pending : q.pendingPool.WF
  taken : Withdraws ValidPoolTransaction.id (p.subpoolGet s) (q.subpoolGet s) out
  other : ∀ s', s' ≠ s → q.subpoolGet s' = p.subpoolGet s'

/-- **ONE ROUND**: what a sub-pool evicted leaves the pool with its descendants. -/
theorem discardRemoved_truncated (h : Sound p) (ht : Truncated s p removed q) :
    ∃ out p', discardRemoved removed q = some (out, p') ∧ Discarded p out p'
      ∧ ∀ i : TransactionId, p'.allTransactions.txs[i]?
          = if evicted removed i then none else p.allTransactions.txs[i]? := by
  obtain ⟨hl, hout⟩ := h.located.withdraw ht.queued ht.baseFee ht.blob ht.pending ht.taken ht.other
  have ha := ht.same.allTransactions
  obtain ⟨out, p', heq, hev⟩ := discardRemoved_spec removed (ha ▸ hl) (ha ▸ h.indexed)
    (ha ▸ h.routed) ht.taken.nodup
  have htxs := ha ▸ hev.txs
  refine ⟨out, p', heq, ⟨⟨hev.sound, ⟨?_, ?_, ?_⟩, trimmed_of_drop htxs (evicted_up removed)⟩, ?_⟩,
    htxs⟩
  · rw [hev.context.pendingFees, ha]
  · rw [hev.context.senderInfo, ht.same.senderInfo]
  · rw [hev.context.config, ht.same.config]
  · refine hev.taken.congr (fun i => ?_) (fun _ => rfl)
    by_cases hi : i ∈ removed.map (·.id)
    · obtain ⟨tx, htx, rfl⟩ := mem_map.mp hi
      rw [joined_of_mem ht.taken.nodup htx, ← heldOf_place, heldOf, hout tx htx]
      rfl
    · rw [joined_of_not_mem hi, ha]

variable [LinearOrder V]

/-- A truncation that returned took what it reports out of its sub-pool. -/
theorem truncate_truncated (h : Sound p) (heq : p.truncate fuel s = some (out, q)) :
    Truncated s p out q := by
  have hl := h.located
  cases s with
  | pending =>
    obtain ⟨r, hr, heq⟩ := bind_eq_some_iff.mp heq
    cases heq
    obtain ⟨hwf, hw⟩ := hl.pending.truncatePool hr
    exact ⟨⟨rfl, rfl, rfl⟩, hl.queued, hl.baseFee, hl.blob, hwf, hw,
      fun s' hs' => by cases s' <;> first | rfl | exact absurd rfl hs'⟩
  | baseFee =>
    obtain ⟨r, hr, heq⟩ := bind_eq_some_iff.mp heq
    cases heq
    obtain ⟨hwf, hw⟩ := hl.baseFee.truncatePool hr
    exact ⟨⟨rfl, rfl, rfl⟩, hl.queued, hwf, hl.blob, hl.pending, hw,
      fun s' hs' => by cases s' <;> first | rfl | exact absurd rfl hs'⟩
  | blob =>
    obtain ⟨r, hr, heq⟩ := bind_eq_some_iff.mp heq
    cases heq
    obtain ⟨hwf, hw⟩ := hl.blob.truncatePool hr
    exact ⟨⟨rfl, rfl, rfl⟩, hl.queued, hl.baseFee, hwf, hl.pending, hw,
      fun s' hs' => by cases s' <;> first | rfl | exact absurd rfl hs'⟩
  | queued =>
    obtain ⟨r, hr, heq⟩ := bind_eq_some_iff.mp heq
    cases heq
    obtain ⟨hwf, hw⟩ := hl.queued.truncatePool hr
    exact ⟨⟨rfl, rfl, rfl⟩, hwf, hl.baseFee, hl.blob, hl.pending, hw,
      fun s' hs' => by cases s' <;> first | rfl | exact absurd rfl hs'⟩

theorem discardWorstFrom_discarded (s : SubPool) (fuel : Nat) (h : Sound p)
    (heq : discardWorstFrom (·.exceeds s) (·.truncate fuel' s) fuel p = some (out, p')) :
    Discarded p out p' ∧ p'.exceeds s = false := by
  induction fuel generalizing p out with
  | zero => nomatch heq
  | succ fuel ih =>
    rw [discardWorstFrom] at heq
    by_cases hex : p.exceeds s = true
    · rw [if_pos hex] at heq
      obtain ⟨⟨removed, q⟩, ht, heq⟩ := bind_eq_some_iff.mp heq
      obtain ⟨out1, p1, hd, hdisc, -⟩ := discardRemoved_truncated h (truncate_truncated h ht)
      rw [hd, bind_eq_bind, bind_some] at heq
      obtain ⟨⟨out2, p2⟩, hrest, heq⟩ := bind_eq_some_iff.mp heq
      cases heq
      obtain ⟨hdisc', hno⟩ := ih hdisc.sound hrest
      exact ⟨hdisc.trans hdisc', hno⟩
    · rw [if_neg hex] at heq
      cases heq
      exact ⟨.refl h, Bool.eq_false_iff.mpr hex⟩

/-- A `discard_worst` that returned reports exactly what it removed. -/
theorem discardWorstOf_discarded (pools : List SubPool) (h : Sound p)
    (heq : discardWorstOf fuel pools p = some (out, p')) : Discarded p out p' := by
  induction pools generalizing p p' out with
  | nil =>
    cases heq
    exact .refl h
  | cons s pools ih =>
    obtain ⟨⟨out1, p1⟩, hone, heq⟩ := bind_eq_some_iff.mp heq
    obtain ⟨⟨out2, p2⟩, hrest, heq⟩ := bind_eq_some_iff.mp heq
    cases heq
    have hdisc := (discardWorstFrom_discarded s fuel h hone).1
    exact hdisc.trans (ih hdisc.sound hrest)

end TxPool

end TransactionPool
