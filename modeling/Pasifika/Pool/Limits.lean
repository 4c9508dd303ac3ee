import Pasifika.Pool.Reachable
import Pasifika.Pool.Truncation

/-! # Limits

`discard_worst` loops over each sub-pool until it is within its limit. A
round on a parked sub-pool or on the blob sub-pool ends there. A round on the
pending sub-pool leaves the stranded transactions, which no later round can
take: the loop returns exactly when they are within the limit by themselves. -/

namespace TransactionPool

open OrderedMap AllTransactions List Option Bool

variable {V : Type}

namespace TxPool

/-! ## Listings of the sub-pools -/

/-- The limit of a sub-pool. -/
def limitOf (config : PoolConfig) : SubPool → SubPoolLimit
  | .pending => config.pendingLimit
  | .baseFee => config.basefeeLimit
  | .blob => config.blobLimit
  | .queued => config.queuedLimit

/-- The transactions of a sub-pool by id. -/
def listing (p : TxPool V) : SubPool → List (TransactionId × ValidPoolTransaction)
  | .pending => p.pendingPool.listing
  | .baseFee => p.basefeePool.listing
  | .blob => p.blobPool.listing
  | .queued => p.queuedPool.listing

theorem lists (p : TxPool V) (s : SubPool) : Lists (p.subpoolGet s) (p.listing s) := by
  cases s with
  | queued => exact p.queuedPool.lists
  | baseFee => exact p.basefeePool.lists
  | blob => exact p.blobPool.lists
  | pending => exact p.pendingPool.lists

variable {loc : Placement} {p p' : TxPool V}

theorem exceeds_eq (h : Located p loc) (s : SubPool) :
    p.exceeds s = (limitOf p.config s).isExceeded (p.listing s).length (weight (p.listing s)) := by
  cases s with
  | queued => exact h.queued.exceeds_eq _
  | baseFee => exact h.baseFee.exceeds_eq _
  | blob => exact h.blob.exceeds_eq _
  | pending => exact h.pending.exceeds_eq _

theorem within_of_subset (h : Located p loc) (h' : Located p' loc')
    (hconfig : p'.config = p.config)
    (hsub : ∀ id tx, p'.subpoolGet s id = some tx → p.subpoolGet s id = some tx)
    (hno : p.exceeds s = false) : p'.exceeds s = false := by
  rw [eq_false_iff] at hno ⊢
  intro hex
  rw [exceeds_eq h', hconfig] at hex
  rw [exceeds_eq h] at hno
  exact hno (SubPoolLimit.isExceeded_of_subperm ((p.lists s).subperm (p'.lists s) hsub) hex)

/-! ## One round -/

/-- One round: the sub-pools shrink, and the truncated one holds no more than right after the
    truncation. -/
structure Round (s : SubPool) (p q : TxPool V) (removed out : List ValidPoolTransaction)
    (p' : TxPool V) : Prop extends Discarded p out p' where
  truncated : Truncated s p removed q
  gets : ∀ s' id,
    p'.subpoolGet s' id = if evicted removed id then none else p.subpoolGet s' id

section

variable {s : SubPool} {p q p' : TxPool V} {removed out : List ValidPoolTransaction}

theorem round_of_truncated (h : Sound p) (ht : Truncated s p removed q) :
    ∃ out p', discardRemoved removed q = some (out, p') ∧ Round s p q removed out p' := by
  obtain ⟨out, p', heq, hdisc, htxs⟩ := discardRemoved_truncated h ht
  refine ⟨out, p', heq, hdisc, ht, fun s id => ?_⟩
  -- a sub-pool holds what was not evicted
  rw [hdisc.sound.located.holds, h.located.holds, place, place, htxs]
  by_cases hev : evicted removed id = true
  · rw [if_pos hev, if_pos hev]
    rfl
  · rw [if_neg hev, if_neg hev]

variable {tx : ValidPoolTransaction} {id : TransactionId} {s' : SubPool}

theorem Round.subset (h : Round s p q removed out p') (hget : p'.subpoolGet s' id = some tx) :
    p.subpoolGet s' id = some tx := by
  rw [h.gets] at hget
  split at hget
  · nomatch hget
  · exact hget

theorem Round.not_evicted (h : Round s p q removed out p') (hget : p'.subpoolGet s' id = some tx) :
    evicted removed id = false := by
  rw [h.gets] at hget
  split at hget
  · nomatch hget
  · exact eq_false_iff.mpr ‹_›

theorem evicted_of_mem (hmem : (⟨i.sender, m⟩ : TransactionId) ∈ removed.map (·.id))
    (hle : m ≤ i.nonce) : evicted removed i = true := by
  obtain ⟨tx, htx, hid⟩ := List.mem_map.mp hmem
  rw [evicted, List.any_eq_true]
  refine ⟨tx, htx, ?_⟩
  rw [hid, isDescendant, Bool.or_eq_true, Bool.and_eq_true, beq_iff_eq, decide_eq_true_eq,
    decide_eq_true_eq]
  rcases Nat.lt_or_eq_of_le hle with hlt | rfl
  · exact .inr ⟨rfl, hlt⟩
  · exact .inl rfl

open PendingPool in
/-- Without a highest entry only stranded transactions are left. -/
theorem Round.stranded (h : Round .pending p q removed out p')
    (hpeel : Peeled p.pendingPool q.pendingPool)
    (hnone : ∀ s : SenderId, q.pendingPool.highestNonces[s]? = none)
    (hget : p'.pendingPool.get id = some tx) :
    p.pendingPool.Stranded id := by
  intro m hm hrem
  have hgone : q.pendingPool.byId[TransactionId.mk id.sender m]? = none := by
    by_contra hne
    obtain ⟨highest, hhigh, -, -⟩ := (hpeel.removable ⟨id.sender, m⟩).mpr ⟨hrem, hne⟩
    rw [hnone] at hhigh
    nomatch hhigh
  -- a removable transaction that left was evicted, and `id` with it
  have hmem : (⟨id.sender, m⟩ : TransactionId) ∈ removed.map (·.id) := by
    by_contra hno
    obtain ⟨t, ht⟩ := ne_none_iff_exists'.mp hrem.held
    have hrest : q.pendingPool.get ⟨id.sender, m⟩ = p.pendingPool.get ⟨id.sender, m⟩ :=
      (h.truncated.taken.rest _).trans (if_neg hno)
    rw [get_eq_none.mpr hgone, get_eq_some.mpr ⟨t, ht, rfl⟩] at hrest
    nomatch hrest
  have hev := h.not_evicted (show p'.subpoolGet SubPool.pending id = some _ from hget)
  rw [evicted_of_mem hmem hm] at hev
  nomatch hev

end

/-! ## The loops return -/

section

variable [LinearOrder V] {fuel : Nat}

theorem round_of_within (h : Sound p) (ht : p.truncate fuel s = some (removed, q))
    (hno : q.exceeds s = false) :
    ∃ removed q out p', p.truncate fuel s = some (removed, q)
      ∧ discardRemoved removed q = some (out, p') ∧ Round s p q removed out p'
      ∧ p'.exceeds s = false := by
  have htr := truncate_truncated h ht
  obtain ⟨out, p', hd, hround⟩ := round_of_truncated h htr
  refine ⟨removed, q, out, p', ht, hd, hround, ?_⟩
  -- a truncation that ended within the limit ends the loop
  have hq := (h.located.withdraw htr.queued htr.baseFee htr.blob htr.pending htr.taken htr.other).1
  refine within_of_subset hq hround.sound.located ?_ (fun _ _ hget => ?_) hno
  · rw [hround.context.config, htr.same.config]
  · rw [hround.truncated.taken.rest, hround.subset hget]
    refine if_neg fun hmem => ?_
    have hkept := hround.not_evicted hget
    rw [evicted_of_mem hmem le_rfl] at hkept
    nomatch hkept

/-- **A ROUND RETURNS** with a sub-pool within its limit, given that the stranded
    transactions are. -/
theorem round_total (h : Sound p) (s : SubPool) (hfuel : (p.listing s).length < fuel)
    (hstr : s = .pending → p.pendingPool.strandedExceeds p.config.pendingLimit = false) :
    ∃ removed q out p', p.truncate fuel s = some (removed, q)
      ∧ discardRemoved removed q = some (out, p') ∧ Round s p q removed out p'
      ∧ p'.exceeds s = false := by
  have hl := h.located
  cases s with
  | queued =>
    obtain ⟨removed, q, heq, hno⟩ := hl.queued.truncatePool_total p.config.queuedLimit
      (p.queuedPool.len_eq ▸ hfuel)
    have ht : p.truncate fuel .queued = some (removed, { p with queuedPool := q }) := by
      rw [truncate, heq]
      rfl
    exact round_of_within h ht hno
  | baseFee =>
    obtain ⟨removed, q, heq, hno⟩ := hl.baseFee.truncatePool_total p.config.basefeeLimit
      (p.basefeePool.len_eq ▸ hfuel)
    have ht : p.truncate fuel .baseFee = some (removed, { p with basefeePool := q }) := by
      rw [truncate, heq]
      rfl
    exact round_of_within h ht hno
  | blob =>
    obtain ⟨removed, q, heq, hno⟩ := hl.blob.truncateLoop_total p.config.blobLimit fuel []
      (p.blobPool.len_eq ▸ hfuel)
    have ht : p.truncate fuel .blob = some (removed, { p with blobPool := q }) := by
      rw [truncate, BlobTransactions.truncatePool, heq]
      rfl
    exact round_of_within h ht hno
  | pending =>
    obtain ⟨removed, q, heq, hend⟩ := hl.pending.truncatePool_total p.config.pendingLimit
      (p.pendingPool.len_eq ▸ hfuel)
    have hpeel := hl.pending.truncatePool_peeled heq
    have ht : p.truncate fuel .pending = some (removed, { p with pendingPool := q }) := by
      rw [truncate, heq]
      rfl
    rcases hend with hno | hnone
    · exact round_of_within h ht hno
    -- what is left is stranded
    obtain ⟨out, p', hd, hround⟩ := round_of_truncated h (truncate_truncated h ht)
    refine ⟨removed, _, out, p', ht, hd, hround, ?_⟩
    have hstr := eq_false_iff.mp (hstr rfl)
    rw [eq_false_iff]
    intro hex
    rw [exceeds_eq hround.sound.located, hround.context.config] at hex
    refine hstr (SubPoolLimit.isExceeded_of_subperm
      (subperm_of_subset (p'.lists .pending).nodup ?_) hex)
    intro e he
    have hget := ((p'.lists .pending).mem e.1 e.2).mp he
    exact PendingPool.mem_strandedListing.mpr ⟨hround.subset hget, hround.stranded hpeel hnone hget⟩

/-- **ONE LOOP RETURNS** after at most one round. -/
theorem discardWorstFrom_total (h : Sound p) (s : SubPool) (fuel : Nat)
    (hfuel' : (p.listing s).length < fuel')
    (hstr : s = .pending → p.pendingPool.strandedExceeds p.config.pendingLimit = false) :
    ∃ out p', discardWorstFrom (·.exceeds s) (·.truncate fuel' s) (fuel + 2) p = some (out, p')
      ∧ ∀ s' id tx, p'.subpoolGet s' id = some tx → p.subpoolGet s' id = some tx := by
  rw [discardWorstFrom]
  by_cases hex : p.exceeds s = true
  · rw [if_pos hex]
    obtain ⟨removed, q, out, p', ht, hd, hround, hno⟩ := round_total h s hfuel' hstr
    refine ⟨out ++ [], p', ?_, fun _ _ _ => hround.subset⟩
    rw [ht, bind_eq_bind, bind_some, hd, bind_some, discardWorstFrom, if_neg (eq_false_iff.mp hno)]
    rfl
  · rw [if_neg hex]
    exact ⟨[], p, rfl, fun _ _ _ hget => hget⟩

/-- The loops over the listed sub-pools, where the pending one may come first only. -/
theorem discardWorstOf_total (pools : List SubPool) (h : Sound p) (hpend : .pending ∉ pools.tail)
    (hfuel : ∀ s ∈ pools, (p.listing s).length < fuel + 2)
    (hstr : .pending ∈ pools → p.pendingPool.strandedExceeds p.config.pendingLimit = false) :
    ∃ out p', discardWorstOf (fuel + 2) pools p = some (out, p') ∧
      (∀ s' id tx, p'.subpoolGet s' id = some tx → p.subpoolGet s' id = some tx) ∧ ∀ s ∈ pools,
      p'.exceeds s = false := by
  induction pools generalizing p with
  | nil => exact ⟨[], p, rfl, fun _ _ _ hget => hget, nofun⟩
  | cons s pools ih =>
    rw [tail_cons] at hpend
    obtain ⟨out, p1, hone, hsub⟩ := discardWorstFrom_total h s fuel
      (hfuel s (by simp)) fun hs => hstr (by simp [hs])
    obtain ⟨hdisc, hno⟩ := discardWorstFrom_discarded s (fuel + 2) h hone
    obtain ⟨out', p', hrest, hsub', hwithin⟩ := ih hdisc.sound
      (fun hmem => hpend (mem_of_mem_tail hmem))
      (fun s' hs' => lt_of_le_of_lt ((p.lists s').subperm (p1.lists s') (hsub s')).length_le
        (hfuel s' (mem_cons_of_mem _ hs')))
      (absurd · hpend)
    have hdisc' := discardWorstOf_discarded pools hdisc.sound hrest
    refine ⟨out ++ out', p', ?_, fun s' id tx hget => hsub s' id tx (hsub' s' id tx hget), ?_⟩
    · rw [discardWorstOf, hone, bind_eq_bind, bind_some, hrest]
      rfl
    · intro s' hs'
      rcases mem_cons.mp hs' with rfl | hs'
      · exact within_of_subset hdisc.sound.located hdisc'.sound.located hdisc'.context.config
          (hsub' s') hno
      · exact hwithin s' hs'

end

/-! ## The stranded transactions stay -/

section

open PendingPool

variable {p' : TxPool V} {out : List ValidPoolTransaction}

/-- Dropping an id whose predecessor is not pending makes nothing removable. -/
theorem removable_of_removeTransaction {id i : TransactionId} {out : Option ValidPoolTransaction}
    (hi : Indexed p.allTransactions) (heq : p.removeTransaction id = some (out, p'))
    (hanc : p.pendingPool.ancestor id = none) (hrem : p'.pendingPool.Removable i) :
    p.pendingPool.Removable i := by
  cases ht : p.allTransactions.txs[id]? with
  | none =>
    simp only [TxPool.removeTransaction, AllTransactions.removeTransaction, ht] at heq
    cases heq
    exact hrem
  | some t =>
    simp only [TxPool.removeTransaction, hi.removeTransaction_eq ht] at heq
    rw [hi.key ht] at heq
    cases hs : t.subpool with
    | pending =>
      rw [hs] at heq
      cases heq
      exact PendingPool.removable_of_removeTransaction hanc hrem
    | blob =>
      rw [hs] at heq
      cases heq
      exact hrem
    | queued | baseFee =>
      rw [hs] at heq
      obtain ⟨r, -, heq⟩ := bind_eq_some_iff.mp heq
      cases heq
      exact hrem

/-- The predecessor of the first descendant is not pending. -/
theorem ancestor_first_descendant (h : Located p loc) (hb : Below loc p.allTransactions)
    {id d : TransactionId} {l : List (TransactionId × PoolInternalTransaction)}
    (hl : p.allTransactions.descendantTxsExclusive id = (d, t) :: l)
    (hid : p.pendingPool.byId[id]? = none) : p.pendingPool.ancestor d = none := by
  rw [ancestor]
  cases ha : d.uncheckedAncestor with
  | none => rfl
  | some a =>
    rw [bind_some]
    by_contra hne
    obtain ⟨hs, hn⟩ := TransactionId.uncheckedAncestor_eq_some.mp ha
    have hd : isDescendant id d = true :=
      (mem_descendantTxsExclusive.mp (hl ▸ mem_cons_self)).2
    rw [isDescendant, and_eq_true, beq_iff_eq, decide_eq_true_eq] at hd
    have hne_id : a ≠ id := fun heq => hne (heq ▸ hid)
    have hlt : id.nonce < a.nonce := by
      refine lt_of_le_of_ne (by omega) fun heq => hne_id ?_
      exact TransactionId.ext (hs.trans hd.1) heq.symm
    -- a pending transaction is listed, so it would come before `d`
    have hlisted : p.allTransactions.txs[a]? ≠ none := by
      intro hnone
      have hloc : loc a = none :=
        (hb a).elim (fun h => h) fun h => h.trans (place_eq_none.mpr hnone)
      have hholds := h.holds .pending a
      rw [hloc] at hholds
      exact hne (get_eq_none.mp hholds)
    have hfirst := first_descendant hl hlisted
    have hdesc : isDescendant id a = true := by
      rw [isDescendant, and_eq_true, beq_iff_eq, decide_eq_true_eq]
      exact ⟨hs.trans hd.1, hlt⟩
    rw [hdesc, eq_comm, or_eq_true, decide_eq_true_eq, isDescendant, and_eq_true,
      decide_eq_true_eq] at hfirst
    rcases hfirst with rfl | ⟨-, hfirst⟩
    · omega
    · omega

theorem removable_of_removeDescendantsLoop (fuel : Nat) (id : TransactionId) (h : Located p loc)
    (hi : Indexed p.allTransactions) (hr : AllTransactions.Routed p.allTransactions)
    (hb : Below loc p.allTransactions) (hid : p.pendingPool.byId[id]? = none)
    (heq : removeDescendantsLoop fuel id p = some (out, p')) :
    ∀ i, p'.pendingPool.Removable i → p.pendingPool.Removable i := by
  induction fuel generalizing id p p' loc out with
  | zero => nomatch heq
  | succ fuel ih =>
    intro i hrem
    rw [removeDescendantsLoop] at heq
    cases hl : p.allTransactions.descendantTxsExclusive id with
    | nil =>
      rw [hl] at heq
      cases heq
      exact hrem
    | cons e l =>
      obtain ⟨d, t⟩ := e
      rw [hl] at heq
      obtain ⟨p1, hone, -, hd⟩ := removeTransaction_spec h hi hr hb d
      simp only [hone, bind_eq_bind, bind_some] at heq
      obtain ⟨rs, hrest, heq⟩ := bind_eq_some_iff.mp heq
      cases heq
      have hgone : p1.pendingPool.byId[d]? = none := by
        have hholds := hd.located.holds .pending d
        rw [keep, if_pos (decide_eq_true rfl)] at hholds
        exact get_eq_none.mp hholds
      refine removable_of_removeTransaction hi hone (ancestor_first_descendant h hb hl hid) ?_
      exact ih d hd.located hd.indexed hd.routed (hd.below hb) hgone hrest i hrem

theorem removable_of_discardRemoved (removed : List ValidPoolTransaction)
    (h : Located p (withdrawn p.allTransactions.place removed)) (hi : Indexed p.allTransactions)
    (hr : AllTransactions.Routed p.allTransactions)
    (heq : discardRemoved removed p = some (out, p')) :
    ∀ i, p'.pendingPool.Removable i → p.pendingPool.Removable i := by
  induction removed generalizing p p' out with
  | nil =>
    intro i hrem
    cases heq
    exact hrem
  | cons tx removed ih =>
    intro i hrem
    rw [discardRemoved, hi.removeTransaction_snd] at heq
    generalize hp1 : ({ p with allTransactions := p.allTransactions.drop tx.id } : TxPool V) = p1
      at heq
    have ha1 : p1.allTransactions = p.allTransactions.drop tx.id := by rw [← hp1]
    have hpend : p1.pendingPool = p.pendingPool := by rw [← hp1]
    have h1 : Located p1 (withdrawn p1.allTransactions.place removed) := by
      rw [ha1, ← withdrawn_cons, ← hp1]
      exact h.congr rfl rfl rfl rfl
    have hid : p1.pendingPool.byId[tx.id]? = none := by
      have hholds := h.holds .pending tx.id
      rw [withdrawn_of_mem mem_cons_self] at hholds
      rw [hpend]
      exact get_eq_none.mp hholds
    obtain ⟨⟨out2, p2⟩, hdesc, heq⟩ := bind_eq_some_iff.mp heq
    obtain ⟨rs, hrest, heq⟩ := bind_eq_some_iff.mp heq
    cases heq
    obtain ⟨out2', p2', hdesc', hd⟩ := removeDescendants_spec h1 (ha1 ▸ hi.drop _)
      (ha1 ▸ hr.drop _) (below_withdrawn _ _) tx.id
    rw [hdesc] at hdesc'
    cases hdesc'
    have hkeep : keep (isDescendant tx.id) (withdrawn p1.allTransactions.place removed)
        = withdrawn p2.allTransactions.place removed := by
      rw [keep_withdrawn, hd.place_eq]
    rw [← hpend]
    refine removable_of_removeDescendantsLoop _ tx.id h1 (ha1 ▸ hi.drop _) (ha1 ▸ hr.drop _)
      (below_withdrawn _ _) hid hdesc i ?_
    exact ih (hkeep ▸ hd.located) hd.indexed hd.routed hrest i hrem

/-- **A ROUND KEEPS THE STRANDED TRANSACTIONS** and leaves them stranded. -/
theorem Round.keepsStranded (h : Round .pending p q removed out p') (hs : Sound p)
    (hd : discardRemoved removed q = some (out, p')) (hpeel : Peeled p.pendingPool q.pendingPool) :
    KeepsStranded p.pendingPool p'.pendingPool := by
  intro id tx hget hstr
  have ht := h.truncated
  have ha := ht.same.allTransactions
  have hq := (hs.located.withdraw ht.queued ht.baseFee ht.blob ht.pending ht.taken ht.other).1
  have hback := removable_of_discardRemoved removed (ha ▸ hq) (ha ▸ hs.indexed) (ha ▸ hs.routed) hd
  constructor
  · -- only removable transactions and what is above them were evicted
    have hno : evicted removed id = false := by
      rw [eq_false_iff, evicted]
      intro hany
      obtain ⟨tx', htx', hid⟩ := any_eq_true.mp hany
      have hgone : q.pendingPool.byId[tx'.id]? = none := by
        refine get_eq_none.mp ((ht.taken.rest tx'.id).trans (if_pos (mem_map_of_mem htx')))
      have hheld : p.pendingPool.byId[tx'.id]? ≠ none := by
        intro hnone
        have hheld : p.pendingPool.get tx'.id = some tx' := ht.taken.held tx' htx'
        rw [get_eq_none.mpr hnone] at hheld
        cases hheld
      have hrem : p.pendingPool.Removable tx'.id := by
        rcases hpeel.byId tx'.id with heq | ⟨-, hrem⟩
        · rw [hgone] at heq
          exact absurd heq.symm hheld
        · exact hrem
      rw [or_eq_true, decide_eq_true_eq, isDescendant, and_eq_true, beq_iff_eq,
        decide_eq_true_eq] at hid
      rcases hid with rfl | ⟨hsend, hlt⟩
      · exact hstr tx'.id.nonce le_rfl hrem
      · refine hstr tx'.id.nonce (le_of_lt hlt) ?_
        rw [hsend]
        exact hrem
    have hgets := h.gets .pending id
    rw [hno] at hgets
    exact hgets.trans hget
  · intro m hm hrem
    exact hstr m hm ((hpeel.removable _).mp (hback _ hrem)).1

variable [LinearOrder V]

/-- **THE LOOP NEVER RETURNS** while the stranded transactions exceed the limit. -/
theorem discardWorstFrom_stranded (fuel : Nat) (h : Sound p)
    (hstr : p.pendingPool.strandedExceeds p.config.pendingLimit = true) :
    discardWorstFrom (·.exceeds .pending) (·.truncate fuel' .pending) fuel p =
      none := by
  induction fuel generalizing p with
  | zero => rfl
  | succ fuel ih =>
    have hex : p.exceeds .pending = true := h.located.pending.exceeds_of_stranded hstr
    rw [discardWorstFrom, if_pos hex]
    cases ht : p.truncate fuel' .pending with
    | none => rfl
    | some r =>
      obtain ⟨removed, q⟩ := r
      obtain ⟨t, htrunc, heq⟩ := bind_eq_some_iff.mp ht
      have hpeel : Peeled p.pendingPool q.pendingPool := by
        cases heq
        exact h.located.pending.truncatePool_peeled htrunc
      obtain ⟨out, p', hd, hround⟩ := round_of_truncated h (truncate_truncated h ht)
      have hkeep := (hround.keepsStranded h hd hpeel).strandedExceeds hstr
      rw [← hround.context.config] at hkeep
      rw [bind_eq_bind, bind_some, hd, bind_some, ih hround.sound hkeep]
      rfl

end

/-! ## Eviction to the limits -/

/-- **A FINISHED EVICTION**: every sub-pool is within its limit, and exactly what left the pool is
    listed once. -/
structure EvictedToLimits (p : TxPool V) (out : List ValidPoolTransaction) (p' : TxPool V) : Prop where
  within : ∀ s, p'.exceeds s = false
  nodup : out.Nodup
  exact : ∀ tx : ValidPoolTransaction, tx ∈ out ↔
    p.allTransactions.tx tx.id = some tx ∧ p'.allTransactions.tx tx.id ≠ some tx

section

variable [LinearOrder V]

theorem discardWorst_eq_none (h : Sound p)
    (hstr : p.pendingPool.strandedExceeds p.config.pendingLimit = true) (fuel : Nat) :
    p.discardWorst fuel = none := by
  rw [discardWorst, discardWorstOf, discardWorstFrom_stranded fuel h hstr]
  rfl

omit [LinearOrder V] in
theorem Discarded.evictedToLimits (h : Discarded p out p') (hwithin : ∀ s, p'.exceeds s = false) :
    EvictedToLimits p out p' := by
  refine ⟨hwithin, h.taken.nodup.of_map, fun tx => ⟨fun htx => ⟨h.taken.held tx htx, ?_⟩, ?_⟩⟩
  · rw [h.taken.rest, if_pos (mem_map_of_mem htx)]
    nofun
  · rintro ⟨hin, hout⟩
    by_contra hno
    refine hout ((h.taken.rest tx.id).trans ((if_neg fun hmem => ?_).trans hin))
    obtain ⟨tx', htx', hid⟩ := mem_map.mp hmem
    have hheld := h.taken.held tx' htx'
    rw [hid, hin] at hheld
    exact hno (some.inj hheld ▸ htx')

/-- **EVICTION RETURNS EXACTLY WHEN** the stranded transactions are within the pending limit. -/
theorem discardWorst_iff_stranded_within {p : TxPool V} (h : Reachable p) :
    (∃ fuel out p', p.discardWorst fuel = some (out, p') ∧ EvictedToLimits p out p')
      ↔ p.pendingPool.strandedExceeds p.config.pendingLimit = false := by
  constructor
  · rintro ⟨fuel, out, p', heq, -⟩
    rw [eq_false_iff]
    intro hstr
    rw [discardWorst_eq_none h.sound hstr] at heq
    nomatch heq
  · intro hstr
    obtain ⟨fuel, hfuel⟩ : ∃ fuel, ∀ s, (p.listing s).length < fuel + 2 := by
      refine ⟨(p.listing .pending).length + (p.listing .baseFee).length
        + (p.listing .blob).length + (p.listing .queued).length, fun s => ?_⟩
      cases s <;> omega
    obtain ⟨out, p', heq, -, hwithin⟩ := discardWorstOf_total [.pending, .baseFee, .blob, .queued]
      h.sound (by decide) (fun s _ => hfuel s) fun _ => hstr
    exact ⟨fuel + 2, out, p', heq, (discardWorstOf_discarded _ h.sound heq).evictedToLimits
      (fun s => hwithin s (by cases s <;> decide))⟩

end

/-- Limits that no pending transaction fits in. -/
def noPending : PoolConfig := { PoolConfig.default with pendingLimit := ⟨0, 1000000⟩ }

/-- Three transactions of one sender, the second one replaced. -/
def replacedOps : List Op :=
  [.addTransaction (sampleTx 1 1 0 1 100 none) 1000#256 0 none,
   .addTransaction (sampleTx 2 1 1 1 100 none) 1000#256 0 none,
   .addTransaction (sampleTx 3 1 2 1 100 none) 1000#256 0 none,
   .addTransaction (sampleTx 4 1 1 1 200 none) 1000#256 0 none]

/-- The replaced middle transaction is the highest entry of the sender. When a block mines the first
    two, the third is stranded. -/
theorem discardWorst_never_returns :
    ∃ p : TxPool Nat, Reachable p ∧ ∀ fuel, p.discardWorst fuel = none := by
  have hrun : (run 9 (replacedOps ++ [.onCanonicalStateChange ⟨0, 1, 30000000, 0, none⟩ [1, 4]
      (changedAccount 1 2 1000)]) (samplePool noPending)).map (fun p =>
        p.pendingPool.strandedExceeds p.config.pendingLimit) = some true := by decide +kernel
  obtain ⟨p, hp, hstr⟩ := map_eq_some_iff.mp hrun
  have hr := reachable_samplePool hp
  exact ⟨p, hr, discardWorst_eq_none hr.sound hstr⟩

theorem discardWorst_iff_stranded_within_sample :
    ∃ p : TxPool Nat, run 9 replacedOps (samplePool noPending) = some p ∧ p.exceeds .pending = true
      ∧ ∃ fuel out p', p.discardWorst fuel = some (out, p') ∧ EvictedToLimits p out p' := by
  have hrun : (run 9 replacedOps (samplePool noPending)).map (fun p =>
      (p.exceeds .pending, p.pendingPool.strandedExceeds p.config.pendingLimit))
        = some (true, false) := by decide +kernel
  obtain ⟨p, hp, heq⟩ := map_eq_some_iff.mp hrun
  obtain ⟨hex, hstr⟩ := Prod.mk.inj heq
  exact ⟨p, hp, hex, (discardWorst_iff_stranded_within (reachable_samplePool hp)).mpr hstr⟩

end TxPool

end TransactionPool
