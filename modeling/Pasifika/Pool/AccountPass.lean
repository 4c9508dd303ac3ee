import Pasifika.Pool.Routing

/-! # The account pass, entry by entry

`update` walks through `txs` once with a cursor. `AccountVisit` lists what
the visit of one entry can be: a discard, the first entry of a sender (with a
nonce gap, at the state nonce, or known to follow on), an entry after a gap,
or the next consecutive one. `update_at` gives the visit of each entry, and
`cursor_cases` where its cursor comes from. -/

namespace TransactionPool

open Std (ExtTreeMap)
open OrderedMap List

namespace AllTransactions

/-- The sender a cursor is at. -/
def Cursor.sender? : Cursor → Option SenderId
  | .next => none
  | .skipping sender => some sender
  | .running sender _ _ _ _ => some sender

/-- The entry written back: its fee flag refreshed and its sub-pool recomputed. -/
def refreshed (baseFee : Nat) (t : PoolInternalTransaction) : PoolInternalTransaction :=
  (reroute t.transaction.id (updateTxBaseFee baseFee t)).1

/-- The first entry of a sender. -/
def firstEntry (baseFee : Nat) (t : PoolInternalTransaction) : PoolInternalTransaction :=
  refreshed baseFee { t with state := { t.state with noParkedAncestors := true } }

/-- An entry with the next nonce, before its fee flag is refreshed. -/
def follower (hasParkedAncestor : Bool) (cumulativeCost : U256) (changedBalance : Option U256)
    (t : PoolInternalTransaction) : PoolInternalTransaction :=
  { t with
    cumulativeCost
    state := { t.state with
      noNonceGaps := true
      noParkedAncestors := !hasParkedAncestor
      enoughBalance :=
        match changedBalance with
        | some balance => decide (cumulativeCost + t.transaction.cost ≤ balance)
        | none => t.state.enoughBalance } }

/-- The cursor behind the first entry of a sender. -/
def behindFirst (changedBalance : Option U256) (id : TransactionId) (t : PoolInternalTransaction) :
    Cursor :=
  .running id.sender (id.nonce + 1) (!t.state.isPending) t.nextCumulativeCost changedBalance

/-- **ONE VISIT OF THE ACCOUNT PASS**: the next cursor, the entry written back and
    whether it is discarded. -/
inductive AccountVisit (changed : ExtTreeMap SenderId SenderInfo) (baseFee : Nat) (c : Cursor)
    (id : TransactionId) (t : PoolInternalTransaction) :
    Cursor → PoolInternalTransaction → Bool → Prop
  | discard {info : SenderInfo} (hfresh : c.sender? ≠ some id.sender)
      (hinfo : changed[id.sender]? = some info) (hlt : id.nonce < info.stateNonce) :
      AccountVisit changed baseFee c id t .next t true
  | gapped (hfresh : c.sender? ≠ some id.sender)
      (hinfo : ∀ info, changed[id.sender]? = some info → info.stateNonce < id.nonce)
      (hgap : t.state.noNonceGaps = false) :
      AccountVisit changed baseFee c id t (.skipping id.sender) t false
  | opened {info : SenderInfo} (hfresh : c.sender? ≠ some id.sender)
      (hinfo : changed[id.sender]? = some info) (heq : id.nonce = info.stateNonce) :
      AccountVisit changed baseFee c id t
        (behindFirst (some info.balance) id (firstEntry baseFee (openSender info t)))
        (firstEntry baseFee (openSender info t)) false
  | followed (hfresh : c.sender? ≠ some id.sender)
      (hinfo : ∀ info, changed[id.sender]? = some info → info.stateNonce < id.nonce)
      (hgap : t.state.noNonceGaps = true) :
      AccountVisit changed baseFee c id t
        (behindFirst (changed[id.sender]?.map SenderInfo.balance) id (firstEntry baseFee t))
        (firstEntry baseFee t) false
  | skipped (hsender : c.sender? = some id.sender)
      (hno : ∀ hasParkedAncestor cumulativeCost changedBalance,
        c ≠ .running id.sender id.nonce hasParkedAncestor cumulativeCost changedBalance) :
      AccountVisit changed baseFee c id t (.skipping id.sender) t false
  | consecutive {hasParkedAncestor : Bool} {cumulativeCost : U256} {changedBalance : Option U256}
      (hc : c = .running id.sender id.nonce hasParkedAncestor cumulativeCost changedBalance) :
      AccountVisit changed baseFee c id t
        (.running id.sender (id.nonce + 1)
          (!(follower hasParkedAncestor cumulativeCost changedBalance t).state.isPending)
          (cumulativeCost + t.transaction.cost) changedBalance)
        (refreshed baseFee (follower hasParkedAncestor cumulativeCost changedBalance t)) false

/-- Whether the recorded updates of one entry discard it. -/
def discarding (us : List PoolUpdate) : Bool := us.any (fun u => u.destination = .discard)

theorem discarding_reroute (id : TransactionId) (t : PoolInternalTransaction) :
    discarding (reroute id t).2 = false := by
  rw [reroute]
  split
  · rfl
  · rfl

section

variable {changed : ExtTreeMap SenderId SenderInfo} {baseFee : Nat} {c : Cursor}
  {id : TransactionId} {t : PoolInternalTransaction}

theorem visitFirst_of_gap (changedBalance : Option U256) (hgap : t.state.noNonceGaps = false) :
    visitFirst baseFee changedBalance id t = (.skipping id.sender, t, []) := by
  rw [visitFirst, if_pos]
  rw [TxState.hasNonceGap, hgap]
  rfl

theorem visitFirst_of_next (baseFee : Nat) (changedBalance : Option U256)
    (hkey : t.transaction.id = id) (hgap : t.state.noNonceGaps = true) :
    (visitFirst baseFee changedBalance id t).1
        = behindFirst changedBalance id (firstEntry baseFee t)
      ∧ (visitFirst baseFee changedBalance id t).2.1 = firstEntry baseFee t
      ∧ discarding (visitFirst baseFee changedBalance id t).2.2 = false := by
  have hno : ¬ t.state.hasNonceGap = true := by
    rw [TxState.hasNonceGap, hgap]
    decide
  have hnonce : t.transaction.nonce = id.nonce := by
    rw [t.transaction.nonce_eq, hkey]
  rw [visitFirst, if_neg hno]
  refine ⟨?_, rfl, discarding_reroute _ _⟩
  show Cursor.running id.sender (t.transaction.nonce + 1) _ _ _ = _
  rw [hnonce]
  rfl

theorem visitConsecutive_eq (baseFee : Nat) (hasParkedAncestor : Bool) (cumulativeCost : U256)
    (changedBalance : Option U256) (hkey : t.transaction.id = id) :
    (visitConsecutive baseFee hasParkedAncestor cumulativeCost changedBalance id t).1
        = .running id.sender (id.nonce + 1)
          (!(follower hasParkedAncestor cumulativeCost changedBalance t).state.isPending)
          (cumulativeCost + t.transaction.cost) changedBalance
      ∧ (visitConsecutive baseFee hasParkedAncestor cumulativeCost changedBalance id t).2.1
        = refreshed baseFee (follower hasParkedAncestor cumulativeCost changedBalance t)
      ∧ discarding (visitConsecutive baseFee hasParkedAncestor cumulativeCost changedBalance id t).2.2
        = false := by
  have hnonce : t.transaction.nonce = id.nonce := by
    rw [t.transaction.nonce_eq, hkey]
  refine ⟨?_, ?_, discarding_reroute _ _⟩
  · rw [← hnonce]
    cases changedBalance <;> rfl
  · cases changedBalance <;> rfl

theorem visitSender_cases (hfresh : c.sender? ≠ some id.sender) (hkey : t.transaction.id = id) :
    AccountVisit changed baseFee c id t (visitSender changed baseFee id t).1
      (visitSender changed baseFee id t).2.1
      (discarding (visitSender changed baseFee id t).2.2) := by
  cases hinfo : changed[id.sender]? with
  | none =>
    simp only [visitSender, hinfo]
    have habove : ∀ info, changed[id.sender]? = some info → info.stateNonce < id.nonce := by
      intro info h
      rw [hinfo] at h
      nomatch h
    cases hgap : t.state.noNonceGaps with
    | false =>
      rw [visitFirst_of_gap none hgap]
      exact .gapped hfresh habove hgap
    | true =>
      obtain ⟨h1, h2, h3⟩ := visitFirst_of_next baseFee none hkey hgap
      rw [h1, h2, h3]
      have hv : AccountVisit changed baseFee c id t _ _ _ := .followed hfresh habove hgap
      rw [hinfo] at hv
      exact hv
  | some info =>
    simp only [visitSender, hinfo]
    by_cases hlt : id.nonce < info.stateNonce
    · rw [if_pos hlt]
      exact .discard hfresh hinfo hlt
    rw [if_neg hlt]
    by_cases hab : info.stateNonce < id.nonce
    · simp only [TransactionId.ancestor, if_pos hab]
      have habove : ∀ info, changed[id.sender]? = some info → info.stateNonce < id.nonce := by
        intro info' h
        rw [hinfo] at h
        exact Option.some.inj h ▸ hab
      cases hgap : t.state.noNonceGaps with
      | false =>
        rw [visitFirst_of_gap _ hgap]
        exact .gapped hfresh habove hgap
      | true =>
        obtain ⟨h1, h2, h3⟩ := visitFirst_of_next baseFee (some info.balance) hkey hgap
        rw [h1, h2, h3]
        have hv : AccountVisit changed baseFee c id t _ _ _ := .followed hfresh habove hgap
        rw [hinfo] at hv
        exact hv
    · simp only [TransactionId.ancestor, if_neg hab]
      obtain ⟨h1, h2, h3⟩ := visitFirst_of_next (t := openSender info t) baseFee
        (some info.balance) hkey rfl
      rw [h1, h2, h3]
      exact .opened hfresh hinfo (le_antisymm (not_lt.mp hab) (not_lt.mp hlt))

/-- Every visit is one of the listed ones. -/
theorem updateVisit_cases (c : Cursor) (hkey : t.transaction.id = id) :
    AccountVisit changed baseFee c id t (updateVisit changed baseFee c id t).1
      (updateVisit changed baseFee c id t).2.1
      (discarding (updateVisit changed baseFee c id t).2.2) := by
  have hnonce : t.transaction.nonce = id.nonce := by
    rw [t.transaction.nonce_eq, hkey]
  cases c with
  | next => exact visitSender_cases nofun hkey
  | skipping sender =>
    by_cases hs : id.sender = sender
    · subst hs
      simp only [updateVisit, if_true]
      exact .skipped rfl nofun
    · simp only [updateVisit, if_neg hs]
      exact visitSender_cases (fun h => hs (Option.some.inj h).symm) hkey
  | running sender nextNonceInLine hasParkedAncestor cumulativeCost changedBalance =>
    by_cases hs : id.sender = sender
    · subst hs
      by_cases hn : t.transaction.nonce = nextNonceInLine
      · simp only [updateVisit, if_true, if_pos hn]
        obtain ⟨h1, h2, h3⟩ := visitConsecutive_eq baseFee hasParkedAncestor cumulativeCost
          changedBalance hkey
        rw [h1, h2, h3]
        refine .consecutive ?_
        rw [← hn, hnonce]
      · simp only [updateVisit, if_true, if_neg hn]
        refine .skipped rfl fun hp cum bal h => hn ?_
        rw [hnonce]
        exact (Cursor.running.inj h).2.1.symm
    · simp only [updateVisit, if_neg hs]
      exact visitSender_cases (fun h => hs (Option.some.inj h).symm) hkey

/-- What the pass makes pending has its base fee checked, unless it left the entry alone; the blob
    fee flag is the old one. -/
theorem AccountVisit.pending_fees (hv : AccountVisit changed baseFee c id t c' t' false)
    (hpend : t'.subpool = .pending) :
    t'.transaction = t.transaction ∧ t'.state.enoughBlobFeeCapBlock = t.state.enoughBlobFeeCapBlock
      ∧ (t' = t ∨ baseFee ≤ t.transaction.maxFeePerGas) := by
  have hfee : ∀ x : PoolInternalTransaction, (refreshed baseFee x).subpool = .pending →
      x.transaction = t.transaction → baseFee ≤ t.transaction.maxFeePerGas := fun x hx heq =>
    heq ▸ of_decide_eq_true (TxState.isPending_iff.mp (TxState.subPool_eq_pending.mp hx)).2.1
  cases hv with
  | gapped | skipped => exact ⟨rfl, rfl, Or.inl rfl⟩
  | opened | followed | consecutive => exact ⟨rfl, rfl, Or.inr (hfee _ hpend rfl)⟩

end

/-! ## The pass -/

variable {a : AllTransactions} {changed : ExtTreeMap SenderId SenderInfo} {id : TransactionId}
  {t : PoolInternalTransaction}

/-- The cursor an entry is visited with. -/
def cursor (a : AllTransactions) (changed : ExtTreeMap SenderId SenderInfo) (id : TransactionId) :
    Cursor :=
  cursorAt (updateVisit changed a.pendingFees.baseFee) a.txs.toList .next id

/-- The visit of an entry. -/
def visited (a : AllTransactions) (changed : ExtTreeMap SenderId SenderInfo) (id : TransactionId)
    (t : PoolInternalTransaction) : Cursor × PoolInternalTransaction × List PoolUpdate :=
  updateVisit changed a.pendingFees.baseFee (a.cursor changed id) id t

/-- **THE ENTRY AFTER THE PASS**, and whether it is discarded. -/
theorem Indexed.update_at (h : Indexed a) (changed : ExtTreeMap SenderId SenderInfo)
    (ht : a.txs[id]? = some t) :
    (a.update changed).2.txs[id]? = some (a.visited changed id t).2.1
      ∧ discards (a.update changed).1 id = discarding (a.visited changed id t).2.2 := by
  have hid : ∀ s, ∀ e ∈ a.txs.toList,
      ∀ u ∈ (updateVisit changed a.pendingFees.baseFee s e.1 e.2).2.2, u.id = e.1 := by
    intro s e he u hu
    exact mem_singleton.mp ((visits_update changed _ s (h.key (mem_toList.mp he))).update_id.subset
      (mem_map_of_mem hu))
  have hmem : (id, t) ∈ a.txs.toList := mem_toList.mpr ht
  obtain ⟨hget, hus⟩ := sweep_at hid (sorted_toList a.txs) hmem .next a.txs
  refine ⟨hget, ?_⟩
  rw [Bool.eq_iff_iff, discards, discarding, any_eq_true, any_eq_true]
  constructor
  · rintro ⟨u, hu, hd⟩
    obtain ⟨huid, hdis⟩ := of_decide_eq_true hd
    exact ⟨u, (hus u huid).mp hu, decide_eq_true hdis⟩
  · rintro ⟨u, hu, hd⟩
    have huid : u.id = id := hid _ (id, t) hmem u hu
    exact ⟨u, (hus u huid).mpr hu, decide_eq_true ⟨huid, of_decide_eq_true hd⟩⟩

theorem update_get_none (hnone : a.txs[id]? = none) : (a.update changed).2.txs[id]? = none :=
  sweep_get_eq_none (fun _ he => mem_toList.mp he) hnone _ _

theorem Indexed.visited_cases (h : Indexed a) (changed : ExtTreeMap SenderId SenderInfo)
    (ht : a.txs[id]? = some t) :
    AccountVisit changed a.pendingFees.baseFee (a.cursor changed id) id t
      (a.visited changed id t).1 (a.visited changed id t).2.1
      (discarding (a.visited changed id t).2.2) :=
  updateVisit_cases _ (h.key ht)

theorem cursor_cases (changed : ExtTreeMap SenderId SenderInfo) (ht : a.txs[id]? = some t) :
    a.cursor changed id = .next ∧ (∀ i t', a.txs[i]? = some t' → compare i id ≠ .lt)
      ∨ ∃ (i : TransactionId) (t' : PoolInternalTransaction), a.txs[i]? = some t'
        ∧ compare i id = .lt
        ∧ (∀ j t'', a.txs[j]? = some t'' → compare j id = .lt → j = i ∨ compare j i = .lt)
        ∧ a.cursor changed id = (a.visited changed i t').1 := by
  rcases cursorAt_cases (updateVisit changed a.pendingFees.baseFee) (sorted_toList a.txs)
    (mem_toList.mpr ht) .next with ⟨hc, hno⟩ | ⟨e, he, hlt, hbetween, hc⟩
  · exact .inl ⟨hc, fun i t' ht' => hno (i, t') (mem_toList.mpr ht')⟩
  · refine .inr ⟨e.1, e.2, mem_toList.mp he, hlt, fun j t'' ht'' hj => ?_, hc⟩
    rcases hbetween (j, t'') (mem_toList.mpr ht'') hj with heq | h
    · exact .inl (congrArg Prod.fst heq)
    · exact .inr h

/-- The predecessor of an entry is the entry right before. -/
theorem cursor_of_predecessor (changed : ExtTreeMap SenderId SenderInfo)
    (ht : a.txs[TransactionId.mk s (n + 1)]? = some t)
    (ht0 : a.txs[TransactionId.mk s n]? = some t0) :
    a.cursor changed ⟨s, n + 1⟩ = (a.visited changed ⟨s, n⟩ t0).1 := by
  have hlt : compare (⟨s, n⟩ : TransactionId) ⟨s, n + 1⟩ = .lt :=
    TransactionId.compare_eq_lt.mpr (Or.inr ⟨rfl, Nat.lt_succ_self n⟩)
  rcases cursor_cases changed ht with ⟨-, hno⟩ | ⟨i, t', ht', hi, hbetween, hc⟩
  · exact absurd hlt (hno _ _ ht0)
  rcases hbetween _ _ ht0 hlt with heq | hlt'
  · rw [← heq, ht0] at ht'
    rw [hc, ← heq, Option.some.inj ht']
  -- nothing is between two consecutive nonces
  exfalso
  rcases TransactionId.compare_eq_lt.mp hi with h | ⟨h, hn⟩ <;>
    rcases TransactionId.compare_eq_lt.mp hlt' with h' | ⟨h', hn'⟩
  · exact lt_asymm h h'
  · exact lt_irrefl _ (h'.symm ▸ h)
  · exact lt_irrefl _ (h ▸ h')
  · exact absurd (lt_of_lt_of_le hn' (Nat.lt_succ_iff.mp hn)) (lt_irrefl _)

/-- The cursor behind an entry is at its sender, unless the entry was discarded. -/
theorem AccountVisit.sender? (h : AccountVisit changed baseFee c id t c' t' d) :
    c'.sender? = if d then none else some id.sender := by
  cases h with
  | discard | gapped | opened | followed | skipped | consecutive => rfl

/-- A cursor that is at the sender of an entry has passed the state nonce. -/
theorem Indexed.cursor_above (h : Indexed a) (ht : a.txs[id]? = some t)
    (hsender : (a.cursor changed id).sender? = some id.sender)
    (hinfo : changed[id.sender]? = some info) : info.stateNonce < id.nonce := by
  refine cursorAt_induction (updateVisit changed a.pendingFees.baseFee)
    (P := fun k c => c.sender? = some k.sender → ∀ info, changed[k.sender]? = some info →
      info.stateNonce < k.nonce) (s := .next) (sorted_toList a.txs)
    (fun _ _ hc => (nomatch hc)) ?_ (id, t) (mem_toList.mpr ht) hsender info hinfo
  intro e he e' _ hlt hP hc info' hinfo'
  have hv := h.visited_cases changed (mem_toList.mp he)
  replace hc : (a.visited changed e.1 e.2).1.sender? = some e'.1.sender := hc
  generalize (a.visited changed e.1 e.2).1 = c' at hv hc
  generalize (a.visited changed e.1 e.2).2.1 = t' at hv
  generalize discarding (a.visited changed e.1 e.2).2.2 = d at hv
  -- the entry before has the same sender
  have hs : e.1.sender = e'.1.sender := by
    rw [hv.sender?] at hc
    split at hc
    · nomatch hc
    · exact Option.some.inj hc
  have hn : e.1.nonce < e'.1.nonce := by
    rcases TransactionId.compare_eq_lt.mp hlt with h' | h'
    · exact absurd (hs ▸ h') (lt_irrefl _)
    · exact h'.2
  rw [← hs] at hinfo'
  refine lt_of_le_of_lt ?_ hn
  cases hv with
  | discard => nomatch hc
  | gapped _ hinfo _ | followed _ hinfo _ => exact le_of_lt (hinfo _ hinfo')
  | opened _ hinfo heq =>
    rw [hinfo] at hinfo'
    rw [heq, Option.some.inj hinfo']
  | skipped hsender _ => exact le_of_lt (hP hsender _ hinfo')
  | consecutive hrun =>
    refine le_of_lt (hP ?_ _ hinfo')
    show (a.cursor changed e.1).sender? = _
    rw [hrun]
    rfl

theorem cursor_running (h : Indexed a) (ht : a.txs[TransactionId.mk s n]? = some t)
    (hc : a.cursor changed ⟨s, n⟩ = .running s n hasParkedAncestor cumulativeCost changedBalance) :
    ∃ (m : Nat) (t0 : PoolInternalTransaction), n = m + 1 ∧ a.txs[TransactionId.mk s m]? = some t0
      ∧ (a.visited changed ⟨s, m⟩ t0).1
        = .running s n hasParkedAncestor cumulativeCost changedBalance := by
  rcases cursor_cases changed ht with ⟨hnext, -⟩ | ⟨i, t0, ht0, hi, -, hprev⟩
  · rw [hc] at hnext
    nomatch hnext
  rw [hc] at hprev
  have hv := h.visited_cases changed ht0
  have hi' : i = ⟨s, i.nonce⟩ ∧ n = i.nonce + 1 := by
    rw [← hprev] at hv
    generalize (a.visited changed i t0).2.1 = t' at hv
    generalize discarding (a.visited changed i t0).2.2 = d at hv
    have hsend := hv.sender?
    have hs : i.sender = s := by
      split at hsend
      · nomatch hsend
      · exact (Option.some.inj hsend).symm
    refine ⟨TransactionId.ext hs rfl, ?_⟩
    generalize hr : Cursor.running s n hasParkedAncestor cumulativeCost changedBalance = r at hv
    cases hv with
    | discard | gapped | skipped => nomatch hr
    | opened | followed | consecutive => exact (Cursor.running.inj hr).2.1
  refine ⟨i.nonce, t0, hi'.2, hi'.1 ▸ ht0, ?_⟩
  rw [hprev, ← hi'.1]

end AllTransactions

end TransactionPool
