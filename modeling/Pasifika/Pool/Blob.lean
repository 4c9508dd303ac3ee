import Pasifika.Pool.State

/-! # The blob sub-pool

`pool/blob.rs`: blob transactions that are not pending, by id and by
eviction order. The eviction priority of the source is computed with
floating point logarithms (`blob_tx_priority`); it is a parameter here, and
nothing proved about the pool depends on its values.

A panic (`assert!`, `expect`) is `none`, and so is a loop that runs out of
fuel. Submission ids do not wrap. -/

namespace TransactionPool

open Std OrderedMap List Option

/-- `blob_tx_priority`, from the two fees and the two caps. -/
abbrev BlobTxPriority := Nat → Nat → Nat → Nat → Int

/-- `BlobOrd`: the eviction order of a blob transaction. -/
structure BlobOrd where
  priority : Int
  submissionId : Nat
deriving DecidableEq

namespace BlobOrd

/-- The lower priority is the greater element; ties go by submission. -/
instance : Ord BlobOrd :=
  ⟨compareLex (fun a b => compareOn priority b a) (compareOn submissionId)⟩

instance : Std.TransCmp (fun a b : BlobOrd => compareOn priority b a) :=
  inferInstanceAs (Std.TransCmp (fun a b => (compareOn priority) b a))

instance : TransOrd BlobOrd :=
  inferInstanceAs (Std.TransCmp
    (compareLex (fun a b => compareOn priority b a) (compareOn submissionId)))

instance : LawfulEqOrd BlobOrd where
  eq_of_compare {a b} h := by
    obtain ⟨hp, hs⟩ := Ordering.then_eq_eq.mp h
    cases a
    cases b
    rw [mk.injEq]
    exact ⟨(Std.compare_eq_iff_eq.mp hp).symm, Std.compare_eq_iff_eq.mp hs⟩

end BlobOrd

/-- A transaction of the blob pool. -/
structure BlobTransaction where
  transaction : ValidPoolTransaction
  ord : BlobOrd
deriving DecidableEq

/-- `BlobTransactions`; the set `all` is a map from the `BlobOrd` that it is ordered by. -/
structure BlobTransactions where
  blobTxPriority : BlobTxPriority
  submissionId : Nat
  byId : ExtTreeMap TransactionId BlobTransaction
  all : ExtTreeMap BlobOrd BlobTransaction
  pendingFees : PendingFees
  sizeOf : SizeTracker

namespace BlobTransactions

def default (blobTxPriority : BlobTxPriority) : BlobTransactions :=
  ⟨blobTxPriority, 0, ∅, ∅, .default, .zero⟩

def len (p : BlobTransactions) : Nat := p.byId.size

def size (p : BlobTransactions) : Nat := p.sizeOf.toUsize

def exceeds (p : BlobTransactions) (limit : SubPoolLimit) : Bool := limit.isExceeded p.len p.size

/-- The priority of a transaction at the given fees. -/
def priorityAt (p : BlobTransactions) (fees : PendingFees) (tx : ValidPoolTransaction) : Int :=
  p.blobTxPriority fees.blobFee (tx.maxFeePerBlobGas.getD 0) fees.baseFee tx.maxFeePerGas

/-- `BlobTransactions::add_transaction`: asserts a fresh blob transaction. -/
def addTransaction (p : BlobTransactions) (tx : ValidPoolTransaction) : Option BlobTransactions :=
  if tx.isEip4844 && !p.byId.contains tx.id then
    let transaction : BlobTransaction :=
      ⟨tx, p.priorityAt p.pendingFees tx, p.submissionId⟩
    some { p with
      submissionId := p.submissionId + 1
      sizeOf := p.sizeOf.add tx.size
      byId := p.byId.insert tx.id transaction
      all := p.all.insertIfNew transaction.ord transaction }
  else none

def removeTransaction (p : BlobTransactions) (id : TransactionId) :
    Option ValidPoolTransaction × BlobTransactions :=
  match p.byId[id]? with
  | none => (none, p)
  | some tx =>
    (some tx.transaction,
      { p with
        byId := p.byId.erase id
        all := p.all.erase tx.ord
        sizeOf := p.sizeOf.sub tx.transaction.size })

/-- A transaction that misses one of the fees keeps all later ones of its sender parked. -/
def satisfyPendingFeeIds (p : BlobTransactions) (fees : PendingFees) : List TransactionId :=
  (retain (fun e : TransactionId × BlobTransaction => e.1.sender)
    (fun e => !(e.2.transaction.maxFeePerBlobGas.all (· < fees.blobFee) ||
      decide (e.2.transaction.maxFeePerGas < fees.baseFee)))
    none p.byId.toList).1.map Prod.fst

/-- A transaction with its priority at new fees. -/
def reprice (p : BlobTransactions) (tx : BlobTransaction) : BlobTransaction :=
  { tx with ord := { tx.ord with priority := p.priorityAt p.pendingFees tx.transaction } }

def reprioritize (p : BlobTransactions) : BlobTransactions :=
  { p with
    all := (p.all.toList.map (fun e => p.reprice e.2)).foldl
      (fun all tx => all.insertIfNew tx.ord tx) ∅
    byId := p.byId.map (fun _ tx => p.reprice tx) }

/-- Remove the listed transactions; each one is expected to exist. -/
def removeExpected : List TransactionId → BlobTransactions →
    Option (List ValidPoolTransaction × BlobTransactions)
  | [], p => some ([], p)
  | id :: ids, p =>
    match p.removeTransaction id with
    | (none, _) => none
    | (some tx, p) => do
        let rs ← removeExpected ids p
        some (tx :: rs.1, rs.2)

def enforcePendingFees (p : BlobTransactions) (fees : PendingFees) :
    Option (List ValidPoolTransaction × BlobTransactions) := do
  let r ← removeExpected (p.satisfyPendingFeeIds fees) p
  some (r.1, { r.2 with pendingFees := fees }.reprioritize)

/-- The loop of `truncate_pool`: evict the last transaction of `all`. -/
def truncateLoop (limit : SubPoolLimit) :
    Nat → BlobTransactions → List ValidPoolTransaction →
      Option (List ValidPoolTransaction × BlobTransactions)
  | 0, _, _ => none
  | fuel + 1, p, removed =>
    if p.exceeds limit then
      match p.all.toList.getLast? with
      | none => none
      | some (_, worst) =>
        match p.removeTransaction worst.transaction.id with
        | (none, _) => none
        | (some tx, p) => truncateLoop limit fuel p (removed ++ [tx])
    else some (removed, p)

def truncatePool (fuel : Nat) (p : BlobTransactions) (limit : SubPoolLimit) :
    Option (List ValidPoolTransaction × BlobTransactions) :=
  truncateLoop limit fuel p []

/-! ## What keeps the blob pool sound -/

/-- The transaction held under an id. -/
def get (p : BlobTransactions) (id : TransactionId) : Option ValidPoolTransaction :=
  p.byId[id]?.map (fun t => t.transaction)

/-- `by_id` and `all` hold the same transactions, told apart by their submission ids. -/
structure WF (p : BlobTransactions) : Prop where
  key : ∀ {id : TransactionId} {t : BlobTransaction},
    p.byId[id]? = some t → t.transaction.id = id
  size : p.sizeOf.value = total (fun t => t.transaction.size) p.byId
  all : ∀ (o : BlobOrd) (t : BlobTransaction),
    p.all[o]? = some t ↔ p.byId[t.transaction.id]? = some t ∧ t.ord = o
  inj : ∀ {id id' : TransactionId} {t t' : BlobTransaction}, p.byId[id]? = some t →
    p.byId[id']? = some t' → t.ord.submissionId = t'.ord.submissionId → id = id'
  fresh : ∀ {id : TransactionId} {t : BlobTransaction},
    p.byId[id]? = some t → t.ord.submissionId < p.submissionId

theorem wf_default (blobTxPriority : BlobTxPriority) : WF (default blobTxPriority) where
  key := fun h => by simp [default] at h
  size := by simp [default]
  all := fun o t => by simp [default]
  inj := fun h => by simp [default] at h
  fresh := fun h => by simp [default] at h

variable {tx : ValidPoolTransaction} {id : TransactionId} {p : BlobTransactions}

theorem get_eq_some : p.get id = some tx ↔ ∃ t, p.byId[id]? = some t ∧ t.transaction = tx := by
  rw [get, map_eq_some_iff]

theorem get_eq_none : p.get id = none ↔ p.byId[id]? = none := by
  rw [get, map_eq_none_iff]

theorem WF.get_key (h : WF p) (hg : p.get id = some tx) : tx.id = id := by
  obtain ⟨t, ht, rfl⟩ := get_eq_some.mp hg
  exact h.key ht

/-- The pool with one more transaction. -/
def withTx (p : BlobTransactions) (t : BlobTransaction) : BlobTransactions :=
  { p with
    submissionId := p.submissionId + 1
    sizeOf := p.sizeOf.add t.transaction.size
    byId := p.byId.insert t.transaction.id t
    all := p.all.insertIfNew t.ord t }

/-- An order with the next submission id is not in use. -/
theorem WF.all_fresh (h : WF p) {o : BlobOrd} (ho : o.submissionId = p.submissionId) :
    p.all[o]? = none := by
  cases hall : p.all[o]? with
  | none => rfl
  | some t =>
    obtain ⟨ht, rfl⟩ := (h.all o t).mp hall
    have := h.fresh ht
    omega

variable {t : BlobTransaction}

theorem WF.all_withTx (h : WF p) (hnew : p.byId[t.transaction.id]? = none)
    (hsub : t.ord.submissionId = p.submissionId) (o : BlobOrd) (t' : BlobTransaction) :
    (p.withTx t).all[o]? = some t' ↔
      (p.withTx t).byId[t'.transaction.id]? = some t' ∧ t'.ord = o := by
  show (p.all.insertIfNew t.ord t)[o]? = _ ↔ (p.byId.insert t.transaction.id t)[_]? = _ ∧ _
  have hfree := h.all_fresh hsub
  rw [insertIfNew_eq_insert hfree, get_insert, get_insert]
  by_cases hid : t.transaction.id = t'.transaction.id
  · -- an entry under the new id is the new transaction
    rw [if_pos hid]
    by_cases ho : t.ord = o
    · rw [if_pos ho]
      exact ⟨fun heq => ⟨heq, some.inj heq ▸ ho⟩, fun heq => heq.1⟩
    · rw [if_neg ho, h.all, ← hid, hnew]
      refine ⟨fun heq => (nomatch heq.1), fun heq => absurd ?_ ho⟩
      rw [some.inj heq.1, heq.2]
  · rw [if_neg hid]
    by_cases ho : t.ord = o
    · rw [if_pos ho]
      refine ⟨fun heq => absurd (by rw [some.inj heq]) hid, fun heq => ?_⟩
      rw [ho, (h.all o t').mpr heq] at hfree
      nomatch hfree
    · rw [if_neg ho]
      exact h.all o t'

theorem WF.withTx (h : WF p) (hnew : p.byId[t.transaction.id]? = none)
    (hsub : t.ord.submissionId = p.submissionId) :
    WF (p.withTx t) := by
  have hget : ∀ {id} {t'},
      (p.withTx t).byId[id]? = some t' →
        t.transaction.id = id ∧ t' = t ∨ p.byId[id]? = some t' := by
    intro id t' ht'
    rw [BlobTransactions.withTx, get_insert] at ht'
    by_cases hid : t.transaction.id = id
    · rw [if_pos hid] at ht'
      exact .inl ⟨hid, (some.inj ht').symm⟩
    · rw [if_neg hid] at ht'
      exact .inr ht'
  refine ⟨?_, ?_, h.all_withTx hnew hsub, ?_, ?_⟩
  · intro id t' ht'
    rcases hget ht' with ⟨hid, rfl⟩ | ht'
    · exact hid
    · exact h.key ht'
  · show p.sizeOf.value + _ = ((total _ (p.byId.insert _ _) : Nat) : Int)
    rw [total_insert hnew, h.size]
    push_cast
    rfl
  · intro id id' t1 t2 ht1 ht2 hs
    rcases hget ht1 with ⟨hid, rfl⟩ | ht1' <;> rcases hget ht2 with ⟨hid', ht2'⟩ | ht2'
    · exact hid.symm.trans hid'
    · have := h.fresh ht2'
      omega
    · have := h.fresh ht1'
      rw [ht2'] at hs
      omega
    · exact h.inj ht1' ht2' hs
  · intro id t' ht'
    show t'.ord.submissionId < p.submissionId + 1
    rcases hget ht' with ⟨-, rfl⟩ | ht'
    · omega
    · exact Nat.lt_succ_of_lt (h.fresh ht')

/-- **INSERTION**: a fresh blob transaction passes the assertions. -/
theorem WF.addTransaction (h : WF p) (hblob : tx.isEip4844 = true) (hnew : p.get tx.id = none) :
    ∃ p', p.addTransaction tx = some p' ∧ WF p'
      ∧ ∀ id, p'.get id = if tx.id = id then some tx else p.get id := by
  have hfree : p.byId[tx.id]? = none := get_eq_none.mp hnew
  have hcontains : p.byId.contains tx.id = false := by
    rw [← ExtTreeMap.isSome_getElem?_eq_contains, hfree]
    rfl
  refine ⟨p.withTx ⟨tx, p.priorityAt p.pendingFees tx, p.submissionId⟩, ?_, h.withTx hfree rfl, ?_⟩
  · unfold BlobTransactions.addTransaction
    rw [hblob, hcontains]
    rfl
  · intro id
    show (p.byId.insert tx.id _)[id]?.map _ = _
    rw [get_insert, apply_ite (Option.map _)]
    rfl

/-- **REMOVAL**: it takes exactly the transaction. -/
theorem WF.removeTransaction (h : WF p) (id : TransactionId) :
    (p.removeTransaction id).1 = p.get id ∧ WF (p.removeTransaction id).2
      ∧ ∀ id', (p.removeTransaction id).2.get id' = if id = id' then none else p.get id' := by
  unfold BlobTransactions.removeTransaction
  cases ht : p.byId[id]? with
  | none =>
    have hg : p.get id = none := get_eq_none.mpr ht
    refine ⟨hg.symm, h, fun id' => ?_⟩
    by_cases hid : id = id'
    · rw [if_pos hid, ← hid, hg]
    · rw [if_neg hid]
  | some t =>
    have hget : ∀ {id'} {t'},
        (p.byId.erase id)[id']? = some t' ↔ id ≠ id' ∧ p.byId[id']? = some t' := by
      intro id' t'
      rw [get_erase]
      by_cases hid : id = id'
      · simp [hid]
      · simp [hid]
    refine ⟨(get_eq_some.mpr ⟨t, ht, rfl⟩).symm, ⟨?_, ?_, ?_, ?_, ?_⟩, ?_⟩
    · intro id' t' ht'
      exact h.key (hget.mp ht').2
    · have := total_erase (f := fun t => t.transaction.size) ht
      show p.sizeOf.value - _ = ((total _ (p.byId.erase id) : Nat) : Int)
      rw [h.size, ← this]
      push_cast
      omega
    · intro o t'
      rw [get_erase, hget]
      by_cases ho : t.ord = o
      · -- the order of the removed transaction belongs to no other one
        rw [if_pos ho]
        refine ⟨nofun, ?_⟩
        rintro ⟨⟨hid, ht'⟩, ho'⟩
        exact absurd (h.inj ht ht' (by rw [ho, ho'])) hid
      · rw [if_neg ho, h.all]
        refine ⟨fun heq => ⟨⟨?_, heq.1⟩, heq.2⟩, fun heq => ⟨heq.1.2, heq.2⟩⟩
        intro hid
        rw [← hid, ht] at heq
        exact ho (by rw [some.inj heq.1, heq.2])
    · intro id1 id2 t1 t2 ht1 ht2 hs
      exact h.inj (hget.mp ht1).2 (hget.mp ht2).2 hs
    · intro id' t' ht'
      exact h.fresh (hget.mp ht').2
    · intro id'
      show (p.byId.erase id)[id']?.map _ = _
      rw [get_erase, apply_ite (Option.map _)]
      rfl

/-! ## Repricing and the fee pass -/

@[simp] theorem reprice_transaction (p : BlobTransactions) (t : BlobTransaction) :
    (p.reprice t).transaction = t.transaction := rfl

/-- New priorities do not change what the pool holds. -/
theorem WF.reprioritize (h : WF p) :
    WF p.reprioritize ∧ ∀ id, p.reprioritize.get id = p.get id := by
  have hget : ∀ (id : TransactionId) (t : BlobTransaction),
      p.reprioritize.byId[id]? = some t ↔ ∃ t0, p.byId[id]? = some t0 ∧ p.reprice t0 = t := by
    intro id t
    show (p.byId.map _)[id]? = _ ↔ _
    rw [ExtTreeMap.getElem?_map, map_eq_some_iff]
  -- the listing of `all` has one entry for each transaction
  have hmem : ∀ t, t ∈ p.all.toList.map Prod.snd ↔ p.byId[t.transaction.id]? = some t := by
    intro t
    rw [List.mem_map]
    constructor
    · rintro ⟨⟨o, t'⟩, hm, rfl⟩
      exact ((h.all o t').mp (mem_toList.mp hm)).1
    · intro ht
      exact ⟨(t.ord, t), mem_toList.mpr ((h.all _ t).mpr ⟨ht, rfl⟩), rfl⟩
  have hlist : p.all.toList.map (p.reprice ·.2)
      = (p.all.toList.map Prod.snd).map p.reprice := by
    rw [List.map_map]
    rfl
  have hnd : ((p.all.toList.map (p.reprice ·.2)).map BlobTransaction.ord).Nodup := by
    rw [hlist, List.map_map, List.nodup_iff_pairwise_ne, List.pairwise_map, List.pairwise_map]
    refine (nodup_iff_pairwise_ne.mp (nodup_toList p.all)).imp_of_mem ?_
    intro e e' he he' hne heq
    obtain ⟨ht, ho⟩ := (h.all e.1 e.2).mp (mem_toList.mp he)
    obtain ⟨ht', ho'⟩ := (h.all e'.1 e'.2).mp (mem_toList.mp he')
    have hs : (p.reprice e.2).ord.submissionId = (p.reprice e'.2).ord.submissionId :=
      congrArg BlobOrd.submissionId heq
    have hid := h.inj ht ht' hs
    rw [hid, ht'] at ht
    have hv := some.inj ht
    exact hne (Prod.ext (by rw [← ho, ← ho', hv]) hv.symm)
  refine ⟨⟨?_, ?_, ?_, ?_, ?_⟩, ?_⟩
  · intro id t ht
    obtain ⟨t0, ht0, rfl⟩ := (hget id t).mp ht
    exact h.key (t := t0) ht0
  · show p.sizeOf.value = ((total _ (p.byId.map fun _ tx => p.reprice tx) : Nat) : Int)
    rw [total_map fun _ t => by rw [reprice_transaction], h.size]
  · intro o t
    show (foldl _ ∅ _)[o]? = _ ↔ _
    rw [get_foldl_insertIfNew _ _ hnd fun _ _ => by simp, hget, hlist, List.mem_map]
    constructor
    · rintro (⟨⟨t0, ht0, rfl⟩, rfl⟩ | hempty)
      · exact ⟨⟨t0, (hmem t0).mp ht0, rfl⟩, rfl⟩
      · exact absurd hempty (by simp)
    · rintro ⟨⟨t0, ht0, rfl⟩, rfl⟩
      exact .inl ⟨⟨t0, (hmem t0).mpr ht0, rfl⟩, rfl⟩
  · intro id id' t t' ht ht' hs
    obtain ⟨t0, ht0, rfl⟩ := (hget id t).mp ht
    obtain ⟨t1, ht1, rfl⟩ := (hget id' t').mp ht'
    exact h.inj ht0 ht1 hs
  · intro id t ht
    obtain ⟨t0, ht0, rfl⟩ := (hget id t).mp ht
    exact h.fresh (t := t0) ht0
  · intro id
    show (p.byId.map _)[id]?.map _ = _
    rw [ExtTreeMap.getElem?_map, Option.map_map]
    rfl

/-- The ids that satisfy the fees are held, each once. -/
theorem satisfyPendingFeeIds_spec (p : BlobTransactions) (fees : PendingFees) :
    (p.satisfyPendingFeeIds fees).Nodup
      ∧ ∀ id ∈ p.satisfyPendingFeeIds fees, (p.get id).isSome = true := by
  have hsub := (retain_sublist (fun e : TransactionId × BlobTransaction => e.1.sender)
    (fun e => !(e.2.transaction.maxFeePerBlobGas.all (· < fees.blobFee) ||
      decide (e.2.transaction.maxFeePerGas < fees.baseFee))) p.byId.toList none).1
  refine ⟨(nodup_keys p.byId).sublist (hsub.map Prod.fst), ?_⟩
  intro id hid
  obtain ⟨⟨id', t⟩, hm, rfl⟩ := mem_map.mp hid
  rw [get_eq_some.mpr ⟨t, mem_toList.mp (hsub.subset hm), rfl⟩]
  rfl

/-- Both fees are met by a transaction and by all earlier ones of its sender in this pool. -/
theorem mem_satisfyPendingFeeIds :
    id ∈ p.satisfyPendingFeeIds fees ↔
      (p.get id).isSome = true ∧ ∀ id' tx', p.get id' = some tx' → id'.sender = id.sender →
        id'.nonce ≤ id.nonce → tx'.coversBlobFee fees.blobFee = true
          ∧ fees.baseFee ≤ tx'.maxFeePerGas := by
  have hok : ∀ tx : ValidPoolTransaction, (!(tx.maxFeePerBlobGas.all (· < fees.blobFee) ||
      decide (tx.maxFeePerGas < fees.baseFee))) = true ↔
        tx.coversBlobFee fees.blobFee = true ∧ fees.baseFee ≤ tx.maxFeePerGas := by
    intro tx
    simp [ValidPoolTransaction.coversBlobFee]
  rw [satisfyPendingFeeIds, List.mem_map]
  constructor
  · rintro ⟨e, he, rfl⟩
    obtain ⟨hb, hall⟩ := TransactionId.mem_retain_sender.mp he
    rw [get_eq_some.mpr ⟨e.2, hb, rfl⟩]
    refine ⟨rfl, fun id' tx' htx' hs hn => ?_⟩
    obtain ⟨t', ht', rfl⟩ := get_eq_some.mp htx'
    exact (hok _).mp (hall id' t' ht' hs hn)
  · rintro ⟨hsome, hall⟩
    obtain ⟨tx, htx⟩ := isSome_iff_exists.mp hsome
    obtain ⟨t, ht, rfl⟩ := get_eq_some.mp htx
    refine ⟨(id, t), TransactionId.mem_retain_sender.mpr ⟨ht, fun id' t' ht' hs hn => ?_⟩, rfl⟩
    exact (hok _).mpr (hall id' _ (get_eq_some.mpr ⟨t', ht', rfl⟩) hs hn)

theorem WF.removeExpected (ids : List TransactionId) (h : WF p) (hnd : ids.Nodup)
    (hheld : ∀ id ∈ ids, (p.get id).isSome = true) :
    ∃ r, removeExpected ids p = some r ∧ WF r.2 ∧ Withdraws (·.id) p.get r.2.get r.1 ∧
      r.1.map (·.id) = ids := by
  induction ids generalizing p with
  | nil => exact ⟨_, rfl, h, .nil fun _ => rfl, rfl⟩
  | cons id ids ih =>
    obtain ⟨hid, hnd'⟩ := nodup_cons.mp hnd
    obtain ⟨hr, h', hget⟩ := h.removeTransaction id
    obtain ⟨tx, htx⟩ := isSome_iff_exists.mp (hheld id (by simp))
    obtain ⟨r, hrs, h'', hw, hids⟩ := ih h' hnd' (fun i hi => by
      have hne : id ≠ i := fun heq => hid (heq ▸ hi)
      rw [hget, if_neg hne]
      exact hheld i (mem_cons_of_mem _ hi))
    have hsplit : p.removeTransaction id = (some tx, (p.removeTransaction id).2) :=
      Prod.ext (hr.trans htx) rfl
    refine ⟨(tx :: r.1, r.2), ?_, h'', ?_, ?_⟩
    · rw [BlobTransactions.removeExpected, hsplit]
      simp only [hrs]
      rfl
    · have hone := Withdraws.single (fun _ => h.get_key) hget
      rw [htx] at hone
      exact hone.append hw
    · rw [map_cons, hids, h.get_key htx]

/-- **FEE PASS**: it returns, and takes exactly the transactions that satisfy the fees. -/
theorem WF.enforcePendingFees (h : WF p) (fees : PendingFees) :
    ∃ r, p.enforcePendingFees fees = some r ∧ WF r.2 ∧ Withdraws (·.id) p.get r.2.get r.1
      ∧ r.1.map (·.id) = p.satisfyPendingFeeIds fees := by
  obtain ⟨hnd, hheld⟩ := p.satisfyPendingFeeIds_spec fees
  obtain ⟨r, hr, h', hw, hids⟩ := h.removeExpected _ hnd hheld
  have hfees : WF { r.2 with pendingFees := fees } := ⟨h'.key, h'.size, h'.all, h'.inj, h'.fresh⟩
  refine ⟨(r.1, { r.2 with pendingFees := fees }.reprioritize), ?_, hfees.reprioritize.1,
    ⟨hw.held, hw.nodup, fun id => ?_⟩, hids⟩
  · simp only [BlobTransactions.enforcePendingFees, hr, bind_eq_bind, bind_some]
  · exact (hfees.reprioritize.2 id).trans (hw.rest id)

/-! ## Truncation -/

variable {limit : SubPoolLimit}

theorem WF.truncateLoop (fuel : Nat) (h : WF p) :
    truncateLoop limit fuel p removed = some (out, p') → ∃ taken, out = removed ++ taken ∧ WF p' ∧
      Withdraws (·.id) p.get p'.get taken := by
  induction fuel generalizing p p' removed out with
  | zero => intro h; nomatch h
  | succ fuel ih =>
    intro heq
    rw [BlobTransactions.truncateLoop] at heq
    split at heq
    · split at heq
      · nomatch heq
      rename_i worst _
      obtain ⟨hr, h', hget⟩ := h.removeTransaction worst.transaction.id
      have hw := Withdraws.single (fun _ => h.get_key) hget
      split at heq
      · nomatch heq
      · rename_i tx p1 hsplit
        rw [hsplit] at hr h' hw
        obtain ⟨taken, rfl, h'', hw'⟩ := ih h' heq
        rw [← hr] at hw
        exact ⟨tx :: taken, by simp, h'', hw.append hw'⟩
    · cases heq
      exact ⟨[], by simp, h, .nil fun _ => rfl⟩

theorem WF.truncatePool (h : WF p) (heq : truncatePool fuel p limit = some (out, p')) :
    WF p' ∧ Withdraws (·.id) p.get p'.get out := by
  obtain ⟨taken, rfl, h', hw⟩ := h.truncateLoop fuel heq
  exact ⟨h', hw⟩

end BlobTransactions

end TransactionPool
