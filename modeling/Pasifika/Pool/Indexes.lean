import Pasifika.Pool.AllTransactions

/-! # The indexes of the set of all transactions

`AllTransactions` keeps four views of one set: the transactions by id, by
hash, counted by sender and grouped by authority. `Indexed` says that the
views agree, and that a sender never mixes blob and other transactions.

Everything the set ever does to its contents is one of three things: drop a
transaction (`without`, whatever the entry point), add one (`withTx`), or
rewrite metadata without touching the transactions. A replacement is a
drop followed by an addition. -/

namespace TransactionPool

open Std OrderedMap List Option Finset

namespace AllTransactions

/-- The transaction under an id. -/
def tx (a : AllTransactions) (id : TransactionId) : Option ValidPoolTransaction :=
  a.txs[id]?.map (fun t => t.transaction)

/-- The number of transactions of a sender. -/
def senderCount (a : AllTransactions) (s : SenderId) : Nat :=
  countKeys (fun id => id.sender == s) a.txs

/-- **THE INDEXES ARE EXACT.** -/
structure Indexed (a : AllTransactions) : Prop where
  key : ∀ {id : TransactionId} {t : PoolInternalTransaction},
    a.txs[id]? = some t → t.transaction.id = id
  byHash : ∀ (h : TxHash) (tx : ValidPoolTransaction),
    a.byHash[h]? = some tx ↔ tx.hash = h ∧ a.tx tx.id = some tx
  counter : ∀ s : SenderId,
    a.txCounter[s]? = if a.senderCount s = 0 then none else some (a.senderCount s)
  auths : ∀ (s : SenderId) (h : TxHash), h ∈ a.auths[s]?.getD ∅ ↔
    ∃ id tx, a.tx id = some tx ∧ tx.hash = h ∧ s ∈ tx.authorityIds.getD []
  nonempty : ∀ s : SenderId, a.auths[s]? ≠ some ∅
  exclusive : ∀ {id id' : TransactionId} {tx tx' : ValidPoolTransaction}, a.tx id = some tx →
    a.tx id' = some tx' → id.sender = id'.sender → tx.isEip4844 = tx'.isEip4844

variable {tx : ValidPoolTransaction} {id : TransactionId} {a : AllTransactions} {s : SenderId}
variable {m : ExtTreeMap SenderId (Finset TxHash)} {nonce : Nat} {balance : U256}

theorem tx_eq_some : a.tx id = some tx ↔ ∃ t, a.txs[id]? = some t ∧ t.transaction = tx := by
  rw [AllTransactions.tx, map_eq_some_iff]

theorem tx_eq_none : a.tx id = none ↔ a.txs[id]? = none := by
  rw [AllTransactions.tx, map_eq_none_iff]

theorem Indexed.tx_key (h : Indexed a) (ht : a.tx id = some tx) : tx.id = id := by
  obtain ⟨t, hs, rfl⟩ := tx_eq_some.mp ht
  exact h.key hs

/-- Two transactions with one hash are the same. -/
theorem Indexed.hash_inj (h : Indexed a) (ht : a.tx id = some tx) (ht' : a.tx id' = some tx')
    (hh : tx.hash = tx'.hash) : tx = tx' := by
  have h1 : a.byHash[tx.hash]? = some tx := (h.byHash _ _).mpr ⟨rfl, by rw [h.tx_key ht, ht]⟩
  have h2 : a.byHash[tx.hash]? = some tx' :=
    (h.byHash _ _).mpr ⟨hh.symm, by rw [h.tx_key ht', ht']⟩
  rw [h1] at h2
  exact some.inj h2

theorem indexed_new (config : PoolConfig) : Indexed (new config) where
  key := fun h => by simp [new] at h
  byHash := fun h tx => by simp [new, AllTransactions.tx]
  counter := fun s => by simp [new, senderCount]
  auths := fun s h => by simp [new, AllTransactions.tx]
  nonempty := fun s => by simp [new]
  exclusive := fun h => by simp [new, AllTransactions.tx] at h

variable {a a' : AllTransactions} {h : TxHash} {tx' : ValidPoolTransaction}

/-- **METADATA ONLY**: a pass that keeps every transaction where it is keeps the indexes exact. -/
theorem Indexed.congr (h : Indexed a) (htx : ∀ id, a'.tx id = a.tx id)
    (hbyHash : a'.byHash = a.byHash) (hcounter : a'.txCounter = a.txCounter)
    (hauths : a'.auths = a.auths) : Indexed a' := by
  have hcount : ∀ s, a'.senderCount s = a.senderCount s := by
    intro s
    refine countKeys_congr fun id => ?_
    have := congrArg isSome (htx id)
    rw [AllTransactions.tx, AllTransactions.tx, isSome_map, isSome_map] at this
    exact this
  refine ⟨?_, ?_, ?_, ?_, ?_, ?_⟩
  · intro id t ht
    exact h.tx_key ((htx id).symm.trans (tx_eq_some.mpr ⟨t, ht, rfl⟩))
  · intro hash tx
    rw [hbyHash, htx]
    exact h.byHash hash tx
  · intro s
    rw [hcounter, hcount]
    exact h.counter s
  · intro s hash
    rw [hauths]
    simp only [htx]
    exact h.auths s hash
  · rw [hauths]
    exact h.nonempty
  · intro id id' tx tx' ht ht'
    exact h.exclusive ((htx id).symm.trans ht) ((htx id').symm.trans ht')

/-! ## The counter -/

/-- The counter map after `tx_inc`. -/
def incremented (m : ExtTreeMap SenderId Nat) (s : SenderId) : ExtTreeMap SenderId Nat :=
  m.insert s (m[s]?.getD 0 + 1)

/-- The counter map after `tx_decr`. -/
def decremented (m : ExtTreeMap SenderId Nat) (s : SenderId) : ExtTreeMap SenderId Nat :=
  match m[s]? with
  | some count => if count = 1 then m.erase s else m.insert s (count - 1)
  | none => m

theorem txDecr_eq (a : AllTransactions) (s : SenderId) :
    a.txDecr s = { a with txCounter := decremented a.txCounter s } := by
  unfold txDecr decremented
  cases hs : a.txCounter[s]? with
  | none => rfl
  | some count =>
    by_cases hc : count = 1
    · simp only [if_pos hc]
    · simp only [if_neg hc]

theorem get_decremented (m : ExtTreeMap SenderId Nat) (s s' : SenderId) :
    (decremented m s)[s']?
      = if s = s' then m[s]?.bind (fun n => if n = 1 then none else some (n - 1))
        else m[s']? := by
  unfold decremented
  by_cases hs : s = s'
  · subst hs
    rw [if_pos rfl]
    cases hm : m[s]? with
    | none => rw [hm]; rfl
    | some n =>
      by_cases hn : n = 1
      · simp [hn]
      · simp [hn]
  · rw [if_neg hs]
    cases hm : m[s]? with
    | none => rfl
    | some n =>
      by_cases hn : n = 1
      · simp [hn, get_erase_ne hs]
      · simp [hn, get_insert_ne hs]

/-! ## The authority index -/

/-- The authority index after `remove_auths`. -/
def withoutAuths (m : ExtTreeMap SenderId (Finset TxHash)) (tx : ValidPoolTransaction) :
    ExtTreeMap SenderId (Finset TxHash) :=
  (tx.authorityIds.getD []).foldl (removeAuth tx.hash) m

/-- The authority index with a transaction's authorizations. -/
def withAuths (m : ExtTreeMap SenderId (Finset TxHash)) (tx : ValidPoolTransaction) :
    ExtTreeMap SenderId (Finset TxHash) :=
  (tx.authorityIds.getD []).foldl (fun m auth => m.insert auth (insert tx.hash (m[auth]?.getD ∅))) m

theorem removeAuths_eq (a : AllTransactions) (t : PoolInternalTransaction) :
    a.removeAuths t = { a with auths := withoutAuths a.auths t.transaction } := by
  unfold removeAuths withoutAuths
  cases t.transaction.authorityIds <;> rfl

theorem getD_removeAuth (hash : TxHash) (m : ExtTreeMap SenderId (Finset TxHash))
    (auth s : SenderId) :
    (removeAuth hash m auth)[s]?.getD ∅
      = if auth = s then Finset.erase (m[s]?.getD ∅) hash else m[s]?.getD ∅ := by
  unfold removeAuth
  by_cases hs : auth = s
  · subst hs
    rw [if_pos rfl]
    cases hm : m[auth]? with
    | none => simp [hm]
    | some list =>
      by_cases he : list.erase hash = ∅
      · simp [he]
      · simp [he]
  · rw [if_neg hs]
    cases hm : m[auth]? with
    | none => rfl
    | some list =>
      by_cases he : list.erase hash = ∅
      · simp [he, get_erase_ne hs]
      · simp [he, get_insert_ne hs]

theorem removeAuth_nonempty {hash : TxHash} (h : ∀ s : SenderId, m[s]? ≠ some ∅)
    (auth s : SenderId) :
    (removeAuth hash m auth)[s]? ≠ some ∅ := by
  unfold removeAuth
  cases hm : m[auth]? with
  | none => exact h s
  | some list =>
    by_cases he : list.erase hash = ∅
    · simp only [if_pos he, get_erase]
      by_cases hs : auth = s
      · simp [hs]
      · rw [if_neg hs]
        exact h s
    · simp only [if_neg he, get_insert]
      by_cases hs : auth = s
      · rw [if_pos hs]
        exact fun heq => he (some.inj heq)
      · rw [if_neg hs]
        exact h s

/-- Removing authorizations takes the hash out of the listed authorities. -/
theorem mem_withoutAuths :
    h ∈ (withoutAuths m tx)[s]?.getD ∅ ↔
      h ∈ m[s]?.getD ∅ ∧ ¬ (h = tx.hash ∧ s ∈ tx.authorityIds.getD []) := by
  unfold withoutAuths
  generalize tx.authorityIds.getD [] = l
  induction l generalizing m with
  | nil => simp
  | cons auth l ih =>
    rw [foldl_cons, ih, getD_removeAuth]
    by_cases hs : auth = s
    · rw [if_pos hs, Finset.mem_erase, List.mem_cons]
      simp only [hs]
      tauto
    · rw [if_neg hs, List.mem_cons]
      simp only [Ne.symm hs, false_or]

theorem withoutAuths_nonempty (h : ∀ s : SenderId, m[s]? ≠ some ∅) :
    ∀ s : SenderId, (withoutAuths m tx)[s]? ≠ some ∅ := by
  unfold withoutAuths
  generalize tx.authorityIds.getD [] = l
  induction l generalizing m with
  | nil => exact h
  | cons auth l ih => exact ih (removeAuth_nonempty h auth)

/-- Adding authorizations puts the hash under the listed authorities. -/
theorem mem_withAuths :
    h ∈ (withAuths m tx)[s]?.getD ∅ ↔
      h ∈ m[s]?.getD ∅ ∨ h = tx.hash ∧ s ∈ tx.authorityIds.getD [] := by
  unfold withAuths
  generalize tx.authorityIds.getD [] = l
  induction l generalizing m with
  | nil => simp
  | cons auth l ih =>
    rw [foldl_cons, ih, get_insert]
    by_cases hs : auth = s
    · rw [if_pos hs, Option.getD_some, Finset.mem_insert, List.mem_cons]
      simp only [hs]
      tauto
    · rw [if_neg hs, List.mem_cons]
      simp only [Ne.symm hs, false_or]

theorem withAuths_nonempty (h : ∀ s : SenderId, m[s]? ≠ some ∅) :
    ∀ s : SenderId, (withAuths m tx)[s]? ≠ some ∅ := by
  unfold withAuths
  generalize tx.authorityIds.getD [] = l
  induction l generalizing m with
  | nil => exact h
  | cons auth l ih =>
    refine ih fun s => ?_
    rw [get_insert]
    by_cases hs : auth = s
    · rw [if_pos hs]
      exact fun heq => insert_ne_empty _ _ (some.inj heq)
    · rw [if_neg hs]
      exact h s

/-! ## Dropping a transaction -/

/-- The set without a transaction. -/
def without (a : AllTransactions) (id : TransactionId) (tx : ValidPoolTransaction) :
    AllTransactions :=
  { a with
    txs := a.txs.erase id
    byHash := a.byHash.erase tx.hash
    txCounter := decremented a.txCounter tx.senderId
    auths := withoutAuths a.auths tx }

theorem tx_without (a : AllTransactions) (id : TransactionId) (tx : ValidPoolTransaction)
    (id' : TransactionId) : (a.without id tx).tx id' = if id = id' then none else a.tx id' := by
  show (a.txs.erase id)[id']?.map _ = _
  rw [get_erase, apply_ite (Option.map _)]
  rfl

section

variable {a : AllTransactions} {id : TransactionId} {t : PoolInternalTransaction}
  {tx : ValidPoolTransaction}

theorem Indexed.byHash_of_tx (h : Indexed a) (ht : a.tx id = some tx) :
    a.byHash[tx.hash]? = some tx :=
  (h.byHash _ _).mpr ⟨rfl, by rw [h.tx_key ht, ht]⟩

theorem Indexed.removeTransaction_eq (h : Indexed a) (ht : a.txs[id]? = some t) :
    a.removeTransaction id = (some (t.transaction, t.subpool), a.without id t.transaction) := by
  have hh := h.byHash_of_tx (tx_eq_some.mpr ⟨t, ht, rfl⟩)
  simp only [removeTransaction, ht, txDecr_eq, removeAuths_eq, hh, map_some]
  rfl

theorem Indexed.removeTransactionByHash_eq (h : Indexed a) (ht : a.txs[id]? = some t) :
    a.removeTransactionByHash t.transaction.hash
      = (some (t.transaction, t.subpool), a.without id t.transaction) := by
  have hh := h.byHash_of_tx (tx_eq_some.mpr ⟨t, ht, rfl⟩)
  have hid : t.transaction.transactionId = id := h.key ht
  simp only [removeTransactionByHash, hh, hid, ht, txDecr_eq, removeAuths_eq]
  rfl

/-- A hash that is found belongs to a transaction of the set. -/
theorem Indexed.removeTransactionByHash_cases (h : Indexed a) (hash : TxHash) :
    a.removeTransactionByHash hash = (none, a) ∧ (∀ id tx, a.tx id = some tx → tx.hash ≠ hash) ∨
      ∃ id t, a.txs[id]? = some t ∧ t.transaction.hash = hash ∧ a.removeTransactionByHash hash
        = (some (t.transaction, t.subpool), a.without id t.transaction) := by
  cases hh : a.byHash[hash]? with
  | none =>
    refine .inl ⟨by simp only [removeTransactionByHash, hh], ?_⟩
    intro id tx htx heq
    rw [← heq, h.byHash_of_tx htx] at hh
    nomatch hh
  | some tx =>
    obtain ⟨heq, htx⟩ := (h.byHash hash tx).mp hh
    obtain ⟨t, ht, rfl⟩ := tx_eq_some.mp htx
    exact .inr ⟨_, t, ht, heq, heq ▸ h.removeTransactionByHash_eq ht⟩

theorem senderCount_without (tx : ValidPoolTransaction) (ht : a.txs[id]? = some t) (s : SenderId) :
    (a.without id tx).senderCount s + (if id.sender = s then 1 else 0) = a.senderCount s := by
  rw [senderCount, senderCount, ← countKeys_erase (q := fun i => i.sender == s) ht]
  simp only [beq_iff_eq]
  rfl

theorem Indexed.without (h : Indexed a) (ht : a.tx id = some tx) : Indexed (a.without id tx) := by
  have hid : tx.id = id := h.tx_key ht
  have hsender : tx.senderId = id.sender := by
    rw [← hid]
    rfl
  have hget : ∀ {id'} {tx'},
      (a.without id tx).tx id' = some tx' ↔ id ≠ id' ∧ a.tx id' = some tx' := by
    intro id' tx'
    rw [tx_without]
    by_cases hi : id = id'
    · simp [hi]
    · simp [hi]
  obtain ⟨t, hts, -⟩ := tx_eq_some.mp ht
  refine ⟨?_, ?_, ?_, ?_, ?_, ?_⟩
  · intro id' t' ht'
    exact h.tx_key (hget.mp (tx_eq_some.mpr ⟨t', ht', rfl⟩)).2
  · intro hash tx'
    show (a.byHash.erase tx.hash)[hash]? = _ ↔ _
    rw [get_erase, hget]
    by_cases hh : tx.hash = hash
    · rw [if_pos hh]
      refine ⟨nofun, ?_⟩
      rintro ⟨hh', hne, ht'⟩
      rw [h.hash_inj ht ht' (hh.trans hh'.symm)] at hid
      exact absurd hid.symm hne
    · rw [if_neg hh, h.byHash]
      refine ⟨fun heq => ⟨heq.1, ?_, heq.2⟩, fun heq => ⟨heq.1, heq.2.2⟩⟩
      intro hi
      rw [← hi, ht] at heq
      exact hh (by rw [some.inj heq.2, heq.1])
  · intro s
    have hsc := senderCount_without tx hts s
    show (decremented a.txCounter tx.senderId)[s]? = _
    rw [get_decremented, hsender, h.counter, h.counter]
    by_cases hs : id.sender = s
    · subst hs
      rw [if_pos rfl] at hsc ⊢
      rw [if_neg (by omega), bind_some]
      by_cases h1 : a.senderCount id.sender = 1
      · rw [if_pos h1, if_pos (by omega)]
      · rw [if_neg h1, if_neg (by omega)]
        exact congrArg some (by omega)
    · rw [if_neg hs] at hsc ⊢
      rw [← hsc, add_zero]
  · intro s hash
    show hash ∈ (withoutAuths a.auths tx)[s]?.getD ∅ ↔ _
    rw [mem_withoutAuths, h.auths]
    constructor
    · rintro ⟨⟨id', tx', ht', hh, hs⟩, hne⟩
      refine ⟨id', tx', hget.mpr ⟨?_, ht'⟩, hh, hs⟩
      rintro rfl
      rw [ht] at ht'
      obtain rfl := some.inj ht'
      exact hne ⟨hh.symm, hs⟩
    · rintro ⟨id', tx', ht', hh, hs⟩
      obtain ⟨hne, ht'⟩ := hget.mp ht'
      refine ⟨⟨id', tx', ht', hh, hs⟩, ?_⟩
      rintro ⟨hh', -⟩
      rw [h.hash_inj ht ht' (hh'.symm.trans hh.symm), h.tx_key ht'] at hid
      exact hne hid.symm
  · exact withoutAuths_nonempty h.nonempty
  · intro id1 id2 tx1 tx2 ht1 ht2
    exact h.exclusive (hget.mp ht1).2 (hget.mp ht2).2

end

/-! ## Adding a transaction -/

/-- The set with a new transaction. -/
def withTx (a : AllTransactions) (t : PoolInternalTransaction) : AllTransactions :=
  { a with
    txs := a.txs.insert t.transaction.id t
    byHash := a.byHash.insert t.transaction.hash t.transaction
    txCounter := incremented a.txCounter t.transaction.senderId
    auths := withAuths a.auths t.transaction }

theorem tx_withTx (a : AllTransactions) (t : PoolInternalTransaction) (id : TransactionId) :
    (a.withTx t).tx id = if t.transaction.id = id then some t.transaction else a.tx id := by
  show (a.txs.insert t.transaction.id t)[id]?.map _ = _
  rw [get_insert, apply_ite (Option.map _)]
  rfl

/-- Adding a transaction with a fresh id and a fresh hash, of the type its sender
    already uses, keeps the indexes exact. -/
theorem Indexed.withTx (h : Indexed a) (hnew : a.tx t.transaction.id = none)
    (hhash : ∀ id tx, a.tx id = some tx → tx.hash ≠ t.transaction.hash)
    (htype : ∀ id tx, a.tx id = some tx → id.sender = t.transaction.senderId → tx.isEip4844 =
      t.transaction.isEip4844) :
    Indexed (a.withTx t) := by
  have hget : ∀ {id} {tx},
      (a.withTx t).tx id = some tx ↔
        t.transaction.id = id ∧ tx = t.transaction ∨ a.tx id = some tx := by
    intro id tx
    rw [tx_withTx]
    by_cases hi : t.transaction.id = id
    · rw [if_pos hi, ← hi, hnew]
      simp [eq_comm]
    · simp [hi]
  refine ⟨?_, ?_, ?_, ?_, withAuths_nonempty h.nonempty, ?_⟩
  · intro id t' ht'
    rcases hget.mp (tx_eq_some.mpr ⟨t', ht', rfl⟩) with ⟨hi, heq⟩ | ht'
    · rw [heq, hi]
    · exact h.tx_key ht'
  · intro hash tx
    show (a.byHash.insert t.transaction.hash t.transaction)[hash]? = _ ↔ _
    rw [get_insert, hget]
    by_cases hh : t.transaction.hash = hash
    · rw [if_pos hh]
      constructor
      · intro heq
        obtain rfl := some.inj heq
        exact ⟨hh, Or.inl ⟨rfl, rfl⟩⟩
      · rintro ⟨hh', ⟨-, rfl⟩ | ht⟩
        · rfl
        · exact absurd (hh'.trans hh.symm) (hhash _ _ ht)
    · rw [if_neg hh, h.byHash]
      refine ⟨fun heq => ⟨heq.1, Or.inr heq.2⟩, ?_⟩
      rintro ⟨hh', ⟨-, rfl⟩ | ht⟩
      · exact absurd hh' hh
      · exact ⟨hh', ht⟩
  · intro s
    have hsc : (a.withTx t).senderCount s
        = a.senderCount s + if t.transaction.senderId = s then 1 else 0 := by
      rw [senderCount, senderCount]
      refine (countKeys_insert (tx_eq_none.mp hnew)).trans ?_
      simp only [beq_iff_eq]
      rfl
    show (a.txCounter.insert _ _)[s]? = _
    rw [get_insert, hsc, h.counter, h.counter]
    by_cases hs : t.transaction.senderId = s
    · subst hs
      by_cases h0 : a.senderCount t.transaction.senderId = 0 <;> simp [h0]
    · simp [hs]
  · intro s hash
    show hash ∈ (withAuths a.auths t.transaction)[s]?.getD ∅ ↔ _
    rw [mem_withAuths, h.auths]
    constructor
    · rintro (⟨id, tx, ht, hh, hs⟩ | ⟨hh, hs⟩)
      · exact ⟨id, tx, hget.mpr (Or.inr ht), hh, hs⟩
      · exact ⟨_, _, hget.mpr (Or.inl ⟨rfl, rfl⟩), hh.symm, hs⟩
    · rintro ⟨id, tx, ht, hh, hs⟩
      rcases hget.mp ht with ⟨-, rfl⟩ | ht
      · exact .inr ⟨hh.symm, hs⟩
      · exact .inl ⟨id, tx, ht, hh, hs⟩
  · intro id id' tx tx' ht ht' hs
    rcases hget.mp ht with ⟨hi, rfl⟩ | ht <;> rcases hget.mp ht' with ⟨hi', rfl⟩ | ht'
    · rfl
    · refine (htype _ _ ht' ?_).symm
      rw [← hs, ← hi]
      rfl
    · refine htype _ _ ht ?_
      rw [hs, ← hi']
      rfl
    · exact h.exclusive ht ht' hs

/-! ## Insertion -/

/-- The entry a transaction is inserted with. -/
def poolTx (a : AllTransactions) (tx : ValidPoolTransaction) (onChainNonce : Nat) :
    PoolInternalTransaction :=
  let state := a.initialState tx (TransactionId.ancestor tx.nonce onChainNonce tx.id.sender)
  { transaction := tx, subpool := state.subPool, state, cumulativeCost := 0 }

/-- The set a transaction is added to: a replaced transaction is dropped first. -/
def base (a : AllTransactions) (tx : ValidPoolTransaction) : AllTransactions :=
  match a.txs[tx.id]? with
  | none => a
  | some existing => a.without tx.id existing.transaction

/-- The set right after the insertion, before the sender is rechecked. -/
def placed (a : AllTransactions) (tx : ValidPoolTransaction) (onChainNonce : Nat) :
    AllTransactions :=
  (a.base tx).withTx (a.poolTx tx onChainNonce)

/-- The loop of `insert_tx`. -/
def insertSweep (a : AllTransactions) (tx : ValidPoolTransaction) (onChainBalance : U256)
    (onChainNonce : Nat) :
    InsertCursor × ExtTreeMap TransactionId PoolInternalTransaction × List PoolUpdate :=
  sweep (insertVisit onChainBalance tx.id)
    (descendantTxsInclusive (a.placed tx onChainNonce).txs ⟨tx.senderId, onChainNonce⟩)
    ⟨false, onChainNonce, false, 0, (a.poolTx tx onChainNonce).state⟩
    (a.placed tx onChainNonce).txs []

/-- What an accepted insertion went through, and what it returns. -/
structure Inserts (a : AllTransactions) (tx : ValidPoolTransaction) (onChainBalance : U256)
    (onChainNonce : Nat) (ok : InsertOk) (a' : AllTransactions) : Prop where
  nonce_le : onChainNonce ≤ tx.nonce
  checked : a.ensureInsertable tx onChainBalance onChainNonce = .ok ()
  priced : ∀ existing, a.txs[tx.id]? = some existing →
    existing.transaction.isUnderpriced tx a.priceBumps = false
  ok_eq : ok =
    { transaction := tx
      moveTo := (a.insertSweep tx onChainBalance onChainNonce).1.state.subPool
      state := (a.insertSweep tx onChainBalance onChainNonce).1.state
      replacedTx := a.txs[tx.id]?.map (fun e => (e.transaction, e.subpool))
      updates := (a.insertSweep tx onChainBalance onChainNonce).2.2 }
  set_eq : a' = { a.placed tx onChainNonce with
    txs := (a.insertSweep tx onChainBalance onChainNonce).2.1 }

/-- The counter entry of a sender that has a transaction. -/
theorem Indexed.counter_of_tx (h : Indexed a) (ht : a.tx id = some tx) :
    ∃ n, a.txCounter[tx.senderId]? = some n ∧ n ≠ 0 := by
  obtain ⟨t, hts, rfl⟩ := tx_eq_some.mp ht
  have hs : id.sender = t.transaction.senderId := by
    rw [← h.key hts]
    rfl
  have hpos : 0 < a.senderCount t.transaction.senderId :=
    countKeys_pos.mpr ⟨id, t, hts, by simp [hs]⟩
  exact ⟨_, by rw [h.counter, if_neg (by omega)], by omega⟩

theorem erase_insert (m : ExtTreeMap TransactionId PoolInternalTransaction) (id : TransactionId)
    (t : PoolInternalTransaction) : (m.erase id).insert id t = m.insert id t := by
  refine ExtTreeMap.ext_getElem? fun id' => ?_
  rw [get_insert, get_insert, get_erase]
  by_cases hid : id = id'
  · rw [if_pos hid, if_pos hid]
  · rw [if_neg hid, if_neg hid, if_neg hid]

theorem placed_of_none (hnone : a.txs[tx.id]? = none) (nonce : Nat) :
    a.placed tx nonce = a.withTx (a.poolTx tx nonce) := by
  simp only [placed, base, hnone]

/-- Replacing a transaction leaves the counter alone. -/
theorem Indexed.placed_of_some (h : Indexed a) (hex : a.txs[tx.id]? = some existing) (nonce : Nat) :
    a.placed tx nonce =
      { a with
        txs := a.txs.insert tx.id (a.poolTx tx nonce)
        byHash := (a.byHash.erase existing.transaction.hash).insert tx.hash tx
        auths := withAuths (withoutAuths a.auths existing.transaction) tx } := by
  have htx : a.tx tx.id = some existing.transaction := tx_eq_some.mpr ⟨existing, hex, rfl⟩
  have hsender : existing.transaction.senderId = tx.senderId :=
    congrArg TransactionId.sender (h.tx_key htx)
  obtain ⟨n, hn, hn0⟩ := h.counter_of_tx htx
  -- counting down and up again changes nothing
  have hcounter : incremented (decremented a.txCounter tx.senderId) tx.senderId = a.txCounter := by
    refine ExtTreeMap.ext_getElem? fun s => ?_
    rw [hsender] at hn
    rw [incremented, get_insert, get_decremented, get_decremented, if_pos rfl, hn]
    by_cases hss : tx.senderId = s
    · subst hss
      rw [if_pos rfl, hn]
      by_cases h1 : n = 1
      · simp [h1]
      · simp only [bind_some, if_neg h1, getD_some]
        exact congrArg some (by omega)
    · rw [if_neg hss, if_neg hss]
  simp only [placed, base, hex, AllTransactions.withTx, AllTransactions.without, poolTx,
    erase_insert, hsender, hcounter]

/-- **INSERTION, INVERTED**: it rejects, or it went through all checks and returns
    the rechecked set. -/
theorem Indexed.insertTx_cases (h : Indexed a) (heq : a.insertTx tx balance nonce = some r) :
    (∃ e, r = .error e) ∨ ∃ ok a', r = .ok (ok, a') ∧
      Inserts a tx balance nonce ok a' := by
  unfold insertTx at heq
  split at heq
  · nomatch heq
  rename_i hnonce
  split at heq
  · exact .inl ⟨_, (some.inj heq).symm⟩
  rename_i hcheck
  split at heq
  · rename_i hnone
    obtain rfl := some.inj heq
    refine .inr ⟨_, _, rfl, ⟨by omega, hcheck, ?_, ?_, ?_⟩⟩
    · intro existing hex
      rw [hnone] at hex
      nomatch hex
    · simp only [insertSweep, placed_of_none hnone, hnone]
      rfl
    · simp only [insertSweep, placed_of_none hnone]
      rfl
  · rename_i existing hex
    split at heq
    · exact .inl ⟨_, (some.inj heq).symm⟩
    rename_i hpriced
    obtain rfl := some.inj heq
    refine .inr ⟨_, _, rfl, ⟨by omega, hcheck, ?_, ?_, ?_⟩⟩
    · intro existing' hex'
      rw [hex] at hex'
      obtain rfl := some.inj hex'
      exact Bool.eq_false_of_not_eq_true hpriced
    · simp only [insertSweep, h.placed_of_some hex, hex, removeAuths_eq]
      rfl
    · simp only [insertSweep, h.placed_of_some hex, removeAuths_eq]
      rfl
theorem ensureInsertable_eq_ok (h : a.ensureInsertable tx balance nonce = .ok ()) :
    a.ensureValid tx nonce = .ok () ∧
      (tx.isEip4844 = true → a.ensureValidBlobTransaction tx balance
        (TransactionId.ancestor tx.nonce nonce tx.id.sender) = .ok ()) ∧
      a.minimalProtocolBasefee ≤ tx.maxFeePerGas := by
  unfold ensureInsertable at h
  split at h
  · nomatch h
  rename_i hvalid
  dsimp only at h
  split at h
  · nomatch h
  rename_i hblob
  split at h
  · nomatch h
  rename_i hfee
  refine ⟨hvalid, fun hb => ?_, by omega⟩
  rw [if_pos hb] at hblob
  exact hblob

/-- The conflict check looks at one transaction, which speaks for all of them. -/
theorem Indexed.type_of_ensureValid (h : Indexed a)
    (hvalid : a.ensureValid tx nonce = .ok ()) (ht : a.tx id = some tx')
    (hs : id.sender = tx.senderId) :
    tx'.isEip4844 = tx.isEip4844 := by
  have hno : a.containsConflictingTransaction tx = false := by
    unfold ensureValid at hvalid
    split at hvalid
    · nomatch hvalid
    · split at hvalid
      · nomatch hvalid
      · split at hvalid
        · nomatch hvalid
        · rename_i hc
          exact Bool.eq_false_of_not_eq_true hc
  obtain ⟨t', ht', rfl⟩ := tx_eq_some.mp ht
  have hmem : (id, t') ∈ a.txsIter tx.transactionId.sender :=
    mem_filter.mpr ⟨mem_toList.mpr ht', by rw [beq_iff_eq]; exact hs⟩
  unfold containsConflictingTransaction at hno
  cases hl : a.txsIter tx.transactionId.sender with
  | nil =>
    rw [hl] at hmem
    nomatch hmem
  | cons e rest =>
    rw [hl] at hno
    have he : e ∈ a.txsIter tx.transactionId.sender := by
      rw [hl]
      exact mem_cons_self
    obtain ⟨hm, hsender⟩ := mem_filter.mp he
    have hfirst : tx.isEip4844 = e.2.transaction.isEip4844 := by
      simpa [ValidPoolTransaction.txTypeConflictsWith] using hno
    rw [hfirst]
    refine h.exclusive ht (tx_eq_some.mpr ⟨e.2, mem_toList.mp hm, rfl⟩) ?_
    rw [hs, beq_iff_eq.mp hsender]
    rfl

theorem Indexed.placed (h : Indexed a) (hchecked : a.ensureInsertable tx balance nonce = .ok ())
    (hhash : a.contains tx.hash = false) : Indexed (a.placed tx nonce) := by
  have hfresh : ∀ id tx', a.tx id = some tx' → tx'.hash ≠ tx.hash := by
    intro id tx' ht heq
    have := h.byHash_of_tx ht
    rw [AllTransactions.contains, ← ExtTreeMap.isSome_getElem?_eq_contains, ← heq, this] at hhash
    nomatch hhash
  have htype : ∀ id tx', a.tx id = some tx' → id.sender = tx.senderId →
      tx'.isEip4844 = tx.isEip4844 :=
    fun id tx' ht hs => h.type_of_ensureValid (ensureInsertable_eq_ok hchecked).1 ht hs
  unfold AllTransactions.placed base
  cases hex : a.txs[tx.id]? with
  | none => exact h.withTx (tx_eq_none.mpr hex) hfresh htype
  | some existing =>
    have htx : a.tx tx.id = some existing.transaction := tx_eq_some.mpr ⟨existing, hex, rfl⟩
    have hsub : ∀ {id tx'}, (a.without tx.id existing.transaction).tx id = some tx' →
        a.tx id = some tx' := by
      intro id tx' ht
      rw [tx_without] at ht
      by_cases hid : tx.id = id
      · rw [if_pos hid] at ht
        nomatch ht
      · rw [if_neg hid] at ht
        exact ht
    refine (h.without htx).withTx ?_ (fun id tx' ht => hfresh id tx' (hsub ht))
      (fun id tx' ht => htype id tx' (hsub ht))
    show (a.without tx.id existing.transaction).tx tx.id = none
    rw [tx_without, if_pos rfl]

theorem txs_placed (a : AllTransactions) (tx : ValidPoolTransaction) (nonce : Nat) :
    (a.placed tx nonce).txs = a.txs.insert tx.id (a.poolTx tx nonce) := by
  show (a.base tx).txs.insert tx.id _ = _
  unfold base
  cases a.txs[tx.id]? with
  | none => rfl
  | some existing => exact erase_insert _ _ _

/-! ## Metadata passes -/

section

variable {S : Type}
  {visit : S → TransactionId → PoolInternalTransaction → S × PoolInternalTransaction × List PoolUpdate}

variable {l : List (TransactionId × PoolInternalTransaction)}

theorem Indexed.of_sweep (h : Indexed a)
    (hvisit : ∀ s id t, (visit s id t).2.1.transaction = t.transaction)
    (hl : l.Sublist a.txs.toList) (s : S) :
    Indexed { a with txs := (sweep visit l s a.txs []).2.1 } := by
  refine h.congr (fun id => ?_) rfl rfl rfl
  refine sweep_induction _ (P := fun _ m _ => m[id]?.map (·.transaction) = a.tx id) ?_ l s a.txs []
    ((nodup_keys a.txs).sublist (hl.map Prod.fst)) (fun e he => mem_toList.mp (hl.subset he)) rfl
  intro s m us k t hk hP
  rw [get_insert]
  by_cases hid : k = id
  · rw [if_pos hid, ← hP, ← hid, hk]
    exact congrArg some (hvisit s k t)
  · rw [if_neg hid]
    exact hP

end

variable (baseFee : Nat)

theorem visitFirst_transaction (changedBalance : Option U256) (id : TransactionId)
    (t : PoolInternalTransaction) :
    (visitFirst baseFee changedBalance id t).2.1.transaction = t.transaction := by
  unfold visitFirst
  split <;> rfl

variable (changed : ExtTreeMap SenderId SenderInfo)

theorem visitSender_transaction (id : TransactionId) (t : PoolInternalTransaction) :
    (visitSender changed baseFee id t).2.1.transaction = t.transaction := by
  unfold visitSender
  split
  · split
    · rfl
    · rw [visitFirst_transaction]
      split <;> rfl
  · exact visitFirst_transaction _ _ _ _

theorem insertVisit_transaction (balance : U256) (insertedTxId : TransactionId)
    (c : InsertCursor) (id : TransactionId) (t : PoolInternalTransaction) :
    (insertVisit balance insertedTxId c id t).2.1.transaction = t.transaction := by
  unfold insertVisit
  split <;> rfl

theorem descendantTxsInclusive_sublist (txs : ExtTreeMap TransactionId PoolInternalTransaction)
    (id : TransactionId) : (descendantTxsInclusive txs id).Sublist txs.toList :=
  filter_sublist

theorem Indexed.update (h : Indexed a) (changed : ExtTreeMap SenderId SenderInfo) :
    Indexed (a.update changed).2 := by
  refine h.of_sweep (fun c id t => ?_) (Sublist.refl _) _
  unfold updateVisit
  split
  · exact visitSender_transaction _ _ _ _
  · split
    · rfl
    · exact visitSender_transaction _ _ _ _
  · split
    · split
      · unfold visitConsecutive
        split <;> rfl
      · rfl
    · exact visitSender_transaction _ _ _ _

theorem Indexed.parkDescendantTransactions (h : Indexed a) (id : TransactionId) :
    Indexed (a.parkDescendantTransactions id).2 :=
  h.of_sweep (fun _ _ _ => rfl) (descendantTxsInclusive_sublist _ _) _

theorem Indexed.inserts (h : Indexed a) (hins : Inserts a tx balance nonce ok a')
    (hhash : a.contains tx.hash = false) :
    Indexed a' := by
  rw [hins.set_eq]
  exact (h.placed hins.checked hhash).of_sweep (insertVisit_transaction _ _)
    (descendantTxsInclusive_sublist _ _) _

end AllTransactions

end TransactionPool
