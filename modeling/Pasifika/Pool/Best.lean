import Pasifika.Pool.Reachable

/-! # The iterator over the best transactions

`pool/best.rs`: an iterator takes a copy of the pending pool when it is created and
follows the pool through a broadcast channel. It yields the independent transaction
with the highest priority and unlocks the one with the next nonce.

What arrives through the channel is taken as independent if its ancestor is not in
`all`. The ancestor may have been yielded, dropped, replaced, or may never have
arrived; the iterator cannot tell these apart. The nonces it yields for a sender are
consecutive as long as everything that arrives is in order. -/

namespace TransactionPool

open Std (ExtTreeMap ExtTreeSet TransOrd LawfulEqOrd)
open Bool (and_eq_true or_eq_true)
open OrderedMap List Option Nat

/-! ## The order of pending transactions -/

namespace PendingOrd

variable {V : Type} [LinearOrder V]

instance : Std.TransCmp (fun a b : PendingOrd V => compareOn submissionId b a) :=
  inferInstanceAs (Std.TransCmp (fun a b => (compareOn submissionId) b a))

instance : TransOrd (PendingOrd V) :=
  inferInstanceAs (Std.TransCmp
    (compareLex (compareOn priority) (fun a b => compareOn submissionId b a)))

instance : LawfulEqOrd (PendingOrd V) where
  eq_of_compare {a b} h := by
    obtain ⟨hp, hs⟩ := Ordering.then_eq_eq.mp h
    cases a
    cases b
    rw [mk.injEq]
    exact ⟨Std.compare_eq_iff_eq.mp hp, (Std.compare_eq_iff_eq.mp hs).symm⟩

end PendingOrd

/-! ## Reading the channel -/

namespace Broadcast

variable {M : Type}

/-- The position of the oldest message that is kept. -/
def oldest (b : Broadcast M) : Nat := b.log.length - b.capacity

/-- What a receiver can still read. -/
def unread (b : Broadcast M) (position : Nat) : List M := b.log.drop (max position b.oldest)

/-- `Receiver::try_recv`, again after `Lagged`, which moves a receiver to the oldest message. -/
def tryRecv (b : Broadcast M) (position : Nat) : Option M × Nat :=
  let position := max position b.oldest
  match b.log[position]? with
  | some msg => (some msg, position + 1)
  | none => (none, position)

/-- A receiver reads the messages one by one. -/
theorem tryRecv_eq (b : Broadcast M) (position : Nat) :
    (b.tryRecv position).1 = (b.unread position).head? ∧
      b.unread (b.tryRecv position).2 = (b.unread position).tail := by
  rw [tryRecv, unread, head?_drop, tail_drop]
  cases h : b.log[max position b.oldest]? with
  | some msg =>
    refine ⟨rfl, ?_⟩
    show b.log.drop (max (max position b.oldest + 1) b.oldest) = _
    rw [max_eq_left (le_succ_of_le (le_max_right _ _))]
  | none =>
    refine ⟨rfl, ?_⟩
    show b.log.drop (max (max position b.oldest) b.oldest) = _
    have hlen := getElem?_eq_none_iff.mp h
    rw [Nat.max_eq_left (Nat.le_max_right _ _), drop_eq_nil_of_le hlen,
      drop_eq_nil_of_le (le_succ_of_le hlen)]

end Broadcast

/-! ## The iterator -/

/-- `BestTransactions`. The set `independent` is a map from the `PendingOrd` that it is ordered by;
    the receiver is its position. -/
structure BestTransactions (V : Type) [LinearOrder V] where
  all : ExtTreeMap TransactionId (PendingTransaction V)
  independent : ExtTreeMap (PendingOrd V) (PendingTransaction V)
  invalid : ExtTreeSet SenderId
  newTransactionReceiver : Option Nat
  lastPriority : Option (Priority V)
  skipBlobs : Bool

variable {V : Type} [LinearOrder V]

/-- Add to the ordered set; an equal element stays. -/
def addIndependent (independent : ExtTreeMap (PendingOrd V) (PendingTransaction V))
    (tx : PendingTransaction V) : ExtTreeMap (PendingOrd V) (PendingTransaction V) :=
  independent.insertIfNew tx.ord tx

/-- `PendingPool::best`, which also subscribes to the channel. -/
def PendingPool.best (p : PendingPool V) : BestTransactions V × PendingPool V :=
  let r := p.newTransactionNotifier.subscribe
  ({ all := p.byId
     independent := (p.independentTransactions.toList.map Prod.snd).foldl addIndependent ∅
     invalid := ∅
     newTransactionReceiver := some r.1
     lastPriority := none
     skipBlobs := false },
   { p with newTransactionNotifier := r.2 })

namespace BestTransactions

def markInvalid (b : BestTransactions V) (tx : ValidPoolTransaction) : BestTransactions V :=
  { b with invalid := b.invalid.insert tx.senderId }

def ancestor (b : BestTransactions V) (id : TransactionId) : Option (PendingTransaction V) :=
  id.uncheckedAncestor.bind (fun a => b.all[a]?)

/-- A transaction with a lower priority was yielded already. -/
def outranks (b : BestTransactions V) (tx : PendingTransaction V) : Bool :=
  b.lastPriority.any (fun lastPriority => (compare tx.priority lastPriority).isGT)

/-- `BestTransactions::try_recv`: one that comes too late for its priority is taken, and ends the
    reading. -/
def tryRecv (channel : Broadcast (PendingTransaction V)) (b : BestTransactions V) :
    Option (PendingTransaction V) × BestTransactions V :=
  match b.newTransactionReceiver with
  | none => (none, b)
  | some position =>
    let r := channel.tryRecv position
    let b := { b with newTransactionReceiver := some r.2 }
    (r.1.filter (fun tx => !b.outranks tx), b)

/-- The messages an iterator can still read. -/
def unread (channel : Broadcast (PendingTransaction V)) (b : BestTransactions V) :
    List (PendingTransaction V) :=
  b.newTransactionReceiver.elim [] channel.unread

def popBest (b : BestTransactions V) : Option (PendingTransaction V) × BestTransactions V :=
  match b.independent.toList.getLast? with
  | none => (none, b)
  | some (ord, best) =>
    (some best, { b with
      independent := b.independent.erase ord
      all := b.all.erase best.transaction.id })

/-- Take over one transaction that arrived. -/
def takeOver (b : BestTransactions V) (tx : PendingTransaction V) : BestTransactions V :=
  { b with
    independent :=
      if (b.ancestor tx.transaction.id).isNone then addIndependent b.independent tx
      else b.independent
    all := b.all.insert tx.transaction.id tx }

/-- The loop of `add_new_transactions`. -/
def addNewTransactionsLoop (channel : Broadcast (PendingTransaction V)) :
    Nat → BestTransactions V → BestTransactions V
  | 0, b => b
  | fuel + 1, b =>
    match b.tryRecv channel with
    | (some tx, b) => addNewTransactionsLoop channel fuel (b.takeOver tx)
    | (none, b) => b

/-- `add_new_transactions`: one round for each message and one that finds none. -/
def addNewTransactions (channel : Broadcast (PendingTransaction V)) (b : BestTransactions V) :
    BestTransactions V :=
  addNewTransactionsLoop channel ((b.unread channel).length + 1) b

/-- Insert the transaction that just got unlocked. -/
def unlock (b : BestTransactions V) (best : PendingTransaction V) : BestTransactions V :=
  match b.all[best.transaction.id.descendant]? with
  | some unlocked => { b with independent := addIndependent b.independent unlocked }
  | none => b

def noUpdates (b : BestTransactions V) : BestTransactions V :=
  { b with newTransactionReceiver := none, lastPriority := none }

def setSkipBlobs (b : BestTransactions V) (skipBlobs : Bool) : BestTransactions V :=
  { b with skipBlobs }

/-- `BestTransactions::next`; `fuel` bounds the rounds of its loop. -/
def next (channel : Broadcast (PendingTransaction V)) :
    Nat → BestTransactions V → Option (Option ValidPoolTransaction × BestTransactions V)
  | 0, _ => none
  | fuel + 1, b =>
    match (b.addNewTransactions channel).popBest with
    | (none, b) => some (none, b)
    | (some best, b) =>
      if b.invalid.contains best.transaction.senderId then next channel fuel b
      else
        let b := b.unlock best
        if b.skipBlobs && best.transaction.isEip4844 then
          next channel fuel (b.markInvalid best.transaction)
        else if b.newTransactionReceiver.isSome then
          some (some best.transaction, { b with lastPriority := some best.priority })
        else some (some best.transaction, b)

end BestTransactions

/-! ## Sessions -/

/-- What the user of an iterator sees and does, in order. -/
inductive Event
  | yielded (tx : ValidPoolTransaction)
  | invalidated (sender : SenderId)

/-- The nonce, if a transaction of the sender was yielded. -/
def Event.nonceOf (sender : SenderId) : Event → Option Nat
  | .yielded tx => if tx.senderId = sender then some tx.nonce else none
  | .invalidated _ => none

/-- The id, if a transaction was yielded. -/
def Event.yieldedId : Event → Option TransactionId
  | .yielded tx => some tx.id
  | .invalidated _ => none

/-- The nonces yielded for a sender, in order. -/
def yieldedNonces (sender : SenderId) (trace : List Event) : List Nat :=
  trace.filterMap (Event.nonceOf sender)

/-- The ids of the transactions that were yielded. -/
def yieldedIds (trace : List Event) : List TransactionId := trace.filterMap Event.yieldedId

/-- A pending pool and an iterator over it, with what happened so far, and the lowest pending nonce
    of a sender: at first, or of its first transaction that was added later. -/
structure Session (V : Type) [LinearOrder V] where
  pool : PendingPool V
  best : BestTransactions V
  lowest : SenderId → Option Nat
  trace : List Event

/-- The lowest nonce of a sender in the pending pool. -/
def PendingPool.lowestNonce (p : PendingPool V) (sender : SenderId) : Option Nat :=
  (p.iterTxsBySender sender).head?.map TransactionId.nonce

namespace Session

/-- A session starts with `PendingPool::best`. -/
def start (p : PendingPool V) : Session V where
  pool := p.best.2
  best := p.best.1
  lowest := p.lowestNonce
  trace := []

/-- The calls of a session. -/
inductive Op
  | next
  | markInvalid (tx : ValidPoolTransaction)
  | noUpdates
  | setSkipBlobs (skipBlobs : Bool)
  | addTransaction (tx : ValidPoolTransaction) (baseFee : Nat)
  | removeTransaction (id : TransactionId)

/-- The session after a call; `fuel` bounds the loop of `next`. -/
def apply (fuel : Nat) (s : Session V) : Op → Option (Session V)
  | .next => do
      let r ← s.best.next s.pool.newTransactionNotifier fuel
      some { s with best := r.2, trace := s.trace ++ r.1.toList.map Event.yielded }
  | .markInvalid tx =>
    some { s with
      best := s.best.markInvalid tx, trace := s.trace ++ [.invalidated tx.senderId] }
  | .noUpdates => some { s with best := s.best.noUpdates }
  | .setSkipBlobs skipBlobs => some { s with best := s.best.setSkipBlobs skipBlobs }
  | .addTransaction tx baseFee =>
    some { s with
      pool := s.pool.addTransaction tx baseFee
      lowest := fun sender =>
        (s.lowest sender).or (if tx.senderId = sender then some tx.nonce else none) }
  | .removeTransaction id => some { s with pool := (s.pool.removeTransaction id).2 }

/-- The call returned with the session `s'`. -/
def Step (s : Session V) (op : Op) (s' : Session V) : Prop := ∃ fuel, s.apply fuel op = some s'

/-- The nonce that comes next for a sender. -/
def expected (s : Session V) (sender : SenderId) : Option Nat :=
  match (yieldedNonces sender s.trace).getLast? with
  | some nonce => some (nonce + 1)
  | none => s.lowest sender

end Session

/-! ## What may arrive -/

namespace BestTransactions

/-- **IN ORDER**: the sender was given up, or the ancestor still waits, or nothing of the sender
    does and this nonce comes next. -/
def inOrder (expected : SenderId → Option Nat) (b : BestTransactions V)
    (tx : PendingTransaction V) : Bool :=
  b.invalid.contains tx.transaction.senderId ||
    (b.ancestor tx.transaction.id).isSome ||
    b.all.toList.all (fun e => decide (e.1.sender ≠ tx.transaction.senderId)) &&
      expected tx.transaction.senderId == some tx.transaction.nonce

/-- Every message that does not come too late for its priority is in order after those before it. -/
def arrivalsInOrder (expected : SenderId → Option Nat) :
    List (PendingTransaction V) → BestTransactions V → Bool
  | [], _ => true
  | tx :: txs, b =>
    if b.outranks tx then arrivalsInOrder expected txs b
    else b.inOrder expected tx && arrivalsInOrder expected txs (b.takeOver tx)

end BestTransactions

/-- What the calls of a session must meet: `next` finds messages that are in order. -/
def Session.orderly (s : Session V) : Session.Op → Bool
  | .next => BestTransactions.arrivalsInOrder s.expected
      (s.best.unread s.pool.newTransactionNotifier) s.best
  | _ => true

/-! ## The waiting transactions of a sender -/

/-- The waiting nonces are consecutive from the expected one on, which alone is independent. -/
structure BestTransactions.Lined (b : BestTransactions V) (sender : SenderId)
    (expected : Option Nat) : Prop where
  waiting : ∀ n, b.all[(⟨sender, n⟩ : TransactionId)]? ≠ none →
    ∃ a, expected = some a ∧ a ≤ n ∧
      ∀ m, a ≤ m → m ≤ n → b.all[(⟨sender, m⟩ : TransactionId)]? ≠ none
  independent : ∀ {ord : PendingOrd V} {t : PendingTransaction V},
    b.independent[ord]? = some t → t.transaction.senderId = sender →
      ∃ a, expected = some a ∧ b.all[(⟨sender, a⟩ : TransactionId)]? = some t

/-- Entries sit under their keys, and every sender that was not given up is lined up. -/
structure BestTransactions.Ordered (expected : SenderId → Option Nat)
    (b : BestTransactions V) : Prop where
  key : ∀ {id : TransactionId} {t : PendingTransaction V}, b.all[id]? = some t →
    t.transaction.id = id
  rank : ∀ {ord : PendingOrd V} {t : PendingTransaction V}, b.independent[ord]? = some t →
    t.ord = ord
  lined : ∀ sender, b.invalid.contains sender = false → b.Lined sender (expected sender)

variable {ord : PendingOrd V} {m : ExtTreeMap (PendingOrd V) (PendingTransaction V)}
variable {t : PendingTransaction V}

theorem get_addIndependent (h : (addIndependent m tx)[ord]? = some t) :
    tx.ord = ord ∧ t = tx ∨ m[ord]? = some t := by
  rw [addIndependent, ExtTreeMap.getElem?_insertIfNew] at h
  split at h
  · next hnew => exact .inl ⟨Std.compare_eq_iff_eq.mp hnew.1, (some.inj h).symm⟩
  · exact .inr h

namespace BestTransactions

section

variable {expected : SenderId → Option Nat} {b b' : BestTransactions V}

theorem Lined.congr (h : b.Lined sender e)
    (hall : ∀ n, b'.all[TransactionId.mk sender n]? = b.all[TransactionId.mk sender n]?)
    (hind : ∀ {ord : PendingOrd V} {t : PendingTransaction V}, b'.independent[ord]? = some t →
      t.transaction.senderId = sender → b.independent[ord]? = some t) : b'.Lined sender e := by
  refine ⟨fun n hn => ?_, fun ht hs => ?_⟩
  · rw [hall] at hn
    obtain ⟨a, ha, hle, hbetween⟩ := h.waiting n hn
    exact ⟨a, ha, hle, fun m h1 h2 => by rw [hall]; exact hbetween m h1 h2⟩
  · obtain ⟨a, ha, hget⟩ := h.independent (hind ht hs) hs
    exact ⟨a, ha, by rw [hall]; exact hget⟩

theorem ancestor_isSome {id : TransactionId} (h : (b.ancestor id).isSome = true) :
    ∃ n, id.nonce = n + 1 ∧ b.all[TransactionId.mk id.sender n]? ≠ none := by
  obtain ⟨t, ht⟩ := isSome_iff_exists.mp h
  obtain ⟨a, ha, hget⟩ := bind_eq_some_iff.mp ht
  obtain ⟨hs, hn⟩ := TransactionId.uncheckedAncestor_eq_some.mp ha
  refine ⟨a.nonce, hn.symm, ?_⟩
  rw [← hs, hget]
  exact some_ne_none t

variable {tx : PendingTransaction V} {r : Option ValidPoolTransaction}

/-- **AN ARRIVAL** in order. -/
theorem Ordered.takeOver (h : b.Ordered expected) (hin : b.inOrder expected tx = true) :
    (b.takeOver tx).Ordered expected := by
  have hind : ∀ {ord : PendingOrd V} {t : PendingTransaction V},
      (b.takeOver tx).independent[ord]? = some t →
        (tx.ord = ord ∧ t = tx ∧ (b.ancestor tx.transaction.id).isSome = false) ∨
          b.independent[ord]? = some t := by
    intro ord t ht
    replace ht : (if (b.ancestor tx.transaction.id).isNone then addIndependent b.independent tx
      else b.independent)[ord]? = some t := ht
    split at ht
    · next hnone =>
      rcases get_addIndependent ht with ⟨hord, rfl⟩ | hold
      · exact .inl ⟨hord, rfl, by rw [isNone_iff_eq_none.mp hnone]; rfl⟩
      · exact .inr hold
    · exact .inr ht
  have hall : ∀ id : TransactionId, (b.takeOver tx).all[id]? =
      if tx.transaction.id = id then some tx else b.all[id]? := fun id => get_insert _ _ _ _
  refine ⟨fun {id t} ht => ?_, fun {ord t} ht => ?_, fun sender hvalid => ?_⟩
  · rw [hall] at ht
    split at ht
    · next hid =>
      rw [← some.inj ht]
      exact hid
    · exact h.key ht
  · rcases hind ht with ⟨hord, rfl, -⟩ | hold
    · exact hord
    · exact h.rank hold
  · have hline := h.lined sender hvalid
    by_cases hs : tx.transaction.senderId = sender
    · subst hs
      have hid : ∀ n, tx.transaction.id = ⟨tx.transaction.senderId, n⟩ ↔ tx.transaction.nonce = n :=
        fun n => by rw [ValidPoolTransaction.id_eq, TransactionId.mk.injEq]; simp only [true_and]
      rw [inOrder, or_eq_true, or_eq_true,
        show b.invalid.contains tx.transaction.senderId = false from hvalid] at hin
      rcases hin with (hbad | hanc) | hfirst
      · nomatch hbad
      · -- it extends the line, or replaces one that is not the first
        obtain ⟨k, hk, hwait⟩ := ancestor_isSome hanc
        replace hk : tx.transaction.nonce = k + 1 := by
          rw [← hk, ValidPoolTransaction.id_eq]
        obtain ⟨a, ha, hle, hbetween⟩ := hline.waiting k hwait
        refine ⟨fun n hn => ?_, fun {ord t} ht hts => ?_⟩
        · have hup : ∀ m, a ≤ m → m ≤ k + 1 →
              (b.takeOver tx).all[TransactionId.mk tx.transaction.senderId m]? ≠ none := by
            intro m h1 h2
            rw [hall]
            split
            · exact some_ne_none tx
            · next hne =>
              refine hbetween m h1 (le_of_lt_succ (lt_of_le_of_ne h2 ?_))
              exact fun heq => hne ((hid m).mpr (hk.trans heq.symm))
          by_cases hn' : n ≤ k + 1
          · refine ⟨a, ha, ?_, fun m h1 h2 => hup m h1 (le_trans h2 hn')⟩
            by_contra hlt
            rw [hall, if_neg fun heq => hlt (by rw [← (hid n).mp heq, hk]; omega)] at hn
            obtain ⟨a', ha', hle', -⟩ := hline.waiting n hn
            rw [ha] at ha'
            cases ha'
            exact hlt hle'
          · rw [hall, if_neg fun heq => hn' (by rw [← (hid n).mp heq, hk])] at hn
            obtain ⟨a', ha', hle', hb'⟩ := hline.waiting n hn
            refine ⟨a', ha', hle', fun m h1 h2 => ?_⟩
            rw [hall]
            split
            · exact some_ne_none tx
            · exact hb' m h1 h2
        · rcases hind ht with ⟨-, -, hno⟩ | hold
          · rw [hanc] at hno
            nomatch hno
          obtain ⟨a', ha', hget⟩ := hline.independent hold hts
          rw [ha] at ha'
          cases ha'
          refine ⟨a, ha, ?_⟩
          rw [hall, if_neg fun heq => ?_]
          · exact hget
          · have := (hid a).mp heq
            omega
      · -- nothing of the sender waits
        obtain ⟨hempty, hexp⟩ := (and_eq_true _ _).mp hfirst
        have hnone : ∀ n, b.all[TransactionId.mk tx.transaction.senderId n]? = none := by
          intro n
          refine eq_none_iff_forall_ne_some.mpr fun t ht => ?_
          exact of_decide_eq_true (all_eq_true.mp hempty _ (mem_toList.mpr ht)) rfl
        replace hexp := beq_iff_eq.mp hexp
        refine ⟨fun n hn => ?_, fun {ord t} ht hts => ?_⟩
        · rw [hall] at hn
          split at hn
          · next heq =>
            refine ⟨n, by rw [hexp, (hid n).mp heq], le_refl n, fun m h1 h2 => ?_⟩
            rw [le_antisymm h2 h1, hall, if_pos heq]
            exact some_ne_none tx
          · exact absurd (hnone n) hn
        · rcases hind ht with ⟨-, rfl, -⟩ | hold
          · exact ⟨_, hexp, by rw [hall, if_pos ((hid _).mpr rfl)]⟩
          · obtain ⟨a, -, hget⟩ := hline.independent hold hts
            rw [hnone a] at hget
            nomatch hget
    · refine hline.congr (fun n => ?_) (fun {ord t} ht hts => ?_)
      · rw [hall, if_neg (fun heq => hs (by
          rw [ValidPoolTransaction.senderId, ← ValidPoolTransaction.id, heq]))]
      · rcases hind ht with ⟨-, rfl, -⟩ | hold
        · exact absurd hts hs
        · exact hold

variable {best : PendingTransaction V}

theorem popBest_some (h : b.popBest = (some best, b')) :
    ∃ ord, b.independent[ord]? = some best ∧
      b' = { b with
        independent := b.independent.erase ord, all := b.all.erase best.transaction.id } := by
  rw [popBest] at h
  split at h
  · nomatch h
  · next ord best' hlast =>
    cases h
    exact ⟨ord, mem_toList.mp (mem_of_getLast? hlast), rfl⟩

theorem popBest_none (h : b.popBest = (none, b')) : b' = b := by
  rw [popBest] at h
  split at h
  · exact (Prod.mk.inj h).2.symm
  · nomatch h

theorem unlock_frame (b : BestTransactions V) (best : PendingTransaction V) :
    (b.unlock best).all = b.all ∧ (b.unlock best).invalid = b.invalid
      ∧ (b.unlock best).lastPriority = b.lastPriority
      ∧ (b.unlock best).newTransactionReceiver = b.newTransactionReceiver := by
  rw [unlock]
  split
  · exact ⟨rfl, rfl, rfl, rfl⟩
  · exact ⟨rfl, rfl, rfl, rfl⟩

theorem get_unlock (h : (b.unlock best).independent[ord]? = some t) :
    b.all[best.transaction.id.descendant]? = some t ∧ t.ord = ord
      ∨ b.independent[ord]? = some t := by
  rw [unlock] at h
  split at h
  · next unlocked hget =>
    rcases get_addIndependent h with ⟨hord, rfl⟩ | hold
    · exact .inl ⟨hget, hord⟩
    · exact .inr hold
  · exact .inr h

theorem Ordered.popped (h : b.Ordered expected) (hpop : b.popBest = (some best, b')) :
    (∀ {id : TransactionId} {t : PendingTransaction V}, b'.all[id]? = some t →
      t.transaction.id = id)
    ∧ (∀ {ord : PendingOrd V} {t : PendingTransaction V}, b'.independent[ord]? = some t →
      t.ord = ord)
    ∧ (∀ {sender : SenderId}, sender ≠ best.transaction.senderId →
      (∀ n, b'.all[TransactionId.mk sender n]? = b.all[TransactionId.mk sender n]?)
      ∧ ∀ {ord : PendingOrd V} {t : PendingTransaction V}, b'.independent[ord]? = some t →
        b.independent[ord]? = some t) := by
  obtain ⟨ord0, hget, rfl⟩ := popBest_some hpop
  have hind : ∀ {ord : PendingOrd V} {t : PendingTransaction V},
      (b.independent.erase ord0)[ord]? = some t → b.independent[ord]? = some t := by
    intro ord t ht
    rw [get_erase] at ht
    split at ht
    · nomatch ht
    · exact ht
  refine ⟨fun {id t} ht => ?_, fun ht => h.rank (hind ht), fun {sender} hne => ⟨fun n => ?_, hind⟩⟩
  · replace ht := (get_erase _ _ _).symm.trans ht
    split at ht
    · nomatch ht
    · exact h.key ht
  · exact get_erase_ne (fun heq => hne (by
      rw [ValidPoolTransaction.senderId, ← ValidPoolTransaction.id, heq]))

/-- The transaction taken out of a sender in line is the expected one. -/
theorem Ordered.popped_expected (h : b.Ordered expected) (hpop : b.popBest = (some best, b'))
    (hvalid : b.invalid.contains best.transaction.senderId = false) :
    expected best.transaction.senderId = some best.transaction.nonce := by
  obtain ⟨ord0, hget, -⟩ := popBest_some hpop
  obtain ⟨a, ha, hall⟩ := (h.lined _ hvalid).independent hget rfl
  have hkey := h.key hall
  rw [ValidPoolTransaction.id_eq] at hkey
  rw [ha, (TransactionId.mk.inj hkey).2]

/-- **A YIELD**: the next nonce is expected, and it is unlocked if it waits. -/
theorem Ordered.yield (h : b.Ordered expected) (hpop : b.popBest = (some best, b'))
    (hvalid : b.invalid.contains best.transaction.senderId = false) :
    (b'.unlock best).Ordered (fun sender =>
      if sender = best.transaction.senderId then some (best.transaction.nonce + 1)
      else expected sender) := by
  obtain ⟨hkey, hrank, hother⟩ := h.popped hpop
  obtain ⟨hall, hinv, -, -⟩ := unlock_frame b' best
  refine ⟨fun {id t} ht => hkey (hall ▸ ht), fun {ord t} ht => ?_, fun sender hs => ?_⟩
  · rcases get_unlock ht with ⟨-, hord⟩ | hold
    · exact hord
    · exact hrank hold
  · obtain ⟨ord0, hget, rfl⟩ := popBest_some hpop
    rw [hinv] at hs
    have hdesc : best.transaction.id.descendant =
        ⟨best.transaction.senderId, best.transaction.nonce + 1⟩ := by
      rw [ValidPoolTransaction.id_eq]
      rfl
    by_cases hsame : sender = best.transaction.senderId
    · subst hsame
      obtain ⟨a, ha, hfirst⟩ := (h.lined _ hvalid).independent hget rfl
      have hnonce : best.transaction.nonce = a := by
        have hk := h.key hfirst
        rw [ValidPoolTransaction.id_eq] at hk
        exact (TransactionId.mk.inj hk).2
      have herase : ∀ n, (b.all.erase best.transaction.id)[(⟨best.transaction.senderId, n⟩ :
          TransactionId)]? = if a = n then none
            else b.all[TransactionId.mk best.transaction.senderId n]? := by
        intro n
        rw [get_erase, ValidPoolTransaction.id_eq, hnonce]
        simp only [TransactionId.mk.injEq, true_and]
      rw [if_pos rfl]
      refine ⟨fun n hn => ⟨a + 1, by rw [hnonce], ?_⟩, fun {ord t} ht hts => ?_⟩
      · rw [hall, herase] at hn
        split at hn
        · exact absurd rfl hn
        · next hne =>
          obtain ⟨a', ha', hle, hbetween⟩ := (h.lined _ hvalid).waiting n hn
          rw [ha] at ha'
          cases ha'
          refine ⟨lt_of_le_of_ne hle hne, fun m h1 h2 => ?_⟩
          rw [hall, herase, if_neg (ne_of_lt h1)]
          exact hbetween m (le_of_succ_le h1) h2
      · refine ⟨a + 1, by rw [hnonce], ?_⟩
        rw [hall]
        rcases get_unlock ht with ⟨hunl, -⟩ | hold
        · rw [hdesc, hnonce] at hunl
          exact hunl
        -- the one taken out was the only one of the sender
        replace hold := (get_erase _ _ _).symm.trans hold
        split at hold
        · nomatch hold
        · next hne =>
          obtain ⟨a', ha', hget'⟩ := (h.lined _ hvalid).independent hold hts
          rw [ha] at ha'
          cases ha'
          rw [hfirst] at hget'
          cases hget'
          exact absurd ((h.rank hget).symm.trans (h.rank hold)) hne
    · rw [if_neg hsame]
      obtain ⟨hall', hind'⟩ := hother hsame
      refine (h.lined sender hs).congr (fun n => by rw [hall, hall']) fun {ord t} ht hts => ?_
      rcases get_unlock ht with ⟨hunl, -⟩ | hold
      · have hk := hkey hunl
        rw [hdesc] at hk
        refine absurd ?_ hsame
        rw [← hts, ValidPoolTransaction.senderId, ← ValidPoolTransaction.id, hk]
      · exact hind' hold

theorem Ordered.of_same (h : b.Ordered expected) (hall : b'.all = b.all)
    (hind : b'.independent = b.independent)
    (hinv : ∀ sender, b'.invalid.contains sender = false → b.invalid.contains sender = false) :
    b'.Ordered expected := by
  refine ⟨fun ht => h.key (hall ▸ ht), fun ht => h.rank (hind ▸ ht), fun sender hs => ?_⟩
  exact (h.lined sender (hinv sender hs)).congr (fun n => by rw [hall]) fun ht _ => hind ▸ ht

theorem contains_markInvalid (b : BestTransactions V) (tx : ValidPoolTransaction)
    (sender : SenderId) : (b.markInvalid tx).invalid.contains sender =
      (decide (tx.senderId = sender) || b.invalid.contains sender) := by
  show (b.invalid.insert tx.senderId).contains sender = _
  rw [ExtTreeSet.contains_insert]
  congr 1
  rw [Bool.eq_iff_iff, beq_iff_eq, decide_eq_true_eq, Std.compare_eq_iff_eq]

/-- A sender that is given up needs no order. -/
theorem Ordered.markInvalid (h : b.Ordered expected) (tx : ValidPoolTransaction)
    (hsame : ∀ sender ≠ tx.senderId, expected' sender = expected sender) :
    (b.markInvalid tx).Ordered expected' := by
  refine ⟨h.key, h.rank, fun sender hs => ?_⟩
  rw [contains_markInvalid, Bool.or_eq_false_iff, decide_eq_false_iff_not] at hs
  rw [hsame sender (Ne.symm hs.1)]
  exact (h.lined sender hs.2).congr (fun _ => rfl) fun ht _ => ht

/-! ## One call of `next` -/

/-- The messages are looked at with less: some senders were given up meanwhile. -/
structure Narrowed (b b' : BestTransactions V) : Prop where
  last : b'.lastPriority = b.lastPriority
  kept : ∀ sender, b'.invalid.contains sender = false → b.invalid.contains sender = false ∧
    ∀ n, b'.all[(⟨sender, n⟩ : TransactionId)]? = b.all[(⟨sender, n⟩ : TransactionId)]?

theorem Narrowed.takeOver (h : Narrowed b b') (tx : PendingTransaction V) :
    Narrowed (b.takeOver tx) (b'.takeOver tx) := by
  refine ⟨h.last, fun sender hs => ⟨(h.kept sender hs).1, fun n => ?_⟩⟩
  show (b'.all.insert _ _)[_]? = (b.all.insert _ _)[_]?
  rw [get_insert, get_insert, (h.kept sender hs).2]

theorem Narrowed.inOrder (h : Narrowed b b') (hin : b.inOrder expected tx = true) :
    b'.inOrder expected tx = true := by
  rw [BestTransactions.inOrder, or_eq_true, or_eq_true]
  by_cases hbad : b'.invalid.contains tx.transaction.senderId = true
  · exact .inl (.inl hbad)
  obtain ⟨hvalid, hall⟩ := h.kept _ (Bool.eq_false_iff.mpr hbad)
  rw [BestTransactions.inOrder, or_eq_true, or_eq_true, hvalid] at hin
  rcases hin with (hno | hanc) | hfirst
  · nomatch hno
  · refine .inl (.inr ?_)
    obtain ⟨t, ht⟩ := isSome_iff_exists.mp hanc
    obtain ⟨a, ha, hget⟩ := bind_eq_some_iff.mp ht
    have hs : a.sender = tx.transaction.senderId :=
      (TransactionId.uncheckedAncestor_eq_some.mp ha).1
    rw [ancestor, ha, bind_some, show a = ⟨tx.transaction.senderId, a.nonce⟩ by rw [← hs],
      hall, ← hs, hget]
    rfl
  · refine .inr ((and_eq_true _ _).mpr ⟨?_, ((and_eq_true _ _).mp hfirst).2⟩)
    refine all_eq_true.mpr fun e he => decide_eq_true fun hes => ?_
    have hget : b'.all[e.1]? = some e.2 := mem_toList.mp he
    rw [show e.1 = ⟨tx.transaction.senderId, e.1.nonce⟩ by rw [← hes], hall] at hget
    exact of_decide_eq_true (all_eq_true.mp ((and_eq_true _ _).mp hfirst).1 _
      (mem_toList.mpr hget)) rfl

theorem Narrowed.arrivalsInOrder (h : Narrowed b b') (hin : b.arrivalsInOrder expected txs = true) :
    b'.arrivalsInOrder expected txs = true := by
  induction txs generalizing b b' with
  | nil => rfl
  | cons tx txs ih =>
    rw [BestTransactions.arrivalsInOrder] at hin ⊢
    rw [show b'.outranks tx = b.outranks tx by rw [outranks, outranks, h.last]]
    split at hin
    · next hout =>
      rw [if_pos hout]
      exact ih h hin
    · next hout =>
      obtain ⟨hfirst, hrest⟩ := (and_eq_true _ _).mp hin
      rw [if_neg hout, and_eq_true]
      exact ⟨h.inOrder hfirst, ih (h.takeOver tx) hrest⟩

variable {channel : Broadcast (PendingTransaction V)}

/-- Reading takes the first message, and only the position changes. -/
theorem tryRecv_spec (channel : Broadcast (PendingTransaction V)) (b : BestTransactions V) :
    ∃ receiver, (b.tryRecv channel).2 = { b with newTransactionReceiver := receiver } ∧
      unread channel { b with newTransactionReceiver := receiver } = (b.unread channel).tail ∧
      (b.tryRecv channel).1 = (b.unread channel).head?.filter (!b.outranks ·) := by
  rw [tryRecv, unread]
  cases hrec : b.newTransactionReceiver with
  | none =>
    refine ⟨b.newTransactionReceiver, rfl, ?_, rfl⟩
    rw [hrec]
    rfl
  | some position =>
    obtain ⟨hhead, htail⟩ := channel.tryRecv_eq position
    refine ⟨_, rfl, htail, ?_⟩
    show Option.filter _ (channel.tryRecv position).1 = _
    rw [hhead]
    rfl

/-- **THE ARRIVALS** are taken over one by one. -/
theorem Ordered.addNewTransactionsLoop (fuel : Nat) (h : b.Ordered expected)
    (hin : b.arrivalsInOrder expected (b.unread channel) = true) :
    (addNewTransactionsLoop channel fuel b).Ordered expected ∧
      (addNewTransactionsLoop channel fuel b).arrivalsInOrder expected
      ((addNewTransactionsLoop channel fuel b).unread channel) = true ∧
      (addNewTransactionsLoop channel fuel b).invalid = b.invalid := by
  induction fuel generalizing b with
  | zero => exact ⟨h, hin, rfl⟩
  | succ fuel ih =>
    obtain ⟨receiver, hb, hunread, hread⟩ := tryRecv_spec channel b
    have hsame : Ordered expected { b with newTransactionReceiver := receiver } :=
      h.of_same rfl rfl fun _ hs => hs
    have hnar : Narrowed b { b with newTransactionReceiver := receiver } :=
      ⟨rfl, fun _ hs => ⟨hs, fun _ => rfl⟩⟩
    rw [BestTransactions.addNewTransactionsLoop, ← Prod.mk.eta (p := b.tryRecv channel), hb, hread]
    cases hlist : b.unread channel with
    | nil =>
      have hrest : BestTransactions.arrivalsInOrder expected
          (unread channel { b with newTransactionReceiver := receiver })
          { b with newTransactionReceiver := receiver } = true := by
        rw [hunread, hlist]
        rfl
      exact ⟨hsame, hrest, rfl⟩
    | cons tx txs =>
      rw [hlist, BestTransactions.arrivalsInOrder] at hin
      rw [hlist, tail_cons] at hunread
      rw [head?_cons, filter_some]
      cases hout : b.outranks tx with
      | true =>
        -- the reading ends here; later messages stay unread
        rw [hout, if_pos rfl] at hin
        have hrest : BestTransactions.arrivalsInOrder expected
            (unread channel { b with newTransactionReceiver := receiver })
            { b with newTransactionReceiver := receiver } = true := by
          rw [hunread]
          exact hnar.arrivalsInOrder hin
        exact ⟨hsame, hrest, rfl⟩
      | false =>
        rw [hout] at hin
        obtain ⟨hfirst, hrest⟩ := (and_eq_true _ _).mp hin
        refine ih (hsame.takeOver (hnar.inOrder hfirst)) ?_
        show BestTransactions.arrivalsInOrder _ (unread channel
          { b with newTransactionReceiver := receiver }) _ = true
        rw [hunread]
        exact (hnar.takeOver tx).arrivalsInOrder hrest

/-- What a call of `next` that returned `r` did. -/
def Outcome (expected : SenderId → Option Nat) (b : BestTransactions V)
    (r : Option ValidPoolTransaction) (b' : BestTransactions V) : Prop :=
  (∀ sender, b.invalid.contains sender = true → b'.invalid.contains sender = true) ∧
  match r with
  | none => b'.Ordered expected
  | some tx => b.invalid.contains tx.senderId = false ∧ expected tx.senderId = some tx.nonce ∧
      b'.Ordered (fun sender =>
        if sender = tx.senderId then some (tx.nonce + 1) else expected sender)

theorem Outcome.of_more
    (hmore : ∀ sender, b.invalid.contains sender = true → b1.invalid.contains sender = true)
    (h : Outcome expected b1 r b') : Outcome expected b r b' := by
  refine ⟨fun sender hs => h.1 sender (hmore sender hs), ?_⟩
  have h2 := h.2
  cases r with
  | none => exact h2
  | some tx =>
    refine ⟨?_, h2.2⟩
    by_contra hno
    have := hmore _ (Bool.not_eq_false _ ▸ hno)
    rw [h2.1] at this
    nomatch this

/-- **ONE CALL OF `next`** on an iterator whose arrivals are in order. -/
theorem Ordered.next (fuel : Nat) (h : b.Ordered expected)
    (hin : b.arrivalsInOrder expected (b.unread channel) = true)
    (hnext : BestTransactions.next channel fuel b = some (r, b')) : Outcome expected b r b' := by
  induction fuel generalizing b b' r with
  | zero => nomatch hnext
  | succ fuel ih =>
    obtain ⟨h1, hin1, hinv1⟩ := Ordered.addNewTransactionsLoop ((b.unread channel).length + 1) h hin
    replace h1 : (b.addNewTransactions channel).Ordered expected := h1
    generalize hb1 : b.addNewTransactions channel = b1 at h1
    rw [show BestTransactions.addNewTransactionsLoop _ _ _ = b1 from hb1] at hin1 hinv1
    rw [BestTransactions.next, hb1] at hnext
    cases hpop : b1.popBest with
    | mk best b2 =>
      rw [hpop] at hnext
      cases best with
      | none =>
        cases hnext
        rw [popBest_none hpop]
        exact ⟨fun sender hs => by rw [hinv1]; exact hs, h1⟩
      | some best =>
        have hframe : b2.invalid = b.invalid ∧ b2.lastPriority = b1.lastPriority
            ∧ b2.newTransactionReceiver = b1.newTransactionReceiver := by
          obtain ⟨ord, -, rfl⟩ := popBest_some hpop
          exact ⟨hinv1, rfl, rfl⟩
        obtain ⟨hkey, hrank, hother⟩ := h1.popped hpop
        simp only at hnext
        split at hnext
        · -- the sender was given up before
          next hbad =>
          have hne : ∀ {sender}, b2.invalid.contains sender = false →
              sender ≠ best.transaction.senderId := by
            rintro sender hs rfl
            rw [hbad] at hs
            nomatch hs
          have h2 : b2.Ordered expected := by
            refine ⟨hkey, hrank, fun sender hs => ?_⟩
            rw [hframe.1, ← hinv1] at hs
            obtain ⟨hall, hind⟩ := hother (hne (by rw [hframe.1, ← hinv1]; exact hs))
            exact (h1.lined sender hs).congr hall fun ht _ => hind ht
          have hnar : Narrowed b1 b2 :=
            ⟨hframe.2.1, fun sender hs => ⟨by rw [hinv1, ← hframe.1]; exact hs,
              (hother (hne hs)).1⟩⟩
          refine (ih h2 ?_ hnext).of_more fun sender hs => by rw [hframe.1]; exact hs
          rw [unread, hframe.2.2]
          exact hnar.arrivalsInOrder hin1
        · next hgood =>
          have hvalid : b1.invalid.contains best.transaction.senderId = false := by
            rw [hinv1, ← hframe.1]
            exact Bool.eq_false_iff.mpr hgood
          have hyield := h1.yield hpop hvalid
          obtain ⟨hall, hinv, hlast, hrec⟩ := unlock_frame b2 best
          have hmore : ∀ sender, b.invalid.contains sender = true →
              (b2.unlock best).invalid.contains sender = true :=
            fun sender hs => by rw [hinv, hframe.1]; exact hs
          have hyielded : ∀ {b'' : BestTransactions V}, b''.all = (b2.unlock best).all →
              b''.independent = (b2.unlock best).independent →
              b''.invalid = (b2.unlock best).invalid →
              Outcome expected b (some best.transaction) b'' := by
            intro b'' h1' h2' h3'
            refine ⟨fun sender hs => by rw [h3']; exact hmore sender hs, ?_,
              h1.popped_expected hpop hvalid, hyield.of_same h1' h2' fun _ hs => h3' ▸ hs⟩
            rw [← hinv1]
            exact hvalid
          split at hnext
          · -- a blob transaction is skipped, and its sender given up
            have h2 : Ordered expected ((b2.unlock best).markInvalid best.transaction) :=
              hyield.markInvalid best.transaction fun sender hs => (if_neg hs).symm
            refine (ih h2 ?_ hnext).of_more fun sender hs => ?_
            · rw [unread, show (BestTransactions.markInvalid _ _).newTransactionReceiver =
                b1.newTransactionReceiver from hrec.trans hframe.2.2]
              refine Narrowed.arrivalsInOrder ⟨hlast.trans hframe.2.1, fun sender hs => ?_⟩ hin1
              rw [contains_markInvalid, Bool.or_eq_false_iff, decide_eq_false_iff_not] at hs
              rw [hinv, hframe.1, ← hinv1] at hs
              refine ⟨hs.2, fun n => ?_⟩
              rw [show (BestTransactions.markInvalid _ _).all = b2.all from hall]
              exact (hother (Ne.symm hs.1)).1 n
            · rw [contains_markInvalid, hmore sender hs, Bool.or_true]
          · split at hnext
            · cases hnext
              exact hyielded rfl rfl rfl
            · cases hnext
              exact hyielded rfl rfl rfl

end

end BestTransactions

/-! ## Gapless pools -/

/-- **A PER-SENDER GAPLESS PENDING POOL**: consecutive nonces, and the lowest one is independent. -/
structure PendingPool.Gapless (p : PendingPool V) : Prop where
  key : ∀ {id : TransactionId} {t : PendingTransaction V}, p.byId[id]? = some t →
    t.transaction.id = id
  between : ∀ {sender : SenderId} {n m k : Nat},
    p.byId[(⟨sender, n⟩ : TransactionId)]? ≠ none →
    p.byId[(⟨sender, k⟩ : TransactionId)]? ≠ none → n ≤ m → m ≤ k →
      p.byId[(⟨sender, m⟩ : TransactionId)]? ≠ none
  independent : ∀ {sender : SenderId} {t : PendingTransaction V},
    p.independentTransactions[sender]? = some t →
      p.lowestNonce sender = some t.transaction.nonce ∧ p.byId[t.transaction.id]? = some t ∧
        t.transaction.senderId = sender

omit [LinearOrder V] in
theorem PendingPool.lowestNonce_spec (p : PendingPool V)
    (h : p.byId[TransactionId.mk sender n]? ≠ none) :
    ∃ a, p.lowestNonce sender = some a ∧ a ≤ n ∧
      p.byId[TransactionId.mk sender a]? ≠ none := by
  obtain ⟨t, ht⟩ := ne_none_iff_exists'.mp h
  have hsorted := (sorted_toList p.byId).filter (·.1.sender == sender)
  have hmem : ((⟨sender, n⟩ : TransactionId), t) ∈ p.byId.toList.filter (·.1.sender == sender) :=
    mem_filter.mpr ⟨mem_toList.mpr ht, beq_self_eq_true sender⟩
  rw [lowestNonce, iterTxsBySender]
  cases hl : p.byId.toList.filter (·.1.sender == sender) with
  | nil =>
    rw [hl] at hmem
    nomatch hmem
  | cons e l =>
    have he : e ∈ p.byId.toList.filter (·.1.sender == sender) := by
      rw [hl]
      exact mem_cons_self
    obtain ⟨hget, hs⟩ := mem_filter.mp he
    replace hs : e.1.sender = sender := beq_iff_eq.mp hs
    refine ⟨e.1.nonce, rfl, ?_, ?_⟩
    · rw [hl] at hmem hsorted
      rcases mem_cons.mp hmem with rfl | hin
      · exact le_rfl
      · have hlt := (pairwise_cons.mp hsorted).1 _ hin
        rcases TransactionId.compare_eq_lt.mp hlt with hlt | ⟨-, hlt⟩
        · exact absurd hs (Nat.ne_of_lt hlt)
        · exact le_of_lt hlt
    · rw [← hs, show (⟨e.1.sender, e.1.nonce⟩ : TransactionId) = e.1 from rfl, mem_toList.mp hget]
      exact some_ne_none e.2

theorem get_foldl_addIndependent (l : List (PendingTransaction V))
    (h : (l.foldl addIndependent m)[ord]? = some t) :
    t ∈ l ∧ t.ord = ord ∨ m[ord]? = some t := by
  induction l generalizing m ord t with
  | nil => exact .inr h
  | cons x l ih =>
    rcases ih h with ⟨hin, hord⟩ | hold
    · exact .inl ⟨mem_cons_of_mem _ hin, hord⟩
    · rcases get_addIndependent hold with ⟨hord, rfl⟩ | hm
      · exact .inl ⟨mem_cons_self, hord⟩
      · exact .inr hm

/-- An iterator over a gapless pool. -/
theorem PendingPool.Gapless.ordered {p : PendingPool V} (h : p.Gapless) :
    p.best.1.Ordered p.lowestNonce := by
  have hind : ∀ {ord} {t},
      p.best.1.independent[ord]? = some t →
        t.ord = ord ∧ ∃ sender : SenderId, p.independentTransactions[sender]? = some t := by
    intro ord t ht
    rcases get_foldl_addIndependent _ ht with ⟨hin, hord⟩ | hempty
    · obtain ⟨e, he, rfl⟩ := mem_map.mp hin
      exact ⟨hord, e.1, mem_toList.mp he⟩
    · rw [ExtTreeMap.getElem?_empty] at hempty
      nomatch hempty
  refine ⟨h.key, fun ht => (hind ht).1, fun sender _ => ⟨fun n hn => ?_, fun {ord t} ht hs => ?_⟩⟩
  · obtain ⟨a, ha, hle, hget⟩ := p.lowestNonce_spec hn
    exact ⟨a, ha, hle, fun m h1 h2 => h.between hget hn h1 h2⟩
  · obtain ⟨-, sender', hget⟩ := hind ht
    obtain ⟨hlow, hbyId, hs'⟩ := h.independent hget
    obtain rfl : sender' = sender := hs'.symm.trans hs
    refine ⟨_, hlow, ?_⟩
    rw [ValidPoolTransaction.id_eq, hs] at hbyId
    exact hbyId

/-! ## Whole sessions -/

/-- After a sender was invalidated, nothing of it is yielded. -/
def Event.mayFollow : Event → Event → Prop
  | .invalidated sender, .yielded tx => tx.senderId ≠ sender
  | _, _ => True

namespace Session

/-- **AN ORDERLY SESSION**: the nonces yielded for a sender start at its lowest pending one and
    increase by 1, no id is yielded twice, and nothing after the sender was marked invalid. -/
structure Orderly (s : Session V) : Prop where
  consecutive : ∀ sender, ∃ n k, yieldedNonces sender s.trace = List.range' n k ∧
    (k ≠ 0 → s.lowest sender = some n)
  once : (yieldedIds s.trace).Nodup
  silent : s.trace.Pairwise Event.mayFollow

/-- What a session preserves. -/
structure Inv (s : Session V) : Prop where
  ordered : s.best.Ordered s.expected
  consecutive : ∀ sender, ∃ n k, yieldedNonces sender s.trace = List.range' n k ∧
    (k ≠ 0 → s.lowest sender = some n)
  given : ∀ sender, Event.invalidated sender ∈ s.trace →
    s.best.invalid.contains sender = true
  silent : s.trace.Pairwise Event.mayFollow

section

variable {s s' : Session V}

theorem yieldedNonces_yielded (sender : SenderId) (trace : List Event)
    (tx : ValidPoolTransaction) : yieldedNonces sender (trace ++ [.yielded tx]) =
      yieldedNonces sender trace ++ if tx.senderId = sender then [tx.nonce] else [] := by
  rw [yieldedNonces, filterMap_append]
  refine congrArg _ ?_
  by_cases h : tx.senderId = sender
  · rw [if_pos h]
    exact filterMap_cons_some (if_pos h)
  · rw [if_neg h]
    exact filterMap_cons_none (if_neg h)

theorem yieldedNonces_invalidated (sender sender' : SenderId) (trace : List Event) :
    yieldedNonces sender (trace ++ [.invalidated sender']) = yieldedNonces sender trace := by
  rw [yieldedNonces, filterMap_append]
  exact append_nil _

/-- Yielding the expected nonce keeps the nonces consecutive. -/
theorem Inv.yielded (h : s.Inv) (hout : BestTransactions.Outcome s.expected s.best (some tx) b) :
    Inv { s with best := b, trace := s.trace ++ [.yielded tx] } := by
  obtain ⟨hmore, hvalid, hexp, hord⟩ := hout
  have hother : ∀ {sender}, sender ≠ tx.senderId →
      yieldedNonces sender (s.trace ++ [.yielded tx]) = yieldedNonces sender s.trace := by
    intro sender hne
    rw [yieldedNonces_yielded, if_neg (Ne.symm hne), append_nil]
  refine ⟨?_, fun sender => ?_, fun sender hin => ?_, ?_⟩
  · have hfun : (fun sender => if sender = tx.senderId then some (tx.nonce + 1)
        else s.expected sender) =
        expected { s with best := b, trace := s.trace ++ [.yielded tx] } := by
      funext sender
      by_cases hs : sender = tx.senderId
      · rw [if_pos hs, expected, yieldedNonces_yielded, if_pos hs.symm, getLast?_concat]
      · rw [if_neg hs, expected, expected, hother hs]
    rw [← hfun]
    exact hord
  · obtain ⟨n, k, hrange, hlow⟩ := h.consecutive sender
    by_cases hs : sender = tx.senderId
    · subst hs
      rw [expected, hrange, getLast?_range'] at hexp
      rw [yieldedNonces_yielded, if_pos rfl, hrange]
      cases k with
      | zero => exact ⟨tx.nonce, 1, rfl, fun _ => hexp⟩
      | succ k =>
        refine ⟨n, k + 2, ?_, fun _ => hlow (succ_ne_zero k)⟩
        replace hexp : n + (k + 1) - 1 + 1 = tx.nonce := some.inj hexp
        rw [show k + 2 = k + 1 + 1 from rfl, range'_concat (n := k + 1), one_mul, ← hexp]
        rfl
    · exact ⟨n, k, (hother hs).trans hrange, hlow⟩
  · rcases mem_append.mp hin with hold | hnew
    · exact hmore sender (h.given sender hold)
    · exact nomatch mem_singleton.mp hnew
  · refine pairwise_append.mpr ⟨h.silent, pairwise_singleton _ _, fun e he e' he' => ?_⟩
    rw [mem_singleton.mp he']
    cases e with
    | yielded _ => exact trivial
    | invalidated sender =>
      rintro rfl
      rw [h.given _ he] at hvalid
      nomatch hvalid

theorem Inv.of_same (h : s.Inv) (hord : s'.best.Ordered s'.expected) (htrace : s'.trace = s.trace)
    (hlow : ∀ {sender n}, s.lowest sender = some n → s'.lowest sender = some n)
    (hinv : s'.best.invalid = s.best.invalid) : s'.Inv := by
  refine ⟨hord, fun sender => ?_, fun sender hin => ?_, htrace ▸ h.silent⟩
  · obtain ⟨n, k, hrange, hk⟩ := h.consecutive sender
    exact ⟨n, k, htrace ▸ hrange, fun hne => hlow (hk hne)⟩
  · rw [hinv]
    exact h.given sender (htrace ▸ hin)

/-- **ONE CALL.** -/
theorem Inv.step (h : s.Inv) (hguard : s.orderly op = true) (hstep : Step s op s') :
    s'.Inv := by
  obtain ⟨fuel, hstep⟩ := hstep
  cases op with
  | next =>
    obtain ⟨⟨r, b⟩, hnext, heq⟩ := bind_eq_some_iff.mp hstep
    cases heq
    have hout := h.ordered.next fuel hguard hnext
    cases r with
    | some tx => exact h.yielded hout
    | none =>
      have htrace : s.trace ++ (none : Option ValidPoolTransaction).toList.map Event.yielded
          = s.trace := append_nil _
      refine ⟨?_, fun sender => ?_, fun sender hin => hout.1 sender (h.given sender ?_), ?_⟩
      · show b.Ordered (expected { s with best := b, trace := s.trace ++ _ })
        rw [htrace]
        exact hout.2
      · rw [htrace]
        exact h.consecutive sender
      · exact htrace ▸ hin
      · show Pairwise _ (s.trace ++ _)
        rw [htrace]
        exact h.silent
  | markInvalid tx =>
    cases hstep
    have hexp : expected { s with
        best := s.best.markInvalid tx, trace := s.trace ++ [.invalidated tx.senderId] } =
        s.expected := by
      funext sender
      rw [expected, expected, yieldedNonces_invalidated]
    refine ⟨?_, fun sender => ?_, fun sender hin => ?_, ?_⟩
    · rw [hexp]
      exact h.ordered.markInvalid tx fun _ _ => rfl
    · rw [yieldedNonces_invalidated]
      exact h.consecutive sender
    · rw [BestTransactions.contains_markInvalid, or_eq_true, decide_eq_true_eq]
      rcases mem_append.mp hin with hold | hnew
      · exact .inr (h.given sender hold)
      · exact .inl (Event.invalidated.inj (mem_singleton.mp hnew)).symm
    · refine pairwise_append.mpr ⟨h.silent, pairwise_singleton _ _, fun e _ e' he' => ?_⟩
      rw [mem_singleton.mp he']
      cases e with
      | yielded _ | invalidated _ => exact trivial
  | noUpdates | setSkipBlobs skipBlobs =>
    cases hstep
    exact h.of_same (h.ordered.of_same rfl rfl fun _ hs => hs) rfl (fun hn => hn) rfl
  | removeTransaction id =>
    cases hstep
    exact h.of_same h.ordered rfl (fun hn => hn) rfl
  | addTransaction tx baseFee =>
    cases hstep
    refine h.of_same ⟨h.ordered.key, h.ordered.rank, fun sender hs => ?_⟩ rfl
      (fun {sender n} hn => (congrArg (Option.or · _) hn)) rfl
    -- a sender of which nothing is known yet has nothing that waits
    obtain ⟨hwait, hind⟩ := h.ordered.lined sender hs
    have hexp : ∀ {a}, s.expected sender = some a → expected { s with
        pool := s.pool.addTransaction tx baseFee
        lowest := fun sender => (s.lowest sender).or
          (if tx.senderId = sender then some tx.nonce else none) } sender = some a := by
      intro a ha
      rw [expected] at ha ⊢
      cases hlast : (yieldedNonces sender s.trace).getLast? with
      | some n =>
        rw [hlast] at ha
        exact ha
      | none =>
        rw [hlast] at ha
        replace ha : s.lowest sender = some a := ha
        show (s.lowest sender).or _ = some a
        rw [ha]
        rfl
    refine ⟨fun n hn => ?_, fun ht hts => ?_⟩
    · obtain ⟨a, ha, hrest⟩ := hwait n hn
      exact ⟨a, hexp ha, hrest⟩
    · obtain ⟨a, ha, hget⟩ := hind ht hts
      exact ⟨a, hexp ha, hget⟩

/-- Ids are yielded once if the nonces of every sender are. -/
theorem nodup_yieldedIds {trace : List Event} (h : ∀ sender, (yieldedNonces sender trace).Nodup) :
    (yieldedIds trace).Nodup := by
  induction trace with
  | nil => exact nodup_nil
  | cons e trace ih =>
    cases e with
    | invalidated sender => exact ih h
    | yielded tx =>
      have htail : ∀ sender, (yieldedNonces sender trace).Nodup := by
        intro sender
        have hs := h sender
        rw [yieldedNonces, filterMap_cons] at hs
        split at hs
        · exact hs
        · exact (nodup_cons.mp hs).2
      have hself := h tx.senderId
      rw [yieldedNonces, filterMap_cons_some (f := Event.nonceOf tx.senderId)
        (a := .yielded tx) (if_pos rfl)] at hself
      refine nodup_cons.mpr ⟨fun hin => ?_, ih htail⟩
      refine (nodup_cons.mp hself).1 ?_
      obtain ⟨e, he, hid⟩ := mem_filterMap.mp hin
      cases e with
      | invalidated _ => nomatch hid
      | yielded tx' =>
        have hid' := some.inj hid
        rw [ValidPoolTransaction.id_eq, ValidPoolTransaction.id_eq] at hid'
        obtain ⟨hs, hn⟩ := TransactionId.mk.inj hid'
        refine mem_filterMap.mpr ⟨.yielded tx', he, ?_⟩
        show (if tx'.senderId = tx.senderId then some tx'.nonce else none) = _
        rw [if_pos hs, hn]

end

/-- **THE ITERATOR YIELDS IN ORDER** on a gapless pool if `next` always finds messages that are in
    order. -/
theorem yields_in_order {p : PendingPool V} (hp : p.Gapless) {s : Session V}
    (h : Runs.ReachedBy Step (fun s op => s.orderly op = true) (start p) s) : Orderly s := by
  have hinv : Inv s := by
    refine h.invariant (I := Inv) ?_ fun s op s' _ hs hg hstep => hs.step hg hstep
    refine ⟨hp.ordered, fun sender => ⟨0, 0, rfl, fun hne => absurd rfl hne⟩, nofun, Pairwise.nil⟩
  refine ⟨hinv.consecutive, nodup_yieldedIds fun sender => ?_, hinv.silent⟩
  obtain ⟨n, k, hrange, -⟩ := hinv.consecutive sender
  rw [hrange]
  exact nodup_range'

/-- A pending pool with one transaction. -/
def samplePending : PendingPool Nat :=
  (PendingPool.withBuffer coinbaseTipOrdering 200).addTransaction
    (TxPool.sampleTx 1 1 0 5 100 none) 0

theorem gapless_samplePending : samplePending.Gapless := by
  have hget : ∀ id, samplePending.byId[id]? =
      if (⟨1, 0⟩ : TransactionId) = id then some ⟨0, TxPool.sampleTx 1 1 0 5 100 none, some 1⟩
      else none := by
    intro id
    refine (get_insert _ _ _ _).trans ?_
    split
    · next h => exact (if_pos h).symm
    · next h => exact ExtTreeMap.getElem?_empty.trans (if_neg h).symm
  have hid : ∀ {id}, samplePending.byId[id]? ≠ none → (⟨1, 0⟩ : TransactionId) = id := by
    intro id h
    by_contra hne
    rw [hget, if_neg hne] at h
    exact h rfl
  refine ⟨fun {id t} ht => ?_, fun {sender n m k} hn hk h1 h2 => ?_, fun {sender t} ht => ?_⟩
  · have hone := hid (by rw [ht]; exact some_ne_none t)
    rw [hget, if_pos hone] at ht
    cases ht
    exact hone
  · obtain ⟨rfl, rfl⟩ := TransactionId.mk.inj (hid hn)
    obtain ⟨-, rfl⟩ := TransactionId.mk.inj (hid hk)
    rw [le_zero.mp h2]
    exact hn
  · replace ht := (get_insert _ _ _ _).symm.trans
      (show (ExtTreeMap.insert ∅ 1 _)[sender]? = some t from ht)
    split at ht
    · next hs =>
      cases ht
      subst hs
      exact ⟨by decide +kernel, by decide +kernel, rfl⟩
    · rw [ExtTreeMap.getElem?_empty] at ht
      nomatch ht

/-- A transaction that was yielded is replaced: its nonce is yielded again. -/
theorem replaced_nonce_yielded_twice :
    ∃ s : Session Nat, samplePending.Gapless ∧ Runs.Reachable Step (start samplePending) s
      ∧ yieldedIds s.trace = [⟨1, 0⟩, ⟨1, 0⟩] ∧ ¬ Orderly s := by
  obtain ⟨s, hs, hcheck⟩ := Runs.exists_of_apply apply (fun _ _ => true) 9
    [.next, .removeTransaction ⟨1, 0⟩,
      .addTransaction (TxPool.sampleTx 2 1 0 5 200 none) 0, .next] (start samplePending)
    (fun s => yieldedIds s.trace == [⟨1, 0⟩, ⟨1, 0⟩]) (by decide +kernel)
  have hids := beq_iff_eq.mp hcheck
  refine ⟨s, gapless_samplePending, hs.reachable, hids, fun h => ?_⟩
  have honce := h.once
  rw [hids] at honce
  exact absurd honce (by decide)

theorem yields_in_order_sample :
    ∃ s : Session Nat, yieldedNonces 1 s.trace = [0, 1] ∧ Orderly s := by
  obtain ⟨s, hs, hcheck⟩ := Runs.exists_of_apply apply orderly 9
    [.next, .addTransaction (TxPool.sampleTx 2 1 1 5 200 none) 0, .next] (start samplePending)
    (fun s => yieldedNonces 1 s.trace == [0, 1]) (by decide +kernel)
  exact ⟨s, beq_iff_eq.mp hcheck, yields_in_order gapless_samplePending hs⟩

end Session

end TransactionPool
