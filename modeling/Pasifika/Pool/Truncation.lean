import Pasifika.Pool.Blob
import Pasifika.Pool.Parked
import Pasifika.Pool.Pending

/-! # Truncation of the sub-pools

The truncation loops return when they get enough fuel. A parked sub-pool and
the blob sub-pool end within their limit. The pending sub-pool is truncated
from the highest entry of each sender downwards: it ends within its limit or
with no highest entry left. `Removable` are the transactions that this
descent can reach, and `Peeled` says that nothing else was taken. -/

namespace TransactionPool

open Std (ExtTreeMap)
open Option (bind_eq_bind bind_eq_some_iff bind_some some_ne_none)
open OrderedMap List Nat

/-! ## Listings and limits -/

/-- The size of listed transactions. -/
def weight (l : List (TransactionId × ValidPoolTransaction)) : Nat :=
  (l.map (fun e => e.2.size)).sum

theorem weight_toList {W : Type} (m : ExtTreeMap TransactionId W) (f : W → ValidPoolTransaction) :
    weight (m.toList.map fun e => (e.1, f e.2)) = total (fun t => (f t).size) m := by
  rw [weight, map_map]
  rfl

theorem weight_perm (h : l.Perm l') : weight l = weight l' :=
  (h.map _).sum_eq

/-- A limit that a part exceeds is exceeded by the whole. -/
theorem SubPoolLimit.isExceeded_of_subperm {limit : SubPoolLimit} (h : l'.Subperm l)
    (hex : limit.isExceeded l'.length (weight l') = true) :
    limit.isExceeded l.length (weight l) = true := by
  obtain ⟨l0, hperm, hsub⟩ := h
  rw [← hperm.length_eq, ← weight_perm hperm] at hex
  have hlength := hsub.length_le
  have hweight : weight l0 ≤ weight l := (hsub.map _).sum_le_sum fun _ _ => zero_le _
  simp only [isExceeded, Bool.or_eq_true, decide_eq_true_eq] at hex ⊢
  omega

/-- What a withdrawal took is missing in the count and in the size. -/
theorem withdraws_count {get get' : TransactionId → Option ValidPoolTransaction}
    {out : List ValidPoolTransaction} (hw : Withdraws (·.id) get get' out)
    (h : Lists get l) (h' : Lists get' l') :
    l'.length + out.length = l.length
      ∧ weight l' + (out.map ValidPoolTransaction.size).sum = weight l := by
  have hperm := hw.perm h h'
  rw [hperm.length_eq, weight_perm hperm, length_append, length_map, weight, weight, map_append,
    List.sum_append, map_map]
  exact ⟨rfl, rfl⟩

/-! ## Parked sub-pools -/

namespace ParkedPool

/-- The transactions by id. -/
def listing (p : ParkedPool) : List (TransactionId × ValidPoolTransaction) :=
  p.byId.toList.map (fun e => (e.1, e.2.transaction))

theorem lists (p : ParkedPool) : Lists p.get p.listing := lists_toList _ _

theorem len_eq (p : ParkedPool) : p.len = p.listing.length := by
  rw [listing, length_map, ExtTreeMap.length_toList]
  rfl

variable {p : ParkedPool}

theorem WF.exceeds_eq (h : WF p) (limit : SubPoolLimit) :
    p.exceeds limit = limit.isExceeded p.listing.length (weight p.listing) := by
  have hsize : p.size = weight p.listing := by
    show p.sizeOf.value.toNat = _
    rw [h.size, listing, weight_toList]
    rfl
  rw [exceeds, len_eq, hsize]

variable {tx : ValidPoolTransaction} {r : List ValidPoolTransaction × ParkedPool}
variable {limit : SubPoolLimit} {sender : SenderId} {n : Nat}

theorem dropUntil_cons {id : TransactionId} {ids : List TransactionId} (h : WF p)
    (hget : p.get id = some tx) (hr : dropUntil limit (id :: ids) p = some r) :
    ∃ out, r.1 = tx :: out := by
  obtain ⟨p', hrem, -, -⟩ := h.removeTransaction id
  rw [hget] at hrem
  simp only [dropUntil, hrem, bind_eq_bind, bind_some] at hr
  split at hr
  · cases hr
    exact ⟨[], rfl⟩
  · obtain ⟨rs, -, hr⟩ := bind_eq_some_iff.mp hr
    cases hr
    exact ⟨rs.1, rfl⟩

theorem WF.exists_of_last (h : WF p) (hlast : p.lastSenderSubmission[n]? = some sender) :
    ∃ id tx, id.sender = sender ∧
      p.get id = some tx := by
  obtain ⟨c, hc, -⟩ := (h.last n sender).mp hlast
  have hcount := h.count sender
  rw [hc] at hcount
  have hpos : 0 < p.senderCount sender := by
    by_contra hz
    rw [if_pos (Nat.eq_zero_of_not_pos hz)] at hcount
    nomatch hcount
  obtain ⟨id, t, ht, hs⟩ := countKeys_pos.mp hpos
  exact ⟨id, t.transaction, beq_iff_eq.mp hs, get_eq_some.mpr ⟨t, ht, rfl⟩⟩

theorem WF.dropUntil_sender (h : WF p) (hlast : p.lastSenderSubmission[n]? = some sender)
    (hr : ParkedPool.dropUntil limit (p.getTxsBySender sender).reverse p = some r) :
    ∃ tx out, r.1 = tx :: out := by
  have hheld : ∀ id ∈ (p.getTxsBySender sender).reverse, ∃ tx, p.get id = some tx := by
    intro id hid
    obtain ⟨e, he, rfl⟩ := mem_map.mp (mem_reverse.mp hid)
    exact ⟨_, get_eq_some.mpr ⟨e.2, mem_toList.mp (mem_filter.mp he).1, rfl⟩⟩
  obtain ⟨id, tx, hs, hget⟩ := h.exists_of_last hlast
  have hmem : id ∈ (p.getTxsBySender sender).reverse := by
    obtain ⟨t, ht, -⟩ := get_eq_some.mp hget
    exact mem_reverse.mpr (mem_map.mpr
      ⟨(id, t), mem_filter.mpr ⟨mem_toList.mpr ht, beq_iff_eq.mpr hs⟩, rfl⟩)
  cases hids : (p.getTxsBySender sender).reverse with
  | nil =>
    rw [hids] at hmem
    nomatch hmem
  | cons id' ids =>
    rw [hids] at hr hheld
    obtain ⟨tx', hget'⟩ := hheld id' (by simp)
    obtain ⟨out, hout⟩ := dropUntil_cons h hget' hr
    exact ⟨tx', out, hout⟩

/-- Without tracked senders there are no transactions. -/
theorem WF.listing_eq_nil (h : WF p) (hempty : p.lastSenderSubmission.toList.head? = none) :
    p.listing = [] := by
  rw [head?_eq_none_iff] at hempty
  refine eq_nil_iff_forall_not_mem.mpr fun e he => ?_
  obtain ⟨t, ht, -⟩ := get_eq_some.mp ((p.lists.mem e.1 e.2).mp he)
  obtain ⟨c, hc, -⟩ := h.exists_count ht
  have hmem := mem_toList.mpr ((h.last c.lastSubmissionId _).mpr ⟨c, hc, rfl⟩)
  rw [hempty] at hmem
  nomatch hmem

/-- **PARKED TRUNCATION RETURNS** within the limit. -/
theorem WF.truncateLoop_total (limit : SubPoolLimit) (fuel : Nat)
    (removed : List ValidPoolTransaction) (h : WF p) (hfuel : p.len < fuel) :
    ∃ out p', ParkedPool.truncateLoop limit fuel p removed = some (out, p') ∧
      p'.exceeds limit = false := by
  induction fuel generalizing p removed with
  | zero => nomatch hfuel
  | succ fuel ih =>
    rw [ParkedPool.truncateLoop]
    cases hhead : p.lastSenderSubmission.toList.head? with
    | none =>
      refine ⟨removed, p, rfl, ?_⟩
      rw [h.exceeds_eq, h.listing_eq_nil hhead]
      exact limit.isExceeded_zero
    | some e =>
      obtain ⟨n, sender⟩ := e
      dsimp only
      by_cases hex : limit.isExceeded p.len p.size = true
      · rw [if_pos hex]
        obtain ⟨r, hr, h', hw⟩ := h.dropUntil limit (p.getTxsBySender sender).reverse
        rw [hr]
        refine ih (removed ++ r.1) h' ?_
        -- the sender has a transaction to drop
        obtain ⟨tx, out, hout⟩ := h.dropUntil_sender (mem_toList.mp (mem_of_mem_head? hhead)) hr
        rw [hout] at hw
        rw [len_eq, ← (withdraws_count hw p.lists r.2.lists).1, length_cons] at hfuel
        rw [len_eq]
        omega
      · rw [if_neg hex]
        exact ⟨removed, p, rfl, Bool.eq_false_iff.mpr hex⟩

theorem WF.truncatePool_total (h : WF p) (limit : SubPoolLimit) (hfuel : p.len < fuel) :
    ∃ out p', p.truncatePool fuel limit = some (out, p') ∧ p'.exceeds limit = false := by
  rw [ParkedPool.truncatePool]
  by_cases hex : (!p.exceeds limit) = true
  · rw [if_pos hex]
    exact ⟨[], p, rfl, by simpa using hex⟩
  · rw [if_neg hex]
    exact h.truncateLoop_total limit fuel [] hfuel

end ParkedPool

/-! ## The blob sub-pool -/

namespace BlobTransactions

/-- The transactions by id. -/
def listing (p : BlobTransactions) : List (TransactionId × ValidPoolTransaction) :=
  p.byId.toList.map (fun e => (e.1, e.2.transaction))

theorem lists (p : BlobTransactions) : Lists p.get p.listing := lists_toList _ _

theorem len_eq (p : BlobTransactions) : p.len = p.listing.length := by
  rw [listing, length_map, ExtTreeMap.length_toList]
  rfl

variable {p : BlobTransactions}

theorem WF.exceeds_eq (h : WF p) (limit : SubPoolLimit) :
    p.exceeds limit = limit.isExceeded p.listing.length (weight p.listing) := by
  have hsize : p.size = weight p.listing := by
    show p.sizeOf.value.toNat = _
    rw [h.size, listing, weight_toList]
    rfl
  rw [exceeds, len_eq, hsize]

/-- The ordered set is not empty when a limit is exceeded. -/
theorem WF.listing_eq_nil (h : WF p) (hempty : p.all.toList.getLast? = none) : p.listing = [] := by
  rw [getLast?_eq_none_iff] at hempty
  refine eq_nil_iff_forall_not_mem.mpr fun e he => ?_
  obtain ⟨t, ht, -⟩ := get_eq_some.mp ((p.lists.mem e.1 e.2).mp he)
  have hmem := mem_toList.mpr ((h.all t.ord t).mpr ⟨by rw [h.key ht, ht], rfl⟩)
  rw [hempty] at hmem
  nomatch hmem

/-- **BLOB TRUNCATION RETURNS** within the limit. -/
theorem WF.truncateLoop_total (limit : SubPoolLimit) (fuel : Nat)
    (removed : List ValidPoolTransaction) (h : WF p) (hfuel : p.len < fuel) :
    ∃ out p', BlobTransactions.truncateLoop limit fuel p removed = some (out, p') ∧
      p'.exceeds limit = false := by
  induction fuel generalizing p removed with
  | zero => nomatch hfuel
  | succ fuel ih =>
    rw [BlobTransactions.truncateLoop]
    by_cases hex : p.exceeds limit = true
    · rw [if_pos hex]
      cases hlast : p.all.toList.getLast? with
      | none =>
        rw [h.exceeds_eq, h.listing_eq_nil hlast] at hex
        exact absurd hex (Bool.eq_false_iff.mp limit.isExceeded_zero)
      | some e =>
        obtain ⟨o, worst⟩ := e
        have hall := mem_toList.mp (mem_of_getLast? hlast)
        have hget : p.get worst.transaction.id = some worst.transaction :=
          get_eq_some.mpr ⟨worst, ((h.all o worst).mp hall).1, rfl⟩
        obtain ⟨hr, h', hrest⟩ := h.removeTransaction worst.transaction.id
        have hw := Withdraws.single (fun _ => h.get_key) hrest
        have hcount := (withdraws_count hw p.lists (lists _)).1
        rw [hget] at hr hcount
        have heq : p.removeTransaction worst.transaction.id
            = (some worst.transaction, (p.removeTransaction worst.transaction.id).2) :=
          Prod.ext hr rfl
        dsimp only
        rw [heq]
        refine ih _ h' ?_
        rw [len_eq] at hfuel ⊢
        rw [Option.toList_some, length_singleton] at hcount
        omega
    · rw [if_neg hex]
      exact ⟨removed, p, rfl, Bool.eq_false_iff.mpr hex⟩

end BlobTransactions

/-! ## The pending sub-pool -/

namespace PendingPool

variable {V : Type}

/-- The transactions by id. -/
def listing (p : PendingPool V) : List (TransactionId × ValidPoolTransaction) :=
  p.byId.toList.map (fun e => (e.1, e.2.transaction))

theorem lists (p : PendingPool V) : Lists p.get p.listing := lists_toList _ _

theorem len_eq (p : PendingPool V) : p.len = p.listing.length := by
  rw [listing, length_map, ExtTreeMap.length_toList]
  rfl

variable {p p' : PendingPool V}

theorem WF.size_eq (h : WF p) : p.size = weight p.listing := by
  show p.sizeOf.value.toNat = _
  rw [h.size, listing, weight_toList]
  rfl

theorem WF.exceeds_eq (h : WF p) (limit : SubPoolLimit) :
    p.exceeds limit = limit.isExceeded p.listing.length (weight p.listing) := by
  rw [exceeds, len_eq, h.size_eq]

/-- **REMOVABLE**: reached from the highest entry of the sender without a gap. -/
def Removable (p : PendingPool V) (id : TransactionId) : Prop :=
  ∃ highest, p.highestNonces[id.sender]? = some highest ∧ id.nonce ≤ highest.transaction.nonce
    ∧ ∀ m, id.nonce ≤ m → m ≤ highest.transaction.nonce →
      p.byId[(⟨id.sender, m⟩ : TransactionId)]? ≠ none

variable {id : TransactionId}

theorem Removable.held (h : p.Removable id) : p.byId[id]? ≠ none := by
  obtain ⟨highest, -, hle, hall⟩ := h
  exact hall id.nonce le_rfl hle

/-- Only removable transactions were taken, and the others did not become so. -/
structure Peeled (p p' : PendingPool V) : Prop where
  byId : ∀ id : TransactionId,
    p'.byId[id]? = p.byId[id]? ∨ p'.byId[id]? = none ∧ p.Removable id
  removable : ∀ id, p'.Removable id ↔ p.Removable id ∧ p'.byId[id]? ≠ none

theorem Peeled.refl (p : PendingPool V) : Peeled p p :=
  ⟨fun _ => Or.inl rfl, fun _ => ⟨fun h => ⟨h, h.held⟩, fun h => h.1⟩⟩

theorem Peeled.held (h : Peeled p p') (hid : p'.byId[id]? ≠ none) : p.byId[id]? ≠ none := by
  rcases h.byId id with heq | ⟨hnone, -⟩
  · rwa [← heq]
  · exact absurd hnone hid

theorem Peeled.len_le (h : Peeled p p') : p'.len ≤ p.len := by
  refine size_le_of_none fun id hid => ?_
  by_contra hne
  exact h.held hne hid

theorem Peeled.trans (h : Peeled p p') (h' : Peeled p' p'') :
    Peeled p p'' where
  byId := by
    intro id
    rcases h'.byId id with heq | ⟨hnone, hrem⟩
    · rw [heq]
      exact h.byId id
    · exact .inr ⟨hnone, ((h.removable id).mp hrem).1⟩
  removable := by
    intro id
    rw [h'.removable, h.removable]
    exact ⟨fun hr => ⟨hr.1.1, hr.2⟩, fun hr => ⟨⟨hr.1, h'.held hr.2⟩, hr.2⟩⟩

variable {t : PendingTransaction V}

theorem byId_removeTransaction (ht : p.byId[id]? = some t) :
    (p.removeTransaction id).2.byId = p.byId.erase id := by
  rw [removeTransaction_of_some ht]
  exact (lowerHighest_frame _ id).1

theorem highestNonces_removeTransaction (ht : p.byId[id]? = some t) (s : SenderId) :
    (p.removeTransaction id).2.highestNonces[s]?
      = if id.sender = s then
          p.highestNonces[s]?.bind (fun highest =>
            (p.ancestor id).or (if highest.transaction.nonce = id.nonce then none else some highest))
        else p.highestNonces[s]? := by
  rw [removeTransaction_of_some ht]
  refine (highestNonces_lowerHighest _ id s).trans ?_
  have hanc : id.uncheckedAncestor.bind (fun a => (p.byId.erase id)[a]?) = p.ancestor id := by
    rw [ancestor]
    cases ha : id.uncheckedAncestor with
    | none => rfl
    | some a =>
      refine get_erase_ne fun heq => ?_
      have := (TransactionId.uncheckedAncestor_eq_some.mp ha).2
      rw [heq] at this
      omega
  show (if id.sender = s then (p.advanceIndependent id).highestNonces[s]?.bind (fun highest =>
    (id.uncheckedAncestor.bind fun a => (p.byId.erase id)[a]?).or _) else _) = _
  rw [hanc, (p.advanceIndependent_frame id).2.2]

section

variable {p : PendingPool V} {t : PendingTransaction V}

/-- The highest entry below the one that is taken. -/
theorem WF.highest_below (h : WF p) (hh : p.highestNonces[t.transaction.senderId]? = some t) :
    (p.removeTransaction t.transaction.id).2.highestNonces[t.transaction.senderId]?
      = p.ancestor t.transaction.id := by
  rw [highestNonces_removeTransaction (h.highest hh).2, hh,
    if_pos (show t.transaction.id.sender = t.transaction.senderId from rfl), bind_some,
    if_pos t.transaction.nonce_eq, Option.or_none]

theorem WF.highest_other (h : WF p) (hh : p.highestNonces[t.transaction.senderId]? = some t)
    (hs : t.transaction.senderId ≠ s) :
    (p.removeTransaction t.transaction.id).2.highestNonces[s]? = p.highestNonces[s]? := by
  rw [highestNonces_removeTransaction (h.highest hh).2,
    if_neg (show ¬ t.transaction.id.sender = s from hs)]

/-- Descending from the taken entry is descending from the one below. -/
theorem WF.removable_below (h : WF p) (hh : p.highestNonces[t.transaction.senderId]? = some t)
    (n : Nat) :
    (p.removeTransaction t.transaction.id).2.Removable ⟨t.transaction.senderId, n⟩
      ↔ p.Removable ⟨t.transaction.senderId, n⟩ ∧ n ≠ t.transaction.nonce := by
  obtain ⟨-, ht⟩ := h.highest hh
  have hbyId := byId_removeTransaction ht
  have hself : ∀ m, m ≠ t.transaction.nonce →
      (p.byId.erase t.transaction.id)[TransactionId.mk t.transaction.senderId m]?
        = p.byId[TransactionId.mk t.transaction.senderId m]? := by
    intro m hne
    refine get_erase_ne fun heq => hne ?_
    rw [t.transaction.nonce_eq, heq]
  constructor
  · rintro ⟨a, ha, hle, hall⟩
    rw [h.highest_below hh] at ha
    rw [hbyId] at hall
    obtain ⟨i, hi, hai⟩ := bind_eq_some_iff.mp ha
    have hlow : a.transaction.nonce + 1 = t.transaction.nonce := by
      rw [a.transaction.nonce_eq, h.key hai, (TransactionId.uncheckedAncestor_eq_some.mp hi).2,
        t.transaction.nonce_eq]
    have hn : n ≤ a.transaction.nonce := hle
    refine ⟨⟨t, hh, ?_, fun m hm hm' => ?_⟩, by omega⟩
    · show n ≤ t.transaction.nonce
      omega
    · by_cases hN : m = t.transaction.nonce
      · rw [hN]
        rw [← t.transaction.id_eq, ht]
        exact some_ne_none t
      · have hkept := hall m hm (by omega)
        rwa [hself m hN] at hkept
  · rintro ⟨⟨t', ht', hle, hall⟩, hne⟩
    rw [hh] at ht'
    obtain rfl := Option.some.inj ht'
    have hlt : n < t.transaction.nonce := lt_of_le_of_ne hle hne
    obtain ⟨a, ha⟩ := Option.ne_none_iff_exists'.mp
      (hall (t.transaction.nonce - 1) (le_sub_one_of_lt hlt) (sub_le _ _))
    have hi : t.transaction.id.uncheckedAncestor
        = some ⟨t.transaction.senderId, t.transaction.nonce - 1⟩ := by
      rw [TransactionId.uncheckedAncestor_eq_some, ← t.transaction.nonce_eq]
      exact ⟨rfl, Nat.sub_add_cancel (one_le_of_lt hlt)⟩
    have hlow : a.transaction.nonce = t.transaction.nonce - 1 := by
      rw [a.transaction.nonce_eq, h.key ha]
    refine ⟨a, ?_, ?_, fun m hm hm' => ?_⟩
    · rw [h.highest_below hh, ancestor, hi]
      exact ha
    · show n ≤ a.transaction.nonce
      omega
    · rw [hbyId, hself m (by omega)]
      exact hall m hm (by omega)

/-- **TAKING A HIGHEST ENTRY** takes a removable transaction and no other. -/
theorem WF.peeled_removeTransaction (h : WF p)
    (hh : p.highestNonces[t.transaction.senderId]? = some t) :
    Peeled p (p.removeTransaction t.transaction.id).2 := by
  obtain ⟨-, ht⟩ := h.highest hh
  have hbyId := byId_removeTransaction ht
  refine ⟨fun id => ?_, fun id => ?_⟩
  · rw [hbyId, get_erase]
    by_cases hid : t.transaction.id = id
    · rw [t.transaction.id_eq] at hid
      refine .inr ⟨by rw [t.transaction.id_eq, if_pos hid], t, hid ▸ hh, ?_, fun m hm hm' => ?_⟩
      · rw [← hid]
      · rw [← hid] at hm ⊢
        rw [le_antisymm hm' hm, ← t.transaction.id_eq, ht]
        exact some_ne_none t
    · exact .inl (if_neg hid)
  · obtain ⟨s, n⟩ := id
    by_cases hs : t.transaction.senderId = s
    · subst hs
      rw [h.removable_below hh, hbyId, get_erase, t.transaction.id_eq]
      refine and_congr_right fun hrem => ?_
      by_cases hn : n = t.transaction.nonce
      · simp [hn]
      · simp [Ne.symm hn, hrem.held, hn]
    · -- other senders do not notice
      have hget : ∀ m, (p.byId.erase t.transaction.id)[TransactionId.mk s m]?
          = p.byId[TransactionId.mk s m]? := fun m =>
        get_erase_ne fun heq => hs (congrArg TransactionId.sender heq)
      have hiff : (p.removeTransaction t.transaction.id).2.Removable ⟨s, n⟩
          ↔ p.Removable ⟨s, n⟩ := by
        simp only [Removable, h.highest_other hh hs, hbyId, hget]
      rw [hiff, hbyId, hget]
      exact ⟨fun hr => ⟨hr, hr.held⟩, fun hr => hr.1⟩

theorem WF.removeAll_peeled (ts : List (PendingTransaction V)) (h : WF p)
    (hts : ∀ t ∈ ts, p.highestNonces[t.transaction.senderId]? = some t)
    (hnd : (ts.map (·.transaction.senderId)).Nodup) :
    Peeled p (p.removeAll (ts.map (·.transaction.id))).2 ∧
      (p.removeAll (ts.map (·.transaction.id))).1 = ts.map (·.transaction) ∧
      (∀ s ∉ ts.map (·.transaction.senderId),
      (p.removeAll (ts.map (·.transaction.id))).2.highestNonces[s]? =
      p.highestNonces[s]?) ∧ ∀ s : SenderId, p.highestNonces[s]? = none →
      (p.removeAll (ts.map (·.transaction.id))).2.highestNonces[s]? = none := by
  induction ts generalizing p with
  | nil => exact ⟨.refl p, rfl, fun _ _ => rfl, fun _ hs => hs⟩
  | cons t ts ih =>
    have hh := hts t (by simp)
    obtain ⟨hfresh, hnd'⟩ := nodup_cons.mp hnd
    obtain ⟨hr, h', -⟩ := h.removeTransaction t.transaction.id
    have hrest : ∀ t' ∈ ts, (p.removeTransaction t.transaction.id).2.highestNonces[
        t'.transaction.senderId]? = some t' := by
      intro t' ht'
      rw [h.highest_other hh]
      · exact hts t' (mem_cons_of_mem _ ht')
      · exact fun heq => hfresh (mem_map.mpr ⟨t', ht', heq.symm⟩)
    obtain ⟨hpeel, hout, hother, hnone⟩ := ih h' hrest hnd'
    refine ⟨(h.peeled_removeTransaction hh).trans hpeel, ?_, fun s hs => ?_, fun s hs => ?_⟩
    · have hget : p.get t.transaction.id = some t.transaction :=
        get_eq_some.mpr ⟨t, (h.highest hh).2, rfl⟩
      show (p.removeTransaction t.transaction.id).1.toList ++ _ = _
      rw [hr, hget]
      exact congrArg (t.transaction :: ·) hout
    · rw [map_cons, mem_cons, not_or] at hs
      exact (hother s hs.2).trans (h.highest_other hh (Ne.symm hs.1))
    · refine hnone s ?_
      rw [h.highest_other hh, hs]
      intro heq
      rw [← heq, hh] at hs
      nomatch hs

end

/-! ### The scan over the highest entries -/

section

variable {limit : SubPoolLimit} {removeLocals : Bool} {originalLength originalSize : Nat}

/-- What one scan did: it marked the transactions `ts` for removal. -/
structure Scanned (limit : SubPoolLimit) (removeLocals : Bool) (originalLength originalSize : Nat)
    (ws : List (PendingTransaction V)) (st : Scan) (ts : List (PendingTransaction V))
    (returned : Bool) (st' : Scan) : Prop where
  marked : ts.Sublist ws
  removed : st'.removed = st.removed ++ ts.map (fun t => t.transaction.id)
  count : st'.totalRemoved = st.totalRemoved + ts.length
  size : st'.totalSize = st.totalSize + (ts.map (fun t => t.transaction.size)).sum
  senders : st'.nonLocalSenders + st'.localSenders.length
    = st.nonLocalSenders + st.localSenders.length
  locals : ∀ s ∈ st'.localSenders, s ∈ st.localSenders
    ∨ ∃ w ∈ ws, w.transaction.senderId = s ∧ w.transaction.isLocal = true
  kept : ∀ s ∈ st.localSenders, s ∈ st'.localSenders
  nodup : st.localSenders.Nodup → st'.localSenders.Nodup
  nolocal : removeLocals = true → st'.localSenders = st.localSenders
  foreign : removeLocals = false → ∀ t ∈ ts, t.transaction.isLocal = false
  early : returned = true →
    limit.isExceeded (originalLength - st'.totalRemoved) (originalSize - st'.totalSize) = false
      ∨ st'.nonLocalSenders = 0
  all : returned = false →
    ∀ w ∈ ws, w ∈ ts ∨ w.transaction.senderId ∈ st'.localSenders

/-- Marking a sender as local moves it from one counter to the other. -/
theorem markLocal_spec (st : Scan) (s : SenderId) (hpos : st.nonLocalSenders ≠ 0) :
    ∃ st1, (if st.localSenders.contains s then st
        else { st with
          localSenders := s :: st.localSenders
          nonLocalSenders := st.nonLocalSenders - 1 }) = st1
      ∧ st1.removed = st.removed ∧ st1.totalRemoved = st.totalRemoved
      ∧ st1.totalSize = st.totalSize
      ∧ st1.nonLocalSenders + st1.localSenders.length = st.nonLocalSenders + st.localSenders.length
      ∧ (∀ s', s' ∈ st1.localSenders ↔ s' ∈ st.localSenders ∨ s' = s)
      ∧ (st.localSenders.Nodup → st1.localSenders.Nodup) := by
  by_cases hin : st.localSenders.contains s = true
  · rw [if_pos hin]
    have hmem : s ∈ st.localSenders := contains_iff_mem.mp hin
    refine ⟨st, rfl, rfl, rfl, rfl, rfl, fun s' => ⟨Or.inl, ?_⟩, fun h => h⟩
    rintro (h | rfl)
    · exact h
    · exact hmem
  · rw [if_neg hin]
    refine ⟨_, rfl, rfl, rfl, rfl, ?_, fun s' => ?_, fun h => ?_⟩
    · show st.nonLocalSenders - 1 + (st.localSenders.length + 1) = _
      omega
    · rw [mem_cons, or_comm]
    · exact nodup_cons.mpr ⟨fun h' => hin (contains_iff_mem.mpr h'), h⟩

theorem scanWorst_spec (ws : List (PendingTransaction V)) (st : Scan) :
    ∃ ts, Scanned limit removeLocals originalLength originalSize ws st ts
      (scanWorst limit removeLocals originalLength originalSize ws st).1
      (scanWorst limit removeLocals originalLength originalSize ws st).2 := by
  induction ws generalizing st with
  | nil =>
    refine ⟨[], Sublist.refl _, by simp [scanWorst], rfl, by simp [scanWorst], rfl,
      fun s hs => Or.inl hs, fun s hs => hs, fun h => h, fun _ => rfl, nofun,
      nofun, nofun⟩
  | cons w ws ih =>
    rw [scanWorst]
    by_cases hstop : (!limit.isExceeded (originalLength - st.totalRemoved)
        (originalSize - st.totalSize) || st.nonLocalSenders == 0) = true
    · rw [if_pos hstop]
      refine ⟨[], nil_sublist _, by simp, rfl, by simp, rfl, fun s hs => Or.inl hs,
        fun s hs => hs, fun h => h, fun _ => rfl, nofun, fun _ => ?_,
        nofun⟩
      simpa using hstop
    · rw [if_neg hstop]
      have hpos : st.nonLocalSenders ≠ 0 := by
        intro h0
        rw [h0] at hstop
        exact hstop (by simp)
      by_cases hloc : (!removeLocals && w.transaction.isLocal) = true
      · -- a local transaction is passed over
        rw [if_pos hloc]
        obtain ⟨st1, heq, hrem, hcount, hsize, hsenders, hlocals, hnd⟩ :=
          markLocal_spec st w.transaction.senderId hpos
        dsimp only
        rw [heq]
        obtain ⟨ts, hs⟩ := ih st1
        obtain ⟨hrl, hwl⟩ := Bool.and_eq_true_iff.mp hloc
        refine ⟨ts, hs.marked.cons w, hrem ▸ hs.removed, hcount ▸ hs.count, hsize ▸ hs.size,
          hs.senders.trans hsenders, fun s hmem => ?_,
          fun s hmem => hs.kept s ((hlocals s).mpr (Or.inl hmem)),
          fun h => hs.nodup (hnd h), fun h => ?_, hs.foreign, hs.early, fun h w' hw' => ?_⟩
        · rcases hs.locals s hmem with hmem | ⟨w', hw', hs'⟩
          · rcases (hlocals s).mp hmem with hmem | rfl
            · exact .inl hmem
            · exact .inr ⟨w, by simp, rfl, hwl⟩
          · exact .inr ⟨w', mem_cons_of_mem _ hw', hs'⟩
        · rw [h] at hrl
          nomatch hrl
        · rcases mem_cons.mp hw' with rfl | hw'
          · exact .inr (hs.kept _ ((hlocals _).mpr (Or.inr rfl)))
          · exact hs.all h w' hw'
      · rw [if_neg hloc]
        obtain ⟨ts, hs⟩ := ih { st with
          totalSize := st.totalSize + w.transaction.size
          totalRemoved := st.totalRemoved + 1
          removed := st.removed ++ [w.transaction.id] }
        refine ⟨w :: ts, hs.marked.cons_cons w, ?_, ?_, ?_, hs.senders, fun s hmem => ?_, hs.kept,
          hs.nodup, hs.nolocal, fun h t ht => ?_, hs.early, fun h w' hw' => ?_⟩
        · rw [hs.removed, append_assoc]
          rfl
        · rw [hs.count, length_cons]
          dsimp only
          omega
        · rw [hs.size, map_cons, sum_cons]
          dsimp only
          omega
        · rcases hs.locals s hmem with hmem | ⟨w', hw', hs'⟩
          · exact .inl hmem
          · exact .inr ⟨w', mem_cons_of_mem _ hw', hs'⟩
        · rcases mem_cons.mp ht with rfl | ht
          · rw [h] at hloc
            simpa using hloc
          · exact hs.foreign h t ht
        · rcases mem_cons.mp hw' with rfl | hw'
          · exact .inl (by simp)
          · rcases hs.all h w' hw' with h' | h'
            · exact .inl (mem_cons_of_mem _ h')
            · exact .inr h'

end

/-! ### The loop -/

section

variable [LinearOrder V] {limit : SubPoolLimit} {removeLocals : Bool}
  {originalLength originalSize : Nat} {p : PendingPool V}

/-- The listed worst transactions are the highest entries. -/
theorem WF.mem_worstTransactions (h : WF p) :
    w ∈ p.worstTransactions ↔ p.highestNonces[w.transaction.senderId]? = some w := by
  rw [worstTransactions, (perm_insertionSort _ _).mem_iff, mem_map]
  constructor
  · rintro ⟨e, he, rfl⟩
    have hget := mem_toList.mp he
    rw [(h.highest hget).1]
    exact hget
  · intro hget
    exact ⟨_, mem_toList.mpr hget, rfl⟩

theorem WF.nodup_worstTransactions (h : WF p) :
    (p.worstTransactions.map (·.transaction.senderId)).Nodup := by
  have hperm := (perm_insertionSort (fun a b : PendingTransaction V =>
    (compare a.ord b.ord).isLE = true) (p.highestNonces.toList.map Prod.snd)).map
      (·.transaction.senderId)
  refine hperm.nodup_iff.mpr ?_
  have hkeys : (p.highestNonces.toList.map Prod.snd).map (·.transaction.senderId)
      = p.highestNonces.toList.map Prod.fst := by
    rw [map_map]
    exact map_congr_left fun e he => (h.highest (mem_toList.mp he)).1
  rw [hkeys]
  exact nodup_keys p.highestNonces

/-- The counters at the head of the loop. -/
structure Counts (removeLocals : Bool) (originalLength originalSize : Nat) (p : PendingPool V)
    (uniqueSenders : Nat) (st : Scan) : Prop where
  length : st.totalRemoved + p.listing.length = originalLength
  size : st.totalSize + weight p.listing = originalSize
  senders : st.nonLocalSenders + st.localSenders.length = uniqueSenders
  shrinks : p.highestNonces.size ≤ uniqueSenders
  nodup : st.localSenders.Nodup
  locals : ∀ s ∈ st.localSenders,
    ∃ t, p.highestNonces[s]? = some t ∧ t.transaction.isLocal = true
  nolocal : removeLocals = true → st.localSenders = []

/-- **ONE ITERATION**: the highest entries that were marked are taken, and the
    counters stay in step with the pool. -/
theorem Counts.iterate {uniqueSenders : Nat} {st st' : Scan} {ts : List (PendingTransaction V)}
    {returned : Bool} (h : WF p)
    (hc : Counts removeLocals originalLength originalSize p uniqueSenders st)
    (hs : Scanned limit removeLocals originalLength originalSize p.worstTransactions
      { st with
        nonLocalSenders := st.nonLocalSenders - (uniqueSenders - p.highestNonces.size)
        removed := [] } ts returned st') :
    Peeled p (p.removeAll st'.removed).2
      ∧ Counts removeLocals originalLength originalSize (p.removeAll st'.removed).2
          p.highestNonces.size st'
      ∧ (p.removeAll st'.removed).2.listing.length + ts.length = p.listing.length
      ∧ (∀ s : SenderId, p.highestNonces[s]? = none →
          (p.removeAll st'.removed).2.highestNonces[s]? = none) := by
  have hmem : ∀ t ∈ ts, p.highestNonces[t.transaction.senderId]? = some t := fun t ht =>
    h.mem_worstTransactions.mp (hs.marked.subset ht)
  have hnd : (ts.map (·.transaction.senderId)).Nodup :=
    h.nodup_worstTransactions.sublist (hs.marked.map _)
  have hrem : st'.removed = ts.map (·.transaction.id) := by
    rw [hs.removed]
    rfl
  obtain ⟨hpeel, hout, hother, hnone⟩ := h.removeAll_peeled ts hmem hnd
  obtain ⟨-, hw⟩ := h.removeAll (ts.map (·.transaction.id))
  rw [hout] at hw
  obtain ⟨hlen, hweight⟩ := withdraws_count hw p.lists (lists _)
  rw [length_map] at hlen
  rw [map_map] at hweight
  rw [hrem]
  -- the counter of the senders that are not local, adjusted to the pool
  have hlocal : st.localSenders.length ≤ p.highestNonces.size :=
    length_le_size hc.nodup (fun s hmem => by
      obtain ⟨t, ht, -⟩ := hc.locals s hmem
      rw [ht]
      exact some_ne_none t)
  have hsenders : st'.nonLocalSenders + st'.localSenders.length = p.highestNonces.size := by
    have h1 := hs.senders
    have h2 := hc.senders
    have h3 := hc.shrinks
    dsimp only at h1
    omega
  have hlocals : ∀ s ∈ st'.localSenders,
      ∃ t, p.highestNonces[s]? = some t ∧ t.transaction.isLocal = true := by
    intro s hmem
    rcases hs.locals s hmem with hold | ⟨w, hw, rfl, hloc⟩
    · exact hc.locals s hold
    · exact ⟨w, h.mem_worstTransactions.mp hw, hloc⟩
  refine ⟨hpeel, ⟨?_, ?_, hsenders, size_le_of_none hnone, hs.nodup hc.nodup, fun s hin => ?_,
    fun hl => (hs.nolocal hl).trans (hc.nolocal hl)⟩, hlen, hnone⟩
  · have h1 := hs.count
    have h2 := hc.length
    dsimp only at h1
    omega
  · have h1 := hs.size
    have h2 := hc.size
    have h3 : (ts.map (ValidPoolTransaction.size ∘ fun t => t.transaction)).sum
        = (ts.map (·.transaction.size)).sum := rfl
    dsimp only at h1
    omega
  · obtain ⟨t, ht, hloc⟩ := hlocals s hin
    refine ⟨t, ?_, hloc⟩
    rw [hother s, ht]
    -- a sender that was marked local has nothing taken
    intro hin'
    obtain ⟨t', ht', rfl⟩ := mem_map.mp hin'
    rw [hmem t' ht'] at ht
    obtain rfl := Option.some.inj ht
    cases hrl : removeLocals with
    | true =>
      rw [hs.nolocal hrl, hc.nolocal hrl] at hin
      nomatch hin
    | false =>
      rw [hs.foreign hrl t' ht'] at hloc
      nomatch hloc

omit [LinearOrder V] in
/-- The counters when a scan stops early: the limit is met or nothing is left to take. -/
theorem Counts.stopped (h : WF p)
    (hc : Counts removeLocals originalLength originalSize p uniqueSenders st)
    (hstop : limit.isExceeded (originalLength - st.totalRemoved) (originalSize - st.totalSize) =
      false ∨ st.nonLocalSenders = 0) :
    p.exceeds limit = false ∨ st.nonLocalSenders = 0 := by
  refine hstop.imp_left fun hmet => ?_
  rw [h.exceeds_eq, ← hmet, ← hc.length, ← hc.size, Nat.add_sub_cancel_left,
    Nat.add_sub_cancel_left]

variable {uniqueSenders : Nat} {st : Scan}

theorem Counts.scanned (limit : SubPoolLimit) (h : WF p)
    (hc : Counts removeLocals originalLength originalSize p uniqueSenders st) {scan : Bool × Scan}
    (hscan : scanWorst limit removeLocals originalLength originalSize p.worstTransactions
      { st with
        nonLocalSenders := st.nonLocalSenders - (uniqueSenders - p.highestNonces.size)
        removed := [] } = scan) :
    ∃ ts, Scanned limit removeLocals originalLength originalSize p.worstTransactions
        { st with
          nonLocalSenders := st.nonLocalSenders - (uniqueSenders - p.highestNonces.size)
          removed := [] } ts scan.1 scan.2
      ∧ Peeled p (p.removeAll scan.2.removed).2
      ∧ Counts removeLocals originalLength originalSize (p.removeAll scan.2.removed).2
          p.highestNonces.size scan.2
      ∧ (p.removeAll scan.2.removed).2.listing.length + ts.length = p.listing.length
      ∧ (∀ s : SenderId, p.highestNonces[s]? = none →
          (p.removeAll scan.2.removed).2.highestNonces[s]? = none) := by
  obtain ⟨ts, hs⟩ := @scanWorst_spec V limit removeLocals originalLength originalSize
    p.worstTransactions _
  rw [hscan] at hs
  exact ⟨ts, hs, hc.iterate h hs⟩

/-- Only removable transactions leave in the loop. -/
theorem WF.removeToLimitLoop_peeled (fuel : Nat) {endRemoved out : List ValidPoolTransaction}
    (h : WF p) (hc : Counts removeLocals originalLength originalSize p uniqueSenders st)
    (heq : PendingPool.removeToLimitLoop limit removeLocals originalLength originalSize fuel p
      uniqueSenders st endRemoved = some (out, p')) :
    Peeled p p' := by
  induction fuel generalizing p p' uniqueSenders st endRemoved out with
  | zero => nomatch heq
  | succ fuel ih =>
    rw [PendingPool.removeToLimitLoop] at heq
    generalize hscan : scanWorst _ _ _ _ _ _ = scan at heq
    obtain ⟨ts, -, hpeel, hc', -, -⟩ := hc.scanned limit h hscan
    split at heq
    · cases heq
      exact hpeel
    · split at heq
      · cases heq
        exact hpeel
      · exact hpeel.trans (ih (h.removeAll scan.2.removed).1 hc' heq)

/-- **PENDING TRUNCATION RETURNS** within the limit or, if locals were not spared, without a highest
    entry. -/
theorem WF.removeToLimitLoop_total (fuel : Nat) (endRemoved : List ValidPoolTransaction) (h : WF p)
    (hc : Counts removeLocals originalLength originalSize p uniqueSenders st)
    (hfuel : p.listing.length < fuel) :
    ∃ out p', PendingPool.removeToLimitLoop limit removeLocals originalLength originalSize fuel p
      uniqueSenders st endRemoved = some (out, p') ∧
      (removeLocals = true → p'.exceeds limit = false ∨ ∀ s : SenderId, p'.highestNonces[s]? =
      none) := by
  induction fuel generalizing p uniqueSenders st endRemoved with
  | zero => cases hfuel
  | succ fuel ih =>
    rw [PendingPool.removeToLimitLoop]
    generalize hscan : scanWorst _ _ _ _ _ _ = scan
    obtain ⟨ts, hs, -, hc', hlen, hnone⟩ := hc.scanned limit h hscan
    obtain ⟨h', -⟩ := h.removeAll scan.2.removed
    -- no sender that is not local: with `removeLocals` no sender at all
    have hempty : scan.2.nonLocalSenders = 0 → removeLocals = true →
        ∀ s : SenderId, (p.removeAll scan.2.removed).2.highestNonces[s]? = none := by
      intro hz hrl s
      refine hnone s ?_
      have h1 := hc'.senders
      rw [hz, hc'.nolocal hrl, length_nil] at h1
      rw [ExtTreeMap.eq_empty_iff_size_eq_zero.mpr h1.symm]
      exact ExtTreeMap.getElem?_empty
    by_cases hret : scan.1 = true
    · rw [if_pos hret]
      refine ⟨_, _, rfl, fun hrl => ?_⟩
      exact (hc'.stopped h' (hs.early hret)).imp_right (hempty · hrl)
    · rw [if_neg hret]
      by_cases hdone : (!(p.removeAll scan.2.removed).2.exceeds limit
          || scan.2.nonLocalSenders == 0) = true
      · rw [if_pos hdone]
        refine ⟨_, _, rfl, fun hrl => ?_⟩
        rw [Bool.or_eq_true, Bool.not_eq_true', beq_iff_eq] at hdone
        exact hdone.imp_right (hempty · hrl)
      · rw [if_neg hdone]
        -- a full scan that marked nothing has seen local senders only
        have hpos : 0 < ts.length := by
          refine pos_of_ne_zero fun hz => hdone ?_
          have hlocal := hs.all (Bool.eq_false_iff.mpr hret)
          rw [length_eq_zero_iff] at hz
          have hle : p.highestNonces.size ≤ scan.2.localSenders.length := by
            refine size_le_length fun s t hst => ?_
            have hkey := (h.highest hst).1
            rcases hlocal t (h.mem_worstTransactions.mpr (by rw [hkey, hst])) with hin | hin
            · rw [hz] at hin
              cases hin
            · rwa [hkey] at hin
          have h1 := hc'.senders
          have h0 : scan.2.nonLocalSenders = 0 := by omega
          rw [h0]
          simp
        exact ih _ h' hc' (by omega)

omit [LinearOrder V] in
theorem WF.counts_init (h : WF p) (removeLocals : Bool) :
    Counts removeLocals p.len p.size p p.highestNonces.size
      { nonLocalSenders := p.highestNonces.size, localSenders := [], totalRemoved := 0,
        totalSize := 0, removed := [] } :=
  ⟨(zero_add _).trans p.len_eq.symm, (zero_add _).trans h.size_eq.symm, rfl,
    le_rfl, nodup_nil, nofun, fun _ => rfl⟩

variable {fuel : Nat}

/-- A truncation of the pending sub-pool that returned took removable transactions only. -/
theorem WF.truncatePool_peeled {p' : PendingPool V} {out : List ValidPoolTransaction} (h : WF p)
    (heq : p.truncatePool fuel limit = some (out, p')) : Peeled p p' := by
  rw [PendingPool.truncatePool] at heq
  split at heq
  · cases heq
    exact .refl p
  · obtain ⟨r, hr, heq⟩ := bind_eq_some_iff.mp heq
    have hpeel := h.removeToLimitLoop_peeled fuel (h.counts_init false) hr
    obtain ⟨-, -, h', -⟩ := h.removeToLimitLoop fuel hr
    split at heq
    · cases heq
      exact hpeel
    · exact hpeel.trans (h'.removeToLimitLoop_peeled fuel (h'.counts_init true) heq)

/-- **TRUNCATING THE PENDING SUB-POOL** returns within the limit or without a highest entry. -/
theorem WF.truncatePool_total (h : WF p) (limit : SubPoolLimit) (hfuel : p.len < fuel) :
    ∃ out p', p.truncatePool fuel limit = some (out, p')
      ∧ (p'.exceeds limit = false ∨ ∀ s : SenderId, p'.highestNonces[s]? = none) := by
  rw [PendingPool.truncatePool]
  by_cases hex : (!p.exceeds limit) = true
  · rw [if_pos hex]
    exact ⟨[], p, rfl, Or.inl (by simpa using hex)⟩
  rw [if_neg hex]
  obtain ⟨out, p1, hfirst, -⟩ := h.removeToLimitLoop_total fuel [] (h.counts_init false)
    (p.len_eq ▸ hfuel)
  have hpeel := h.removeToLimitLoop_peeled fuel (h.counts_init false) hfirst
  obtain ⟨-, -, h₁, -⟩ := h.removeToLimitLoop fuel hfirst
  rw [removeToLimit, hfirst, bind_eq_bind, bind_some]
  by_cases hex1 : (!p1.exceeds limit) = true
  · rw [if_pos hex1]
    exact ⟨out, p1, rfl, Or.inl (by simpa using hex1)⟩
  · -- the local transactions go as well
    rw [if_neg hex1]
    obtain ⟨out', p', hsecond, hend⟩ := h₁.removeToLimitLoop_total fuel out
      (h₁.counts_init true) (p1.len_eq ▸ lt_of_le_of_lt hpeel.len_le hfuel)
    exact ⟨out', p', hsecond, hend rfl⟩

end

/-! ### Stranded transactions -/

variable {p p' : PendingPool V}

/-- `Removable`, executable. -/
def removable (p : PendingPool V) (id : TransactionId) : Bool :=
  p.highestNonces[id.sender]?.any (fun highest =>
    decide (id.nonce ≤ highest.transaction.nonce)
      && (List.range' id.nonce (highest.transaction.nonce + 1 - id.nonce)).all
          (fun m => p.byId[(⟨id.sender, m⟩ : TransactionId)]?.isSome))

theorem removable_iff : p.removable id = true ↔ p.Removable id := by
  rw [removable, Option.any_eq_true]
  refine exists_congr fun highest => and_congr_right fun _ => ?_
  rw [Bool.and_eq_true, decide_eq_true_eq, List.all_eq_true]
  refine and_congr_right fun hle => ⟨fun h m hm hm' => ?_, fun h m hm => ?_⟩
  · refine Option.isSome_iff_ne_none.mp (h m ?_)
    rw [mem_range'_1]
    omega
  · rw [mem_range'_1] at hm
    exact Option.isSome_iff_ne_none.mpr (h m hm.1 (by omega))

/-- **STRANDED**: neither the transaction nor one below it is removable, so no truncation takes it.
    -/
def Stranded (p : PendingPool V) (id : TransactionId) : Prop :=
  ∀ m ≤ id.nonce, ¬ p.Removable ⟨id.sender, m⟩

/-- `Stranded`, executable. -/
def stranded (p : PendingPool V) (id : TransactionId) : Bool :=
  !p.listing.any (fun e => e.1.sender == id.sender && decide (e.1.nonce ≤ id.nonce)
    && p.removable e.1)

theorem stranded_iff : p.stranded id = true ↔ p.Stranded id := by
  rw [stranded, Bool.not_eq_true', any_eq_false]
  constructor
  · intro h m hm hrem
    obtain ⟨t, ht⟩ := Option.ne_none_iff_exists'.mp hrem.held
    refine h (⟨id.sender, m⟩, t.transaction)
      ((p.lists.mem _ _).mpr (get_eq_some.mpr ⟨t, ht, rfl⟩)) ?_
    rw [removable_iff.mpr hrem, beq_self_eq_true, decide_eq_true hm]
    rfl
  · rintro h ⟨⟨sender, nonce⟩, tx⟩ - hany
    simp only [Bool.and_eq_true, beq_iff_eq, decide_eq_true_eq] at hany
    obtain ⟨⟨rfl, hle⟩, hrem⟩ := hany
    exact h nonce hle (removable_iff.mp hrem)

/-- The stranded transactions by id. -/
def strandedListing (p : PendingPool V) : List (TransactionId × ValidPoolTransaction) :=
  p.listing.filter (fun e => p.stranded e.1)

/-- Whether the stranded transactions alone are over a limit. -/
def strandedExceeds (p : PendingPool V) (limit : SubPoolLimit) : Bool :=
  limit.isExceeded p.strandedListing.length (weight p.strandedListing)

theorem mem_strandedListing :
    e ∈ p.strandedListing ↔ p.get e.1 = some e.2 ∧ p.Stranded e.1 := by
  rw [strandedListing, mem_filter, stranded_iff, p.lists.mem]

/-- The stranded transactions stay, and they stay stranded. -/
def KeepsStranded (p p' : PendingPool V) : Prop :=
  ∀ (id : TransactionId) (tx : ValidPoolTransaction), p.get id = some tx → p.Stranded id →
    p'.get id = some tx ∧ p'.Stranded id

variable {limit : SubPoolLimit}

theorem KeepsStranded.strandedExceeds (h : KeepsStranded p p')
    (hex : p.strandedExceeds limit = true) : p'.strandedExceeds limit = true := by
  have hnodup : p.strandedListing.Nodup := p.lists.nodup.sublist filter_sublist
  refine SubPoolLimit.isExceeded_of_subperm (subperm_of_subset hnodup ?_) hex
  intro e he
  obtain ⟨hget, hstr⟩ := mem_strandedListing.mp he
  exact mem_strandedListing.mpr (h e.1 e.2 hget hstr)

theorem WF.exceeds_of_stranded (h : WF p) (hex : p.strandedExceeds limit = true) :
    p.exceeds limit = true := by
  rw [h.exceeds_eq]
  exact SubPoolLimit.isExceeded_of_subperm filter_sublist.subperm hex

/-- Without a pending ancestor, a removal makes nothing removable. -/
theorem removable_of_removeTransaction (hanc : p.ancestor id = none)
    (h : (p.removeTransaction id).2.Removable i) : p.Removable i := by
  cases ht : p.byId[id]? with
  | none =>
    rw [removeTransaction_of_none ht] at h
    obtain ⟨hbyId, -, hhigh⟩ := p.advanceIndependent_frame id
    simp only [Removable, hbyId, hhigh] at h
    exact h
  | some t =>
    obtain ⟨highest, hget, hle, hall⟩ := h
    rw [highestNonces_removeTransaction ht, hanc] at hget
    rw [byId_removeTransaction ht] at hall
    have hold : p.highestNonces[i.sender]? = some highest := by
      by_cases hs : id.sender = i.sender
      · rw [if_pos hs] at hget
        obtain ⟨highest', hget', heq⟩ := bind_eq_some_iff.mp hget
        rw [Option.none_or] at heq
        split at heq
        · nomatch heq
        · rw [hget', heq]
      · rwa [if_neg hs] at hget
    refine ⟨highest, hold, hle, fun m hm hm' hnone => hall m hm hm' ?_⟩
    rw [get_erase, hnone, ite_self]

end PendingPool

end TransactionPool
