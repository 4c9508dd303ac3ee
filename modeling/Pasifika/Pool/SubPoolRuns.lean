import Pasifika.Pool.Reachable
import Pasifika.Pool.Truncation

/-! # Runs of a sub-pool

A parked or a pending pool by itself, under any sequence of its operations
from the empty pool on: what its indexes say about the transactions held. -/

namespace TransactionPool

open OrderedMap List Option

namespace ParkedPool

/-- The loop of `enforce_basefee_with`; the transactions go to the handler. -/
def removeEach : List TransactionId → ParkedPool → Option (List ValidPoolTransaction × ParkedPool)
  | [], p => some ([], p)
  | id :: ids, p => do
      let r ← p.removeTransaction id
      let rs ← removeEach ids r.2
      some (r.1.toList ++ rs.1, rs.2)

/-- The operations of a parked pool. -/
inductive Op
  | addTransaction (tx : ValidPoolTransaction)
  | removeTransaction (id : TransactionId)
  | enforceBasefeeWith (basefee : Nat)
  | truncatePool (limit : SubPoolLimit)

/-- Carry out an operation; a panic is `none`. -/
def apply (p : ParkedPool) : Op → Option ParkedPool
  | .addTransaction tx => some (p.addTransaction tx)
  | .removeTransaction id => (p.removeTransaction id).map Prod.snd
  | .enforceBasefeeWith basefee => (removeEach (p.satisfyBaseFeeIds basefee) p).map Prod.snd
  | .truncatePool limit => (p.truncatePool (p.len + 1) limit).map Prod.snd

/-- No id is added twice. -/
def accepts (p : ParkedPool) : Op → Bool
  | .addTransaction tx => (p.get tx.id).isNone
  | _ => true

/-- The sender of an added transaction. -/
def Op.submitter : Op → Option SenderId
  | .addTransaction tx => some tx.senderId
  | _ => none

/-- The senders of the transactions added by a run, in order: the place of one is
    its submission id. -/
def submitters (ops : List Op) : List SenderId := ops.filterMap Op.submitter

/-- The last place of a sender. -/
def Latest (l : List SenderId) (s : SenderId) (n : Nat) : Prop :=
  l[n]? = some s ∧ ∀ m, l[m]? = some s → m ≤ n

/-- A sound pool whose entries name the last submissions. -/
structure Recorded (l : List SenderId) (p : ParkedPool) : Prop extends WF p where
  counter : p.submissionId = l.length
  latest : ∀ {s : SenderId} {c : SenderTransactionCount},
    p.senderTransactionCount[s]? = some c → Latest l s c.lastSubmissionId

variable {l : List SenderId} {p p' : ParkedPool}

theorem Recorded.addTransaction (h : Recorded l p) (hnew : p.get tx.id = none) :
    Recorded (l ++ [tx.senderId]) (p.addTransaction tx) := by
  refine ⟨h.toWF.addTransaction hnew, ?_, fun {s c} hc => ?_⟩
  · rw [length_append, ← h.counter]
    exact (addSenderCount_frame _ _ _).2.1
  rw [senderTransactionCount_addTransaction, get_insert] at hc
  by_cases hs : tx.senderId = s
  · rw [if_pos hs] at hc
    cases hc
    rw [h.counter, ← hs]
    refine ⟨getElem?_concat_length, fun m hm => ?_⟩
    have := (List.getElem?_eq_some_iff.mp hm).1
    rw [length_append, length_singleton] at this
    exact Nat.le_of_lt_succ this
  · rw [if_neg hs] at hc
    obtain ⟨hat, hmax⟩ := h.latest hc
    have hlt := (List.getElem?_eq_some_iff.mp hat).1
    refine ⟨(getElem?_append_left hlt).trans hat, fun m hm => hmax m ?_⟩
    rcases lt_trichotomy m l.length with hlt | heq | hgt
    · rwa [getElem?_append_left hlt] at hm
    · rw [heq, getElem?_concat_length] at hm
      exact absurd (some.inj hm) hs
    · rw [getElem?_eq_none (by simp; omega)] at hm
      nomatch hm

/-- A removal keeps the submission of a sender that stays. -/
theorem Recorded.removeTransaction (h : Recorded l p) (id : TransactionId) :
    ∃ r, p.removeTransaction id = some r ∧ Recorded l r.2 := by
  cases ht : p.byId[id]? with
  | none => exact ⟨(none, p), by rw [ParkedPool.removeTransaction, ht], h⟩
  | some t =>
    obtain ⟨c, hc, hcount, -⟩ := h.exists_count ht
    refine ⟨_, h.removeTransaction_eq ht hc, h.toWF.without ht hc hcount, h.counter, ?_⟩
    intro s c' hc'
    by_cases hs : id.sender = s
    · subst hs
      rw [senderTransactionCount_without_self] at hc'
      split at hc'
      · cases hc'
      · cases hc'
        exact h.latest (c := c) hc
    · rw [senderTransactionCount_without_ne hs] at hc'
      exact h.latest hc'

theorem Recorded.removeEach (h : Recorded l p) (ids : List TransactionId) :
    ∃ r, removeEach ids p = some r ∧ Recorded l r.2 := by
  induction ids generalizing p with
  | nil => exact ⟨_, rfl, h⟩
  | cons id ids ih =>
    obtain ⟨r, hr, h'⟩ := h.removeTransaction id
    obtain ⟨rs, hrs, h''⟩ := ih h'
    exact ⟨(r.1.toList ++ rs.1, rs.2), by simp [ParkedPool.removeEach, hr, hrs], h''⟩

theorem Recorded.dropUntil (h : Recorded l p) (limit : SubPoolLimit) (ids : List TransactionId)
    (hr : dropUntil limit ids p = some r) :
    Recorded l r.2 := by
  induction ids generalizing p r with
  | nil =>
    cases hr
    exact h
  | cons id ids ih =>
    obtain ⟨r1, hr1, h'⟩ := h.removeTransaction id
    simp only [ParkedPool.dropUntil, hr1, bind_eq_bind, bind_some] at hr
    split at hr
    · cases hr
      exact h'
    · obtain ⟨rs, hrs, hr⟩ := bind_eq_some_iff.mp hr
      cases hr
      exact ih (r := rs) h' hrs

theorem Recorded.truncateLoop (h : Recorded l p) (limit : SubPoolLimit) (fuel : Nat)
    (hrun : truncateLoop limit fuel p removed = some (out, p')) : Recorded l p' := by
  induction fuel generalizing p removed with
  | zero => nomatch hrun
  | succ fuel ih =>
    rw [ParkedPool.truncateLoop] at hrun
    split at hrun
    · cases hrun
      exact h
    · split at hrun
      · obtain ⟨r, hr, hrun⟩ := bind_eq_some_iff.mp hrun
        exact ih (h.dropUntil limit _ hr) hrun
      · cases hrun
        exact h

/-- **ONE OPERATION** returns and keeps the record. -/
theorem Recorded.apply (h : Recorded l p) (hop : p.accepts op = true) :
    ∃ p', p.apply op = some p' ∧ Recorded (l ++ op.submitter.toList) p' := by
  cases op with
  | addTransaction tx => exact ⟨_, rfl, h.addTransaction (isNone_iff_eq_none.mp hop)⟩
  | removeTransaction id =>
    obtain ⟨r, hr, h'⟩ := h.removeTransaction id
    exact ⟨r.2, congrArg (Option.map _) hr, by simpa [Op.submitter] using h'⟩
  | enforceBasefeeWith basefee =>
    obtain ⟨r, hr, h'⟩ := h.removeEach (p.satisfyBaseFeeIds basefee)
    exact ⟨r.2, congrArg (Option.map _) hr, by simpa [Op.submitter] using h'⟩
  | truncatePool limit =>
    obtain ⟨out, p', hr, -⟩ := h.truncatePool_total limit (Nat.lt_succ_self p.len)
    refine ⟨p', congrArg (Option.map _) hr, ?_⟩
    rw [ParkedPool.truncatePool] at hr
    simp only [Op.submitter, toList_none, append_nil]
    split at hr
    · cases hr
      exact h
    · exact h.truncateLoop limit _ hr

theorem Recorded.run (h : Recorded l p) (hrun : Runs.run ParkedPool.apply accepts ops p = some p') :
    Recorded (l ++ submitters ops) p' := by
  induction ops generalizing l p with
  | nil =>
    cases hrun
    simpa [submitters] using h
  | cons op ops ih =>
    rw [Runs.run] at hrun
    split at hrun
    · rename_i hop
      obtain ⟨p1, hp1, h1⟩ := h.apply hop
      rw [hp1, bind_some] at hrun
      have := ih h1 hrun
      rw [append_assoc] at this
      cases hs : op.submitter <;> simpa [submitters, filterMap_cons, hs] using this
    · cases hrun

/-- **SENDERS TRACKED** after every run: the index counts the transactions held and names the last
    submission, the set of last submissions is its image, no operation panics, and truncation
    returns within its limit. -/
theorem run_senders_tracked {ops : List Op} (hrun : Runs.run apply accepts ops default = some p) :
    (∀ (s : SenderId) (c : SenderTransactionCount), p.senderTransactionCount[s]? = some c ↔
      p.senderCount s ≠ 0 ∧ c.count = p.senderCount s ∧
        Latest (submitters ops) s c.lastSubmissionId) ∧
    (∀ (n : Nat) (s : SenderId), p.lastSenderSubmission[n]? = some s ↔
      ∃ c : SenderTransactionCount,
        p.senderTransactionCount[s]? = some c ∧ c.lastSubmissionId = n) ∧
    (∀ op, p.accepts op = true → ∃ p', p.apply op = some p') ∧
    ∀ (limit : SubPoolLimit) (fuel : Nat), p.len < fuel →
      ∃ out p', p.truncatePool fuel limit = some (out, p') ∧ p'.exceeds limit = false := by
  have h : Recorded ([] ++ submitters ops) p :=
    Recorded.run ⟨wf_default, rfl, fun hc => by simp [default] at hc⟩ hrun
  refine ⟨fun s c => ?_, h.last, fun op hop => ?_, fun limit fuel => h.truncatePool_total limit⟩
  · have hcount := h.count s
    constructor
    · intro hc
      rw [hc] at hcount
      split at hcount
      · cases hcount
      · exact ⟨‹_›, some.inj hcount, h.latest hc⟩
    · rintro ⟨h0, hc, hat, hmax⟩
      rw [if_neg h0] at hcount
      obtain ⟨c', hc', heq⟩ := map_eq_some_iff.mp hcount
      obtain ⟨hat', hmax'⟩ := h.latest hc'
      have hlast : c'.lastSubmissionId = c.lastSubmissionId :=
        le_antisymm (hmax _ hat') (hmax' _ hat)
      rw [hc']
      cases c
      cases c'
      simp_all
  · obtain ⟨p', hp', -⟩ := h.apply hop
    exact ⟨p', hp'⟩

/-- A sender that submits twice and loses the second transaction. -/
def sampleOps : List Op :=
  [.addTransaction (TxPool.sampleTx 1 1 0 5 9 none),
   .addTransaction (TxPool.sampleTx 2 1 1 5 9 none), .removeTransaction ⟨1, 1⟩]

theorem run_senders_tracked_sample :
    ∃ p, Runs.run apply accepts sampleOps default = some p ∧ Latest (submitters sampleOps) 1 1 ∧
      ∃ out p', p.truncatePool 9 ⟨0, 0⟩ = some (out, p') ∧ p'.exceeds ⟨0, 0⟩ = false := by
  have h : (Runs.run apply accepts sampleOps default).map (fun p =>
      (p.len, p.senderTransactionCount[(1 : SenderId)]?)) = some (1, some ⟨1, 1⟩) := by
    decide +kernel
  obtain ⟨p, hp, heq⟩ := map_eq_some_iff.mp h
  obtain ⟨hlen, hentry⟩ := Prod.mk.inj heq
  obtain ⟨hcount, -, -, htruncate⟩ := run_senders_tracked hp
  exact ⟨p, hp, ((hcount 1 ⟨1, 1⟩).mp hentry).2.2, htruncate ⟨0, 0⟩ 9 (by omega)⟩

end ParkedPool

end TransactionPool
