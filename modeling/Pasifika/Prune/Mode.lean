import Mathlib

/-! # Prune modes

`prune/types`: what a mode removes is said twice, by the last block that the pruner deletes
and by the test of the live writer. Both compute with `u64`. -/

namespace Prune

inductive PruneMode
  | full
  | distance (distance : UInt64)
  | before (n : UInt64)

inductive PruneSegment
  | senderRecovery | transactionLookup | receipts | contractLogs | accountHistory | storageHistory
  | headers | transactions

inductive PrunePurpose
  | user | staticFile

def PrunePurpose.isStaticFile : PrunePurpose → Bool
  | user => false
  | staticFile => true

def minimumPruningDistance : UInt64 := 32 * 2 + 10000

def PruneSegment.minBlocks (purpose : PrunePurpose) : PruneSegment → UInt64
  | senderRecovery | transactionLookup | headers | transactions => 0
  | contractLogs | accountHistory | storageHistory => minimumPruningDistance
  | receipts => if purpose.isStaticFile then 0 else minimumPruningDistance

namespace PruneMode

/-- The last block to delete, or the segment for which the mode is not allowed. -/
def pruneTargetBlock (tip : UInt64) (segment : PruneSegment) (purpose : PrunePurpose) :
    PruneMode → Except PruneSegment (Option (UInt64 × PruneMode))
  | full => if segment.minBlocks purpose = 0 then .ok (some (tip, full)) else .error segment
  | distance d =>
    if tip < d then .ok none
    else if segment.minBlocks purpose ≤ d then .ok (some (tip - d, distance d))
    else .error segment
  | before n =>
    if n = tip + 1 ∧ purpose.isStaticFile then .ok (some (tip, before n))
    else if tip < n then .ok none
    else if segment.minBlocks purpose ≤ tip - n then
      -- `saturating_sub(1)`
      .ok (some (if n = 0 then 0 else n - 1, before n))
    else .ok none

def shouldPrune (block tip : UInt64) : PruneMode → Bool
  | full => true
  | distance d => !decide (tip < d) && block < tip - d
  | before n => block < n

/-- What the mode is documented to remove: `distance n` keeps the last `n + 1` blocks. -/
def Documented (block tip : UInt64) : PruneMode → Prop
  | full => True
  | distance d => block.toNat + d.toNat < tip.toNat
  | before n => block < n

/-- The pruner deletes up to `target` what the writer leaves out and the mode documents. -/
def Agrees (mode : PruneMode) (tip target : UInt64) : Prop :=
  ∀ block ≤ tip, (block ≤ target ↔ mode.shouldPrune block tip = true)
    ∧ (block ≤ target ↔ mode.Documented block tip)

theorem shouldPrune_iff (mode : PruneMode) (block tip : UInt64) :
    mode.shouldPrune block tip = true ↔ mode.Documented block tip := by
  cases mode with
  | full => simp [shouldPrune, Documented]
  | distance d => grind [shouldPrune, Documented, UInt64.lt_iff_toNat_lt, UInt64.toNat_sub_of_le]
  | before n => simp [shouldPrune, Documented]

variable {mode mode' : PruneMode} {tip target : UInt64} {segment : PruneSegment}
  {purpose : PrunePurpose}

/-- **ONE SET**: pruner and writer agree exactly in the modes `full` and `before n` with `n` not
    zero. -/
theorem agrees_iff
    (h : mode.pruneTargetBlock tip segment purpose = .ok (some (target, mode'))) :
    mode.Agrees tip target ↔ mode = full ∨ ∃ n, n ≠ 0 ∧ mode = before n := by
  simp only [Agrees, shouldPrune_iff, and_self]
  cases mode with
  | full =>
    rw [pruneTargetBlock] at h
    split at h
    · cases h
      simp [Documented]
    · nomatch h
  | distance d =>
    rw [pruneTargetBlock] at h
    split at h
    · nomatch h
    rename_i hd
    split at h
    · cases h
      -- the target itself is deleted, and the writer keeps it
      have hle := UInt64.not_lt.mp hd
      have htarget := UInt64.toNat_sub_of_le _ _ hle
      have hd' := UInt64.le_iff_toNat_le.mp hle
      refine iff_of_false (fun hall => ?_) (by simp)
      have hkept := (hall (tip - d) (UInt64.le_iff_toNat_le.mpr (by omega))).mp (UInt64.le_refl _)
      simp only [Documented] at hkept
      omega
    · nomatch h
  | before n =>
    have hset : (before n = full ∨ ∃ m, m ≠ 0 ∧ before n = before m) ↔ n ≠ 0 := by simp
    rw [hset]
    by_cases hn : n = 0
    · -- no block is below 0, and the subtraction saturates
      subst hn
      refine iff_of_false (fun hall => ?_) (not_not_intro rfl)
      have hpruned := (hall 0 UInt64.zero_le).mp UInt64.zero_le
      simp [Documented] at hpruned
    · have hpos : 0 < n.toNat := Nat.pos_of_ne_zero fun h0 => hn (UInt64.toNat_inj.mp h0)
      have htarget : target.toNat + 1 = n.toNat := by
        rw [pruneTargetBlock] at h
        split at h
        · rename_i hnext
          cases h
          have hlt := tip.toNat_lt
          rw [hnext.1, UInt64.toNat_add] at hpos ⊢
          have hone : UInt64.toNat 1 = 1 := rfl
          omega
        split at h
        · nomatch h
        split at h
        · cases h
          have hone : 1 ≤ n := UInt64.le_iff_toNat_le.mpr hpos
          rw [UInt64.toNat_sub_of_le _ _ hone]
          exact Nat.sub_add_cancel hpos
        · nomatch h
      refine iff_of_true (fun block _ => ?_) hn
      rw [Documented, UInt64.le_iff_toNat_le, UInt64.lt_iff_toNat_lt]
      omega

theorem agrees_iff_before : (before 3).Agrees 5 2 :=
  (agrees_iff (show (before 3).pruneTargetBlock 5 .headers .user = .ok (some (2, before 3)) from
    rfl)).mpr (.inr ⟨3, by decide, rfl⟩)

/-- `distance 2` at tip 5 is to keep 3, 4 and 5: the pruner deletes block 3, the writer does not
    prune it. -/
theorem distance_target_kept :
    (distance 2).pruneTargetBlock 5 .headers .user = .ok (some (3, distance 2))
      ∧ (distance 2).shouldPrune 3 5 = false ∧ ¬ (distance 2).Documented 3 5 :=
  ⟨rfl, rfl, Nat.lt_irrefl 5⟩

end PruneMode

end Prune
