import Pasifika.Engine.TreeHandler

/-! # Disk reorgs

`find_disk_reorg` walks the canonical head and the last persisted block back to equal height, and
then both to a common block. -/

namespace Engine.EngineApiTreeHandler

variable {T : Type} {s : EngineApiTreeHandler T} {f g : Nat → BlockNumHash} {b c : BlockNumHash}
  {fuel n m : Nat}

/-- A block and its ancestors by their number, down to block 0; all can be read. -/
structure Ancestors (s : EngineApiTreeHandler T) (f : Nat → BlockNumHash) (b : BlockNumHash) :
    Prop where
  self : f b.number = b
  number : ∀ n ≤ b.number, (f n).number = n
  parent : ∀ n < b.number, s.parentNumHash (f (n + 1)) = some (f n)

theorem Ancestors.walkTo (h : Ancestors s f b) (hm : m ≤ b.number) (hfuel : m < fuel) :
    s.walkTo n fuel (f m) = some (f (min n m)) := by
  induction fuel generalizing m with
  | zero => nomatch hfuel
  | succ fuel ih =>
    rw [EngineApiTreeHandler.walkTo, h.number m hm]
    by_cases hlt : n < m
    · obtain ⟨k, rfl⟩ := Nat.exists_eq_succ_of_ne_zero (Nat.ne_zero_of_lt hlt)
      have hmin : min n (k + 1) = min n k := by omega
      rw [if_pos hlt, h.parent k hm, hmin]
      exact ih (Nat.le_of_lt hm) (Nat.lt_of_succ_lt_succ hfuel)
    · rw [if_neg hlt, min_eq_right (Nat.le_of_not_lt hlt)]

/-- Down from equal height to the highest common ancestor. -/
theorem Ancestors.walkCommon (hf : Ancestors s f b) (hg : Ancestors s g c) (h0 : f 0 = g 0)
    (hb : m ≤ b.number) (hc : m ≤ c.number) (hfuel : m < fuel) :
    ∃ k, s.walkCommon fuel (f m) (g m) = some (g k) ∧ IsGreatest {k | k ≤ m ∧ f k = g k} k := by
  induction fuel generalizing m with
  | zero => nomatch hfuel
  | succ fuel ih =>
    rw [EngineApiTreeHandler.walkCommon]
    by_cases heq : f m = g m
    · exact ⟨m, if_neg (not_not.mpr (heq ▸ rfl)), ⟨le_rfl, heq⟩, fun _ hk => hk.1⟩
    cases m with
    | zero => exact absurd h0 heq
    | succ m =>
      -- blocks of one number differ in their hash
      have hhash : (g (m + 1)).hash ≠ (f (m + 1)).hash := fun hhash =>
        heq (congrArg₂ BlockNumHash.mk ((hf.number _ hb).trans (hg.number _ hc).symm) hhash.symm)
      obtain ⟨k, hrun, hk, hmax⟩ := ih (Nat.le_of_lt hb) (Nat.le_of_lt hc)
        (Nat.lt_of_succ_lt_succ hfuel)
      refine ⟨k, ?_, ⟨Nat.le_succ_of_le hk.1, hk.2⟩, fun k' hk' => ?_⟩
      · rw [if_pos hhash, hf.parent m hb, hg.parent m hc]
        exact hrun
      · rcases Nat.lt_or_eq_of_le hk'.1 with hlt | rfl
        · exact hmax ⟨Nat.le_of_lt_succ hlt, hk'.2⟩
        · exact absurd hk'.2 heq

/-- **DISK REORGS**: `find_disk_reorg` finds none exactly if the last persisted block is the head or
    one of its ancestors, and else the number of the highest common ancestor. -/
theorem findDiskReorg_exact (hb : s.treeState.currentCanonicalHead = b)
    (hc : s.persistenceState.lastPersistedBlock = c) (hf : Ancestors s f b) (hg : Ancestors s g c)
    (h0 : f 0 = g 0) (hfuel : b.number < fuel ∧ c.number < fuel) :
    ((∃ n ≤ b.number, f n = c) → s.findDiskReorg fuel = some none) ∧
      ((¬ ∃ n ≤ b.number, f n = c) → ∃ n, s.findDiskReorg fuel = some (some n) ∧
        IsGreatest {n | n ≤ b.number ∧ n ≤ c.number ∧ f n = g n} n) := by
  have hrun := hf.walkTo (n := c.number) le_rfl hfuel.1
  rw [hf.self] at hrun
  rw [findDiskReorg, hb, hc, hrun]
  by_cases hcp : f (min c.number b.number) = c
  · exact ⟨fun _ => if_pos hcp, fun hno => absurd ⟨_, min_le_right _ _, hcp⟩ hno⟩
  refine ⟨fun ⟨n, hn, heq⟩ => absurd ?_ hcp, fun _ => ?_⟩
  · have hnum : c.number = n := heq ▸ hf.number n hn
    rw [hnum, min_eq_left hn, heq]
  · have hrunc := hg.walkTo (n := min c.number b.number) le_rfl hfuel.2
    rw [hg.self, min_eq_left (min_le_left _ _)] at hrunc
    obtain ⟨k, hrunk, ⟨hk, hmem⟩, hmax⟩ := hf.walkCommon hg h0 (min_le_right c.number _)
      (min_le_left _ _) (lt_of_le_of_lt (min_le_left _ _) hfuel.2)
    have hnum := hg.number k (hk.trans (min_le_left _ _))
    refine ⟨k, ?_, ⟨hk.trans (min_le_right _ _), hk.trans (min_le_left _ _), hmem⟩,
      fun k' hk' => hmax ⟨Nat.le_min.mpr ⟨hk'.2.1, hk'.1⟩, hk'.2.2⟩⟩
    simp [hcp, hf.number _ (min_le_right _ _), hrunc, hrunk, hnum]

/-- Block 2 on disk and a canonical chain of height 3 fork above block 1. -/
def sampleFork : EngineApiTreeHandler Unit :=
  let s := new ⟨5, 2, 2⟩ [⟨2, 1, 1⟩, ⟨1, 0, 0⟩] .ethereum ⟨0, 0, false, false⟩ fun _ => ()
  { s with treeState := { (s.treeState.insertExecuted ⟨⟨3, 2, 2⟩, none⟩).insertExecuted
      ⟨⟨4, 3, 3⟩, none⟩ with currentCanonicalHead := ⟨3, 4⟩ } }

theorem findDiskReorg_exact_fork : ∃ n, sampleFork.findDiskReorg 4 = some (some n) ∧
    IsGreatest {n | n ≤ 3 ∧ n ≤ 2 ∧ BlockNumHash.mk n (n + 1) = ⟨n, if n < 2 then n + 1 else 5⟩} n :=
  (findDiskReorg_exact (b := ⟨3, 4⟩) (c := ⟨2, 5⟩) (f := fun n => ⟨n, n + 1⟩)
    (g := fun n => ⟨n, if n < 2 then n + 1 else 5⟩) rfl rfl
    ⟨rfl, fun _ _ => rfl, by decide⟩ ⟨rfl, fun _ _ => rfl, by decide⟩ rfl (by decide)).2 (by decide)

end Engine.EngineApiTreeHandler
