import Mathlib

/-! # Polling filters

`eth/filter.rs`: a filter remembers the block from which the next poll reads, and a
poll combines it with the bounds of the filter and the best block. The canonical
chain only grows here, and the scan of a range is taken to find the matching logs. -/

namespace Rpc

open List Nat

/-- The filters that are read off the chain. -/
inductive FilterKind
  | block
  | log (fromBlock toBlock : Option Nat)

inductive EthFilterError
  | invalidBlockRangeParams
  | queryExceedsMaxBlocks (max : Nat)

variable {α : Type}

/-- The hash of each block and its logs that match, by number. -/
structure Chain (α : Type) where
  hash : Nat → α
  logs : Nat → List α

def getFilterBlockRange (fromBlock toBlock : Option Nat) (startBlock bestNumber : Nat) :
    Nat × Nat :=
  (fromBlock.elim startBlock (min startBlock), toBlock.elim bestNumber (min bestNumber))

def getLogsInBlockRange (chain : Chain α) (maxBlocksPerFilter : Option Nat)
    (fromBlock toBlock : Nat) : Except EthFilterError (List α) :=
  if toBlock < fromBlock then .error .invalidBlockRangeParams
  else
    match maxBlocksPerFilter.filter (· < toBlock - fromBlock) with
    | some max => .error (.queryExceedsMaxBlocks max)
    | none => .ok ((range' fromBlock (toBlock + 1 - fromBlock)).flatMap chain.logs)

/-- `filter_changes` of a filter at `block`: the changes and its next block. -/
def filterChanges (chain : Chain α) (limit : Option Nat) (kind : FilterKind)
    (block bestNumber : Nat) : Except EthFilterError (List α) × Nat :=
  if bestNumber < block then (.ok [], block)
  else
    (match kind with
      | .block => .ok ((range' block (bestNumber + 1 - block)).map chain.hash)
      | .log fromBlock toBlock =>
        (getLogsInBlockRange chain limit).uncurry
          (getFilterBlockRange fromBlock toBlock block bestNumber),
      bestNumber + 1)

/-- What polls return that all succeed, one at each of the given best blocks. -/
def polls (chain : Chain α) (limit : Option Nat) (kind : FilterKind) :
    Nat → List Nat → Option (List (List α))
  | _, [] => some []
  | block, best :: bests =>
    match filterChanges chain limit kind block best with
    | (.ok changes, block) => (polls chain limit kind block bests).map (changes :: ·)
    | (.error _, _) => none

def FilterKind.fromBlock : FilterKind → Option Nat
  | .block => none
  | .log fromBlock _ => fromBlock

/-- What a filter is to return of a block. -/
def FilterKind.changes (chain : Chain α) : FilterKind → Nat → List α
  | .block, n => [chain.hash n]
  | .log fromBlock toBlock, n =>
    if fromBlock.all (· ≤ n) && toBlock.all (n ≤ ·) then chain.logs n else []

/-- The number after the last best block. -/
def endOf (block : Nat) (bests : List Nat) : Nat := bests.getLast?.elim block (· + 1)

/-- The polls return the changes of the blocks from `block` on once each and in order. -/
def Delivers (chain : Chain α) (kind : FilterKind) (block : Nat) (bests : List Nat)
    (outs : List (List α)) : Prop :=
  outs.flatten = (range' block (endOf block bests - block)).flatMap (kind.changes chain)

/-- In every run of a filter installed at `head` the polls deliver what it is to return. -/
def DeliversOnce (α : Type) (kind : FilterKind) : Prop :=
  ∀ (chain : Chain α) (limit : Option Nat) (head : Nat) (bests : List Nat) (outs : List (List α)),
    (head :: bests).Pairwise (· ≤ ·) → polls chain limit kind head bests = some outs →
      Delivers chain kind head bests outs

variable {chain : Chain α} {limit : Option Nat} {kind : FilterKind} {block best : Nat}

theorem range'_split (h : block ≤ best) (hn : best ≤ n) :
    range' block (n - block) = range' block (best - block) ++ range' best (n - best) := by
  rw [show n - block = best - block + (n - best) by omega, ← range'_append_1,
    Nat.add_sub_cancel' h]

/-- A poll of a filter without lower bound returns the changes since the last one. -/
theorem filterChanges_eq {next : Nat} {out : List α} (hkind : kind.fromBlock = none)
    (hle : block ≤ best) (h : filterChanges chain limit kind block best = (.ok out, next)) :
    next = best + 1 ∧ out = (range' block (best + 1 - block)).flatMap (kind.changes chain) := by
  unfold filterChanges at h
  rw [if_neg (Nat.not_lt.mpr hle)] at h
  obtain ⟨hout, rfl⟩ := Prod.mk.inj h
  refine ⟨rfl, ?_⟩
  cases kind with
  | block =>
    cases hout
    exact map_eq_flatMap
  | log f t =>
    cases hkind
    change getLogsInBlockRange chain limit block (t.elim best (min best)) = _ at hout
    generalize hlast : t.elim best (min best) = last at hout
    have hcovers : ∀ n ≤ best, (FilterKind.log none t).changes chain n =
        if n ≤ last then chain.logs n else [] := by
      intro n hn
      subst hlast
      cases t <;> simp [FilterKind.changes, hn]
    have hbest : last ≤ best := by
      subst hlast
      cases t <;> simp
    unfold getLogsInBlockRange at hout
    split at hout
    · nomatch hout
    · split at hout
      · nomatch hout
      · cases hout
        have hbehind : (range' (last + 1) (best + 1 - (last + 1))).flatMap
            ((FilterKind.log none t).changes chain) = [] := by
          refine flatMap_eq_nil_iff.mpr fun n hn => ?_
          rw [mem_range'_1] at hn
          rw [hcovers n (by omega), if_neg (by omega)]
        rw [range'_split (show block ≤ last + 1 by omega) (succ_le_succ hbest),
          flatMap_append, hbehind, append_nil]
        refine flatMap_congr fun n hn => ?_
        rw [mem_range'_1] at hn
        rw [hcovers n (by omega), if_pos (by omega)]

theorem endOf_cons (bests : List Nat) : endOf block (best :: bests) = endOf (best + 1) bests := by
  rw [endOf, endOf, getLast?_cons]
  cases bests.getLast? <;> rfl

/-- The polls of a filter without lower bound, from any block on. -/
theorem polls_delivers (hkind : kind.fromBlock = none) {bests : List Nat}
    {outs : List (List α)} (hblock : ∀ b ∈ bests, block ≤ b + 1) (hgrow : bests.Pairwise (· ≤ ·))
    (h : polls chain limit kind block bests = some outs) :
    Delivers chain kind block bests outs := by
  induction bests generalizing block outs with
  | nil =>
    cases h
    simp [Delivers, endOf]
  | cons best bests ih =>
    obtain ⟨hbest, hgrow⟩ := pairwise_cons.mp hgrow
    rw [forall_mem_cons] at hblock
    rw [polls] at h
    rw [Delivers, endOf_cons]
    by_cases hlt : best < block
    · unfold filterChanges at h
      rw [if_pos hlt] at h
      obtain ⟨outs', h', rfl⟩ := Option.map_eq_some_iff.mp h
      have hd := ih hblock.2 hgrow h'
      obtain rfl : block = best + 1 := by omega
      exact hd
    · split at h
      · rename_i out next hpoll
        obtain ⟨rfl, rfl⟩ := filterChanges_eq hkind (Nat.le_of_not_lt hlt) hpoll
        obtain ⟨outs', h', rfl⟩ := Option.map_eq_some_iff.mp h
        have hd := ih (fun b hb => succ_le_succ (hbest b hb)) hgrow h'
        have hend : best + 1 ≤ endOf (best + 1) bests := by
          unfold endOf
          cases hl : bests.getLast? with
          | none => exact le_refl _
          | some l => exact succ_le_succ (hbest l (mem_of_getLast? hl))
        rw [flatten_cons, hd, range'_split (show block ≤ best + 1 by omega) hend, flatMap_append]
      · nomatch h

/-- **ONCE EACH**, in order, exactly if the filter has no lower bound; a block filter has none. -/
theorem deliversOnce_iff (log : α) (kind : FilterKind) :
    DeliversOnce α kind ↔ kind.fromBlock = none := by
  constructor
  · intro h
    by_contra hfrom
    obtain _ | ⟨_ | f, t⟩ := kind
    · exact hfrom rfl
    · exact hfrom rfl
    -- a log in block 0, and polls at the best blocks 0 and 1
    let chain : Chain α := ⟨fun _ => log, fun n => if n = 0 then [log] else []⟩
    cases f with
    | zero =>
      have hd := h chain none 0 [0, 1] [[log], [log]] (by simp)
        (by rcases t with _ | _ | t <;> rfl)
      cases t <;> simp [Delivers, endOf, FilterKind.changes, chain, range'] at hd
    | succ f =>
      have hd := h chain none 0 [0] [[log]] (by simp) (by cases t <;> rfl)
      simp [Delivers, endOf, FilterKind.changes] at hd
  · intro hkind chain limit head bests outs hgrow h
    obtain ⟨hhead, hgrow⟩ := pairwise_cons.mp hgrow
    exact polls_delivers hkind (fun b hb => le_succ_of_le (hhead b hb)) hgrow h

/-- With `fromBlock` 0 every poll returns the log of block 0 again. -/
theorem log_returned_twice :
    let chain : Chain Nat := ⟨fun n => n, fun n => if n = 0 then [5] else []⟩
    polls chain none (.log (some 0) none) 0 [0, 1] = some [[5], [5]]
      ∧ ¬ Delivers chain (.log (some 0) none) 0 [0, 1] [[5], [5]] :=
  ⟨rfl, by unfold Delivers; decide⟩

end Rpc
