import Pasifika.Engine.Block
import Pasifika.Runs

/-! # The block buffer

Blocks with a missing parent wait in the `BlockBuffer`, which keeps them in a
map and indexes them three times: by parent, by number, and in the queue that
decides about evictions. The indexes agree with the map as long as no buffered
block is inserted again: the queue gets a second entry for such a block, or the
eviction takes the block that was just inserted. -/

namespace Engine

open Std (ExtTreeMap ExtTreeSet)
open OrderedMap OrderedMap.Groups List Nat

structure BlockBuffer where
  blocks : ExtTreeMap BlockHash RecoveredBlock
  /-- The buffered children of any block, buffered or not. -/
  parentToChild : Groups BlockHash BlockHash
  earliestBlocks : Groups BlockNumber BlockHash
  /-- The insertion order, oldest first. -/
  blockQueue : List BlockHash
  maxBlocks : Nat

namespace BlockBuffer

def new (limit : Nat) : BlockBuffer where
  blocks := ∅
  parentToChild := ∅
  earliestBlocks := ∅
  blockQueue := []
  maxBlocks := limit

/-- `remove_block`, with `remove_from_earliest_blocks` and `remove_from_parent`. -/
def removeBlock (b : BlockBuffer) (hash : BlockHash) : Option RecoveredBlock × BlockBuffer :=
  match b.blocks[hash]? with
  | none => (none, b)
  | some block =>
    (some block,
      { b with
        blocks := b.blocks.erase hash
        earliestBlocks := b.earliestBlocks.leave block.number hash
        parentToChild := b.parentToChild.leave block.parentHash hash
        blockQueue := b.blockQueue.filter (fun h => h != hash) })

/-- Pop the oldest block of a full queue. -/
def evictOldest (b : BlockBuffer) : BlockBuffer :=
  if b.maxBlocks ≤ b.blockQueue.length then
    match b.blockQueue with
    | [] => b
    | evicted :: queue => ({ b with blockQueue := queue }.removeBlock evicted).2
  else b

def insertBlock (b : BlockBuffer) (block : RecoveredBlock) : BlockBuffer :=
  let b := evictOldest { b with
    parentToChild := b.parentToChild.add block.parentHash block.hash
    earliestBlocks := b.earliestBlocks.add block.number block.hash
    blocks := b.blocks.insert block.hash block }
  { b with blockQueue := b.blockQueue ++ [block.hash] }

/-- Remove the listed blocks that are buffered. -/
def removeEach : List BlockHash → BlockBuffer → List RecoveredBlock × BlockBuffer
  | [], b => ([], b)
  | hash :: hashes, b =>
    let r := b.removeBlock hash
    let rs := removeEach hashes r.2
    (r.1.toList ++ rs.1, rs.2)

/-- The loop of `remove_children`; the stack is listed from its top. -/
def removeChildrenLoop :
    Nat → List BlockHash → BlockBuffer → List RecoveredBlock → Option (List RecoveredBlock × BlockBuffer)
  | 0, _, _, _ => none
  | _ + 1, [], b, removed => some (removed, b)
  | fuel + 1, parentHash :: stack, b, removed =>
    match b.parentToChild[parentHash]? with
    | none => removeChildrenLoop fuel stack b removed
    | some children =>
      let r := removeEach children.toList
        { b with parentToChild := b.parentToChild.erase parentHash }
      removeChildrenLoop fuel (children.toList.reverse ++ stack) r.2 (removed ++ r.1)

def removeChildren (fuel : Nat) (b : BlockBuffer) (parentHashes : List BlockHash) :
    Option (List RecoveredBlock × BlockBuffer) :=
  removeChildrenLoop fuel parentHashes.reverse b []

def removeBlockWithChildren (fuel : Nat) (b : BlockBuffer) (parentHash : BlockHash) :
    Option (List RecoveredBlock × BlockBuffer) := do
  let r := b.removeBlock parentHash
  let rs ← removeChildren fuel r.2 [parentHash]
  some (r.1.toList ++ rs.1, rs.2)

/-- The entries that precede a number. -/
def oldEntries (b : BlockBuffer) (blockNumber : BlockNumber) :
    List (BlockNumber × BlockHashes) :=
  b.earliestBlocks.toList.takeWhile (fun e => decide (e.1 ≤ blockNumber))

def removeOldBlocks (fuel : Nat) (b : BlockBuffer) (blockNumber : BlockNumber) :
    Option BlockBuffer := do
  let hashes := (b.oldEntries blockNumber).flatMap (fun e => e.2.toList)
  let r := removeEach hashes { b with
    earliestBlocks := (b.oldEntries blockNumber).foldl (fun m e => m.erase e.1) b.earliestBlocks }
  let rs ← removeChildren fuel r.2 hashes
  some rs.2

/-- The operations of the buffer. -/
inductive Op where
  | insertBlock (block : RecoveredBlock)
  | removeBlockWithChildren (parentHash : BlockHash)
  | removeOldBlocks (blockNumber : BlockNumber)

/-- The buffer after an operation; `fuel` bounds the loop of `remove_children`. -/
def apply (fuel : Nat) (b : BlockBuffer) : Op → Option BlockBuffer
  | .insertBlock block => some (b.insertBlock block)
  | .removeBlockWithChildren parentHash => (removeBlockWithChildren fuel b parentHash).map Prod.snd
  | .removeOldBlocks blockNumber => removeOldBlocks fuel b blockNumber

/-- An operation that returns. -/
def Step (b : BlockBuffer) (op : Op) (b' : BlockBuffer) : Prop := ∃ fuel, b.apply fuel op = some b'

/-! ## More fuel -/

variable {r : List RecoveredBlock × BlockBuffer}

theorem removeChildrenLoop_succ (fuel : Nat) (stack : List BlockHash) (b : BlockBuffer)
    (removed : List RecoveredBlock)
    (h : removeChildrenLoop fuel stack b removed = some r) :
    removeChildrenLoop (fuel + 1) stack b removed = some r := by
  induction fuel generalizing stack b removed r with
  | zero => nomatch h
  | succ fuel ih =>
    cases stack with
    | nil => exact h
    | cons parentHash stack =>
      rw [removeChildrenLoop] at h ⊢
      cases hc : b.parentToChild[parentHash]? with
      | none =>
        rw [hc] at h
        exact ih stack b removed h
      | some children =>
        rw [hc] at h
        exact ih _ _ _ h

variable {b b' : BlockBuffer} {fuel : Nat} {op : Op} {block : RecoveredBlock}

theorem removeChildren_succ (h : removeChildren fuel b hashes = some r) :
    removeChildren (fuel + 1) b hashes = some r :=
  removeChildrenLoop_succ fuel _ _ _ h

theorem apply_succ (h : b.apply fuel op = some b') : b.apply (fuel + 1) op = some b' := by
  cases op with
  | insertBlock block => exact h
  | removeBlockWithChildren parentHash =>
    obtain ⟨r, hr, rfl⟩ := Option.map_eq_some_iff.mp h
    obtain ⟨rs, hrs, hr⟩ := Option.bind_eq_some_iff.mp hr
    rw [apply, removeBlockWithChildren, removeChildren_succ hrs]
    exact congrArg (Option.map Prod.snd) hr
  | removeOldBlocks n =>
    obtain ⟨rs, hrs, hr⟩ := Option.bind_eq_some_iff.mp h
    rw [apply, removeOldBlocks, removeChildren_succ hrs]
    exact hr

theorem apply_mono (hle : fuel ≤ fuel') (h : b.apply fuel op = some b') :
    b.apply fuel' op = some b' := by
  induction hle with
  | refl => exact h
  | step _ ih => exact apply_succ ih

/-- Two runs of one operation return the same buffer. -/
theorem Step.unique (h : Step b op b') (h' : Step b op b'') :
    b' = b'' := by
  obtain ⟨fuel, h⟩ := h
  obtain ⟨fuel', h'⟩ := h'
  have h1 := apply_mono (le_max_left fuel fuel') h
  rw [apply_mono (le_max_right fuel fuel') h'] at h1
  exact (Option.some.inj h1).symm

theorem maxBlocks_removeBlock (b : BlockBuffer) (hash : BlockHash) :
    (b.removeBlock hash).2.maxBlocks = b.maxBlocks := by
  rw [removeBlock]
  split <;> rfl

theorem maxBlocks_removeEach : ∀ hashes b,
    (removeEach hashes b).2.maxBlocks = b.maxBlocks := by
  intro hashes
  induction hashes with
  | nil => intro b; rfl
  | cons hash hashes ih => intro b; exact (ih _).trans (maxBlocks_removeBlock b hash)

/-! ## Agreement of the collections -/

/-- **THE COLLECTIONS AGREE**, but for hashes not queued, and parents and numbers whose groups are
    gone. -/
structure Agrees (notQueued : BlockHash → Prop) (noParent : BlockHash → Prop)
    (noNumber : BlockNumber → Prop) (b : BlockBuffer) : Prop where
  key : ∀ (h : BlockHash) (block : RecoveredBlock), b.blocks[h]? = some block → block.hash = h
  nodup : b.blockQueue.Nodup
  queue : ∀ h : BlockHash, h ∈ b.blockQueue ↔ b.blocks[h]? ≠ none ∧ ¬ notQueued h
  parents : Grouped b.parentToChild (fun p h =>
    ¬ noParent p ∧ ∃ block, b.blocks[h]? = some block ∧ block.parentHash = p)
  earliest : Grouped b.earliestBlocks (fun n h =>
    ¬ noNumber n ∧ ∃ block, b.blocks[h]? = some block ∧ block.number = n)

/-- The collections agree without exception. -/
abbrev AllAgree (b : BlockBuffer) : Prop :=
  Agrees (fun _ => False) (fun _ => False) (fun _ => False) b

section

variable {notQueued noParent : BlockHash → Prop} {noNumber : BlockNumber → Prop} {b : BlockBuffer}

theorem allAgree_new (limit : Nat) : AllAgree (new limit) := by
  have hnone : ∀ h, (new limit).blocks[h]? = none := fun _ => ExtTreeMap.getElem?_empty
  refine ⟨fun h block hb => ?_, nodup_nil, fun h => ?_, ?_, ?_⟩
  · rw [hnone] at hb
    nomatch hb
  · rw [hnone]
    simp [new]
  · exact Grouped.empty.congr fun p h => by simp [hnone]
  · exact Grouped.empty.congr fun n h => by simp [hnone]

theorem Agrees.settle (h : Agrees notQueued noParent noNumber b)
    (hq : ∀ (i : BlockHash) (block : RecoveredBlock), b.blocks[i]? = some block → ¬ notQueued i)
    (hp : ∀ (i : BlockHash) (block : RecoveredBlock), b.blocks[i]? = some block →
      ¬ noParent block.parentHash)
    (hn : ∀ (i : BlockHash) (block : RecoveredBlock), b.blocks[i]? = some block →
      ¬ noNumber block.number) : AllAgree b := by
  refine ⟨h.key, h.nodup, fun i => ?_, h.parents.congr fun p i => ?_,
    h.earliest.congr fun n i => ?_⟩
  · rw [h.queue]
    refine and_congr_right fun hb => ?_
    obtain ⟨block, hb⟩ := Option.ne_none_iff_exists'.mp hb
    exact iff_of_true (hq i block hb) not_false
  · rw [not_false_eq_true, true_and]
    refine ⟨fun ⟨_, hb⟩ => hb, ?_⟩
    rintro ⟨block, hb, rfl⟩
    exact ⟨hp i block hb, block, hb, rfl⟩
  · rw [not_false_eq_true, true_and]
    refine ⟨fun ⟨_, hb⟩ => hb, ?_⟩
    rintro ⟨block, hb, rfl⟩
    exact ⟨hn i block hb, block, hb, rfl⟩

theorem without_block {α : Type} {no : α → Prop} {f : RecoveredBlock → α} {hash : BlockHash}
    (hb : b.blocks[hash]? = some block) (k : α) (h : BlockHash) :
    ((¬ no k ∧ ∃ block', b.blocks[h]? = some block' ∧ f block' = k) ∧ ¬ (k = f block ∧ h = hash))
      ↔ ¬ no k ∧ ∃ block', (b.blocks.erase hash)[h]? = some block' ∧ f block' = k := by
  rw [get_erase]
  by_cases hh : hash = h
  · subst hh
    simp only [hb, Option.some.injEq, if_true, and_true]
    constructor
    · rintro ⟨⟨-, block', rfl, rfl⟩, hne⟩
      exact absurd rfl hne
    · rintro ⟨-, block', hno, -⟩
      nomatch hno
  · simp [hh, Ne.symm hh]

theorem get_removeBlock (b : BlockBuffer) (hash i : BlockHash) :
    (b.removeBlock hash).2.blocks[i]? = if hash = i then none else b.blocks[i]? := by
  rw [removeBlock]
  split
  · next hb => split <;> simp_all
  · exact get_erase _ _ _

theorem size_removeBlock_le (b : BlockBuffer) (hash : BlockHash) :
    (b.removeBlock hash).2.blocks.size ≤ b.blocks.size :=
  size_le_of_none fun i hi => by rw [get_removeBlock, hi, ite_self]

theorem get_removeEach (hashes : List BlockHash) (b : BlockBuffer) (i : BlockHash) :
    (removeEach hashes b).2.blocks[i]? = if i ∈ hashes then none else b.blocks[i]? := by
  induction hashes generalizing b with
  | nil => simp [removeEach]
  | cons hash hashes ih =>
    refine (ih _).trans ?_
    rw [get_removeBlock]
    by_cases hi : hash = i
    · simp [hi]
    · simp [hi, Ne.symm hi]

/-- **REMOVING A BLOCK** keeps the collections in agreement. -/
theorem Agrees.removeBlock (h : Agrees notQueued noParent noNumber b) (hash : BlockHash) :
    Agrees notQueued noParent noNumber (b.removeBlock hash).2 := by
  have hget := get_removeBlock b hash
  rw [BlockBuffer.removeBlock] at hget ⊢
  cases hb : b.blocks[hash]? with
  | none => exact h
  | some block =>
    rw [hb] at hget
    refine ⟨fun i block' hb' => ?_, h.nodup.filter _, fun i => ?_, ?_, ?_⟩
    · rw [hget] at hb'
      split at hb'
      · nomatch hb'
      · exact h.key i block' hb'
    · rw [mem_filter, bne_iff_ne, h.queue, hget]
      by_cases hi : hash = i
      · simp [hi]
      · simp [hi, Ne.symm hi]
    · exact (h.parents.leave block.parentHash hash).congr (without_block hb)
    · exact (h.earliest.leave block.number hash).congr (without_block hb)

theorem Agrees.removeEach (hashes : List BlockHash) (h : Agrees notQueued noParent noNumber b) :
    Agrees notQueued noParent noNumber (BlockBuffer.removeEach hashes b).2 := by
  induction hashes generalizing b with
  | nil => exact h
  | cons hash hashes ih => exact ih (h.removeBlock hash)

/-- Removing `n` different buffered blocks makes the map smaller by `n`. -/
theorem size_removeEach (hashes : List BlockHash) (hnd : hashes.Nodup)
    (hin : ∀ h ∈ hashes, b.blocks[h]? ≠ none) :
    (removeEach hashes b).2.blocks.size + hashes.length = b.blocks.size := by
  induction hashes generalizing b with
  | nil => rfl
  | cons hash hashes ih =>
    obtain ⟨hfresh, hnd'⟩ := nodup_cons.mp hnd
    obtain ⟨block, hb⟩ := Option.ne_none_iff_exists'.mp (hin hash mem_cons_self)
    have hblocks : (b.removeBlock hash).2.blocks = b.blocks.erase hash := by
      rw [removeBlock, hb]
    have hrest := ih (b := (b.removeBlock hash).2) hnd' (fun h hh => by
      have hne : hash ≠ h := fun heq => hfresh (heq ▸ hh)
      rw [hblocks, get_erase_ne hne]
      exact hin h (mem_cons_of_mem _ hh))
    have hsize := size_erase hb
    rw [hblocks] at hrest
    show (BlockBuffer.removeEach hashes (b.removeBlock hash).2).2.blocks.size + _ = _
    rw [length_cons]
    omega

end

/-! ## Removing children -/

/-- The index has the children of every parent but those whose groups are gone. -/
def Indexed (noParent : BlockHash → Prop) (b : BlockBuffer) : Prop :=
  ∀ p i, In b.parentToChild p i ↔
    ¬ noParent p ∧ ∃ block, b.blocks[i]? = some block ∧ block.parentHash = p

/-- The children of one parent leave together. -/
theorem Indexed.removeGroup (h : Indexed (fun _ => False) b)
    (hc : b.parentToChild[p]? = some children) :
    let out := removeEach children.toList { b with parentToChild := b.parentToChild.erase p }
    (∀ i ∈ children.toList, ∃ block, b.blocks[i]? = some block ∧ block.parentHash = p) ∧
      (∀ (i : BlockHash) block, out.2.blocks[i]? = some block →
        b.blocks[i]? = some block ∧ block.parentHash ≠ p) ∧
      out.2.blocks.size + children.toList.length = b.blocks.size := by
  have hin : ∀ i, i ∈ children.toList ↔
      ∃ block, b.blocks[i]? = some block ∧ block.parentHash = p := fun i => by
    rw [← true_and (∃ _, _), ← not_false_eq_true, ← h p i]
    simp [In, hc]
  refine ⟨fun i => (hin i).mp, fun i block hb => ?_, size_removeEach _ (nodup_setList _) fun i hi => ?_⟩
  · rw [get_removeEach] at hb
    split at hb
    · cases hb
    · next hno => exact ⟨hb, fun hp => hno ((hin i).mpr ⟨block, hb, hp⟩)⟩
  · obtain ⟨block, hb, -⟩ := (hin i).mp hi
    exact ne_of_eq_of_ne hb (Option.some_ne_none block)

/-- **REMOVING CHILDREN** returns, and the collections still agree. -/
theorem Agrees.removeChildrenLoop (fuel : Nat) (stack : List BlockHash)
    (removed : List RecoveredBlock) (h : AllAgree b)
    (hfuel : stack.length + b.blocks.size < fuel) :
    ∃ out b', BlockBuffer.removeChildrenLoop fuel stack b removed = some (out, b') ∧ AllAgree b' ∧
      b'.blocks.size ≤ b.blocks.size ∧ b'.maxBlocks = b.maxBlocks := by
  induction fuel generalizing stack b removed with
  | zero => nomatch hfuel
  | succ fuel ih =>
    cases stack with
    | nil => exact ⟨removed, b, rfl, h, le_rfl, rfl⟩
    | cons parentHash stack =>
      rw [length_cons] at hfuel
      rw [BlockBuffer.removeChildrenLoop]
      cases hc : b.parentToChild[parentHash]? with
      | none => exact ih stack removed h (by omega)
      | some children =>
        -- the stack grows by as many blocks as leave the buffer
        obtain ⟨-, hleft, hsize⟩ := Indexed.removeGroup h.parents.mem hc
        have hcut : Agrees (fun _ => False) (· = parentHash) (fun _ => False)
            { b with parentToChild := b.parentToChild.erase parentHash } := by
          refine { h with parents := (h.parents.erase parentHash).congr fun p i => ?_ }
          rw [not_false_eq_true, true_and, and_comm]
        have h' := (hcut.removeEach children.toList).settle (fun _ _ _ hf => hf)
          (fun i block hb => (hleft i block hb).2) fun _ _ _ hf => hf
        obtain ⟨out, b', hrun, hb', hle, hmax⟩ := ih (children.toList.reverse ++ stack)
          (removed ++ _) h' (by rw [length_append, length_reverse]; omega)
        exact ⟨out, b', hrun, hb', by omega, hmax.trans (maxBlocks_removeEach _ _)⟩

theorem Agrees.removeChildren (h : AllAgree b) (hashes : List BlockHash)
    (hfuel : hashes.length + b.blocks.size < fuel) :
    ∃ out b', BlockBuffer.removeChildren fuel b hashes = some (out, b')
      ∧ AllAgree b' ∧ b'.blocks.size ≤ b.blocks.size ∧ b'.maxBlocks = b.maxBlocks :=
  h.removeChildrenLoop fuel hashes.reverse [] (by rw [length_reverse]; exact hfuel)

theorem Agrees.removeBlockWithChildren (h : AllAgree b) (parentHash : BlockHash)
    (hfuel : b.blocks.size + 1 < fuel) :
    ∃ out b', BlockBuffer.removeBlockWithChildren fuel b parentHash = some (out, b')
      ∧ AllAgree b' ∧ b'.blocks.size ≤ b.blocks.size ∧ b'.maxBlocks = b.maxBlocks := by
  have hle := b.size_removeBlock_le parentHash
  have hfuel' : [parentHash].length + (b.removeBlock parentHash).2.blocks.size < fuel := by
    rw [length_singleton]
    omega
  obtain ⟨out, b', hrun, h', hle', hmax⟩ :=
    (h.removeBlock parentHash).removeChildren [parentHash] hfuel'
  refine ⟨(b.removeBlock parentHash).1.toList ++ out, b', ?_, h', by omega,
    hmax.trans (maxBlocks_removeBlock b parentHash)⟩
  rw [BlockBuffer.removeBlockWithChildren, hrun]
  rfl

/-! ## Removing old blocks -/

theorem mem_oldEntries :
    (k, hashes) ∈ b.oldEntries n ↔ b.earliestBlocks[k]? = some hashes ∧ k ≤ n := by
  rw [← mem_toList, oldEntries]
  have hsorted := sorted_toList b.earliestBlocks
  generalize b.earliestBlocks.toList = l at hsorted
  induction l with
  | nil => simp
  | cons d l ih =>
    obtain ⟨hd, hl⟩ := pairwise_cons.mp hsorted
    rw [takeWhile_cons]
    by_cases hle : d.1 ≤ n
    · rw [if_pos (decide_eq_true hle), mem_cons, mem_cons, or_and_right]
      refine or_congr ⟨fun heq => ⟨heq, ?_⟩, fun h => h.1⟩ (ih hl)
      rw [← heq] at hle
      exact hle
    · -- everything behind the first newer entry is newer
      rw [if_neg fun h => hle (of_decide_eq_true h)]
      refine iff_of_false not_mem_nil ?_
      rintro ⟨hmem, hn⟩
      rcases mem_cons.mp hmem with rfl | hmem
      · exact hle hn
      · exact hle (le_of_lt (lt_of_lt_of_le (Nat.compare_eq_lt.mp (hd _ hmem)) hn))

/-- **REMOVING OLD BLOCKS** returns, and the collections still agree. -/
theorem Agrees.removeOldBlocks (h : AllAgree b) (n : BlockNumber) :
    ∃ fuel b', BlockBuffer.removeOldBlocks fuel b n = some b'
      ∧ AllAgree b' ∧ b'.blocks.size ≤ b.blocks.size ∧ b'.maxBlocks = b.maxBlocks := by
  generalize hhashes : (b.oldEntries n).flatMap (·.2.toList) = hashes
  generalize hb1 : ({ b with
    earliestBlocks := (b.oldEntries n).foldl (·.erase ·.1) b.earliestBlocks } : BlockBuffer) = b1
  have hget1 : ∀ k : BlockNumber,
      b1.earliestBlocks[k]? = if k ≤ n then none else b.earliestBlocks[k]? := by
    intro k
    rw [← hb1]
    refine (get_eraseEntries _ _ k).trans ?_
    by_cases hk : k ≤ n
    · rw [if_pos hk]
      cases hs : b.earliestBlocks[k]? with
      | none => rw [ite_self]
      | some s => exact if_pos (mem_map.mpr ⟨(k, s), mem_oldEntries.mpr ⟨hs, hk⟩, rfl⟩)
    · rw [if_neg hk]
      refine if_neg fun hmem => hk ?_
      obtain ⟨e, he, rfl⟩ := mem_map.mp hmem
      exact (mem_oldEntries.mp he).2
  have h1 : Agrees (fun _ => False) (fun _ => False) (· ≤ n) b1 := by
    refine ⟨hb1 ▸ h.key, hb1 ▸ h.nodup, hb1 ▸ h.queue, hb1 ▸ h.parents, ⟨fun k i => ?_, fun k s hs => ?_⟩⟩
    · have hblocks : b1.blocks = b.blocks := by rw [← hb1]
      rw [In, hget1, hblocks]
      by_cases hk : k ≤ n
      · simp [hk]
      · rw [if_neg hk, ← In, h.earliest.mem]
        simp [hk]
    · rw [hget1] at hs
      split at hs
      · cases hs
      · exact h.earliest.nonempty k s hs
  have hsettled : AllAgree (BlockBuffer.removeEach hashes b1).2 := by
    refine (h1.removeEach hashes).settle (fun _ _ _ hf => hf) (fun _ _ _ hf => hf) fun i block hb hle => ?_
    rw [get_removeEach] at hb
    split at hb
    · cases hb
    · -- a block with an old number is in one of the old entries
      rename_i hno
      have hb' : b.blocks[i]? = some block := by rw [← hb, ← hb1]
      obtain ⟨s, hs, hi⟩ := (h.earliest.mem block.number i).mpr ⟨not_false, block, hb', rfl⟩
      refine hno ?_
      rw [← hhashes, mem_flatMap]
      exact ⟨(block.number, s), mem_oldEntries.mpr ⟨hs, hle⟩, ExtTreeSet.mem_toList.mpr hi⟩
  have hle : (BlockBuffer.removeEach hashes b1).2.blocks.size ≤ b.blocks.size :=
    size_le_of_none fun i hi => by rw [get_removeEach, ← hb1]; exact ite_eq_left_iff.mpr fun _ => hi
  obtain ⟨fuel, hfuel⟩ : ∃ fuel,
      hashes.length + (BlockBuffer.removeEach hashes b1).2.blocks.size < fuel :=
    ⟨_, lt_succ_self _⟩
  obtain ⟨out, b', hrun, h', hle', hmax⟩ := hsettled.removeChildren hashes hfuel
  refine ⟨fuel, b', ?_, h', le_trans hle' hle, ?_⟩
  · rw [BlockBuffer.removeOldBlocks, hhashes, hb1, hrun]
    rfl
  · rw [hmax, maxBlocks_removeEach, ← hb1]

/-! ## Inserting -/

/-- The buffer with a block that is not queued yet. -/
def unqueued (b : BlockBuffer) (block : RecoveredBlock) : BlockBuffer :=
  { b with
    parentToChild := b.parentToChild.add block.parentHash block.hash
    earliestBlocks := b.earliestBlocks.add block.number block.hash
    blocks := b.blocks.insert block.hash block }

private theorem with_block {α : Type} {f : RecoveredBlock → α}
    (hnew : b.blocks[block.hash]? = none) (k : α) (h : BlockHash) :
    ((¬ False ∧ ∃ block', b.blocks[h]? = some block' ∧ f block' = k) ∨ k = f block ∧
      h = block.hash) ↔ ¬ False ∧ ∃ block',
      (b.blocks.insert block.hash block)[h]? = some block' ∧ f block' = k := by
  rw [get_insert]
  by_cases hh : block.hash = h
  · subst hh
    simp [hnew, eq_comm]
  · simp [hh, Ne.symm hh]

theorem Agrees.unqueued (h : AllAgree b) (hnew : b.blocks[block.hash]? = none) :
    Agrees (· = block.hash) (fun _ => False) (fun _ => False) (b.unqueued block) := by
  refine ⟨fun i block' hb => ?_, h.nodup, fun i => ?_,
    (h.parents.add block.parentHash block.hash).congr (with_block hnew),
    (h.earliest.add block.number block.hash).congr (with_block hnew)⟩
  · rw [BlockBuffer.unqueued, get_insert] at hb
    split at hb
    · cases hb
      assumption
    · exact h.key i block' hb
  · show i ∈ b.blockQueue ↔ (b.blocks.insert block.hash block)[i]? ≠ none ∧ _
    rw [h.queue, get_insert, not_false_eq_true, and_true]
    by_cases hi : block.hash = i
    · simp [← hi, hnew]
    · simp [hi, Ne.symm hi]

theorem Agrees.pop {notQueued noParent : BlockHash → Prop} {noNumber : BlockNumber → Prop}
    (h : Agrees notQueued noParent noNumber b) {evicted : BlockHash} {queue : List BlockHash}
    (hq : b.blockQueue = evicted :: queue) :
    Agrees (fun i => notQueued i ∨ i = evicted) noParent noNumber { b with blockQueue := queue } := by
  obtain ⟨hfresh, hnd⟩ := nodup_cons.mp (hq ▸ h.nodup)
  refine ⟨h.key, hnd, fun i => ?_, h.parents, h.earliest⟩
  have hmem := h.queue i
  rw [hq, mem_cons] at hmem
  rw [not_or, ← and_assoc, ← hmem]
  constructor
  · intro hi
    exact ⟨Or.inr hi, fun heq => hfresh (heq ▸ hi)⟩
  · rintro ⟨rfl | hi, hne⟩
    · exact absurd rfl hne
    · exact hi

/-- **EVICTING** before a new block is queued. -/
theorem Agrees.evictOldest {new : BlockHash}
    (h : Agrees (· = new) (fun _ => False) (fun _ => False) b) :
    Agrees (· = new) (fun _ => False) (fun _ => False) b.evictOldest
      ∧ b.evictOldest.blocks[new]? = b.blocks[new]?
      ∧ b.evictOldest.blocks.size ≤ b.blocks.size
      ∧ (b.maxBlocks ≤ b.blockQueue.length → b.blockQueue ≠ [] →
          b.evictOldest.blocks.size < b.blocks.size)
      ∧ b.evictOldest.maxBlocks = b.maxBlocks := by
  rw [BlockBuffer.evictOldest]
  by_cases hfull : b.maxBlocks ≤ b.blockQueue.length
  · rw [if_pos hfull]
    cases hq : b.blockQueue with
    | nil => exact ⟨h, rfl, le_rfl, fun _ hne => absurd rfl hne, rfl⟩
    | cons evicted queue =>
      dsimp only
      have hin := (h.queue evicted).mp (by rw [hq]; exact mem_cons_self)
      obtain ⟨block, hb⟩ := Option.ne_none_iff_exists'.mp hin.1
      have h' := (h.pop hq).removeBlock evicted
      have hsize : (({ b with blockQueue := queue } : BlockBuffer).removeBlock evicted).2.blocks.size
          + 1 = b.blocks.size := by
        rw [BlockBuffer.removeBlock, hb]
        exact size_erase hb
      refine ⟨⟨h'.key, h'.nodup, fun i => ?_, h'.parents, h'.earliest⟩, ?_, by omega,
        fun _ _ => by omega, maxBlocks_removeBlock _ _⟩
      · rw [h'.queue, get_removeBlock]
        by_cases hi : evicted = i
        · simp [hi]
        · simp [hi, Ne.symm hi]
      · exact (get_removeBlock _ _ new).trans (if_neg hin.2)
  · rw [if_neg hfull]
    exact ⟨h, rfl, le_rfl, fun hle => absurd hle hfull, rfl⟩

theorem Agrees.size_le (h : AllAgree b) : b.blocks.size ≤ b.blockQueue.length :=
  size_le_length fun i block hb => (h.queue i).mpr ⟨by rw [hb]; exact nofun, not_false⟩

theorem insertBlock_eq (b : BlockBuffer) (block : RecoveredBlock) :
    b.insertBlock block = { (b.unqueued block).evictOldest with
      blockQueue := (b.unqueued block).evictOldest.blockQueue ++ [block.hash] } := rfl

/-- **INSERTING A NEW BLOCK** keeps the collections in agreement and within the limit. -/
theorem Agrees.insertBlock (h : AllAgree b) (hmax : 1 ≤ b.maxBlocks)
    (hle : b.blocks.size ≤ b.maxBlocks) (hnew : b.blocks[block.hash]? = none) :
    AllAgree (b.insertBlock block) ∧ (b.insertBlock block).blocks.size ≤ b.maxBlocks
      ∧ (b.insertBlock block).blocks[block.hash]? = some block
      ∧ (b.insertBlock block).maxBlocks = b.maxBlocks := by
  obtain ⟨h', hget, hsize, hfull, hmax'⟩ := (h.unqueued hnew).evictOldest
  have hself : (b.unqueued block).blocks[block.hash]? = some block := get_insert_self _ _ _
  rw [hself] at hget
  have hno : block.hash ∉ (b.unqueued block).evictOldest.blockQueue := fun hmem =>
    ((h'.queue _).mp hmem).2 rfl
  have hgrow : (b.unqueued block).blocks.size = b.blocks.size + 1 := size_insert hnew
  rw [insertBlock_eq]
  refine ⟨⟨h'.key, ?_, fun i => ?_, h'.parents, h'.earliest⟩, ?_, hget, hmax'⟩
  · exact nodup_append.mpr ⟨h'.nodup, nodup_singleton _, fun i hi j hj heq =>
      hno (mem_singleton.mp hj ▸ heq ▸ hi)⟩
  · show i ∈ _ ++ [block.hash] ↔ _
    rw [mem_append, mem_singleton, h'.queue, not_false_eq_true, and_true]
    by_cases hi : i = block.hash
    · simp [hi, hget]
    · simp [hi]
  · show (b.unqueued block).evictOldest.blocks.size ≤ _
    -- a full queue gave up a block, and an unfull one leaves room
    by_cases hq : b.maxBlocks ≤ b.blockQueue.length
    · have hlt := hfull hq (fun hnil => by
        have : b.blockQueue.length = 0 := congrArg length hnil
        omega)
      omega
    · have := h.size_le
      omega

/-! ## Runs of the buffer -/

/-- **THE FOUR COLLECTIONS DESCRIBE THE SAME BLOCKS.** -/
structure Exact (b : BlockBuffer) : Prop where
  key : ∀ (h : BlockHash) (block : RecoveredBlock),
    b.blocks[h]? = some block → block.hash = h
  /-- The queue holds each buffered hash once and nothing else. -/
  queueNodup : b.blockQueue.Nodup
  queue : ∀ h : BlockHash, h ∈ b.blockQueue ↔ b.blocks[h]? ≠ none
  parents : ∀ p h, In b.parentToChild p h ↔
    ∃ block, b.blocks[h]? = some block ∧ block.parentHash = p
  noEmptyGroup : ∀ (p : BlockHash) (s : BlockHashes),
    b.parentToChild[p]? = some s → s.isEmpty = false
  earliest : ∀ n h, In b.earliestBlocks n h ↔
    ∃ block, b.blocks[h]? = some block ∧ block.number = n
  noEmptyEntry : ∀ (n : BlockNumber) (s : BlockHashes),
    b.earliestBlocks[n]? = some s → s.isEmpty = false
  bound : b.blocks.size ≤ b.maxBlocks

theorem Agrees.exact (h : AllAgree b) (hle : b.blocks.size ≤ b.maxBlocks) : Exact b where
  key := h.key
  queueNodup := h.nodup
  queue := fun i => (h.queue i).trans (and_iff_left not_false)
  parents := fun p i => (h.parents.mem p i).trans (and_iff_right not_false)
  noEmptyGroup := h.parents.nonempty
  earliest := fun n i => (h.earliest.mem n i).trans (and_iff_right not_false)
  noEmptyEntry := h.earliest.nonempty
  bound := hle

theorem Exact.agrees (h : Exact b) : AllAgree b where
  key := h.key
  nodup := h.queueNodup
  queue := fun i => (h.queue i).trans (and_iff_left not_false).symm
  parents := ⟨fun p i => (h.parents p i).trans (and_iff_right not_false).symm, h.noEmptyGroup⟩
  earliest := ⟨fun n i => (h.earliest n i).trans (and_iff_right not_false).symm, h.noEmptyEntry⟩

/-- A block that is inserted is not buffered yet. -/
def fresh (b : BlockBuffer) : Op → Bool
  | .insertBlock block => b.blocks[block.hash]?.isNone
  | _ => true

/-- The buffer is exact and has its limit. -/
def Good (limit : Nat) (b : BlockBuffer) : Prop := Exact b ∧ b.maxBlocks = limit

/-- **ONE OPERATION** that inserts no buffered block returns and keeps the buffer exact. -/
theorem Good.apply (hlimit : 1 ≤ limit) (h : Good limit b) (hop : b.fresh op = true) :
    ∃ fuel b', b.apply fuel op = some b' ∧ Good limit b' := by
  obtain ⟨hx, hmax⟩ := h
  have ha := hx.agrees
  have hle := hx.bound
  cases op with
  | insertBlock block =>
    obtain ⟨h', hle', -, hmax'⟩ := ha.insertBlock (hmax ▸ hlimit) hle
      (Option.isNone_iff_eq_none.mp hop)
    exact ⟨0, _, rfl, h'.exact (hmax' ▸ hle'), hmax'.trans hmax⟩
  | removeBlockWithChildren parentHash =>
    obtain ⟨out, b', hrun, h', hle', hmax'⟩ :=
      ha.removeBlockWithChildren parentHash (lt_succ_self _)
    exact ⟨_, b', congrArg (Option.map Prod.snd) hrun, h'.exact (by omega), hmax'.trans hmax⟩
  | removeOldBlocks n =>
    obtain ⟨fuel, b', hrun, h', hle', hmax'⟩ := ha.removeOldBlocks n
    exact ⟨fuel, b', hrun, h'.exact (by omega), hmax'.trans hmax⟩

/-- Inserting a buffered block spoils the buffer: its hash is queued twice, or it
    is evicted at once. -/
theorem Exact.not_insertBlock (h : Exact b) (hin : b.blocks[block.hash]? ≠ none)
    (h' : Exact (b.insertBlock block)) :
    (b.insertBlock block).blocks[block.hash]? = none := by
  have hqueued := (h.queue block.hash).mpr hin
  have htwice : block.hash ∉ (b.unqueued block).evictOldest.blockQueue := by
    have hnd := h'.queueNodup
    rw [insertBlock_eq] at hnd
    intro hmem
    exact (nodup_append.mp hnd).2.2 _ hmem _ mem_cons_self rfl
  rw [insertBlock_eq]
  rw [evictOldest] at htwice ⊢
  by_cases hfull : (b.unqueued block).maxBlocks ≤ (b.unqueued block).blockQueue.length
  · rw [if_pos hfull] at htwice ⊢
    cases hq : (b.unqueued block).blockQueue with
    | nil =>
      have hq : b.blockQueue = [] := hq
      rw [hq] at hqueued
      nomatch hqueued
    | cons evicted queue =>
      rw [hq] at htwice
      have hself : (b.unqueued block).blocks[block.hash]? = some block := get_insert_self _ _ _
      dsimp only at htwice ⊢
      have hq : b.blockQueue = evicted :: queue := hq
      have hold : (b.unqueued block).blocks[evicted]? ≠ none := by
        have := (h.queue evicted).mp (by rw [hq]; exact mem_cons_self)
        show (b.blocks.insert block.hash block)[evicted]? ≠ none
        rw [get_insert]
        split
        · nofun
        · exact this
      obtain ⟨old, hold⟩ := Option.ne_none_iff_exists'.mp hold
      -- the evicted block is the inserted one: otherwise its hash is still queued
      have heq : evicted = block.hash := by
        by_contra hne
        refine htwice ?_
        rw [removeBlock, hold]
        refine mem_filter.mpr ⟨?_, bne_iff_ne.mpr (Ne.symm hne)⟩
        rw [hq] at hqueued
        exact (mem_cons.mp hqueued).resolve_left (Ne.symm hne)
      rw [removeBlock, hold, heq]
      exact get_erase_self _ _
  · rw [if_neg hfull] at htwice
    exact absurd hqueued htwice

/-- **THE COLLECTIONS AGREE IN EVERY RUN** that inserts no buffered block. Every operation returns,
    and an insertion keeps the property exactly when its block is not buffered yet. -/
theorem exact_of_fresh_run {limit : Nat} (hlimit : 1 ≤ limit) {b : BlockBuffer}
    (h : Runs.ReachedBy Step (fun b op => b.fresh op = true) (new limit) b) :
    Exact b ∧ (∀ op, b.fresh op = true → ∃ b', Step b op b' ∧ Exact b')
      ∧ ∀ block, (Exact (b.insertBlock block)
          ∧ (b.insertBlock block).blocks[block.hash]? = some block)
            ↔ b.blocks[block.hash]? = none := by
  have hgood : Good limit b := by
    refine h.invariant ⟨(allAgree_new limit).exact (zero_le _), rfl⟩ ?_
    intro b op b' _ hb hop hstep
    obtain ⟨fuel, b'', hrun, hgood⟩ := hb.apply hlimit hop
    exact hstep.unique ⟨fuel, hrun⟩ ▸ hgood
  refine ⟨hgood.1, fun op hop => ?_, fun block => ⟨fun ⟨hx, hin⟩ => ?_, fun hnew => ?_⟩⟩
  · obtain ⟨fuel, b', hrun, hgood'⟩ := hgood.apply hlimit hop
    exact ⟨b', ⟨fuel, hrun⟩, hgood'.1⟩
  · by_contra hne
    rw [hgood.1.not_insertBlock hne hx] at hin
    nomatch hin
  · obtain ⟨ha, hle, hin, hmax⟩ := hgood.1.agrees.insertBlock (hgood.2 ▸ hlimit) hgood.1.bound hnew
    exact ⟨ha.exact (hmax ▸ hle), hin⟩

/-- With room for one block, inserting it twice leaves it out of the buffer. -/
theorem lost_on_second_insert :
    ∃ (b : BlockBuffer) (block : RecoveredBlock), Runs.Reachable Step (new 1) b
      ∧ (b.insertBlock block).blocks[block.hash]? = none
      ∧ (b.insertBlock block).blockQueue = [block.hash] := by
  obtain ⟨b, hb, hcheck⟩ := Runs.exists_of_apply apply (fun _ _ => true) 0 [.insertBlock ⟨7, 6, 1⟩] (new 1)
    (fun b => (b.insertBlock ⟨7, 6, 1⟩).blocks[(7 : BlockHash)]?.isNone
      && (b.insertBlock ⟨7, 6, 1⟩).blockQueue == [7]) (by decide +kernel)
  rw [Bool.and_eq_true, beq_iff_eq, Option.isNone_iff_eq_none] at hcheck
  exact ⟨b, ⟨7, 6, 1⟩, hb.reachable, hcheck⟩

theorem exact_of_fresh_run_sample :
    ∃ b, Runs.ReachedBy Step (fun b op => b.fresh op = true) (new 2) b
      ∧ b.blocks.size = 2 ∧ Exact b := by
  obtain ⟨b, hb, hsize⟩ := Runs.exists_of_apply apply fresh 9
    [.insertBlock ⟨7, 6, 1⟩, .insertBlock ⟨8, 7, 2⟩, .insertBlock ⟨9, 8, 3⟩, .removeOldBlocks 2,
      .insertBlock ⟨10, 8, 3⟩, .insertBlock ⟨11, 10, 4⟩] (new 2)
    (fun b => b.blocks.size == 2) (by decide +kernel)
  exact ⟨b, hb, beq_iff_eq.mp hsize, (exact_of_fresh_run (by decide) hb).1⟩

end BlockBuffer

end Engine
