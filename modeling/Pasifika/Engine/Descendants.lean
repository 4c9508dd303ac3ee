import Pasifika.Engine.BlockBuffer

/-! # Descendants in the block buffer

`remove_block_with_children` takes parents off a stack and pushes their children, which leave the
buffer. A block that is left when its parent is gone has its parent ON THE STACK. -/

namespace Engine.BlockBuffer

open OrderedMap OrderedMap.Groups List

variable {b b₀ : BlockBuffer} {fuel : Nat} {noParent : BlockHash → Prop} {h p : BlockHash}
  {stack gone : List BlockHash}

/-- A hash, and the buffered blocks that descend from it through buffered ones. -/
inductive Descends (b : BlockBuffer) (h : BlockHash) : BlockHash → Prop
  | self : Descends b h h
  | child {i : BlockHash} {block : RecoveredBlock} (hb : b.blocks[i]? = some block)
    (hp : Descends b h block.parentHash) : Descends b h i

theorem Indexed.removeEach (hashes : List BlockHash) (h : Indexed noParent b) :
    Indexed noParent (BlockBuffer.removeEach hashes b).2 := by
  induction hashes generalizing b with
  | nil => exact h
  | cons hash hashes ih =>
    refine ih ?_
    rw [BlockBuffer.removeBlock]
    split
    · exact h
    · next hb =>
      exact fun p i => in_leave.trans ((and_congr_left' (h p i)).trans (without_block hb p i))

theorem removeEach_fst (hnd : hashes.Nodup) (b : BlockBuffer) :
    (removeEach hashes b).1 = hashes.filterMap (b.blocks[·]?) := by
  induction hashes generalizing b with
  | nil => rfl
  | cons hash hashes ih =>
    obtain ⟨hfresh, hnd⟩ := nodup_cons.mp hnd
    have hrest : ∀ i ∈ hashes, (b.removeBlock hash).2.blocks[i]? = b.blocks[i]? := fun i hi => by
      rw [get_removeBlock, if_neg (fun heq : hash = i => hfresh (heq ▸ hi))]
    rw [removeEach, ih hnd, filterMap_congr hrest, removeBlock]
    cases hb : b.blocks[hash]? with
    | none | some block => simp [hb]

/-- The loop of `remove_children` on its way down from `h`. -/
structure Removing (b₀ : BlockBuffer) (h : BlockHash) (stack : List BlockHash) (b : BlockBuffer)
    (gone : List BlockHash) : Prop where
  indexed : Indexed (fun _ => False) b
  left : ∀ i, b.blocks[i]? = if i ∈ gone then none else b₀.blocks[i]?
  nodup : gone.Nodup
  descends : ∀ i ∈ gone, Descends b₀ h i
  /-- Parents come first. -/
  order : ∀ l i r, gone = l ++ i :: r →
    i = h ∨ ∃ block, b₀.blocks[i]? = some block ∧ block.parentHash ∈ l
  stacked : ∀ p ∈ stack, p ∈ gone
  pending : ∀ (i : BlockHash) block, b.blocks[i]? = some block →
    block.parentHash ∈ gone → block.parentHash ∈ stack

namespace Removing

theorem skip (r : Removing b₀ h (p :: stack) b gone) (hc : b.parentToChild[p]? = none) :
    Removing b₀ h stack b gone := by
  refine { r with
    stacked := fun q hq => r.stacked q (mem_cons_of_mem _ hq)
    pending := fun i block hb hp => ?_ }
  refine (mem_cons.mp (r.pending i block hb hp)).resolve_left fun heq => ?_
  exact not_in_of_none hc i ((r.indexed p i).mpr ⟨not_false, block, hb, heq⟩)

/-- The children of one parent leave, and are stacked. -/
theorem group (r : Removing b₀ h (p :: stack) b gone) (hc : b.parentToChild[p]? = some children) :
    let out := removeEach children.toList { b with parentToChild := b.parentToChild.erase p }
    Removing b₀ h (children.toList.reverse ++ stack) out.2 (gone ++ children.toList) ∧
      out.1 = children.toList.filterMap (b₀.blocks[·]?) ∧
      out.2.blocks.size + children.toList.length = b.blocks.size := by
  intro out
  obtain ⟨hchild, hleft, hsize⟩ := r.indexed.removeGroup hc
  have hmem : ∀ i ∈ children.toList, i ∉ gone ∧
      ∃ block, b₀.blocks[i]? = some block ∧ block.parentHash = p := fun i hi => by
    obtain ⟨block, hb, hp⟩ := hchild i hi
    rw [r.left] at hb
    split at hb
    · nomatch hb
    · exact ⟨‹_›, block, hb, hp⟩
  have hnd := nodup_setList children
  have hp := r.stacked p mem_cons_self
  refine ⟨⟨fun q i => ?_, fun i => ?_, ?_, fun i hi => ?_, fun l i t heq => ?_, fun q hq => ?_,
    fun i block hb hq => ?_⟩, (removeEach_fst hnd _).trans (filterMap_congr fun i hi => ?_), hsize⟩
  · have hcut : Indexed (· = p) { b with parentToChild := b.parentToChild.erase p } := fun q i => by
      rw [in_erase, r.indexed q i, not_false_eq_true, true_and, and_comm]
    rw [hcut.removeEach children.toList q i, not_false_eq_true, true_and, and_iff_right_iff_imp]
    rintro ⟨block, hb, rfl⟩
    exact (hleft i block hb).2
  · rw [get_removeEach, r.left]
    by_cases hi : i ∈ children.toList
    · rw [if_pos hi, if_pos (mem_append_right _ hi)]
    · simp only [mem_append, hi, if_false, or_false]
  · exact r.nodup.append hnd fun i hi hi' => (hmem i hi').1 hi
  · rcases mem_append.mp hi with hi | hi
    · exact r.descends i hi
    · obtain ⟨-, block, hb, rfl⟩ := hmem i hi
      exact .child hb (r.descends _ hp)
  · rcases append_eq_append_iff.mp heq with ⟨l', rfl, hl'⟩ | ⟨l', hl', ht⟩
    · obtain ⟨-, block, hb, rfl⟩ := hmem i (hl' ▸ mem_append_right _ mem_cons_self)
      exact .inr ⟨block, hb, mem_append_left _ hp⟩
    · cases l' with
      | nil =>
        rw [nil_append] at ht
        obtain ⟨-, block, hb, rfl⟩ := hmem i (ht ▸ mem_cons_self)
        exact .inr ⟨block, hb, by simpa [hl'] using hp⟩
      | cons j l' =>
        obtain ⟨rfl, -⟩ := cons.inj ht
        exact r.order l i l' hl'
  · rcases mem_append.mp hq with hq | hq
    · exact mem_append_right _ (mem_reverse.mp hq)
    · exact mem_append_left _ (r.stacked q (mem_cons_of_mem _ hq))
  · obtain ⟨hb, hne⟩ := hleft i block hb
    refine mem_append.mpr ((mem_append.mp hq).symm.imp mem_reverse.mpr fun hq => ?_)
    exact (mem_cons.mp (r.pending i block hb hq)).resolve_left hne
  · exact (r.left i).trans (if_neg (hmem i hi).1)

theorem run (r : Removing b₀ h stack b gone) (removed : List RecoveredBlock)
    (hfuel : stack.length + b.blocks.size < fuel) :
    ∃ rest b', removeChildrenLoop fuel stack b removed =
        some (removed ++ rest.filterMap (b₀.blocks[·]?), b') ∧
      Removing b₀ h [] b' (gone ++ rest) := by
  induction fuel generalizing stack b gone removed with
  | zero => nomatch hfuel
  | succ fuel ih =>
    cases stack with
    | nil => exact ⟨[], b, by simp [removeChildrenLoop], by rwa [append_nil]⟩
    | cons p stack =>
      rw [length_cons] at hfuel
      rw [removeChildrenLoop]
      cases hc : b.parentToChild[p]? with
      | none => exact ih (r.skip hc) removed (by omega)
      | some children =>
        obtain ⟨r, hout, hsize⟩ := r.group hc
        obtain ⟨rest, b', hrun, r⟩ := ih r (removed ++ _) (by
          rw [length_append, length_reverse]
          omega)
        refine ⟨children.toList ++ rest, b', ?_, append_assoc .. ▸ r⟩
        rw [filterMap_append, ← hout, ← append_assoc]
        exact hrun

end Removing

/-- **A BLOCK WITH ITS DESCENDANTS**: the buffered blocks of `h` and of all that descend from it are
    returned, each after its parent, and the others are left. -/
theorem removeBlockWithChildren_exact (hindex : ∀ p i, In b.parentToChild p i ↔
      ∃ block, b.blocks[i]? = some block ∧ block.parentHash = p)
    (hfuel : b.blocks.size + 1 < fuel) :
    ∃ hashes b', b.removeBlockWithChildren fuel h = some (hashes.filterMap (b.blocks[·]?), b') ∧
      hashes.Nodup ∧ (∀ i, i ∈ hashes ↔ Descends b h i) ∧
      (∀ l i r, hashes = l ++ i :: r →
        i = h ∨ ∃ block, b.blocks[i]? = some block ∧ block.parentHash ∈ l) ∧
      ∀ i, b'.blocks[i]? = if i ∈ hashes then none else b.blocks[i]? := by
  have hstart : Removing b h [h] (removeEach [h] b).2 [h] := by
    refine ⟨?_, get_removeEach [h] b, nodup_singleton h, ?_, ?_, fun _ => id, fun _ _ _ => id⟩
    · exact Indexed.removeEach [h] fun p i => by rw [hindex, not_false_eq_true, true_and]
    · exact fun i hi => mem_singleton.mp hi ▸ .self
    · exact fun l i r heq => .inl (mem_singleton.mp (heq ▸ mem_append_right _ mem_cons_self))
  have hle := b.size_removeBlock_le h
  have hfuel' : 1 + (b.removeBlock h).2.blocks.size < fuel := by omega
  obtain ⟨rest, b', hrun, r⟩ := hstart.run [] hfuel'
  refine ⟨[h] ++ rest, b', ?_, r.nodup, fun i => ⟨r.descends i, fun hd => ?_⟩, r.order, r.left⟩
  · rw [filterMap_append, ← removeEach_fst (nodup_singleton h), removeEach, removeEach,
      append_nil, removeBlockWithChildren, removeChildren]
    exact congrArg (Option.bind · _) hrun
  · -- a block below one that is gone would wait for its parent on the empty stack
    induction hd with
    | self => exact mem_cons_self
    | child hb _ ih =>
      by_contra hno
      cases r.pending _ _ ((r.left _).trans ((if_neg hno).trans hb)) ih

/-- Below block 6, which is not buffered, are 7 and 8; block 9 is on another branch. -/
def sampleForest : BlockBuffer :=
  (((new 3).insertBlock ⟨7, 6, 1⟩).insertBlock ⟨8, 7, 2⟩).insertBlock ⟨9, 5, 1⟩

theorem removeBlockWithChildren_exact_sample : ∃ (hashes : List BlockHash) (b' : BlockBuffer),
    sampleForest.removeBlockWithChildren 5 6 =
        some (hashes.filterMap (sampleForest.blocks[·]?), b') ∧
      8 ∈ hashes ∧ b'.blocks[(9 : BlockHash)]? = some ⟨9, 5, 1⟩ := by
  have h7 : AllAgree ((new 3).insertBlock ⟨7, 6, 1⟩) ∧ _ :=
    (allAgree_new 3).insertBlock (by decide) (by decide) (by decide)
  have h8 : AllAgree (((new 3).insertBlock ⟨7, 6, 1⟩).insertBlock ⟨8, 7, 2⟩) ∧ _ :=
    h7.1.insertBlock (by decide) (by decide) (by decide)
  have h9 : AllAgree sampleForest ∧ _ :=
    h8.1.insertBlock (by decide) (by decide) (by decide)
  obtain ⟨hashes, b', hrun, -, hmem, -, hleft⟩ := @removeBlockWithChildren_exact _ 5 6
    (h9.1.exact (by decide)).parents (by decide)
  refine ⟨hashes, b', hrun, (hmem 8).mpr ?_, ?_⟩
  · exact @Descends.child _ _ _ ⟨8, 7, 2⟩ (by decide)
      (@Descends.child _ _ _ ⟨7, 6, 1⟩ (by decide) .self)
  · rw [hleft, if_neg]
    · decide
    · -- the parent of block 9 is not buffered
      rw [hmem]
      intro hd
      cases hd with
      | child hb hp =>
        obtain rfl : (⟨9, 5, 1⟩ : RecoveredBlock) = _ := Option.some.inj (h9.2.2.1.symm.trans hb)
        cases hp with
        | child hb _ =>
          exact absurd hb (by rw [show sampleForest.blocks[5]? = none by decide]; simp)

end Engine.BlockBuffer
