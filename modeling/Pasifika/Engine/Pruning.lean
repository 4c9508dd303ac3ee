import Pasifika.Engine.TreeState

/-! # What pruning keeps

`remove_until` removes the canonical blocks up to the last persisted one, and the
side chains of the finalized block with everything on top of them. The canonical
blocks ABOVE the last persisted one stay: the search for side chains follows the
edges of the tree, and the last persisted block, through which it would have to
come, is gone by then. -/

namespace Engine

open Std (ExtTreeMap ExtTreeSet)
open OrderedMap OrderedMap.Groups List Option

/-- **BLOCKS BY HASH**: a hash names one block, and a block is numbered one above its parent. -/
structure HashedBlocks where
  block : BlockHash → RecoveredBlock
  hash_block : ∀ h, (block h).hash = h
  number_block : ∀ h, 0 < (block h).number →
    (block h).number = (block (block h).parentHash).number + 1

/-- A block that its hash names. -/
def HashedBlocks.Has (B : HashedBlocks) (b : RecoveredBlock) : Prop := B.block b.hash = b

instance (B : HashedBlocks) (b : RecoveredBlock) : Decidable (B.Has b) :=
  inferInstanceAs (Decidable (_ = _))

theorem HashedBlocks.has_block (B : HashedBlocks) (h : BlockHash) : B.Has (B.block h) := by
  rw [Has, B.hash_block]

namespace TreeState

variable {T : Type} {B : HashedBlocks} {t t' : TreeState T}

/-! ## Trees of named blocks -/

/-- The blocks are those that their hashes name, listed by number, and edges lead to blocks of the
    tree. -/
structure Known (B : HashedBlocks) (t : TreeState T) : Prop where
  block : ∀ {h : BlockHash} {e : ExecutedBlockWithTrieUpdates T}, t.blocksByHash[h]? = some e →
    e.recoveredBlock = B.block h ∧ 0 < e.number
  listed : ∀ {n : BlockNumber} {l : List (ExecutedBlockWithTrieUpdates T)}
    {e : ExecutedBlockWithTrieUpdates T}, t.blocksByNumber[n]? = some l → e ∈ l →
    B.Has e.recoveredBlock ∧ e.number = n
  edge : ∀ {p h : BlockHash}, In t.parentToChild p h →
    ∃ e, t.blocksByHash[h]? = some e ∧ e.parentHash = p

variable {e : ExecutedBlockWithTrieUpdates T} {i : BlockHash}

theorem Known.hash (h : Known B t) (he : t.blocksByHash[i]? = some e) : e.hash = i := by
  rw [ExecutedBlockWithTrieUpdates.hash, (h.block he).1, B.hash_block]

theorem Known.number_parent (h : Known B t) (he : t.blocksByHash[i]? = some e) :
    e.number = (B.block e.parentHash).number + 1 := by
  obtain ⟨hb, hpos⟩ := h.block he
  rw [ExecutedBlockWithTrieUpdates.number, hb] at hpos
  rw [ExecutedBlockWithTrieUpdates.number, ExecutedBlockWithTrieUpdates.parentHash, hb]
  exact B.number_block i hpos

theorem known_new (head : BlockNumHash) (kind : EngineApiKind) :
    Known B (new head kind : TreeState T) where
  block h := by simp [new] at h
  listed h := by simp [new] at h
  edge h := absurd h (not_in_of_none ExtTreeMap.getElem?_empty _)

theorem mem_takeFrom {A : Type} {m : ExtTreeMap BlockNumber (List A)} {k n : BlockNumber}
    {found : A → Bool} {l : List A} {a : A} (hl : (takeFrom m k found)[n]? = some l) (ha : a ∈ l) :
    ∃ l', m[n]? = some l' ∧ a ∈ l' := by
  rw [takeFrom] at hl
  cases hk : m[k]? with
  | none => rw [hk] at hl; exact ⟨l, hl, ha⟩
  | some v =>
    rw [hk] at hl
    cases hidx : v.findIdx? found with
    | none => simp only [hidx] at hl; exact ⟨l, hl, ha⟩
    | some i =>
      simp only [hidx] at hl
      obtain ⟨hlt, -⟩ := findIdx?_eq_some_iff_getElem.mp hidx
      have hperm := perm_swapRemove (getElem?_eq_getElem hlt)
      by_cases hn : k = n
      · subst hn
        split at hl
        · rw [get_erase_self] at hl
          cases hl
        · rw [get_insert_self] at hl
          cases hl
          exact ⟨v, hk, hperm.mem_iff.mpr (mem_cons_of_mem _ ha)⟩
      · refine ⟨l, ?_, ha⟩
        split at hl
        · rwa [get_erase_ne hn] at hl
        · rwa [get_insert_ne hn] at hl

theorem Known.removeByHash (h : Known B t) (hash : BlockHash) :
    Known B (t.removeByHash hash).2 := by
  cases he : t.blocksByHash[hash]? with
  | none => rw [removeByHash_of_none he]; exact h
  | some e =>
    have hget := blocksByHash_removeByHash t hash
    refine ⟨fun {i e'} he' => ?_, fun {n l e'} hl hmem => ?_, fun {p i} hin => ?_⟩
    · rw [hget] at he'
      split at he'
      · nomatch he'
      · exact h.block he'
    · rw [TreeState.removeByHash, he] at hl
      obtain ⟨l', hl', hmem'⟩ := mem_takeFrom hl hmem
      exact h.listed hl' hmem'
    · obtain ⟨⟨hin, hne⟩, -⟩ := (in_removeByHash he).mp hin
      obtain ⟨e', he', hp⟩ := h.edge hin
      refine ⟨e', ?_, hp⟩
      rw [hget, if_neg fun heq => ?_, he']
      -- the edge to the removed block is gone
      subst heq
      rw [he] at he'
      cases he'
      exact hne ⟨hp.symm, rfl⟩

theorem Known.congr (h : Known B t) (hh : t'.blocksByHash = t.blocksByHash)
    (hn : t'.blocksByNumber = t.blocksByNumber) (hp : t'.parentToChild = t.parentToChild) :
    Known B t' where
  block := by rw [hh]; exact h.block
  listed := by rw [hn]; exact h.listed
  edge := by rw [hp, hh]; exact h.edge

theorem Known.cutFinalized (h : Known B t) (finalized : BlockNumHash) :
    Known B (t.cutFinalized finalized).2 := by
  obtain ⟨kept, removed, hperm, -, hnum, hhash, hedge⟩ := t.cutFinalized_split finalized
  refine ⟨by rw [hhash]; exact h.block, fun {n l e} hl he => ?_, by rw [hhash, hedge]; exact h.edge⟩
  rw [hnum] at hl
  split at hl
  · next hn =>
    split at hl
    · nomatch hl
    · cases hl
      have hmem := hperm.mem_iff.mpr (mem_append_left _ he)
      cases hl' : t.blocksByNumber[finalized.number]? with
      | none => rw [hl'] at hmem; nomatch hmem
      | some l' =>
        rw [hl'] at hmem
        exact hn ▸ h.listed hl' hmem
  · exact h.listed hl he

theorem Known.insertExecuted (h : Known B t) (he : B.Has e.recoveredBlock) (hpos : 0 < e.number) :
    Known B (t.insertExecuted e) := by
  by_cases hnew : t.blocksByHash[e.hash]? = none
  · have hget := blocksByHash_insertExecuted hnew
    refine ⟨fun {i e'} he' => ?_, fun {n l e'} hl hmem => ?_, fun {p i} hin => ?_⟩
    · rw [hget] at he'
      split at he'
      · next hi =>
        cases he'
        exact ⟨hi ▸ he.symm, hpos⟩
      · exact h.block he'
    · rw [TreeState.insertExecuted, if_neg (not_contains_iff.mpr hnew)] at hl
      replace hl := (get_insert _ _ _ _).symm.trans hl
      split at hl
      · next hn =>
        cases hl
        rcases mem_append.mp hmem with hmem | hmem
        · cases hl' : t.blocksByNumber[e.number]? with
          | none => rw [hl'] at hmem; cases hmem
          | some l' => rw [hl'] at hmem; exact hn ▸ h.listed hl' hmem
        · rw [mem_singleton.mp hmem]
          exact ⟨he, hn⟩
      · exact h.listed hl hmem
    · rw [TreeState.insertExecuted, if_neg (not_contains_iff.mpr hnew)] at hin
      obtain ⟨s, hs, hi⟩ := hin
      rw [ExtTreeMap.getElem?_map, map_eq_some_iff] at hs
      obtain ⟨s', hs', rfl⟩ := hs
      rcases in_add.mp ⟨s', hs', (ExtTreeSet.mem_filter.mp hi).1⟩ with hin | ⟨rfl, rfl⟩
      · obtain ⟨e', he', hp⟩ := h.edge hin
        refine ⟨e', ?_, hp⟩
        rw [hget, if_neg fun hi => ?_, he']
        rw [← hi, hnew] at he'
        cases he'
      · exact ⟨e, by rw [hget, if_pos rfl], rfl⟩
  · rw [TreeState.insertExecuted, if_pos]
    · exact h
    · by_contra hc
      exact hnew (not_contains_iff.mp hc)

theorem get_insertExecuted (e : ExecutedBlockWithTrieUpdates T)
    (he' : t.blocksByHash[i]? = some e') :
    (t.insertExecuted e).blocksByHash[i]? = some e' := by
  by_cases hnew : t.blocksByHash[e.hash]? = none
  · rw [blocksByHash_insertExecuted hnew, if_neg fun hi => ?_, he']
    rw [← hi, hnew] at he'
    nomatch he'
  · rw [TreeState.insertExecuted, if_pos]
    · exact he'
    · by_contra hc
      exact hnew (not_contains_iff.mp hc)

theorem head_insertExecuted (t : TreeState T) (e : ExecutedBlockWithTrieUpdates T) :
    (t.insertExecuted e).currentCanonicalHead = t.currentCanonicalHead := by
  rw [TreeState.insertExecuted]
  split <;> rfl

/-- **REINSERTING BLOCKS** adds to the tree and leaves the head. -/
theorem Known.reinsertReorgedBlocks (h : Known B t)
    (hblocks : ∀ e ∈ blocks, B.Has e.recoveredBlock ∧ 0 < e.number) :
    Known B (reinsertReorgedBlocks blocks t) ∧ (∀ (i : BlockHash) e, t.blocksByHash[i]? = some e →
      (reinsertReorgedBlocks blocks t).blocksByHash[i]? = some e) ∧
      (reinsertReorgedBlocks blocks t).currentCanonicalHead = t.currentCanonicalHead := by
  induction blocks generalizing t with
  | nil => exact ⟨h, fun _ _ he => he, rfl⟩
  | cons b blocks ih =>
    obtain ⟨hb, hpos⟩ := hblocks b (mem_cons_self ..)
    have hrest : ∀ e ∈ blocks, B.Has e.recoveredBlock ∧ 0 < e.number :=
      fun e he => hblocks e (mem_cons_of_mem _ he)
    rw [TreeState.reinsertReorgedBlocks]
    split
    · obtain ⟨hk, hget, hhead⟩ := ih (h.insertExecuted hb hpos) hrest
      exact ⟨hk, fun i e he => hget i e (get_insertExecuted b he),
        hhead.trans (head_insertExecuted t b)⟩
    · exact ih h hrest

/-- Putting a block in the place of itself, with other trie updates. -/
theorem Known.setBlock (h : Known B t) (he : B.Has e.recoveredBlock) (hpos : 0 < e.number) :
    Known B { t with blocksByHash := t.blocksByHash.insert e.hash e } where
  block {i e'} he' := by
    replace he' := (get_insert _ _ _ _).symm.trans he'
    split at he'
    · next hi =>
      cases he'
      exact ⟨hi ▸ he.symm, hpos⟩
    · exact h.block he'
  listed := h.listed
  edge {p i} hin := by
    obtain ⟨e', he', hp⟩ := h.edge hin
    rw [get_insert]
    by_cases hi : e.hash = i
    · subst hi
      refine ⟨e, if_pos rfl, ?_⟩
      rw [← hp, ExecutedBlockWithTrieUpdates.parentHash, ExecutedBlockWithTrieUpdates.parentHash,
        (h.block he').1]
      exact congrArg RecoveredBlock.parentHash he.symm
    · exact ⟨e', by rw [if_neg hi, he'], hp⟩

variable {finalizedNumHash : Option BlockNumHash} {upperBound : BlockNumHash}

theorem head_removeUntil
    (hrun : t.removeUntil fuel upperBound lastPersistedHash finalizedNumHash = some t') :
    t'.currentCanonicalHead = t.currentCanonicalHead := by
  have hrem : ∀ (t : TreeState T) (i : BlockHash),
      (t.removeByHash i).2.currentCanonicalHead = t.currentCanonicalHead := by
    intro t i
    rw [TreeState.removeByHash]
    split <;> rfl
  obtain ⟨t1, hcan, hrun⟩ := bind_eq_some_iff.mp hrun
  obtain ⟨canonical, -, hcan⟩ := bind_eq_some_iff.mp hcan
  have h1 : t1.currentCanonicalHead = t.currentCanonicalHead := by
    cases canonical with
    | false => cases hcan; rfl
    | true =>
      exact removeCanonicalLoop_rule
        (P := fun t' => t'.currentCanonicalHead = t.currentCanonicalHead) (fun _ _ h => h)
        (fun t' _ e h _ _ => (hrem t' e.hash).trans h) fuel _ hcan rfl
  cases finalizedNumHash with
  | none => cases hrun; exact h1
  | some finalized =>
    refine pruneLoop_rule (P := fun t' => t'.currentCanonicalHead = t.currentCanonicalHead)
      (Q := fun _ => True) (fun t' i h _ => (hrem t' i).trans h) (fun _ _ _ _ _ _ _ _ _ => trivial)
      fuel hrun (fun _ _ => trivial) ?_
    have hcut : ∀ (t : TreeState T) (f : BlockNumHash),
        (t.cutFinalized f).2.currentCanonicalHead = t.currentCanonicalHead := by
      intro t f
      rw [TreeState.cutFinalized]
      split <;> rfl
    rw [hcut]
    exact removeEach_rule (P := fun t' => t'.currentCanonicalHead = t.currentCanonicalHead)
      (fun t' i _ h => (hrem t' i).trans h) h1

/-! ## The blocks above the last persisted one -/

/-- Blocks of the tree, each the parent of the one before, from a hash down to another. -/
inductive Tower (t : TreeState T) (base : BlockHash) :
    BlockHash → List (ExecutedBlockWithTrieUpdates T) → Prop where
  | nil : Tower t base base []
  | cons {i : BlockHash} {e : ExecutedBlockWithTrieUpdates T}
      {l : List (ExecutedBlockWithTrieUpdates T)} (he : t.blocksByHash[i]? = some e)
      (h : Tower t base e.parentHash l) : Tower t base i (e :: l)

/-- Hashes of blocks that stay: the parent of each stays, too, or is not in the tree. -/
def Kept (K : BlockHash → Prop) (t : TreeState T) : Prop :=
  ∀ i, K i → ∃ e, t.blocksByHash[i]? = some e ∧
    (K e.parentHash ∨ t.blocksByHash[e.parentHash]? = none)

variable {K : BlockHash → Prop}

theorem Kept.removeByHash (h : Kept K t) {hash : BlockHash}
    (hno : ¬ K hash) : Kept K (t.removeByHash hash).2 := by
  intro i hi
  obtain ⟨e, he, hparent⟩ := h i hi
  have hget := blocksByHash_removeByHash t hash
  have hne : hash ≠ i := fun heq => hno (heq ▸ hi)
  refine ⟨e, ?_, hparent.imp_right fun hnone => ?_⟩
  · rw [hget, if_neg hne, he]
  · rw [hget, hnone, ite_self]

/-- No block that stays is a child of one that is removed. -/
theorem Kept.not_child (h : Kept K t) (hknown : Known B t)
    {hash : BlockHash} (hno : ¬ K hash) {children : BlockHashes}
    (hrem : (t.removeByHash hash).1 = some (e, children)) {c : BlockHash} (hc : c ∈ children) :
    ¬ K c := by
  intro hK
  cases he : t.blocksByHash[hash]? with
  | none => rw [removeByHash_of_none he] at hrem; cases hrem
  | some e' =>
    rw [TreeState.removeByHash, he] at hrem
    cases hrem
    have hin : In (t.parentToChild.leave e.parentHash hash) hash c := by
      rw [In]
      cases hs : (t.parentToChild.leave e.parentHash hash)[hash]? with
      | none => rw [hs] at hc; exact absurd hc ExtTreeSet.not_mem_empty
      | some s => rw [hs] at hc; exact ⟨s, rfl, hc⟩
    obtain ⟨ec, hec, hparent⟩ := hknown.edge (in_leave.mp hin).1
    obtain ⟨ec', hec', hor⟩ := h c hK
    rw [hec] at hec'
    cases hec'
    rw [hparent] at hor
    rcases hor with hor | hor
    · exact hno hor
    · rw [he] at hor
      cases hor

variable {base i : BlockHash} {l : List (ExecutedBlockWithTrieUpdates T)}

theorem Tower.mono (h : Tower t base i l)
    (hkeep : ∀ (i : BlockHash) e, t.blocksByHash[i]? = some e → e ∈ l →
      t'.blocksByHash[i]? = some e) :
    Tower t' base i l := by
  induction h with
  | nil => exact .nil
  | cons he _ ih =>
    exact .cons (hkeep _ _ he (mem_cons_self ..))
      (ih fun i e he hmem => hkeep i e he (mem_cons_of_mem _ hmem))

theorem Tower.mem (h : Tower t base i l) (he : e ∈ l) :
    ∃ j : BlockHash, t.blocksByHash[j]? = some e := by
  induction h with
  | nil => nomatch he
  | cons hget _ ih =>
    rcases mem_cons.mp he with rfl | he
    · exact ⟨_, hget⟩
    · exact ih he

/-- The blocks of a tower are a chain, newest first, on the base. -/
theorem Tower.chained (h : Tower t base i l) (hknown : Known B t) :
    (l.map (·.recoveredBlock) ++ [B.block base]).IsChain
      (fun b p => b.parentHash = p.hash ∧ b.number = p.number + 1) := by
  induction h with
  | nil => exact .singleton _
  | @cons i e l he hrest ih =>
    have hparent := hknown.number_parent he
    cases hrest with
    | nil => exact isChain_cons_cons.mpr ⟨⟨(B.hash_block _).symm, hparent⟩, ih⟩
    | @cons _ p l hp _ =>
      refine isChain_cons_cons.mpr ⟨⟨(hknown.hash hp).symm, ?_⟩, ih⟩
      rw [← (hknown.block hp).1] at hparent
      exact hparent

variable {j : BlockHash} {fuel : Nat}

theorem Tower.removeByHash (h : Tower t base i l) (hknown : Known B t) (hj : ∀ e ∈ l, e.hash ≠ j) :
    Tower (t.removeByHash j).2 base i l := by
  refine h.mono fun i e he hmem => ?_
  have hne : j ≠ i := fun heq => hj e hmem ((hknown.hash he).trans heq.symm)
  rw [blocksByHash_removeByHash, if_neg hne, he]

theorem Tower.kept (h : Tower t base i l) (hknown : Known B t)
    (hbase : t.blocksByHash[base]? = none) : Kept (fun j => ∃ e ∈ l, e.hash = j) t := by
  induction h with
  | nil =>
    rintro j ⟨e, he, -⟩
    nomatch he
  | @cons i e l he hrest ih =>
    rintro j ⟨e', he', rfl⟩
    rcases mem_cons.mp he' with rfl | he'
    · refine ⟨e', by rw [hknown.hash he, he], ?_⟩
      cases hrest with
      | nil => exact .inr hbase
      | @cons _ p l hp _ =>
        exact .inl ⟨p, mem_cons_of_mem _ (mem_cons_self ..), hknown.hash hp⟩
    · obtain ⟨e'', he'', hor⟩ := ih e'.hash ⟨e', he', rfl⟩
      refine ⟨e'', he'', hor.imp_left ?_⟩
      rintro ⟨p, hp, hhash⟩
      exact ⟨p, mem_cons_of_mem _ hp, hhash⟩

/-- **SEARCHING SIDE CHAINS** keeps a tower on a base that is gone. -/
theorem Tower.pruneLoop (h : Tower t base i l) (hknown : Known B t)
    (hbase : t.blocksByHash[base]? = none) (hrun : pruneLoop fuel blocks t = some t')
    (hblocks : ∀ j ∈ blocks, ∀ e ∈ l, e.hash ≠ j) :
    Known B t' ∧ Tower t' base i l := by
  have hall := pruneLoop_rule (Q := fun j => ¬ ∃ e ∈ l, e.hash = j)
    (P := fun t' => Known B t' ∧ Kept (fun j => ∃ e ∈ l, e.hash = j) t' ∧ Tower t' base i l)
    (fun t' j ht' hj => ⟨ht'.1.removeByHash j, ht'.2.1.removeByHash hj,
      ht'.2.2.removeByHash ht'.1 fun e he heq => hj ⟨e, he, heq⟩⟩)
    (fun t' j e' children ht' hj hrem c hc => ht'.2.1.not_child ht'.1 hj hrem hc)
    fuel hrun (fun j hj ⟨e, he, heq⟩ => hblocks j hj e he heq) ⟨hknown, h.kept hknown hbase, h⟩
  exact ⟨hall.1, hall.2.2⟩

/-- The base of a tower below the canonical head is canonical. -/
theorem isCanonicalLoop_of_tower (htower : Tower t base i (e :: l))
    (h : isCanonicalLoop t base fuel i = some b) : b = true := by
  induction fuel generalizing i e l b with
  | zero => nomatch h
  | succ fuel ih =>
    cases htower with
    | cons he hrest =>
      rw [isCanonicalLoop, he] at h
      dsimp only at h
      by_cases hp : e.parentHash = base
      · rw [hp] at h
        simpa using h.symm
      · simp only [beq_false_of_ne hp] at h
        cases hrest with
        | nil => exact absurd rfl hp
        | cons he' hrest => exact ih (.cons he' hrest) h

theorem isCanonical_of_tower (htower : Tower t base t.currentCanonicalHead.hash l)
    (h : t.isCanonical fuel base = some b) : b = true := by
  rw [isCanonical] at h
  by_cases hhead : t.currentCanonicalHead.hash = base
  · rw [hhead] at h
    simpa using h.symm
  · simp only [beq_false_of_ne hhead] at h
    generalize t.currentCanonicalHead.hash = head at hhead h htower
    cases htower with
    | nil => exact absurd rfl hhead
    | cons he hrest => exact isCanonicalLoop_of_tower (.cons he hrest) h

/-- The walk that removes canonical blocks comes down to the base. -/
theorem removeCanonicalLoop_base {upperBound : BlockNumber}
    (hbase : ∀ e, t.blocksByHash[base]? = some e → e.hash = base ∧ e.number ≤ upperBound)
    (htower : Tower t base i l) (hnum : ∀ e ∈ l, upperBound < e.number)
    (h : removeCanonicalLoop upperBound fuel i t = some t') : t'.blocksByHash[base]? = none := by
  induction fuel generalizing i l with
  | zero => nomatch h
  | succ fuel ih =>
    rw [removeCanonicalLoop] at h
    cases htower with
    | nil =>
      cases he : t.blocksByHash[base]? with
      | none =>
        rw [he] at h
        cases h
        exact he
      | some e =>
        obtain ⟨hhash, hle⟩ := hbase e he
        simp only [he, if_pos hle] at h
        refine (shrinks_removeCanonicalLoop fuel _ h).gone ?_
        refine removePersisted_rule (P := fun t => t.blocksByHash[base]? = none) (fun _ _ h => h) ?_
        rw [blocksByHash_removeByHash, if_pos hhash]
    | cons he hrest =>
      have hlt := hnum _ (mem_cons_self ..)
      simp only [he, if_neg (Nat.not_le_of_lt hlt)] at h
      exact ih hrest (fun e' he' => hnum e' (mem_cons_of_mem _ he')) h

theorem Known.number_of_hashesBelow (h : Known B t) (hj : j ∈ t.hashesBelow n) :
    (B.block j).number < n := by
  obtain ⟨⟨m, v⟩, hmem, hj⟩ := mem_flatMap.mp hj
  obtain ⟨hv, hlt⟩ := mem_filter.mp hmem
  obtain ⟨e, he, rfl⟩ := mem_map.mp hj
  obtain ⟨hhas, hnum⟩ := h.listed (mem_toList.mp hv) he
  rw [show B.block e.hash = e.recoveredBlock from hhas]
  exact lt_of_le_of_lt (le_of_eq hnum) (of_decide_eq_true hlt)

theorem Known.number_of_cutFinalized (h : Known B t) (hj : j ∈ (t.cutFinalized finalized).1) :
    (B.block j).number = finalized.number := by
  obtain ⟨kept, removed, hperm, hout, -⟩ := t.cutFinalized_split finalized
  rw [hout] at hj
  obtain ⟨e, he, rfl⟩ := mem_map.mp hj
  have hmem := hperm.mem_iff.mpr (mem_append_right _ he)
  cases hl : t.blocksByNumber[finalized.number]? with
  | none => rw [hl] at hmem; nomatch hmem
  | some l =>
    rw [hl] at hmem
    obtain ⟨hhas, hnum⟩ := h.listed hl hmem
    rw [show B.block e.hash = e.recoveredBlock from hhas]
    exact hnum

/-- **PRUNING KEEPS THE TOWER** of canonical blocks above the last persisted one. -/
theorem removeUntil_keeps_tower (hknown : Known B t)
    (hrun : t.removeUntil fuel upperBound upperBound.hash finalizedNumHash = some t')
    (htower : Tower t upperBound.hash t.currentCanonicalHead.hash l)
    (hnum : ∀ e ∈ l, upperBound.number < e.number)
    (hupper : (B.block upperBound.hash).number = upperBound.number) :
    Known B t' ∧ Tower t' upperBound.hash t.currentCanonicalHead.hash l := by
  -- hashes of low blocks are not in the tower
  have hlow : ∀ {t} {i j}, Known B t → Tower t upperBound.hash i l →
      (B.block j).number ≤ upperBound.number → ∀ e ∈ l, e.hash ≠ j := by
    intro t i j hknown htower hj e he heq
    obtain ⟨k, hk⟩ := htower.mem he
    have hle : e.number ≤ upperBound.number := by
      rw [ExecutedBlockWithTrieUpdates.number, (hknown.block hk).1, ← hknown.hash hk, heq]
      exact hj
    exact absurd (hnum e he) (Nat.not_lt_of_le hle)
  obtain ⟨t1, hcan, hrun⟩ := bind_eq_some_iff.mp hrun
  obtain ⟨canonical, hb, hcan⟩ := bind_eq_some_iff.mp hcan
  rw [isCanonical_of_tower htower hb, if_pos rfl] at hcan
  -- the canonical blocks up to the last persisted one go
  have hbase := removeCanonicalLoop_base (fun e he => ⟨hknown.hash he, by
    rw [ExecutedBlockWithTrieUpdates.number, (hknown.block he).1, hupper]⟩) htower hnum hcan
  obtain ⟨hknown1, htower1⟩ := removeCanonicalLoop_rule
    (P := fun t' => Known B t' ∧ Tower t' upperBound.hash t.currentCanonicalHead.hash l)
    (fun t' _ h => ⟨h.1.congr rfl rfl rfl, h.2.mono fun _ _ he _ => he⟩)
    (fun t' j e h he hle => ⟨h.1.removeByHash e.hash, h.2.removeByHash h.1 (hlow h.1 h.2 (by
      rw [h.1.hash he, ← (h.1.block he).1]
      exact hle))⟩) fuel _ hcan ⟨hknown, htower⟩
  cases finalizedNumHash with
  | none =>
    cases hrun
    exact ⟨hknown1, htower1⟩
  | some finalized =>
    -- pruning starts at or below the last persisted number
    dsimp only [map_some] at hrun
    generalize hfin : (if upperBound.number < finalized.number then upperBound else finalized) = f
      at hrun
    have hle : f.number ≤ upperBound.number := by
      rw [← hfin]
      split
      · exact le_rfl
      · next h => exact Nat.le_of_not_lt h
    obtain ⟨hknown2, htower2⟩ := removeEach_rule
      (P := fun t' => Known B t' ∧ Tower t' upperBound.hash t.currentCanonicalHead.hash l)
      (fun t' j hj h => ⟨h.1.removeByHash j, h.2.removeByHash h.1 (hlow h.1 h.2
        (le_of_lt (lt_of_lt_of_le (hknown1.number_of_hashesBelow hj) hle)))⟩)
      ⟨hknown1, htower1⟩
    have hbase2 := (shrinks_removeEach (t1.hashesBelow f.number) t1).gone hbase
    rw [pruneFinalizedSidechains] at hrun
    generalize ht2 : (removeEach (t1.hashesBelow f.number) t1).prunePersistedTrieUpdates = t2
      at hrun
    replace hknown2 : Known B t2 := ht2 ▸ hknown2.congr rfl rfl rfl
    replace htower2 : Tower t2 upperBound.hash t.currentCanonicalHead.hash l :=
      ht2 ▸ htower2.mono fun _ _ he _ => he
    replace hbase2 : t2.blocksByHash[upperBound.hash]? = none := ht2 ▸ hbase2
    have hhash : (t2.cutFinalized f).2.blocksByHash = t2.blocksByHash := by
      obtain ⟨-, -, -, -, -, hhash, -⟩ := t2.cutFinalized_split f
      exact hhash
    refine Tower.pruneLoop (htower2.mono fun i e he _ => ?_) (hknown2.cutFinalized f) ?_ hrun ?_
    · rw [hhash, he]
    · rw [hhash, hbase2]
    · intro j hj
      exact hlow hknown2 htower2 (le_trans (le_of_eq (hknown2.number_of_cutFinalized hj)) hle)

end TreeState

end Engine
