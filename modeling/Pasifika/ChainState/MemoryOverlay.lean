import Mathlib

/-! # The state of blocks in memory

`MemoryOverlayStateProvider` reads the state after blocks that are only in memory, on top
of a state in the database. It asks the blocks from the newest one down, and the first
one that knows an account, a slot or a code gives the answer. That is the state `layered`,
to which all blocks were applied from the oldest one up. -/

namespace ChainState.MemoryOverlay

open List Option

/-! ## Bundles -/

inductive AccountStatus
  | loadedNotExisting | loaded | loadedEmptyEIP161 | inMemoryChange | changed
  | destroyed | destroyedChanged | destroyedAgain
  deriving DecidableEq

namespace AccountStatus

def wasDestroyed : AccountStatus → Bool
  | destroyed | destroyedChanged | destroyedAgain => true
  | _ => false

/-- `is_storage_known`: the account was created or its storage was destroyed. -/
def isStorageKnown : AccountStatus → Bool
  | loadedNotExisting | inMemoryChange | destroyed | destroyedChanged | destroyedAgain => true
  | _ => false

end AccountStatus

variable {A I K H C B : Type}

/-- `BundleAccount`, with the present values of its slots. -/
structure BundleAccount (I K : Type) where
  info : Option I
  storage : K → Option ℕ
  status : AccountStatus

def BundleAccount.storageSlot (account : BundleAccount I K) (slot : K) : Option ℕ :=
  (account.storage slot).or (if account.status.isStorageKnown then some 0 else none)

/-- `BundleState`: accounts and contracts. -/
structure Bundle (A I K H C : Type) where
  state : A → Option (BundleAccount I K)
  contracts : H → Option C

namespace Bundle

/-- `ExecutionOutcome::account`. -/
def account (b : Bundle A I K H C) (address : A) : Option (Option I) :=
  (b.state address).map (·.info)

/-- `ExecutionOutcome::storage`. -/
def storage (b : Bundle A I K H C) (address : A) (slot : K) : Option ℕ :=
  (b.state address).bind (·.storageSlot slot)

/-- `ExecutionOutcome::bytecode`. -/
def bytecode (b : Bundle A I K H C) (codeHash : H) : Option C := b.contracts codeHash

end Bundle

/-! ## The provider -/

/-- A state: accounts, slots, of which an absent one counts as zero, and codes. -/
structure State (A I K H C : Type) where
  account : A → Option I
  storage : A → K → Option ℕ
  code : H → Option C

/-- An executed block. -/
structure ExecutedBlock (A I K H C B : Type) where
  number : ℕ
  hash : B
  executionOutput : Bundle A I K H C

/-- `MemoryOverlayStateProvider`: the state in the database, the hashes of the blocks that lead to
    it, and the blocks in memory, newest first. -/
structure Provider (A I K H C B : Type) where
  historical : State A I K H C
  historicalHashes : List B
  inMemory : List (ExecutedBlock A I K H C B)
  consecutive : inMemory.reverse.map (·.number) =
    List.range' historicalHashes.length inMemory.length

namespace Provider

/-- The loop over the blocks in memory, which stops at the first answer. -/
def firstAnswer {V : Type} (ask : ExecutedBlock A I K H C B → Option V) (otherwise : V) :
    List (ExecutedBlock A I K H C B) → V
  | [] => otherwise
  | block :: rest => (ask block).getD (firstAnswer ask otherwise rest)

def basicAccount (p : Provider A I K H C B) (address : A) : Option I :=
  firstAnswer (fun block => block.executionOutput.account address)
    (p.historical.account address) p.inMemory

def storage (p : Provider A I K H C B) (address : A) (slot : K) : Option ℕ :=
  firstAnswer (fun block => (block.executionOutput.storage address slot).map some)
    (p.historical.storage address slot) p.inMemory

def bytecodeByHash (p : Provider A I K H C B) (codeHash : H) : Option C :=
  firstAnswer (fun block => (block.executionOutput.bytecode codeHash).map some)
    (p.historical.code codeHash) p.inMemory

def blockHash (p : Provider A I K H C B) (number : ℕ) : Option B :=
  firstAnswer (fun block => if block.number = number then some (some block.hash) else none)
    p.historicalHashes[number]? p.inMemory

/-- `canonical_hashes_range` of the database. -/
def historicalRange (p : Provider A I K H C B) (start stop : ℕ) : List B :=
  (p.historicalHashes.take stop).drop start

/-- One round of the loop in `canonical_hashes_range`. -/
def collect (start stop : ℕ) (acc : Option ℕ × List B) (block : ExecutedBlock A I K H C B) :
    Option ℕ × List B :=
  if start ≤ block.number ∧ block.number < stop then (some block.number, acc.2 ++ [block.hash])
  else acc

def canonicalHashesRange (p : Provider A I K H C B) (start stop : ℕ) : List B :=
  let (earliestBlockNumber, inMemoryHashes) := p.inMemory.foldl (collect start stop) (none, [])
  p.historicalRange start (earliestBlockNumber.getD stop) ++ inMemoryHashes.reverse

/-- The hashes of all blocks of the chain, by number. -/
def chainHashes (p : Provider A I K H C B) : List B :=
  p.historicalHashes ++ p.inMemory.reverse.map (·.hash)

end Provider

/-! ## The layered state -/

/-- **THE STATE AFTER A BLOCK**: the storage of destroyed accounts is wiped, then accounts, slots
    and contracts are written. -/
def Bundle.apply (b : Bundle A I K H C) (s : State A I K H C) : State A I K H C where
  account address := (b.account address).getD (s.account address)
  storage address slot :=
    match b.state address with
    | none => s.storage address slot
    | some account =>
      (account.storage slot).or (if account.status.wasDestroyed then none
        else s.storage address slot)
  code codeHash := (b.contracts codeHash).or (s.code codeHash)

/-- The state after blocks, the oldest one applied first. -/
def layered (historical : State A I K H C) : List (ExecutedBlock A I K H C B) → State A I K H C
  | [] => historical
  | block :: older => block.executionOutput.apply (layered historical older)

/-- An outcome of executing a block on a state: an account whose storage is known without having
    been destroyed had none outside the bundle. -/
def Bundle.OutcomeOn (b : Bundle A I K H C) (s : State A I K H C) : Prop :=
  ∀ address account, b.state address = some account → account.status.isStorageKnown = true →
    account.status.wasDestroyed = false → ∀ slot, account.storage slot = none →
    (s.storage address slot).getD 0 = 0

/-- The blocks were executed one on top of the other. -/
def Executed (historical : State A I K H C) : List (ExecutedBlock A I K H C B) → Prop
  | [] => True
  | block :: older =>
    block.executionOutput.OutcomeOn (layered historical older) ∧ Executed historical older

/-- One block: its answer, or else that of the state before it. -/
theorem storage_apply {b : Bundle A I K H C} {s : State A I K H C} (h : b.OutcomeOn s)
    (address : A) (slot : K) :
    ((b.apply s).storage address slot).getD 0 =
      (b.storage address slot).getD ((s.storage address slot).getD 0) := by
  dsimp only [Bundle.apply, Bundle.storage]
  cases haccount : b.state address with
  | none => rfl
  | some account =>
    show ((account.storage slot).or _).getD 0 = (account.storageSlot slot).getD _
    rw [BundleAccount.storageSlot]
    cases hslot : account.storage slot with
    | some value => rfl
    | none =>
      rw [none_or, none_or]
      by_cases hdestroyed : account.status.wasDestroyed = true
      · have hknown : account.status.isStorageKnown = true := by
          revert hdestroyed
          cases account.status <;> decide
        rw [if_pos hdestroyed, if_pos hknown]
        rfl
      · rw [if_neg hdestroyed]
        by_cases hknown : account.status.isStorageKnown = true
        · rw [if_pos hknown]
          exact h address account haccount hknown (Bool.eq_false_iff.mpr hdestroyed) slot hslot
        · rw [if_neg hknown]
          rfl

/-! ## The hashes of the chain -/

variable (start stop : ℕ)

theorem foldl_collect (blocks : List (ExecutedBlock A I K H C B)) :
    ∀ acc, blocks.foldl (Provider.collect start stop) acc =
      (((blocks.filter fun b => decide (start ≤ b.number ∧ b.number < stop)).getLast?.map
          (·.number)).or acc.1,
        acc.2 ++ (blocks.filter fun b => decide (start ≤ b.number ∧ b.number < stop)).map
          (·.hash)) := by
  induction blocks using List.reverseRecOn with
  | nil => intro acc; simp
  | append_singleton blocks b ih =>
    intro acc
    rw [foldl_append, ih, foldl_cons, foldl_nil, Provider.collect]
    by_cases hb : start ≤ b.number ∧ b.number < stop
    · have hfilter : [b].filter (fun b => decide (start ≤ b.number ∧ b.number < stop)) = [b] := by
        simp [hb]
      rw [if_pos hb, filter_append, hfilter]
      simp
    · have hfilter : [b].filter (fun b => decide (start ≤ b.number ∧ b.number < stop)) = [] := by
        simpa using hb
      rw [if_neg hb, filter_append, hfilter, append_nil]

theorem filter_consecutive : ∀ {first : ℕ} {l : List (ExecutedBlock A I K H C B)},
    l.map (·.number) = range' first l.length →
    l.filter (fun b => decide (start ≤ b.number ∧ b.number < stop)) =
      (l.take (stop - first)).drop (start - first) := by
  intro first l
  induction l generalizing first with
  | nil => intro _; simp
  | cons b l ih =>
    intro h
    obtain ⟨hb, hl⟩ := List.cons.inj h
    have hrest := ih hl
    have hnumber : b.number = first := hb
    by_cases hstop : first < stop
    · obtain ⟨k, hk⟩ : ∃ k, stop - first = k + 1 := ⟨stop - first - 1, by omega⟩
      rw [show stop - (first + 1) = k by omega] at hrest
      rw [hk, take_succ_cons]
      by_cases hstart : start ≤ first
      · rw [filter_cons_of_pos (by simpa [hnumber] using ⟨hstart, hstop⟩), hrest,
          show start - first = 0 by omega, show start - (first + 1) = 0 by omega]
        rfl
      · rw [filter_cons_of_neg (by simp [hnumber, hstart]), hrest,
          show start - first = start - (first + 1) + 1 by omega, drop_succ_cons]
    · rw [filter_cons_of_neg (by simp [hnumber, hstop]), hrest,
        show stop - first = 0 by omega, show stop - (first + 1) = 0 by omega]
      simp

theorem head_consecutive {first : ℕ} {l : List (ExecutedBlock A I K H C B)}
    (h : l.map (·.number) = range' first l.length) :
    ((l.take (stop - first)).drop (start - first)).head?.map (·.number) =
      if first + (start - first) < min stop (first + l.length) then some (first + (start - first))
      else none := by
  have hget : ∀ i, (l[i]?).map (·.number) = if i < l.length then some (first + i) else none := by
    intro i
    rw [← getElem?_map, h]
    by_cases hi : i < l.length
    · rw [if_pos hi, getElem?_range' hi, Nat.one_mul]
    · rw [if_neg hi, getElem?_eq_none (by simpa using Nat.le_of_not_lt hi)]
  rw [head?_drop, getElem?_take]
  by_cases hlt : start - first < stop - first
  · rw [if_pos hlt, hget]
    by_cases hi : start - first < l.length
    · rw [if_pos hi, if_pos (by omega)]
    · rw [if_neg hi, if_neg (by omega)]
  · rw [if_neg hlt, if_neg (by omega)]
    rfl

/-- **THE RANGE OF HASHES** is one of the whole chain. -/
theorem canonicalHashesRange_eq (p : Provider A I K H C B) (start stop : ℕ) :
    p.canonicalHashesRange start stop = (p.chainHashes.take stop).drop start := by
  have hconsecutive : p.inMemory.reverse.map (·.number) =
      List.range' p.historicalHashes.length p.inMemory.reverse.length := by
    rw [length_reverse]
    exact p.consecutive
  have hfilter := filter_consecutive start stop hconsecutive
  have hhead := head_consecutive start stop hconsecutive
  -- the loop runs from the newest block, the range from the oldest one
  have hloop : p.canonicalHashesRange start stop =
      p.historicalRange start (((p.inMemory.reverse.filter
        (fun b => decide (start ≤ b.number ∧ b.number < stop))).head?.map (·.number)).getD stop) ++
      (p.inMemory.reverse.filter
        (fun b => decide (start ≤ b.number ∧ b.number < stop))).map (·.hash) := by
    rw [Provider.canonicalHashesRange, foldl_collect]
    rw [nil_append, or_none, filter_reverse, head?_reverse, map_reverse]
  rw [hloop, hfilter, hhead, Provider.historicalRange, Provider.chainHashes, take_append,
    drop_append, length_take, ← map_take, ← map_drop]
  by_cases hstop : stop ≤ p.historicalHashes.length
  · rw [if_neg (by omega), show stop - p.historicalHashes.length = 0 by omega]
    simp
  · rw [show min stop p.historicalHashes.length = p.historicalHashes.length by omega]
    congr 2
    split
    · rw [getD_some, take_of_length_le (by omega), take_of_length_le (by omega)]
    · rw [getD_none]

theorem firstAnswer_hash (hashes : List B) (number : ℕ) {l : List (ExecutedBlock A I K H C B)}
    (h : l.reverse.map (·.number) = range' hashes.length l.length) :
    Provider.firstAnswer (fun block => if block.number = number then some (some block.hash)
      else none) hashes[number]? l = (hashes ++ l.reverse.map (·.hash))[number]? := by
  induction l with
  | nil => simp [Provider.firstAnswer]
  | cons b l ih =>
    rw [reverse_cons, map_append, length_cons, range'_concat, Nat.one_mul] at h
    obtain ⟨hl, hb⟩ := append_inj' h rfl
    have hnumber : b.number = hashes.length + l.length := (List.cons.inj hb).1
    rw [Provider.firstAnswer, ih hl, reverse_cons, map_append, ← append_assoc]
    by_cases heq : b.number = number
    · rw [if_pos heq, getD_some, ← heq, hnumber]
      rw [getElem?_append_right (by simp)]
      simp
    · rw [if_neg heq, getD_none]
      by_cases hlt : number < hashes.length + l.length
      · have hlt' : number < (hashes ++ l.reverse.map (·.hash)).length := by simpa using hlt
        rw [getElem?_append_left hlt']
      · rw [getElem?_eq_none (by simp; omega), getElem?_eq_none (by simp; omega)]

/-- **THE LAYERED STATE IS READ**: accounts, slots and codes after all blocks, and the hashes of the
    whole chain. -/
theorem overlay_reads_layered (p : Provider A I K H C B)
    (hexecuted : Executed p.historical p.inMemory) :
    (∀ address, p.basicAccount address = (layered p.historical p.inMemory).account address) ∧
    (∀ address slot, (p.storage address slot).getD 0 =
      ((layered p.historical p.inMemory).storage address slot).getD 0) ∧
    (∀ codeHash, p.bytecodeByHash codeHash = (layered p.historical p.inMemory).code codeHash) ∧
    (∀ number, p.blockHash number = p.chainHashes[number]?) ∧
    ∀ start stop, p.canonicalHashesRange start stop = (p.chainHashes.take stop).drop start := by
  refine ⟨fun address => ?_, fun address slot => ?_, fun codeHash => ?_,
    fun number => firstAnswer_hash p.historicalHashes number p.consecutive,
    canonicalHashesRange_eq p⟩
  · rw [Provider.basicAccount]
    induction p.inMemory with
    | nil => rfl
    | cons block older ih => rw [Provider.firstAnswer, ih]; rfl
  · rw [Provider.storage]
    revert hexecuted
    induction p.inMemory with
    | nil => exact fun _ => rfl
    | cons block older ih =>
      intro ⟨houtcome, hexecuted⟩
      rw [layered, storage_apply houtcome, ← ih hexecuted, Provider.firstAnswer]
      cases block.executionOutput.storage address slot <;> rfl
  · rw [Provider.bytecodeByHash]
    induction p.inMemory with
    | nil => rfl
    | cons block older ih =>
      rw [Provider.firstAnswer, ih]
      show _ = (block.executionOutput.contracts codeHash).or _
      rw [Bundle.bytecode]
      cases block.executionOutput.contracts codeHash <;> rfl

/-- An account with storage is destroyed in one block and created again in the next. -/
def sampleProvider : Provider Unit ℕ ℕ ℕ ℕ ℕ where
  historical := ⟨fun _ => some 1, fun _ _ => some 7, fun _ => none⟩
  historicalHashes := [100, 101]
  inMemory :=
    [⟨3, 103, ⟨fun _ => some ⟨some 2, fun k => if k = 0 then some 5 else none, .inMemoryChange⟩,
        fun _ => none⟩⟩,
      ⟨2, 102, ⟨fun _ => some ⟨none, fun _ => none, .destroyed⟩, fun _ => none⟩⟩]
  consecutive := rfl

theorem overlay_reads_layered_sample :
    Executed sampleProvider.historical sampleProvider.inMemory ∧
      (sampleProvider.storage () 0 = some 5 ∧ sampleProvider.storage () 1 = some 0) ∧
      ∀ address slot, (sampleProvider.storage address slot).getD 0 =
      ((layered sampleProvider.historical sampleProvider.inMemory).storage address slot).getD 0
      := by
  have hexecuted : Executed sampleProvider.historical sampleProvider.inMemory := by
    refine ⟨?_, ?_, trivial⟩
    · intro address account haccount _ _ slot _
      rfl
    · intro address account haccount _ hdestroyed
      cases haccount
      nomatch hdestroyed
  exact ⟨hexecuted, ⟨rfl, rfl⟩, (overlay_reads_layered sampleProvider hexecuted).2.1⟩

end ChainState.MemoryOverlay
