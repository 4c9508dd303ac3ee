import Mathlib

/-! # Importing era files

`era-utils/src/history.rs`: `process_iter` appends the blocks of a file to the database, and
`import` does so file by file. The blocks decode. Headers and transactions are in static files,
whose writers accept only the block after the last one; no other write fails. -/

namespace Era

open List

abbrev U256 := BitVec 256

inductive Bound
  | included (number : Nat)
  | excluded (number : Nat)
  | unbounded

structure Block (Hash Body : Type) where
  number : Nat
  difficulty : U256
  hash : Hash
  body : Body

inductive StaticFileSegment
  | headers | transactions

/-- `ProviderError::UnexpectedStaticFileBlockNumber`. -/
structure UnexpectedStaticFileBlockNumber where
  segment : StaticFileSegment
  number : Nat
  next : Nat

/-- The total difficulty, the next block of each segment, and what has been written. -/
structure Written (Hash Body : Type) where
  totalDifficulty : U256
  nextHeader : Nat
  nextBody : Nat
  headers : List (Nat × U256 × Hash)
  bodies : List (Nat × Body)
  hashes : List (Hash × Nat)

abbrev ProviderResult := Except UnexpectedStaticFileBlockNumber

variable {Hash Body : Type}

/-- A block that both segments accept. -/
def Written.push (w : Written Hash Body) (block : Block Hash Body) : Written Hash Body where
  totalDifficulty := w.totalDifficulty + block.difficulty
  nextHeader := w.nextHeader + 1
  nextBody := w.nextBody + 1
  headers := w.headers ++ [(block.number, w.totalDifficulty + block.difficulty, block.hash)]
  bodies := w.bodies ++ [(block.number, block.body)]
  hashes := w.hashes ++ [(block.hash, block.number)]

/-- Each segment accepts its next block only. -/
def Written.checkNextBlockNumber (w : Written Hash Body) (number : Nat) : ProviderResult Unit :=
  if number ≠ w.nextHeader then .error ⟨.headers, number, w.nextHeader⟩
  else if number ≠ w.nextBody then .error ⟨.transactions, number, w.nextBody⟩
  else .ok ()

/-- `append_header` and `append_block_bodies`. -/
def Written.append (w : Written Hash Body) (block : Block Hash Body) :
    ProviderResult (Written Hash Body) :=
  (w.checkNextBlockNumber block.number).map fun _ => w.push block

/-- Numbers are `u64`, and the subtraction and the addition saturate. -/
def lastHeaderNumber : Bound → Nat
  | .included number => number
  | .excluded number => number - 1
  | .unbounded => 0

def target : Bound → Option Nat
  | .included number => some number
  | .excluded number => some (min (number + 1) (2 ^ 64 - 1))
  | .unbounded => none

/-- The loop of `process_iter`. -/
def processLoop (target : Option Nat) (last : Nat) (w : Written Hash Body) :
    List (Block Hash Body) → ProviderResult (Nat × Written Hash Body)
  | [] => .ok (last, w)
  | block :: blocks =>
    if block.number ≤ last then processLoop target last w blocks
    else if target.any (· < block.number) then .ok (last, w)
    else (w.append block).bind fun w => processLoop target block.number w blocks

def processIter (blocks : List (Block Hash Body)) (w : Written Hash Body) (start stop : Bound) :
    ProviderResult (Nat × Written Hash Body) :=
  processLoop (target stop) (lastHeaderNumber start) w blocks

/-! ## The blocks of a range -/

/-- The numbers that the bound allows as the start of a range. -/
def Bound.starts : Bound → Nat → Bool
  | .included number, n => number ≤ n
  | .excluded number, n => number < n
  | .unbounded, _ => true

/-- The first of these numbers. -/
def Bound.first : Bound → Nat
  | .included number => number
  | .excluded number => number + 1
  | .unbounded => 0

def Bound.stops : Bound → Nat → Bool
  | .included number, n => n ≤ number
  | .excluded number, n => n < number
  | .unbounded, _ => true

/-- The blocks of the range above the tip. -/
def missing (blocks : List (Block Hash Body)) (tip : Nat) (start stop : Bound) :
    List (Block Hash Body) :=
  blocks.filter fun block =>
    tip < block.number && (start.starts block.number && stop.stops block.number)

/-- The highest number among the tip and the blocks, and what is written by appending them. -/
def appendAll (tip : Nat) (w : Written Hash Body) (blocks : List (Block Hash Body)) :
    Nat × Written Hash Body :=
  ((blocks.map (·.number)).foldl max tip, blocks.foldl .push w)

/-- A file: its blocks have consecutive numbers from `first` on, which are `u64`. -/
structure IsFile (first : Nat) (blocks : List (Block Hash Body)) : Prop where
  consecutive : blocks.map (·.number) = range' first blocks.length
  small : first + blocks.length ≤ 2 ^ 64

/-- Both segments end at the tip. -/
def Written.EndsAt (w : Written Hash Body) (tip : Nat) : Prop :=
  w.nextHeader = tip + 1 ∧ w.nextBody = tip + 1

section

variable {blocks before after : List (Block Hash Body)} {w : Written Hash Body}
  {target : Option Nat} {first tip last : Nat} {start stop : Bound} {block : Block Hash Body}

theorem hashes_push : (blocks.foldl .push w).hashes =
    w.hashes ++ blocks.map fun block => (block.hash, block.number) := by
  induction blocks generalizing w with
  | nil => exact (append_nil _).symm
  | cons block blocks ih => rw [foldl_cons, ih, Written.push, append_assoc]; rfl

/-- What is returned tells which blocks were appended. -/
theorem numbers_of_appendAll (h : appendAll tip w before = appendAll tip w after) :
    before.map (·.number) = after.map (·.number) := by
  have hhashes := congrArg (fun r => r.2.hashes.map Prod.snd) h
  simpa [appendAll, hashes_push, Function.comp_def] using hhashes

theorem processLoop_skip (h : ∀ b ∈ before, b.number ≤ last) :
    processLoop target last w (before ++ after) = processLoop target last w after := by
  induction before with
  | nil => rfl
  | cons block before ih =>
    rw [cons_append, processLoop, if_pos (h block mem_cons_self)]
    exact ih fun b hb => h b (mem_cons_of_mem _ hb)

/-- The loop over the blocks that come next appends those up to the target. -/
theorem processLoop_next (h : after.map (·.number) = range' (tip + 1) after.length)
    (hw : w.EndsAt tip) : processLoop target tip w after =
      .ok (appendAll tip w (after.filter fun b => target.all (b.number ≤ ·))) := by
  induction after generalizing tip w with
  | nil => rfl
  | cons block after ih =>
    obtain ⟨hnumber : block.number = tip + 1, hafter⟩ := cons_eq_cons.mp h
    rw [processLoop, if_neg (by omega)]
    split
    · -- the later blocks lie beyond the target too
      rename_i hbeyond
      obtain ⟨t, rfl, ht⟩ := (Option.any_eq_true _ _).mp hbeyond
      rw [decide_eq_true_eq] at ht
      have hnone : (block :: after).filter (fun b => (some t).all (b.number ≤ ·)) = [] := by
        refine filter_eq_nil_iff.mpr fun b hb => ?_
        have hmem : b.number ∈ range' (tip + 1) _ := h ▸ mem_map_of_mem hb
        rw [mem_range'_1] at hmem
        simp
        omega
      rw [hnone]
      rfl
    · rename_i hwithin
      have hall : target.all (block.number ≤ ·) = true := by cases target <;> simp_all
      have hpush : (w.push block).EndsAt (tip + 1) :=
        ⟨congrArg (· + 1) hw.1, congrArg (· + 1) hw.2⟩
      have happend : w.append block = .ok (w.push block) := by
        rw [Written.append, Written.checkNextBlockNumber, hnumber, if_neg (not_not.mpr hw.1.symm),
          if_neg (not_not.mpr hw.2.symm)]
        rfl
      rw [happend, hnumber]
      refine (ih hafter hpush).trans ?_
      rw [filter_cons_of_pos (by exact hall), appendAll, appendAll, map_cons, foldl_cons,
        foldl_cons, max_eq_right (by omega), hnumber]

/-- Blocks that are not the next one are skipped, end the loop, or are refused. -/
theorem processLoop_refused (hnext : ∀ b ∈ before, last < b.number → b.number ≠ w.nextHeader)
    (hafter : after = [] ∨ ∃ b ∈ before, last < b.number) :
    processLoop target last w (before ++ after) = .ok (last, w) ∨
      ∃ e, processLoop target last w (before ++ after) = .error e := by
  induction before with
  | nil =>
    obtain rfl : after = [] := hafter.resolve_right (by simp)
    exact .inl rfl
  | cons block before ih =>
    obtain ⟨hblock, hbefore⟩ := forall_mem_cons.mp hnext
    rw [cons_append, processLoop]
    split
    · rename_i hle
      exact ih hbefore (hafter.imp_right fun h => by simpa [Nat.not_lt.mpr hle] using h)
    · rw [Written.append, Written.checkNextBlockNumber, if_pos (hblock (Nat.lt_of_not_le ‹_›))]
      split
      · exact .inl rfl
      · exact .inr ⟨_, rfl⟩

/-- A file is cut before the block after the tip. -/
theorem IsFile.split (h : IsFile first blocks) (hnext : tip + 1 ∈ blocks.map (·.number)) :
    ∃ before block after, blocks = before ++ block :: after ∧ first + before.length = tip + 1 ∧
      before.map (·.number) = range' first before.length ∧
      (block :: after).map (·.number) = range' (tip + 1) (block :: after).length := by
  obtain ⟨block, hblock, hnumber⟩ := mem_map.mp hnext
  obtain ⟨before, after, rfl⟩ := append_of_mem hblock
  have hcut := h.consecutive
  rw [map_append, length_append, ← range'_append_1] at hcut
  obtain ⟨hbefore, hafter⟩ := append_inj hcut (by simp)
  have htip : block.number = first + before.length := (cons_eq_cons.mp hafter).1
  rw [← htip, hnumber] at hafter
  exact ⟨before, block, after, rfl, htip.symm.trans hnumber, hbefore, hafter⟩

/-- Of a range that starts at the tip or after it, only the end cuts the blocks above the tip. -/
theorem missing_append (hle : ∀ b ∈ before, b.number ≤ tip) (hgt : ∀ b ∈ after, tip < b.number)
    (hstart : start.first = tip ∨ start.first = tip + 1) :
    missing (before ++ after) tip start stop = after.filter fun b => stop.stops b.number := by
  have hnone : before.filter (fun b => tip < b.number &&
      (start.starts b.number && stop.stops b.number)) = [] :=
    filter_eq_nil_iff.mpr fun b hb => by simp [Nat.not_lt.mpr (hle b hb)]
  rw [missing, filter_append, hnone, nil_append]
  refine filter_congr fun b hb => ?_
  have hb := hgt b hb
  have hstarts : start.starts b.number = true := by
    cases start <;> simp [Bound.first, Bound.starts] at hstart ⊢ <;> omega
  simp [hb, hstarts]

/-- The range is read as documented: it does not start with the block after the tip included;
    behind an excluded start, the file begins after the tip and the range goes on there; the file
    does not reach an excluded end. -/
def Documented (blocks : List (Block Hash Body)) (tip : Nat) (start stop : Bound) : Prop :=
  start ≠ .included (tip + 1) ∧
  (∀ n, start = .excluded n → tip = 0 ∨ stop.stops (tip + 1) ∧ ∀ b ∈ blocks, b.number ≠ tip) ∧
  ∀ n, stop = .excluded n → ∀ b ∈ blocks, tip < b.number → b.number ≠ n ∧ b.number ≠ n + 1

/-- The blocks up to the target are those of the range unless the file reaches an excluded end. -/
theorem appendAll_target_iff (hsmall : ∀ b ∈ blocks, b.number < 2 ^ 64) :
    appendAll tip w (blocks.filter fun b => (Era.target stop).all (b.number ≤ ·)) =
        appendAll tip w (blocks.filter fun b => stop.stops b.number) ↔
      ∀ n, stop = .excluded n → ∀ b ∈ blocks, b.number ≠ n ∧ b.number ≠ n + 1 := by
  constructor
  · rintro h n rfl b hb
    have hnumber := hsmall b hb
    by_contra hreached
    have hmem : b.number ∈ (blocks.filter fun b => (Bound.excluded n).stops b.number).map
        (·.number) := by
      rw [← numbers_of_appendAll h]
      refine mem_map_of_mem (mem_filter.mpr ⟨hb, ?_⟩)
      simp [Era.target]
      omega
    obtain ⟨b', hb', heq⟩ := mem_map.mp hmem
    have := (mem_filter.mp hb').2
    simp [Bound.stops] at this
    omega
  · intro h
    congr 1
    refine filter_congr fun b hb => ?_
    cases stop with
    | included _ | unbounded => simp [Bound.stops, Era.target]
    | excluded n =>
      have := h n rfl b hb
      have := hsmall b hb
      rw [Bool.eq_iff_iff]
      simp [Bound.stops, Era.target]
      omega

/-- A loop that appends nothing returns the number it began with. -/
theorem eq_tip_of_appendAll (h : (last, w) = appendAll tip w blocks) : last = tip := by
  have hhashes := congrArg (·.2.hashes.length) h
  obtain rfl : blocks = [] := by simpa [appendAll, hashes_push] using hhashes
  exact congrArg Prod.fst h

/-- **IMPORTED**: the blocks of the range above the tip are appended, each with the total
    difficulty up to it, and the highest number is returned, exactly if the range is documented. -/
theorem processIter_exact_iff (h : IsFile first blocks) (hw : w.EndsAt tip)
    (hnext : tip + 1 ∈ blocks.map (·.number)) (hstart : start.first = tip ∨ start.first = tip + 1) :
    processIter blocks w start stop = .ok (appendAll tip w (missing blocks tip start stop)) ↔
      Documented blocks tip start stop := by
  obtain ⟨before, block, after, rfl, hfirst, hbefore, hafter⟩ := h.split hnext
  have hle : ∀ b ∈ before, b.number ≤ tip := by
    intro b hb
    have hmem : b.number ∈ range' first _ := hbefore ▸ mem_map_of_mem hb
    rw [mem_range'_1] at hmem
    omega
  have hgt : ∀ b ∈ block :: after, tip < b.number ∧ b.number < 2 ^ 64 := by
    intro b hb
    have hmem : b.number ∈ range' (tip + 1) _ := hafter ▸ mem_map_of_mem hb
    have hsmall := h.small
    rw [mem_range'_1] at hmem
    rw [length_append] at hsmall
    omega
  have hmissing : missing (before ++ block :: after) tip start stop = _ :=
    missing_append hle (fun b hb => (hgt b hb).1) hstart
  have hend : (∀ n, stop = .excluded n → ∀ b ∈ before ++ block :: after, tip < b.number →
      b.number ≠ n ∧ b.number ≠ n + 1) ↔
      ∀ n, stop = .excluded n → ∀ b ∈ block :: after, b.number ≠ n ∧ b.number ≠ n + 1 := by
    refine forall₂_congr fun n _ => ⟨fun h b hb => ?_, fun h b hb hlt => ?_⟩
    · exact h b (mem_append_right _ hb) (hgt b hb).1
    · exact (mem_append.mp hb).elim (fun hb => absurd (hle b hb) (Nat.not_le_of_lt hlt)) (h b)
  have hexact := @appendAll_target_iff _ _ _ w tip stop fun b hb => (hgt b hb).2
  -- a loop that does not append the next block first returns no block, or an error
  have hnever : lastHeaderNumber start ≠ tip →
      (processIter (before ++ block :: after) w start stop = .ok (lastHeaderNumber start, w) ∨
        ∃ e, processIter (before ++ block :: after) w start stop = .error e) →
      processIter (before ++ block :: after) w start stop ≠
        .ok (appendAll tip w (missing (before ++ block :: after) tip start stop)) := by
    rintro hne (heq | ⟨e, heq⟩) hok
    · exact hne (eq_tip_of_appendAll (Except.ok.inj (heq.symm.trans hok)))
    · cases heq.symm.trans hok
  rcases Nat.lt_trichotomy (lastHeaderNumber start) tip with hlt | heq | hgt'
  · obtain ⟨n, rfl⟩ : ∃ n, start = .excluded n := by
      cases start <;> simp [Bound.first, lastHeaderNumber] at hstart hlt ⊢ <;> omega
    cases before with
    | cons b before =>
      -- the file has the tip, which is not appended again
      obtain ⟨b', hb', htip⟩ : ∃ b' ∈ b :: before, b'.number = tip := by
        rw [← mem_map, hbefore, mem_range'_1]
        simp at hfirst ⊢
        omega
      refine iff_of_false (hnever hlt.ne (processLoop_refused ?_ (.inr ⟨b', hb', htip ▸ hlt⟩))) ?_
      · intro b hb _
        have := hle b hb
        rw [hw.1]
        omega
      · rintro ⟨-, hdoc, -⟩
        exact (hdoc n rfl).elim (Nat.ne_zero_of_lt hlt) fun h =>
          h.2 b' (mem_append_left _ hb') htip
    | nil =>
      have hnumber : block.number = tip + 1 := (cons_eq_cons.mp hafter).1
      have hsmall := (hgt block mem_cons_self).2
      by_cases hbeyond : (Era.target stop).any (· < block.number) = true
      · refine iff_of_false (hnever hlt.ne (.inl ?_)) ?_
        · rw [processIter, nil_append, processLoop, if_neg (by omega), if_pos hbeyond]
        · rintro ⟨-, hdoc, -⟩
          have hstops := ((hdoc n rfl).resolve_left (Nat.ne_zero_of_lt hlt)).1
          cases stop <;> simp [Era.target, Bound.stops] at hbeyond hstops <;> omega
      · -- the first block is appended, and from there on the loop is the one from the tip
        have hsame : processIter ([] ++ block :: after) w (.excluded n) stop =
            processLoop (Era.target stop) tip w (block :: after) := by
          rw [processIter, nil_append, processLoop, processLoop, if_neg (by omega), if_neg hbeyond,
            if_neg (by omega), if_neg hbeyond]
        rw [hsame, processLoop_next hafter hw, Except.ok.injEq, hmissing, hexact, Documented, hend]
        refine ⟨fun h => ⟨nofun, fun _ _ => .inr ⟨?_, fun b hb => (hgt b hb).1.ne'⟩, h⟩, (·.2.2)⟩
        have hreached := fun m hm => h m hm block mem_cons_self
        cases stop <;> simp [Era.target, Bound.stops] at hbeyond hreached ⊢ <;> omega
  · rw [processIter, heq, processLoop_skip hle, processLoop_next hafter hw, Except.ok.injEq,
      hmissing, hexact, Documented, hend]
    refine (and_iff_right ?_).symm.trans (and_congr_right fun _ => (and_iff_right ?_).symm)
    · rintro rfl
      simp [lastHeaderNumber] at heq
    · rintro n rfl
      simp [Bound.first, lastHeaderNumber] at hstart heq
      omega
  · have hincluded : start = .included (tip + 1) := by
      cases start <;> simp [Bound.first, lastHeaderNumber] at hstart hgt' ⊢ <;> omega
    refine iff_of_false (hnever hgt'.ne' ?_) fun hdoc => hdoc.1 hincluded
    have hrun := @processLoop_refused _ _ (before ++ block :: after) [] w (Era.target stop)
      (lastHeaderNumber start) ?_ (.inl rfl)
    · rwa [append_nil] at hrun
    · intro b _ hb
      rw [hw.1]
      omega

end

/-- A range that ends behind the file. -/
theorem processIter_exact_iff_sample :
    processIter [⟨1, 2, 7, 8⟩, ⟨2, 2, 9, 10⟩] ⟨1, 1, 1, [], [], []⟩ (.excluded 0) (.excluded 9) =
      .ok (2, ⟨5, 3, 3, [(1, 3, 7), (2, 5, 9)], [(1, 8), (2, 10)], [(7, 1), (9, 2)]⟩) :=
  (@processIter_exact_iff _ _ _ _ _ 0 _ _ ⟨rfl, by decide⟩ ⟨rfl, rfl⟩ (by decide) (.inr rfl)).mpr
    ⟨nofun, fun _ _ => .inl rfl, by rintro _ ⟨⟩; decide⟩

/-- A range that excludes block 2 appends the blocks 2 and 3. -/
theorem excluded_appended :
    processIter [⟨1, 1, 7, 8⟩, ⟨2, 1, 8, 8⟩, ⟨3, 1, 9, 8⟩] ⟨1, 1, 1, [], [], []⟩ (.included 0)
        (.excluded 2) ≠
      .ok (appendAll 0 ⟨1, 1, 1, [], [], []⟩ (missing
        [⟨1, 1, 7, 8⟩, ⟨2, 1, 8, 8⟩, ⟨3, 1, 9, 8⟩] 0 (.included 0) (.excluded 2))) := by
  intro h
  have hnumber := congrArg (Except.map Prod.fst) h
  cases hnumber

/-! ## Restarted imports -/

/-- `get_highest_static_file_block` of the headers, or 0. -/
def Written.height (w : Written Hash Body) : Nat := w.nextHeader - 1

/-- The loop of `import` over the files, from the height on disk. -/
def importFiles (w : Written Hash Body) (files : List (List (Block Hash Body))) :
    ProviderResult (Nat × Written Hash Body) :=
  files.foldlM (fun st file => processIter file st.2 (.included st.1) .unbounded) (w.height, w)

/-- The collector of hashes is not on disk: a restart loses the hashes collected before. -/
def Written.lose (w : Written Hash Body) (k : Nat) : Written Hash Body :=
  { w with hashes := w.hashes.drop k }

/-- One block of an import. -/
def importBlock (st : Nat × Written Hash Body) (block : Block Hash Body) :
    ProviderResult (Nat × Written Hash Body) :=
  if block.number ≤ st.1 then .ok st else (st.2.append block).map (block.number, ·)

variable {st st' : Nat × Written Hash Body} {blocks : List (Block Hash Body)}
  {files rest : List (List (Block Hash Body))} {w : Written Hash Body} {k : Nat}

theorem importFiles_eq : importFiles w files = files.flatten.foldlM importBlock (w.height, w) := by
  rw [importFiles]
  generalize (w.height, w) = st
  induction files generalizing st with
  | nil => rfl
  | cons file files ih =>
    have hfile : processIter file st.2 (.included st.1) .unbounded =
        file.foldlM importBlock st := by
      rw [processIter, target, lastHeaderNumber]
      clear ih
      induction file generalizing st with
      | nil => rfl
      | cons block file ih =>
        rw [processLoop, foldlM_cons, importBlock]
        split
        · exact ih st
        · cases st.2.append block with
          | error e => rfl
          | ok w => exact ih (block.number, w)
    rw [foldlM_cons, flatten_cons, foldlM_append, hfile]
    exact congrArg _ (funext ih)

/-- After a block the height is that on disk, and the block is not above it. -/
theorem importBlock_ok {block : Block Hash Body} (h : importBlock st block = .ok st')
    (hheight : st.1 = st.2.height) :
    st'.1 = st'.2.height ∧ st.1 ≤ st'.1 ∧ block.number ≤ st'.1 := by
  rw [importBlock] at h
  split at h
  · cases h
    exact ⟨hheight, le_rfl, ‹_›⟩
  · rw [Written.append, Written.checkNextBlockNumber] at h
    split_ifs at h with hheader hbody
    · cases h
    · cases h
    · cases h
      exact ⟨not_not.mp hheader, Nat.le_of_not_le ‹_›, le_rfl⟩

theorem foldlM_importBlock_ok (h : blocks.foldlM importBlock st = .ok st')
    (hheight : st.1 = st.2.height) :
    st'.1 = st'.2.height ∧ st.1 ≤ st'.1 ∧ ∀ block ∈ blocks, block.number ≤ st'.1 := by
  induction blocks generalizing st with
  | nil =>
    cases h
    exact ⟨hheight, le_rfl, nofun⟩
  | cons block blocks ih =>
    rw [foldlM_cons] at h
    cases hblock : importBlock st block with
    | error e => cases hblock ▸ h
    | ok st₁ =>
      rw [hblock] at h
      obtain ⟨hheight₁, hst, hle⟩ := importBlock_ok hblock hheight
      obtain ⟨hheight', hst₁, hblocks⟩ := ih h hheight₁
      exact ⟨hheight', hst.trans hst₁, forall_mem_cons.mpr ⟨hle.trans hst₁, hblocks⟩⟩

theorem foldlM_importBlock_lose (hk : k ≤ st.2.hashes.length) :
    blocks.foldlM importBlock (st.1, st.2.lose k) =
      (blocks.foldlM importBlock st).map fun st => (st.1, st.2.lose k) := by
  induction blocks generalizing st with
  | nil => rfl
  | cons block blocks ih =>
    have hcheck : (st.2.lose k).checkNextBlockNumber block.number =
      st.2.checkNextBlockNumber block.number := rfl
    have hpush : (st.2.lose k).push block = (st.2.push block).lose k := by
      simp [Written.push, Written.lose, drop_append_of_le_length hk]
    rw [foldlM_cons, foldlM_cons, importBlock, importBlock, Written.append, Written.append, hcheck,
      hpush]
    split
    · exact ih hk
    · cases st.2.checkNextBlockNumber block.number with
      | error e => rfl
      | ok _ =>
        refine @ih (block.number, st.2.push block) ?_
        simpa [Written.push] using hk.trans (Nat.le_succ _)

/-- **A RESTARTED IMPORT** begins with the first file again. It does what the import does without
    the interruption, but the hashes of the blocks written before are never indexed. -/
theorem import_restarted (h : importFiles w files = .ok st) :
    importFiles (st.2.lose st.2.hashes.length) (files ++ rest) =
      (importFiles w (files ++ rest)).map fun r => (r.1, r.2.lose st.2.hashes.length) := by
  rw [importFiles_eq] at h ⊢
  obtain ⟨hheight, -, hle⟩ := foldlM_importBlock_ok h rfl
  rw [importFiles_eq, flatten_append, foldlM_append, foldlM_append, h]
  refine .trans ?_ (foldlM_importBlock_lose le_rfl)
  have hskip : files.flatten.foldlM importBlock (st.1, st.2.lose st.2.hashes.length) =
      .ok (st.1, st.2.lose st.2.hashes.length) := by
    -- the blocks of the first files are not above the height
    generalize files.flatten = blocks at hle
    induction blocks with
    | nil => rfl
    | cons block blocks ih =>
      rw [foldlM_cons, importBlock, if_pos (hle block mem_cons_self)]
      exact ih fun b hb => hle b (mem_cons_of_mem _ hb)
  have hstart : (st.2.lose st.2.hashes.length).height = st.1 := hheight.symm
  rw [hstart, hskip]
  rfl

theorem import_restarted_sample :
    importFiles ⟨3, 2, 2, [(1, 3, 7)], [(1, 8)], []⟩ [[⟨1, 2, 7, 8⟩], [⟨2, 2, 9, 10⟩]] =
      .ok (2, ⟨5, 3, 3, [(1, 3, 7), (2, 5, 9)], [(1, 8), (2, 10)], [(9, 2)]⟩) :=
  @import_restarted _ _ _ [[⟨1, 2, 7, 8⟩]] _ ⟨1, 1, 1, [], [], []⟩ rfl

end Era
