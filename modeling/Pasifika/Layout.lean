import Mathlib

/-! # Consecutive pieces

Pieces of given sizes are laid out one after another from 0. Piece `i` starts at
`start sizes i`, where the pieces before it end.

* `exists_piece` — every place below the end lies in a piece.
* `start_mono` — a later piece does not start earlier.
* `offsets` — the places where the pieces start, and where the last one ends.
* `take_flatten`, `slice_flatten` — pieces cut out of what they were joined to. -/

namespace Layout

open List

/-- Where piece `i` starts. -/
def start (sizes : List ℕ) (i : ℕ) : ℕ := (sizes.take i).sum

variable {sizes : List ℕ} {i j n t : ℕ}

@[simp] theorem start_zero (sizes : List ℕ) : start sizes 0 = 0 := rfl

theorem start_succ (h : sizes[i]? = some n) : start sizes (i + 1) = start sizes i + n := by
  rw [start, start, take_add_one, h, sum_append]
  rfl

theorem start_cons (size : ℕ) (sizes : List ℕ) (i : ℕ) :
    start (size :: sizes) (i + 1) = size + start sizes i := by
  rw [start, take_succ_cons, sum_cons, start]

theorem start_length (sizes : List ℕ) : start sizes sizes.length = sizes.sum := by
  rw [start, take_length]

theorem start_mono (sizes : List ℕ) (h : i ≤ j) : start sizes i ≤ start sizes j := by
  rw [start, start]
  refine Sublist.sum_le_sum ?_ fun _ _ => Nat.zero_le _
  exact take_sublist_take_left h

theorem start_le_sum (sizes : List ℕ) (i : ℕ) : start sizes i ≤ sizes.sum :=
  (take_sublist i sizes).sum_le_sum fun _ _ => Nat.zero_le _

/-- Pieces laid out later do not move the earlier ones. -/
theorem start_append (more : List ℕ) (h : i ≤ sizes.length) :
    start (sizes ++ more) i = start sizes i := by
  rw [start, start, take_append_of_le_length h]

theorem start_take (h : i ≤ j) : start (sizes.take j) i = start sizes i := by
  rw [start, start, take_take, min_eq_left h]

theorem lt_of_getElem?_take (h : (sizes.take j)[i]? = some n) : i < j := by
  have := (List.getElem?_eq_some_iff.mp h).1
  rw [length_take] at this
  omega

theorem end_le_start (hi : sizes[i]? = some n) (h : i < j) : start sizes i + n ≤ start sizes j := by
  rw [← start_succ hi]
  exact start_mono sizes h

theorem end_le_sum (hi : sizes[i]? = some n) : start sizes i + n ≤ sizes.sum := by
  rw [← start_succ hi]
  exact start_le_sum sizes (i + 1)

/-- **EVERY PLACE IS IN A PIECE.** -/
theorem exists_piece (ht : t < sizes.sum) :
    ∃ i n, sizes[i]? = some n ∧ start sizes i ≤ t ∧ t < start sizes i + n := by
  induction sizes generalizing t with
  | nil => nomatch ht
  | cons size sizes ih =>
    rw [sum_cons] at ht
    by_cases hfirst : t < size
    · refine ⟨0, size, rfl, Nat.zero_le t, ?_⟩
      rwa [start_zero, Nat.zero_add]
    · obtain ⟨i, n, hi, hle, hlt⟩ := ih (t := t - size) (by omega)
      have hstart := start_cons size sizes i
      exact ⟨i + 1, n, hi, by omega, by omega⟩

/-! ## Offsets -/

/-- Where the pieces start, and where the last one ends. -/
def offsets (sizes : List ℕ) : List ℕ := (List.range (sizes.length + 1)).map (start sizes)

@[simp] theorem length_offsets (sizes : List ℕ) : (offsets sizes).length = sizes.length + 1 := by
  rw [offsets, length_map, length_range]

theorem getElem?_offsets (h : i ≤ sizes.length) : (offsets sizes)[i]? = some (start sizes i) := by
  rw [offsets, getElem?_map, getElem?_range (by omega)]
  rfl

theorem offsets_concat (sizes : List ℕ) (n : ℕ) :
    offsets (sizes ++ [n]) = offsets sizes ++ [sizes.sum + n] := by
  rw [offsets, length_append, length_singleton, range_succ, map_append, map_singleton]
  refine congrArg₂ (· ++ ·) (map_congr_left fun i hi => ?_) (congrArg ([·]) ?_)
  · exact start_append [n] (Nat.le_of_lt_succ (mem_range.mp hi))
  · rw [start_succ (n := n) (by simp), start_append [n] le_rfl, start_length]

theorem take_offsets (h : i ≤ sizes.length) :
    (offsets sizes).take (i + 1) = offsets (sizes.take i) := by
  rw [offsets, offsets, ← map_take, take_range, length_take, min_eq_left (by omega), min_eq_left h]
  refine map_congr_left fun j hj => ?_
  exact (start_take (Nat.le_of_lt_succ (mem_range.mp hj))).symm

theorem getLast?_offsets (sizes : List ℕ) : (offsets sizes).getLast? = some sizes.sum := by
  rw [getLast?_eq_getElem?, length_offsets, Nat.add_sub_cancel,
    getElem?_offsets le_rfl, start_length]

theorem offsets_ne_nil (sizes : List ℕ) : offsets sizes ≠ [] :=
  ne_nil_of_length_eq_add_one (length_offsets sizes)

/-! ## Joined pieces -/

variable {A : Type} {pieces : List (List A)}

theorem take_flatten (pieces : List (List A)) (i : ℕ) :
    pieces.flatten.take (start (pieces.map length) i) = (pieces.take i).flatten :=
  take_sum_flatten pieces i

/-- A piece is what lies between its offsets. -/
theorem slice_flatten {piece : List A} (h : pieces[i]? = some piece) :
    (pieces.flatten.take (start (pieces.map length) (i + 1))).drop
      (start (pieces.map length) i) = piece := by
  obtain ⟨hi, rfl⟩ := List.getElem?_eq_some_iff.mp h
  exact drop_take_succ_flatten_eq_getElem pieces i hi

end Layout
