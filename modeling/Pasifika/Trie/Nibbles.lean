import Pasifika.OrderedMap.Basic

/-! # Paths of a trie

A path is a sequence of nibbles. Paths are ordered lexicographically, so that a path
comes right before those that EXTEND it. `increment` is the next path of the same
length, and not the successor in this order.

`pack` puts two nibbles into a byte, and pads an odd number of them with a zero
nibble; `unpack` gives two nibbles for every byte. -/

namespace Trie

open Std List

/-- A path: nibbles from the root on. -/
abbrev Nibbles := List (Fin 16)

instance : TransOrd Nibbles := inferInstance

instance neZero_sixteen : NeZero 16 := inferInstance

namespace Nibbles

/-! ## The next path of the same length -/

/-- `increment`: add one to the last nibble, with a carry. -/
def increment : Nibbles → Option Nibbles
  | [] => none
  | n :: ns =>
    match increment ns with
    | some ns => some (n :: ns)
    | none => if n.val < 15 then some ((n + 1) :: ns.map (fun _ => 0)) else none

theorem compare_cons (n n' : Fin 16) (ns ns' : Nibbles) :
    compare (n :: ns) (n' :: ns') = (compare n n').then (compare ns ns') := by
  rw [List.compare_eq_compareLex, List.compareLex_cons_cons, ← List.compare_eq_compareLex]

theorem lt_increment : ∀ {ns key}, increment ns = some key → compare ns key = .lt := by
  intro ns
  induction ns with
  | nil => intro key h; nomatch h
  | cons n ns ih =>
    intro key h
    rw [increment] at h
    cases hns : increment ns with
    | some ns' =>
      rw [hns] at h
      cases h
      rw [compare_cons, Std.compare_eq_iff_eq.mpr rfl]
      exact ih hns
    | none =>
      rw [hns] at h
      obtain ⟨hn, h⟩ := (Option.ite_none_right_eq_some).mp h
      cases h
      -- the carry reaches this nibble, which is not the last one
      have hnext : ∀ n : Fin 16, n.val < 15 → compare n (n + 1) = .lt := by decide
      rw [compare_cons, hnext n hn]
      rfl

/-! ## Packed paths -/

def pack : Nibbles → List (Fin 256)
  | [] => []
  | [hi] => [⟨hi.val * 16, by omega⟩]
  | hi :: lo :: ns => ⟨hi.val * 16 + lo.val, by omega⟩ :: pack ns

def unpack : List (Fin 256) → Nibbles
  | [] => []
  | byte :: bytes => ⟨byte.val / 16, by omega⟩ :: ⟨byte.val % 16, by omega⟩ :: unpack bytes

theorem even_length_unpack (bytes : List (Fin 256)) : Even (unpack bytes).length := by
  induction bytes with
  | nil => exact ⟨0, rfl⟩
  | cons byte bytes ih =>
    obtain ⟨n, hn⟩ := ih
    exact ⟨n + 1, by rw [unpack, length_cons, length_cons, hn]; omega⟩

theorem unpack_pack (ns : Nibbles) (h : Even ns.length) : unpack (pack ns) = ns := by
  induction ns using pack.induct with
  | case1 => rfl
  | case2 hi => exact absurd h Nat.not_even_one
  | case3 hi lo ns ih =>
    have heven : Even ns.length := by
      simp only [length_cons, Nat.even_add_one, not_not] at h
      exact h
    rw [pack, unpack, ih heven]
    refine congrArg₂ _ (Fin.ext ?_) (congrArg₂ _ (Fin.ext ?_) rfl)
    · show (hi.val * 16 + lo.val) / 16 = hi.val
      omega
    · show (hi.val * 16 + lo.val) % 16 = lo.val
      omega

end Nibbles

end Trie
