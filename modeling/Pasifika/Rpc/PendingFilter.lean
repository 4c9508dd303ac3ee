import Mathlib

/-! # Polling a filter for pending transactions

The pool's notifications wait in the channel of the filter, and `filter_changes` drains it
behind the test for a new block that all kinds of filters share. -/

namespace Rpc

variable {H : Type}

/-- An `ActiveFilter` for hashes: the block from which the next poll reads and what waits in its
    channel, which does not overflow. -/
structure PendingFilter (H : Type) where
  block : Nat
  channel : List H

inductive Event (H : Type)
  | notified (hash : H)
  | newBlock
  | poll

namespace PendingFilter

def filterChanges (filter : PendingFilter H) (bestNumber : Nat) : List H × PendingFilter H :=
  if bestNumber < filter.block then ([], filter)
  else (filter.channel, ⟨bestNumber + 1, []⟩)

/-- What the polls return. -/
def polls (filter : PendingFilter H) (best : Nat) : List (Event H) → List (List H)
  | [] => []
  | .notified hash :: events =>
    polls { filter with channel := filter.channel ++ [hash] } best events
  | .newBlock :: events => filter.polls (best + 1) events
  | .poll :: events =>
    (filter.filterChanges best).1 :: polls (filter.filterChanges best).2 best events

/-- Each poll returns what was notified since the one before it. -/
def sinceLast (waiting : List H) : List (Event H) → List (List H)
  | [] => []
  | .notified hash :: events => sinceLast (waiting ++ [hash]) events
  | .newBlock :: events => sinceLast waiting events
  | .poll :: events => waiting :: sinceLast [] events

/-- A poll for which hashes wait finds a block that is new since the last poll. -/
def Timely (grown waiting : Prop) : List (Event H) → Prop
  | [] => True
  | .notified _ :: events => Timely grown True events
  | .newBlock :: events => Timely True waiting events
  | .poll :: events => (waiting → grown) ∧ Timely False False events

theorem polls_eq_iff {filter : PendingFilter H} {best : Nat} (hblock : filter.block ≤ best + 1)
    (events : List (Event H)) :
    filter.polls best events = sinceLast filter.channel events ↔
      Timely (filter.block ≤ best) (filter.channel ≠ []) events := by
  induction events generalizing filter best with
  | nil => simp [polls, sinceLast, Timely]
  | cons event events ih =>
    cases event with
    | notified hash =>
      have h := @ih { filter with channel := filter.channel ++ [hash] } best hblock
      rwa [eq_true (List.append_ne_nil_of_right_ne_nil _ (List.cons_ne_nil _ _))] at h
    | newBlock =>
      have h := @ih filter (best + 1) (Nat.le_succ_of_le hblock)
      rwa [eq_true hblock] at h
    | poll =>
      -- an unread channel and a drained one go on alike, with no new block
      rw [polls, sinceLast, List.cons_eq_cons, Timely, filterChanges]
      by_cases hlt : best < filter.block
      · have h := ih hblock
        rw [eq_false (Nat.not_le_of_lt hlt)] at h ⊢
        rw [if_pos hlt, eq_comm, imp_false, not_not]
        refine and_congr_right fun hempty => ?_
        simpa [hempty] using h
      · have h := @ih ⟨best + 1, []⟩ best le_rfl
        simp only [Nat.not_succ_le_self, ne_eq, not_true_eq_false] at h
        rw [if_neg hlt]
        exact and_congr (iff_of_true rfl fun _ => Nat.le_of_not_lt hlt) h

/-- **NOTHING MISSED**: each hash is returned at the first poll after its notification exactly if
    every such poll finds a new block. -/
theorem polls_complete_iff (head : Nat) (events : List (Event H)) :
    polls ⟨head, []⟩ head events = sinceLast [] events ↔ Timely True False events := by
  simpa using @polls_eq_iff H ⟨head, []⟩ head (Nat.le_succ head) events

/-- Without a block between two polls the second one returns nothing. -/
theorem hash_not_returned : polls ⟨0, []⟩ 0 [.poll, .notified 7, .poll] ≠
    sinceLast [] [.poll, .notified 7, .poll] := by
  decide

end PendingFilter

end Rpc
