/-!
# Reachable items

A worklist run to a fixed point, as the release tracer and the drop auditor run one: the items to be looked at,
the next one first, and a visited set, so that each item is expanded at most once. The visited set is kept as its
complement. `fresh` holds the items that have not been expanded, and the run ends because it shrinks. Items of
the worklist that are not in it are skipped, so `fresh` has to hold every item that leads anywhere.

* `mem_of_dropWhile`: what is left of a worklist without its first spent items starts with a fresh one;
* `reach`: what can be reached from the items of a worklist;
* `reach_nil`, `reach_expand`, `reach_skip`: what it does with the first item of the worklist.
-/

namespace Relock

/-- The first item that is not skipped is fresh. -/
theorem mem_of_dropWhile {α β : Type} [DecidableEq α] {f : β → α} {fresh : List α} {work rest : List β} {b : β}
    (h : (work.dropWhile fun b => decide (f b ∉ fresh)) = b :: rest) : f b ∈ fresh := by
  have hnot := List.head?_dropWhile_not (fun b => decide (f b ∉ fresh)) work
  rw [h] at hnot
  simpa using hnot

/-- The items of `fresh` that can be reached from `work` by steps to the items of `next`. Items that were
expanded before are skipped, and the next one is expanded. -/
def reach {α ε : Type} [DecidableEq α] (next : α → Except ε (List α)) (fresh work : List α) :
    Except ε (List α) :=
  match _h : work.dropWhile fun a => decide (a ∉ fresh) with
  | [] => .ok []
  | a :: work => do
    -- faults of `next` end the run; nothing that was found before is kept then
    let more ← next a
    return a :: (← reach next (fresh.erase a) (more ++ work))
termination_by fresh.length
decreasing_by
  have h : a ∈ fresh := mem_of_dropWhile (f := id) (by assumption)
  have := List.length_pos_of_mem h
  rw [List.length_erase_of_mem h]
  omega

variable {α ε : Type} [DecidableEq α] {next : α → Except ε (List α)} {fresh : List α} {a : α}

/-- An empty worklist ends the search. -/
theorem reach_nil : reach next fresh [] = .ok [] := by
  rw [reach.eq_def]
  rfl

/-- A fresh item is expanded: it leaves `fresh`, and what it leads to is put in front of the worklist. -/
theorem reach_expand (ha : a ∈ fresh) (work : List α) : reach next fresh (a :: work) = do
    let more ← next a
    return a :: (← reach next (fresh.erase a) (more ++ work)) := by
  rw [reach.eq_def, List.dropWhile_cons_of_neg (by simpa using ha)]

/-- An item that was expanded before is dropped from the worklist. -/
theorem reach_skip (ha : a ∉ fresh) (work : List α) : reach next fresh (a :: work) = reach next fresh work := by
  rw [reach.eq_def, List.dropWhile_cons_of_pos (by simpa using ha), ← reach.eq_def]

end Relock
