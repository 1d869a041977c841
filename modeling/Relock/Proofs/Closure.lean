import Relock.Closure
import Relock.Proofs.Faults

/-!
# What a worklist reaches

`reach` expands each item once and keeps no record of what led to it. Its run follows the relation
`Reached` step by step: when an item is expanded it leaves `fresh`, and everything else that could be
reached through it can be reached from the items that it leads to.

* `Reached`: an item reached by steps that stay in `fresh`;
* `reached_expand`: what is reached once an item has been expanded;
* `worklist_induct`: induction along the rounds of a worklist;
* `lists_reach`: `reach` lists exactly what is reached, if no step faults.
-/

namespace Relock

variable {α ε : Type} {next : α → Except ε (List α)} {fresh work more : List α} {a b : α}

/-- An item that steps within `fresh` lead to from an item of `work`. -/
inductive Reached (next : α → Except ε (List α)) (fresh work : List α) : α → Prop where
  | start {a : α} (hwork : a ∈ work) (hfresh : a ∈ fresh) : Reached next fresh work a
  | step {a b : α} {more : List α} (ha : Reached next fresh work a) (hnext : next a = .ok more)
      (hb : b ∈ more) (hfresh : b ∈ fresh) : Reached next fresh work b

/-- Only fresh items are reached. -/
theorem Reached.mem_fresh (h : Reached next fresh work a) : a ∈ fresh := by
  cases h with
  | start _ hfresh => exact hfresh
  | step _ _ _ hfresh => exact hfresh

/-- A worklist that holds more reaches more; its order does not matter. -/
theorem Reached.of_subset {work' : List α} (h : Reached next fresh work a) (hwork : work ⊆ work') :
    Reached next fresh work' a := by
  induction h with
  | start hin hfresh => exact .start (hwork hin) hfresh
  | step _ hnext hb hfresh ih => exact .step ih hnext hb hfresh

/-- New items may be put in front of the worklist or behind it. -/
theorem reached_append_comm {new : List α} :
    Reached next fresh (work ++ new) a ↔ Reached next fresh (new ++ work) a :=
  ⟨fun h => h.of_subset (by simp), fun h => h.of_subset (by simp)⟩

/-- An item outside `fresh` leads nowhere. -/
theorem reached_skip (ha : a ∉ fresh) :
    Reached next fresh (a :: work) b ↔ Reached next fresh work b := by
  constructor
  · intro h
    induction h with
    | start hwork hfresh =>
      rcases List.mem_cons.mp hwork with rfl | hwork
      · exact absurd hfresh ha
      · exact .start hwork hfresh
    | step _ hnext hb hfresh ih => exact .step ih hnext hb hfresh
  · intro h
    induction h with
    | start hwork hfresh => exact .start (List.mem_cons_of_mem _ hwork) hfresh
    | step _ hnext hb hfresh ih => exact .step ih hnext hb hfresh

variable [DecidableEq α]

/-- **The step of a worklist.** Expanding the fresh item `a` reaches `a` and what can be reached, without `a`,
from what it leads to and from the rest of the worklist. A path that passes `a` is cut at its last visit to `a`. -/
theorem reached_expand (ha : a ∈ fresh) (hmore : next a = .ok more) :
    Reached next fresh (a :: work) b ↔ b = a ∨ Reached next (fresh.erase a) (more ++ work) b := by
  constructor
  · -- along the way: each item is `a` itself, or is reached without `a`
    intro h
    induction h with
    | @start c hwork hfresh =>
      by_cases hca : c = a
      · exact Or.inl hca
      · have hcwork : c ∈ work := (List.mem_cons.mp hwork).resolve_left hca
        exact Or.inr (.start (List.mem_append_right _ hcwork) ((List.mem_erase_of_ne hca).mpr hfresh))
    | @step c d found _ hnext hd hfresh ih =>
      by_cases hda : d = a
      · exact Or.inl hda
      · have hdfresh := (List.mem_erase_of_ne hda).mpr hfresh
        rcases ih with rfl | hc
        · -- the step from `a`, which starts the way anew
          rw [hmore] at hnext
          cases hnext
          exact Or.inr (.start (List.mem_append_left _ hd) hdfresh)
        · exact Or.inr (.step hc hnext hd hdfresh)
  · have hstart : Reached next fresh (a :: work) a := .start (List.mem_cons_self ..) ha
    rintro (rfl | h)
    · exact hstart
    · induction h with
      | start hwork hfresh =>
        have hfresh := List.mem_of_mem_erase hfresh
        rcases List.mem_append.mp hwork with hnew | hwork
        · exact .step hstart hmore hnew hfresh
        · exact .start (List.mem_cons_of_mem _ hwork) hfresh
      | step _ hnext hd hfresh ih => exact .step ih hnext hd (List.mem_of_mem_erase hfresh)

/-- **Induction along the rounds of a worklist.** `fresh` shrinks with each item that is expanded, whatever is
added to the worklist then, and the worklist shrinks with each one that is skipped. The key `f` of an item is what
the visited set remembers of it. -/
theorem worklist_induct {β : Type} {f : β → α} {motive : List α → List β → Prop}
    (nil : ∀ fresh, motive fresh [])
    (expand : ∀ fresh b work, f b ∈ fresh → (∀ work', motive (fresh.erase (f b)) work') → motive fresh (b :: work))
    (skip : ∀ fresh b work, f b ∉ fresh → motive fresh work → motive fresh (b :: work))
    (fresh : List α) (work : List β) : motive fresh work := by
  -- the worklist may grow, so the outer induction is on `fresh` and the inner one on the worklist
  induction hn : fresh.length generalizing fresh work with
  | zero =>
    obtain rfl := List.length_eq_zero_iff.mp hn
    induction work with
    | nil => exact nil []
    -- nothing is fresh any more: the rest of the worklist is skipped
    | cons b work ih => exact skip [] b work (by simp) ih
  | succ n ihn =>
    induction work with
    | nil => exact nil fresh
    | cons b work ih =>
      by_cases hb : f b ∈ fresh
      · refine expand fresh b work hb fun work' => ihn _ work' ?_
        rw [List.length_erase_of_mem hb, hn, Nat.add_sub_cancel]
      · exact skip fresh b work hb ih

/-- **The run of a worklist.** `reach` lists exactly what is reached, if no step from a fresh item faults. -/
theorem lists_reach (hnext : ∀ a ∈ fresh, ∃ more, next a = .ok more) :
    Lists (reach next fresh work) (Reached next fresh work) := by
  -- `fresh` shrinks with each item that is expanded, so the claim is about any `fresh`
  induction fresh, work using worklist_induct (f := fun a : α => a) with
  | nil fresh =>
    refine ⟨[], reach_nil, fun a => ⟨by simp, fun h => ?_⟩⟩
    induction h with
    | start hwork _ => exact hwork
    | step _ _ _ _ ih => cases ih
  | expand fresh a work ha ih =>
    obtain ⟨more, hmore⟩ := hnext a ha
    obtain ⟨rest, hrest, hmem⟩ := ih (more ++ work) fun b hb => hnext b (List.mem_of_mem_erase hb)
    refine ⟨a :: rest, ?_, fun b => ?_⟩
    · rw [reach_expand ha, hmore, ok_bind, hrest]
      rfl
    · rw [List.mem_cons, hmem, reached_expand ha hmore]
  | skip fresh a work ha ih =>
    rw [reach_skip ha]
    exact (ih hnext).congr fun b => (reached_skip ha).symm

end Relock
