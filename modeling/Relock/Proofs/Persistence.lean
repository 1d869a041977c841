import Relock.Proofs.Closure

/-!
# Results that persist

When a program grows, a question about its old part keeps its answer, but it may stop faulting: what was
out of range may have become an entry. So the answers before and after are compared in one direction only.

* `Persists x y`: what `x` returns, `y` returns as well;
* `Persists.bind`, `Persists.mapM`, `Persists.filterM`: how this goes through the steps of a computation;
* `persists_reach`: a worklist that is given more items it never comes to.
-/

namespace Relock

variable {ε α β : Type}

/-- What `x` returns, `y` returns as well. Nothing is said if `x` faults. -/
def Persists (x y : Except ε α) : Prop := ∀ a, x = .ok a → y = .ok a

namespace Persists

variable {x y : Except ε α}

theorem refl (x : Except ε α) : Persists x x := fun _ h => h

/-- A computation persists if its steps do. The second step need only persist for results of the first one. -/
theorem bind {f g : α → Except ε β} (h : Persists x y) (hfg : ∀ a, x = .ok a → Persists (f a) (g a)) :
    Persists (x >>= f) (y >>= g) := by
  intro b hb
  obtain ⟨a, ha, hb⟩ := bind_eq_ok.mp hb
  exact bind_eq_ok.mpr ⟨a, h a ha, hfg a ha b hb⟩

/-- A step whose result is only reshaped. -/
theorem bind_pure (h : Persists x y) (f : α → Except ε β) : Persists (x >>= f) (y >>= f) :=
  h.bind fun a _ => refl (f a)

/-- A choice that does not depend on what persists. -/
theorem ite {c : Prop} [Decidable c] {x' y' : Except ε α} (hx : c → Persists x x') (hy : ¬ c → Persists y y') :
    Persists (if c then x else y) (if c then x' else y') := by
  by_cases hc : c
  · rw [if_pos hc, if_pos hc]
    exact hx hc
  · rw [if_neg hc, if_neg hc]
    exact hy hc

/-- Persistence for a list of questions. -/
theorem mapM {f g : α → Except ε β} {xs : List α} (h : ∀ a ∈ xs, Persists (f a) (g a)) :
    Persists (xs.mapM f) (xs.mapM g) := by
  induction xs with
  | nil => exact refl _
  | cons a xs ih =>
    rw [List.mapM_cons, List.mapM_cons]
    refine (h a (List.mem_cons_self ..)).bind fun _ _ => ?_
    exact (ih fun b hb => h b (List.mem_cons_of_mem _ hb)).bind_pure _

/-- The loop behind `filterM`, which collects in reverse. -/
private theorem filterAuxM {f g : α → Except ε Bool} {xs : List α} (h : ∀ a ∈ xs, Persists (f a) (g a))
    (acc : List α) : Persists (xs.filterAuxM f acc) (xs.filterAuxM g acc) := by
  induction xs generalizing acc with
  | nil => exact refl _
  | cons a xs ih =>
    unfold List.filterAuxM
    refine (h a (List.mem_cons_self ..)).bind fun keep _ => ?_
    exact ih (fun b hb => h b (List.mem_cons_of_mem _ hb)) _

/-- Persistence for a selection. -/
theorem filterM {f g : α → Except ε Bool} {xs : List α} (h : ∀ a ∈ xs, Persists (f a) (g a)) :
    Persists (xs.filterM f) (xs.filterM g) :=
  (filterAuxM h []).bind_pure _

end Persists

/-! ## Worklists -/

variable [DecidableEq α]

/-- Lists without repetitions that hold the same of some items still do so when one item is taken out. -/
theorem mem_erase_congr {P : α → Prop} {fresh fresh' : List α} (hfresh : fresh.Nodup) (hfresh' : fresh'.Nodup)
    (hsame : ∀ a, P a → (a ∈ fresh ↔ a ∈ fresh')) (b : α) :
    ∀ a, P a → (a ∈ fresh.erase b ↔ a ∈ fresh'.erase b) := by
  intro a ha
  rw [hfresh.mem_erase_iff, hfresh'.mem_erase_iff, hsame a ha]

/-- **A worklist whose items all satisfy `P` does not see what else is fresh.** So a visited set over a larger
program gives the same run. -/
theorem persists_reach {next next' : α → Except ε (List α)} {P : α → Prop}
    (hnext : ∀ a, P a → Persists (next a) (next' a))
    (hclosed : ∀ a more, P a → next a = .ok more → ∀ b ∈ more, P b) {fresh fresh' work : List α}
    (hwork : ∀ a ∈ work, P a) (hsame : ∀ a, P a → (a ∈ fresh ↔ a ∈ fresh')) (hfresh : fresh.Nodup)
    (hfresh' : fresh'.Nodup) : Persists (reach next fresh work) (reach next' fresh' work) := by
  -- both worklists stay equal, while the fresh items only agree on what satisfies `P`
  induction fresh, work using worklist_induct (f := fun a : α => a) generalizing fresh' with
  | nil fresh =>
    rw [reach_nil, reach_nil]
    exact .refl _
  | expand fresh a work ha ih =>
    have hPa := hwork a (List.mem_cons_self ..)
    rw [reach_expand ha, reach_expand ((hsame a hPa).mp ha)]
    refine (hnext a hPa).bind fun more hmore => ?_
    -- what is added to the worklist satisfies `P` too, so the invariant is kept
    have hwork' : ∀ b ∈ more ++ work, P b := by
      intro b hb
      rcases List.mem_append.mp hb with hb | hb
      · exact hclosed a more hPa hmore b hb
      · exact hwork b (List.mem_cons_of_mem _ hb)
    exact (ih _ hwork' (mem_erase_congr hfresh hfresh' hsame a) (hfresh.erase a) (hfresh'.erase a)).bind_pure _
  | skip fresh a work ha ih =>
    have hPa := hwork a (List.mem_cons_self ..)
    -- an item that one side has visited the other one has visited as well
    rw [reach_skip ha, reach_skip fun ha' => ha ((hsame a hPa).mpr ha')]
    exact ih (fun b hb => hwork b (List.mem_cons_of_mem _ hb)) hsame hfresh hfresh'

end Relock
