import Relock.Proofs.Closure
import Relock.Proofs.Program.Chain

/-!
# The only fault that there is

Where all indices are in range no look-up faults, as long as only entries are looked up that the tables
name. What is left is the fault of a chain that has no end. `Tables.Safe` says that nothing else happens;
it is put together from the steps of a computation, so it needs no assumption about chains.

* `Tables.Safe`: a computation that only a chain without an end can stop;
* `Tables.Safe.bind`, `Tables.safe_mapM`, `Tables.safe_filterM`, `Tables.safe_reach`: computations in steps;
* `Tables.Safe.ok_or_endless`, `Tables.Safe.exists_ok`: what comes out of it;
* `Tables.safe_stripCasts`, `Tables.safe_derivation`: following chains.
-/

namespace Relock.Tables

variable {α β : Type} {t : Tables} {x : Except Fault α}

/-- The only fault is that of a chain that has no end. -/
def Safe (t : Tables) (x : Except Fault α) : Prop :=
  ∀ fault, x = .error fault → ∃ v, fault = .endlessChain v ∧ t.Endless v

/-! ## Steps of a computation -/

/-- A computation that returns something is safe. -/
theorem safe_of_exists (h : ∃ a, x = .ok a) : t.Safe x := by
  obtain ⟨a, rfl⟩ := h
  intro fault hfault
  cases hfault

theorem safe_ok (a : α) : t.Safe (.ok a) :=
  safe_of_exists ⟨a, rfl⟩

/-- A computation that lists what it finds is safe. -/
theorem safe_of_lists {y : Except Fault (List α)} {P : α → Prop} (h : Lists y P) : t.Safe y :=
  safe_of_exists (h.imp fun _ => And.left)

/-- A computation is safe if its first step is and the rest then is. -/
theorem Safe.bind {f : α → Except Fault β} (hx : t.Safe x) (hf : ∀ a, x = .ok a → t.Safe (f a)) :
    t.Safe (x >>= f) := by
  cases hxa : x with
  | ok a => exact hf a hxa
  | error fault =>
    intro fault' hfault'
    -- a fault of the first step is the fault of the whole
    cases hfault'
    exact hx fault hxa

/-- A last step that cannot fault does not matter. -/
theorem Safe.bind_pure {f : α → β} (hx : t.Safe x) : t.Safe (do return f (← x)) :=
  hx.bind fun a _ => safe_ok (f a)

/-- A traversal of safe steps is safe. -/
theorem safe_mapM {f : α → Except Fault β} {as : List α} (h : ∀ a ∈ as, t.Safe (f a)) : t.Safe (as.mapM f) := by
  induction as with
  | nil => exact safe_ok []
  | cons a as ih =>
    obtain ⟨ha, has⟩ := List.forall_mem_cons.mp h
    rw [List.mapM_cons]
    exact ha.bind fun b _ => (ih has).bind_pure

/-- The accumulator of a filter does not matter to its faults. -/
private theorem safe_filterAuxM {f : α → Except Fault Bool} {as : List α} (acc : List α)
    (h : ∀ a ∈ as, t.Safe (f a)) : t.Safe (as.filterAuxM f acc) := by
  induction as generalizing acc with
  | nil => exact safe_ok acc
  | cons a as ih =>
    obtain ⟨ha, has⟩ := List.forall_mem_cons.mp h
    exact ha.bind fun b _ => ih _ has

/-- A filter with a safe test is safe. -/
theorem safe_filterM {f : α → Except Fault Bool} {as : List α} (h : ∀ a ∈ as, t.Safe (f a)) :
    t.Safe (as.filterM f) :=
  (safe_filterAuxM [] h).bind_pure

/-- A worklist whose steps are safe is safe, whatever it comes to. -/
theorem safe_reach [DecidableEq α] {next : α → Except Fault (List α)} {fresh work : List α}
    (hnext : ∀ a, t.Safe (next a)) : t.Safe (reach next fresh work) := by
  induction fresh, work using worklist_induct (f := fun a : α => a) with
  | nil fresh =>
    rw [reach_nil]
    exact safe_ok []
  | expand fresh a work ha ih =>
    rw [reach_expand ha]
    exact (hnext a).bind fun more _ => (ih (more ++ work)).bind_pure
  | skip fresh a work ha ih =>
    rw [reach_skip ha]
    exact ih

/-- A safe computation looks nothing up that is not there. -/
theorem Safe.ok_or_endless (hx : t.Safe x) :
    (∃ a, x = .ok a) ∨ ∃ v, x = .error (.endlessChain v) ∧ t.Endless v := by
  cases h : x with
  | ok a => exact .inl ⟨a, rfl⟩
  | error fault =>
    obtain ⟨v, rfl, hv⟩ := hx fault h
    exact .inr ⟨v, rfl, hv⟩

/-- Where all chains end, a safe computation returns a result. -/
theorem Safe.exists_ok (hx : t.Safe x) (hends : t.ChainsEnd) : ∃ a, x = .ok a := by
  rcases hx.ok_or_endless with hok | ⟨v, -, hv⟩
  · exact hok
  · obtain ⟨n, o, ho⟩ := hends v
    exact absurd ho (hv n o)

/-! ## Following chains -/

variable (ht : t.InRange)

include ht

/-- Finding the object of a pointer is safe. -/
theorem safe_derivation {v : Value} (hv : v.Within t.sizes) : t.Safe (t.derivation v) := by
  -- the fuel is one more than there are instructions: a chain that uses it up passes one of them twice
  intro fault h
  obtain ⟨w, rfl, hw⟩ := derivedFrom_of_derivationWithin ht hv h
  exact ⟨w, rfl, hw.endless (Nat.lt_succ_self _)⟩

theorem safe_stripCasts {v : Value} (hv : v.Within t.sizes) : t.Safe (t.stripCasts v) := by
  intro fault h
  obtain ⟨w, rfl, hw⟩ := derivedFrom_of_stripCastsWithin ht hv h
  exact ⟨w, rfl, hw.endless (Nat.lt_succ_self _)⟩

theorem safe_underlyingObject {v : Value} (hv : v.Within t.sizes) : t.Safe (t.underlyingObject v) :=
  (safe_derivation ht hv).bind_pure

/-- What stripping casts leads to is in the tables. -/
theorem within_of_stripCastsWithin {fuel : Nat} {v w : Value} (hv : v.Within t.sizes)
    (h : t.stripCastsWithin fuel v = .ok w) : w.Within t.sizes := by
  induction fuel generalizing v with
  | zero => cases h
  | succ fuel ih =>
    cases v with
    | inst i =>
      obtain ⟨k, hk, h⟩ := bind_eq_ok.mp h
      cases k with
      | cast u => exact ih (origin_within ht (origin?_of_kindOf hk)) h
      | _ =>
        cases h
        exact hv
    | _ =>
      cases h
      exact hv

end Relock.Tables
