import Mathlib.Data.List.Perm.Subperm
import Relock.Proofs.Program.InRange

/-!
# Chains of casts and field addresses

Where a pointer comes from is found by following casts and field addresses backwards. A chain that ends
passes no instruction twice, so the size of the instruction table bounds its length and the bound built
into `Tables.derivation` and `Tables.stripCasts` is never met. A chain that has no end comes back to an
instruction that it has passed.

* `Tables.DerivedFrom`, `Tables.Circular`: a part of a chain, and a chain that comes back to its start;
* `Tables.EndsIn`: a chain with its length and its end;
* `Tables.ChainsEnd`: every chain of a program has an end;
* `Tables.EndsIn.le_size`: no chain is longer than the instruction table;
* `Tables.derivation_cast`, `Tables.derivation_fieldAddr`: how a pointer is computed, by its last step;
* `Tables.endless_iff`: only what comes back to itself keeps a chain from ending;
* `Tables.EndsIn.underlyingObject`, `Tables.EndsIn.exists_stripCasts`: the questions about chains that
  end have an answer;
* `Tables.chainsEnd_iff`: whether all chains end can be found out.
-/

namespace Relock

/-- The value that a cast or a field address is computed from. -/
def InstKind.origin? : InstKind → Option Value
  | .cast w => some w
  | .fieldAddr base _ => some base
  | _ => none

namespace Tables

/-- The value that a value computed by a cast or a field address is computed from. -/
def origin? (t : Tables) : Value → Option Value
  | .inst i => (t.insts[i.index]?).bind fun x => x.kind.origin?
  | _ => none

/-- Following `n` casts and field addresses back from a value leads to another one. -/
inductive DerivedFrom (t : Tables) : Nat → Value → Value → Prop where
  | refl (v : Value) : DerivedFrom t 0 v v
  | step {n : Nat} {v w u : Value} (h : t.origin? v = some w) (rest : DerivedFrom t n w u) :
      DerivedFrom t (n + 1) v u

/-- Following casts and field addresses back from an instruction leads to the instruction itself. -/
def Circular (t : Tables) (i : InstId) : Prop :=
  ∃ n, t.DerivedFrom (n + 1) (.inst i) (.inst i)

/-- Following `n` casts and field addresses back from a value ends in a value that is neither. -/
inductive EndsIn (t : Tables) : Nat → Value → Value → Prop where
  | stop {v : Value} (h : t.origin? v = none) : EndsIn t 0 v v
  | step {n : Nat} {v w o : Value} (h : t.origin? v = some w) (rest : EndsIn t n w o) :
      EndsIn t (n + 1) v o

/-- Every chain of casts and field addresses has an end. -/
def ChainsEnd (t : Tables) : Prop :=
  ∀ v, ∃ n o, t.EndsIn n v o

/-- The chain of casts and field addresses from a value has no end. -/
def Endless (t : Tables) (v : Value) : Prop :=
  ∀ n o, ¬ t.EndsIn n v o

variable {t : Tables}

/-- The step back from an instruction depends on its kind alone. -/
theorem origin?_of_kindOf {i : InstId} {k : InstKind} (h : t.kindOf i = .ok k) :
    t.origin? (.inst i) = k.origin? := by
  obtain ⟨x, hx, rfl⟩ := kindOf_eq_ok.mp h
  simp [origin?, inst_eq_ok.mp hx]

/-- Only casts and field addresses are followed. -/
theorem origin?_eq_some {v w : Value} (h : t.origin? v = some w) :
    ∃ i k, v = .inst i ∧ t.kindOf i = .ok k ∧ (k = .cast w ∨ ∃ indices, k = .fieldAddr w indices) := by
  cases v with
  | inst i =>
    obtain ⟨x, hx, hk⟩ := Option.bind_eq_some_iff.mp h
    refine ⟨i, x.kind, rfl, kindOf_of_inst (inst_eq_ok.mpr hx), ?_⟩
    cases hkind : x.kind <;> rw [hkind] at hk <;> simp_all [InstKind.origin?]
  | _ => cases h

/-- **What a part of a chain passes.** Either the instructions on the way are pairwise different, or the chain
comes back to the first one that it meets again. -/
theorem DerivedFrom.exists_passed {n : Nat} {v w : Value} (h : t.DerivedFrom n v w) :
    (∃ is : List Nat, is.length = n ∧ is.Nodup ∧
      ∀ i ∈ is, i < t.insts.size ∧ ∃ k, t.DerivedFrom k v (.inst ⟨i⟩)) ∨
    ∃ i k, t.DerivedFrom k v (.inst i) ∧ t.Circular i := by
  induction h with
  | refl => exact .inl ⟨[], rfl, List.nodup_nil, by simp⟩
  | @step n v u w hsome rest ih =>
    obtain ⟨i, kind, rfl, hkind, -⟩ := origin?_eq_some hsome
    rcases ih with ⟨is, hlen, hnodup, hall⟩ | ⟨j, k, hj, hcircular⟩
    · -- the step in front: its instruction is new, or stands further down the chain
      by_cases hmem : i.index ∈ is
      · obtain ⟨-, k, hk⟩ := hall i.index hmem
        exact .inr ⟨i, 0, .refl _, k, .step hsome hk⟩
      · obtain ⟨x, hx, -⟩ := kindOf_eq_ok.mp hkind
        refine .inl ⟨i.index :: is, by simp [hlen], List.nodup_cons.mpr ⟨hmem, hnodup⟩, fun j hj => ?_⟩
        rcases List.mem_cons.mp hj with rfl | hj
        · exact ⟨lt_of_inst hx, 0, .refl _⟩
        · obtain ⟨hlt, k, hk⟩ := hall j hj
          exact ⟨hlt, k + 1, .step hsome hk⟩
    · exact .inr ⟨j, k + 1, .step hsome hj, hcircular⟩

/-- A part of a chain that is longer than the instruction table comes back to itself. -/
theorem DerivedFrom.le_size_or_circular {n : Nat} {v w : Value} (h : t.DerivedFrom n v w) :
    n ≤ t.insts.size ∨ ∃ i k, t.DerivedFrom k v (.inst i) ∧ t.Circular i := by
  rcases h.exists_passed with ⟨is, hlen, hnodup, hall⟩ | hcircular
  · -- there are no more instructions to pass than the table has
    have hsub : is ⊆ List.range t.insts.size := fun i hi => List.mem_range.mpr (hall i hi).1
    have hle := (List.subperm_of_subset hnodup hsub).length_le
    rw [List.length_range] at hle
    exact .inl (by omega)
  · exact .inr hcircular

namespace EndsIn

/-- A chain has one length and one end. -/
theorem unique {n m : Nat} {v o q : Value} (h : t.EndsIn n v o) (h' : t.EndsIn m v q) :
    n = m ∧ o = q := by
  -- both chains take the same steps, as each value has at most one origin
  induction h generalizing m with
  | stop hnone =>
    cases h' with
    | stop => exact ⟨rfl, rfl⟩
    | step hsome _ =>
      rw [hnone] at hsome
      cases hsome
  | step hsome _ ih =>
    cases h' with
    | stop hnone =>
      rw [hnone] at hsome
      cases hsome
    | step hsome' rest' =>
      rw [hsome] at hsome'
      cases hsome'
      obtain ⟨hnm, hoq⟩ := ih rest'
      exact ⟨congrArg Nat.succ hnm, hoq⟩

/-- A chain with an end is a part of itself. -/
theorem derivedFrom {n : Nat} {v o : Value} (h : t.EndsIn n v o) : t.DerivedFrom n v o := by
  induction h with
  | stop => exact .refl _
  | step hsome _ ih => exact .step hsome ih

/-- The end of a chain is that of every chain which leads into it. -/
theorem of_derivedFrom {k n : Nat} {v w o : Value} (hv : t.DerivedFrom k v w) (h : t.EndsIn n w o) :
    t.EndsIn (n + k) v o := by
  induction hv with
  | refl => exact h
  | step hsome _ ih => exact .step hsome (ih h)

/-- What stands on a chain with an end has the same end. -/
theorem exists_rest {k n : Nat} {v w o : Value} (h : t.EndsIn n v o) (hw : t.DerivedFrom k v w) :
    ∃ m, t.EndsIn m w o := by
  -- the part is taken off the chain step by step
  induction hw generalizing n with
  | refl => exact ⟨n, h⟩
  | step hsome _ ih =>
    cases h with
    | stop hnone =>
      rw [hnone] at hsome
      cases hsome
    | step hsome' rest =>
      rw [hsome] at hsome'
      cases hsome'
      exact ih rest

/-- A chain with an end does not come back to its start. -/
theorem not_circular {n : Nat} {i : InstId} {o : Value} (h : t.EndsIn n (.inst i) o) : ¬ t.Circular i := by
  rintro ⟨k, hk⟩
  -- an instruction met again would be at two distances from the end
  have := (h.unique (h.of_derivedFrom hk)).1
  omega

/-- **No chain is longer than the instruction table**, so the bound of `derivation` is never what stops it. -/
theorem le_size {n : Nat} {v o : Value} (h : t.EndsIn n v o) : n ≤ t.insts.size := by
  rcases h.derivedFrom.le_size_or_circular with hle | ⟨i, k, hi, hcircular⟩
  · exact hle
  · obtain ⟨m, hm⟩ := h.exists_rest hi
    exact absurd hcircular hm.not_circular

end EndsIn

/-- A part of a chain that is longer than the instruction table leads to where the chain has no end. -/
theorem DerivedFrom.endless {n : Nat} {v w : Value} (h : t.DerivedFrom n v w) (hn : t.insts.size < n) :
    t.Endless w := by
  intro m o hm
  -- an end would make the whole chain too long
  have hle := (hm.of_derivedFrom h).le_size
  omega

/-! ## Following chains -/

/-- A chain whose end is found has one. -/
theorem endsIn_of_derivationWithin {fuel : Nat} {segments : List (List Int)} {v : Value} {d : Derivation}
    (h : t.derivationWithin fuel segments v = .ok d) : ∃ n, t.EndsIn n v d.object := by
  induction fuel generalizing segments v with
  | zero => cases h
  | succ fuel ih =>
    cases v with
    | inst i =>
      obtain ⟨k, hk, h⟩ := bind_eq_ok.mp h
      have horigin := origin?_of_kindOf hk
      cases k with
      | cast w =>
        obtain ⟨n, hn⟩ := ih h
        exact ⟨n + 1, .step horigin hn⟩
      | fieldAddr base indices =>
        obtain ⟨n, hn⟩ := ih h
        exact ⟨n + 1, .step horigin hn⟩
      | _ =>
        cases h
        exact ⟨0, .stop horigin⟩
    | _ =>
      cases h
      exact ⟨0, .stop rfl⟩

/-- What was passed before a chain is followed is kept behind what the chain itself passes. -/
theorem derivationWithin_append (fuel : Nat) (before behind : List (List Int)) (v : Value) :
    t.derivationWithin fuel (before ++ behind) v =
      (fun d => ⟨d.object, d.segments ++ behind⟩) <$> t.derivationWithin fuel before v := by
  -- only field addresses add a segment, and they add it in front of both
  induction fuel generalizing before v with
  | zero => rfl
  | succ fuel ih =>
    cases v with
    | inst i =>
      simp only [derivationWithin]
      cases t.kindOf i with
      | error e => rfl
      | ok k =>
        cases k with
        | cast w => exact ih before w
        | fieldAddr base indices => exact ih (indices :: before) base
        | _ => rfl
    | _ => rfl

/-- The bound does not matter once it exceeds the length of the chain. -/
theorem EndsIn.derivationWithin_eq {n fuel fuel' : Nat} {v o : Value} (h : t.EndsIn n v o) (hfuel : n < fuel)
    (hfuel' : n < fuel') (segments : List (List Int)) :
    t.derivationWithin fuel segments v = t.derivationWithin fuel' segments v := by
  obtain ⟨fuel, rfl⟩ := Nat.exists_eq_add_one_of_ne_zero (Nat.ne_zero_of_lt hfuel)
  obtain ⟨fuel', rfl⟩ := Nat.exists_eq_add_one_of_ne_zero (Nat.ne_zero_of_lt hfuel')
  induction h generalizing fuel fuel' segments with
  | @stop v hnone =>
    cases v with
    | inst i =>
      simp only [derivationWithin]
      cases hk : t.kindOf i with
      | error e => rfl
      | ok k =>
        rw [origin?_of_kindOf hk] at hnone
        -- only casts and field addresses are followed any further
        cases k with
        | cast => cases hnone
        | fieldAddr => cases hnone
        | _ => rfl
    | _ => rfl
  | @step n v w o hsome _ ih =>
    obtain ⟨fuel, rfl⟩ := Nat.exists_eq_add_one_of_ne_zero (show fuel ≠ 0 by omega)
    obtain ⟨fuel', rfl⟩ := Nat.exists_eq_add_one_of_ne_zero (show fuel' ≠ 0 by omega)
    obtain ⟨i, k, rfl, hk, rfl | ⟨indices, rfl⟩⟩ := origin?_eq_some hsome
    · simp only [derivationWithin, hk, ok_bind]
      exact ih _ fuel (by omega) fuel' (by omega)
    · simp only [derivationWithin, hk, ok_bind]
      exact ih _ fuel (by omega) fuel' (by omega)

/-- A value that is neither a cast nor a field address is its own object. -/
theorem derivation_of_origin?_eq_none {v : Value} {d : Derivation} (hv : t.origin? v = none)
    (hd : t.derivation v = .ok d) : d = ⟨v, []⟩ := by
  cases v with
  | inst i =>
    obtain ⟨k, hk, hd⟩ := bind_eq_ok.mp hd
    rw [origin?_of_kindOf hk] at hv
    cases k with
    | cast => cases hv
    | fieldAddr => cases hv
    | _ =>
      cases hd
      rfl
  | _ =>
    cases hd
    rfl

theorem derivation_cast (hends : t.ChainsEnd) {i : InstId} {v : Value} (hk : t.kindOf i = .ok (.cast v)) :
    t.derivation (.inst i) = t.derivation v := by
  obtain ⟨n, o, hn⟩ := hends v
  -- the cast uses up one step of the bound, and the chain behind it still fits
  have hle := (EndsIn.step (origin?_of_kindOf hk) hn).le_size
  unfold derivation
  rw [derivationWithin, hk]
  exact hn.derivationWithin_eq (by omega) (by omega) []

/-- A field address is computed as its base, and one segment more. -/
theorem derivation_fieldAddr (hends : t.ChainsEnd) {i : InstId} {base : Value} {indices : List Int}
    (hk : t.kindOf i = .ok (.fieldAddr base indices)) :
    t.derivation (.inst i) = (fun d => ⟨d.object, d.segments ++ [indices]⟩) <$> t.derivation base := by
  obtain ⟨n, o, hn⟩ := hends base
  have hle := (EndsIn.step (origin?_of_kindOf hk) hn).le_size
  unfold derivation
  rw [derivationWithin, hk, ← derivationWithin_append]
  exact hn.derivationWithin_eq (by omega) (by omega) [indices]

section InRange

variable (ht : t.InRange)

include ht

/-- Each step of a chain stays in the tables. -/
theorem origin_within {v w : Value} (h : t.origin? v = some w) : w.Within t.sizes := by
  obtain ⟨i, k, rfl, hk, hkind⟩ := origin?_eq_some h
  apply (ht.kindOf_within hk).operands
  rcases hkind with rfl | ⟨indices, rfl⟩ <;> exact List.mem_cons_self ..

/-- The end of a chain is in the tables. -/
theorem EndsIn.end_within {n : Nat} {v o : Value} (h : t.EndsIn n v o) (hv : v.Within t.sizes) :
    o.Within t.sizes := by
  induction h with
  | stop => exact hv
  | step hsome _ ih => exact ih (origin_within ht hsome)

/-- When the search for the object of a pointer gives up, it has come as far as it was allowed to. -/
theorem derivedFrom_of_derivationWithin {fuel : Nat} {segments : List (List Int)} {v : Value} {fault : Fault}
    (hv : v.Within t.sizes) (h : t.derivationWithin fuel segments v = .error fault) :
    ∃ w, fault = .endlessChain w ∧ t.DerivedFrom fuel v w := by
  induction fuel generalizing segments v with
  | zero =>
    cases h
    exact ⟨v, rfl, .refl v⟩
  | succ fuel ih =>
    cases v with
    | inst i =>
      -- no look-up faults, so the only fault is that of the bound
      obtain ⟨k, hk⟩ := InRange.exists_kindOf hv
      have horigin := origin?_of_kindOf hk
      simp only [derivationWithin, hk, ok_bind] at h
      cases k with
      | cast w =>
        obtain ⟨u, rfl, hu⟩ := ih (origin_within ht horigin) h
        exact ⟨u, rfl, .step horigin hu⟩
      | fieldAddr base indices =>
        obtain ⟨u, rfl, hu⟩ := ih (origin_within ht horigin) h
        exact ⟨u, rfl, .step horigin hu⟩
      | _ => cases h
    | _ => cases h

theorem derivedFrom_of_stripCastsWithin {fuel : Nat} {v : Value} {fault : Fault} (hv : v.Within t.sizes)
    (h : t.stripCastsWithin fuel v = .error fault) :
    ∃ w, fault = .endlessChain w ∧ t.DerivedFrom fuel v w := by
  induction fuel generalizing v with
  | zero =>
    cases h
    exact ⟨v, rfl, .refl v⟩
  | succ fuel ih =>
    cases v with
    | inst i =>
      obtain ⟨k, hk⟩ := InRange.exists_kindOf hv
      have horigin := origin?_of_kindOf hk
      simp only [stripCastsWithin, hk, ok_bind] at h
      cases k with
      | cast w =>
        obtain ⟨u, rfl, hu⟩ := ih (origin_within ht horigin) h
        exact ⟨u, rfl, .step horigin hu⟩
      | _ => cases h
    | _ => cases h

/-- A chain with an end is followed to it. -/
theorem EndsIn.exists_derivation {n : Nat} {v o : Value} (h : t.EndsIn n v o) (hv : v.Within t.sizes) :
    ∃ passed, t.derivation v = .ok ⟨o, passed⟩ := by
  cases hd : t.derivation v with
  | ok d =>
    obtain ⟨m, hm⟩ := endsIn_of_derivationWithin hd
    obtain ⟨-, rfl⟩ := h.unique hm
    exact ⟨d.segments, rfl⟩
  | error fault =>
    -- the bound is met only where the chain goes on for ever
    obtain ⟨w, -, hw⟩ := derivedFrom_of_derivationWithin ht hv hd
    obtain ⟨m, hm⟩ := h.exists_rest hw
    exact absurd hm (hw.endless (Nat.lt_succ_self _) m o)

/-- The underlying object of a pointer is the end of its chain. -/
theorem EndsIn.underlyingObject {n : Nat} {v o : Value} (h : t.EndsIn n v o) (hv : v.Within t.sizes) :
    t.underlyingObject v = .ok o := by
  obtain ⟨passed, hpassed⟩ := h.exists_derivation ht hv
  exact bind_eq_ok.mpr ⟨_, hpassed, rfl⟩

/-- Where the chain of casts and field addresses ends, so does that of the casts alone. -/
theorem EndsIn.exists_stripCasts {n : Nat} {v o : Value} (h : t.EndsIn n v o) (hv : v.Within t.sizes) :
    ∃ w, t.stripCasts v = .ok w := by
  cases hw : t.stripCasts v with
  | ok w => exact ⟨w, rfl⟩
  | error fault =>
    obtain ⟨w, -, hw⟩ := derivedFrom_of_stripCastsWithin ht hv hw
    obtain ⟨m, hm⟩ := h.exists_rest hw
    exact absurd hm (hw.endless (Nat.lt_succ_self _) m o)

end InRange

/-! ## Chains that have no end -/

/-- A chain can be followed for any number of steps, or it has an end. -/
theorem endsIn_or_derivedFrom (n : Nat) (v : Value) : (∃ m o, t.EndsIn m v o) ∨ ∃ w, t.DerivedFrom n v w := by
  induction n generalizing v with
  | zero => exact .inr ⟨v, .refl v⟩
  | succ n ih =>
    cases horigin : t.origin? v with
    | none => exact .inl ⟨0, v, .stop horigin⟩
    | some u =>
      rcases ih u with ⟨m, o, hm⟩ | ⟨w, hw⟩
      · exact .inl ⟨m + 1, o, .step horigin hm⟩
      · exact .inr ⟨w, .step horigin hw⟩

/-- A chain has no end exactly if it leads to an instruction that comes back to itself. -/
theorem endless_iff {v : Value} : t.Endless v ↔ ∃ i k, t.DerivedFrom k v (.inst i) ∧ t.Circular i := by
  constructor
  · intro hv
    -- a chain without an end can be followed one step further than there are instructions
    rcases endsIn_or_derivedFrom (t.insts.size + 1) v with ⟨m, o, hm⟩ | ⟨w, hw⟩
    · exact absurd hm (hv m o)
    · rcases hw.le_size_or_circular with hle | hcircular
      · omega
      · exact hcircular
  · rintro ⟨i, k, hi, hcircular⟩ n o hn
    obtain ⟨m, hm⟩ := hn.exists_rest hi
    exact hm.not_circular hcircular

/-- All chains end exactly if no instruction comes back to itself. -/
theorem chainsEnd_iff_not_circular : t.ChainsEnd ↔ ∀ i, ¬ t.Circular i := by
  constructor
  · intro hends i
    obtain ⟨n, o, hn⟩ := hends (.inst i)
    exact hn.not_circular
  · intro hnone v
    by_contra hv
    obtain ⟨i, k, -, hcircular⟩ := endless_iff.mp fun n o hn => hv ⟨n, o, hn⟩
    exact hnone i hcircular

/-- **Whether all chains end can be found out**: it suffices to look at the chains that start at an instruction of
the table. -/
theorem chainsEnd_iff (ht : t.InRange) :
    t.ChainsEnd ↔ ∀ i ∈ t.instIds, (t.derivation (.inst i)).isOk := by
  constructor
  · intro hends i hi
    obtain ⟨n, o, ho⟩ := hends (.inst i)
    obtain ⟨passed, hpassed⟩ := ho.exists_derivation ht (mem_instIds.mp hi)
    rw [hpassed]
    rfl
  · intro hfound v
    cases horigin : t.origin? v with
    -- what is not computed by a cast or a field address is its own end
    | none => exact ⟨0, v, .stop horigin⟩
    | some w =>
      obtain ⟨i, k, rfl, hk, -⟩ := origin?_eq_some horigin
      obtain ⟨x, hx, -⟩ := kindOf_eq_ok.mp hk
      have hok := hfound i (mem_instIds.mpr (lt_of_inst hx))
      cases hd : t.derivation (.inst i) with
      | error e =>
        rw [hd] at hok
        cases hok
      | ok d =>
        obtain ⟨n, hn⟩ := endsIn_of_derivationWithin hd
        exact ⟨n, d.object, hn⟩

end Tables

end Relock
