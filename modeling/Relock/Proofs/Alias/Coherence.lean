import Relock.Proofs.Alias

/-!
# Coherent answers

Comparing two values looks at nothing but their addresses, save that a value is always the same place as
itself, also if its own path is not exact. That exception is what the laws below have to account for: the
answers do not depend on the order of the two values, values that are certainly the same place are
interchangeable, and a cast is compared as what it is cast from.

* `Tables.compareAddresses`, `Tables.aliasing_of_ne`: what different values are compared by;
* `Tables.aliasing_symm`: the order of the two values does not matter;
* `Tables.address_eq_of_must`: different values that are certainly the same place have one address;
* `Tables.aliasing_coherent`: the laws together.
-/

namespace Relock.Tables

/-- How two addresses are compared. -/
def compareAddresses (t : Tables) (x y : Address) : Except Fault Aliasing := do
  if x.object != y.object then
    let apart := (← t.isIdentified x.object) && (← t.isIdentified y.object)
    return if apart then .no else .may
  if !(x.exact && y.exact) then return .may
  return comparePaths x.path y.path

variable {t : Tables} {a b c : Value} {r : Aliasing}

/-- Different values are compared by their addresses. -/
theorem aliasing_of_ne (hab : a ≠ b) :
    t.aliasing a b = (do t.compareAddresses (← t.address a) (← t.address b)) := by
  unfold aliasing
  rw [if_neg (by simpa using hab)]
  rfl

theorem aliasing_self (a : Value) : t.aliasing a a = .ok .must :=
  aliasing_eq_must.mpr (.inl rfl)

/-- A path overlaps another one in either order. -/
theorem comparePaths_comm (p q : List Int) : comparePaths p q = comparePaths q p := by
  unfold comparePaths
  rw [Bool.beq_comm, Bool.or_comm]

/-- Comparing addresses in the other order makes the same look-ups in the other order, and a result means that
none of them faulted. -/
theorem compareAddresses_symm {x y : Address} (h : t.compareAddresses x y = .ok r) :
    t.compareAddresses y x = .ok r := by
  unfold compareAddresses at h ⊢
  by_cases hobject : x.object = y.object
  · -- one object: everything that is left is symmetric by itself
    rw [hobject, Bool.and_comm, comparePaths_comm]
    rwa [hobject] at h
  · have hne : (x.object != y.object) = true := bne_iff_ne.mpr hobject
    have hne' : (y.object != x.object) = true := bne_iff_ne.mpr (Ne.symm hobject)
    rw [if_pos hne] at h
    rw [if_pos hne']
    obtain ⟨left, hleft, h⟩ := bind_eq_ok.mp h
    obtain ⟨right, hright, h⟩ := bind_eq_ok.mp h
    rw [hright, ok_bind, hleft, ok_bind, Bool.and_comm]
    exact h

/-- The order in which two values are compared does not matter. -/
theorem aliasing_symm (h : t.aliasing a b = .ok r) : t.aliasing b a = .ok r := by
  by_cases hab : a = b
  · rwa [hab] at h ⊢
  · -- different values: both orders compare the same two addresses
    rw [aliasing_of_ne hab] at h
    rw [aliasing_of_ne (Ne.symm hab)]
    obtain ⟨x, hx, h⟩ := bind_eq_ok.mp h
    obtain ⟨y, hy, h⟩ := bind_eq_ok.mp h
    rw [hy, ok_bind, hx, ok_bind]
    exact compareAddresses_symm h

/-- Values with one address are compared alike with every third value. -/
theorem aliasing_congr (h : t.address a = t.address b) (hca : c ≠ a) (hcb : c ≠ b) :
    t.aliasing a c = t.aliasing b c := by
  rw [aliasing_of_ne (Ne.symm hca), aliasing_of_ne (Ne.symm hcb), h]

/-- Different values that are certainly the same place have one address. -/
theorem address_eq_of_must (hab : a ≠ b) (h : t.aliasing a b = .ok .must) : t.address a = t.address b := by
  rcases aliasing_eq_must.mp h with heq | ⟨x, y, hx, hy, hobject, hexact, hpath⟩
  · exact absurd heq hab
  · have hxy : x = y := by
      cases x
      cases y
      simp_all
    rw [hx, hy, hxy]

/-- Values that are certainly the same place are interchangeable. -/
theorem aliasing_eq_of_must (c : Value) (h : t.aliasing a b = .ok .must) : t.aliasing a c = t.aliasing b c := by
  by_cases hab : a = b
  · rw [hab]
  · by_cases hca : c = a
    · -- the third value is one of the two, and that one need not have an exact path
      rw [hca, aliasing_self, aliasing_symm h]
    · by_cases hcb : c = b
      · rw [hcb, aliasing_self, h]
      · exact aliasing_congr (address_eq_of_must hab h) hca hcb

/-- A cast has the address of what it is cast from. -/
theorem address_cast (hends : t.ChainsEnd) {k : InstId} (hk : t.kindOf k = .ok (.cast a)) :
    t.address (.inst k) = t.address a := by
  unfold address
  rw [derivation_cast hends hk]

/-- The question that the detector asks, whether two values must alias, is whether the answer is `must`. -/
theorem must_eq_true : t.aliasing.must a b = .ok true ↔ t.aliasing a b = .ok .must := by
  unfold Oracle.must
  constructor
  · intro h
    obtain ⟨r, hr, h⟩ := bind_eq_ok.mp h
    rw [hr, beq_iff_eq.mp (pure_eq_ok.mp h)]
  · intro h
    rw [h]
    rfl

/-- **The answers are coherent.** They are symmetric, being certainly the same place is an equivalence that
every answer respects, and casts are transparent. Values of a program in range always have an answer. -/
theorem aliasing_coherent (hends : t.ChainsEnd) (a b c : Value) :
    (∀ r, t.aliasing a b = .ok r ↔ t.aliasing b a = .ok r) ∧
    t.aliasing.must a a = .ok true ∧
    (t.aliasing.must a b = .ok true → t.aliasing.must b c = .ok true → t.aliasing.must a c = .ok true) ∧
    (t.aliasing.must a b = .ok true → t.aliasing a c = t.aliasing b c) ∧
    (∀ k, t.kindOf k = .ok (.cast a) → c ≠ a → c ≠ .inst k → t.aliasing (.inst k) c = t.aliasing a c) ∧
    (t.InRange → a.Within t.sizes → b.Within t.sizes → ∃ r, t.aliasing a b = .ok r) := by
  refine ⟨fun r => ⟨aliasing_symm, aliasing_symm⟩, must_eq_true.mpr (aliasing_self a), ?_, ?_, ?_, ?_⟩
  · -- transitivity: the first value is exchanged for the second one
    intro hab hbc
    rw [must_eq_true] at hab hbc ⊢
    rw [aliasing_eq_of_must c hab, hbc]
  · intro hab
    exact aliasing_eq_of_must c (must_eq_true.mp hab)
  · intro k hk hca hck
    exact aliasing_congr (address_cast hends hk) hck hca
  · intro ht ha hb
    exact exists_aliasing ht hends ha hb

/-- A field that is reached at once, step by step, and by a cast of the latter. -/
def fieldThroughCast : Tables where
  types := #[.void, .int 64, .record "Inner" [⟨1⟩, ⟨1⟩], .record "Outer" [⟨2⟩], .pointer ⟨3⟩, .pointer ⟨2⟩,
    .pointer ⟨1⟩]
  globals := #[]
  functions := #[⟨"f", [⟨4⟩], ⟨0⟩, [⟨0⟩]⟩]
  blocks := #[⟨"s", ⟨0⟩, [⟨0⟩, ⟨1⟩, ⟨2⟩, ⟨3⟩]⟩]
  insts := #[⟨.fieldAddr (.arg ⟨0⟩ 0) [0, 0, 1], ⟨6⟩, ⟨0⟩, none⟩,
    ⟨.fieldAddr (.arg ⟨0⟩ 0) [0, 0], ⟨5⟩, ⟨0⟩, none⟩, ⟨.fieldAddr (.inst ⟨1⟩) [0, 1], ⟨6⟩, ⟨0⟩, none⟩,
    ⟨.cast (.inst ⟨2⟩), ⟨6⟩, ⟨0⟩, none⟩]

theorem inRange_fieldThroughCast : fieldThroughCast.InRange := by decide

theorem chainsEnd_fieldThroughCast : fieldThroughCast.ChainsEnd :=
  (chainsEnd_iff inRange_fieldThroughCast).mpr (by decide +kernel)

/-- The step on the way overlaps the field, however the field is reached. -/
theorem coherent_fieldThroughCast : fieldThroughCast.ChainsEnd ∧
    fieldThroughCast.aliasing.must (.inst ⟨2⟩) (.inst ⟨0⟩) = .ok true ∧
      fieldThroughCast.aliasing (.inst ⟨2⟩) (.inst ⟨1⟩) = .ok .may ∧
        fieldThroughCast.aliasing (.inst ⟨1⟩) (.inst ⟨2⟩) = .ok .may ∧
          fieldThroughCast.aliasing (.inst ⟨0⟩) (.inst ⟨1⟩) = .ok .may ∧
            fieldThroughCast.aliasing (.inst ⟨3⟩) (.inst ⟨1⟩) = .ok .may := by
  have hends := chainsEnd_fieldThroughCast
  have hmust : fieldThroughCast.aliasing.must (.inst ⟨2⟩) (.inst ⟨0⟩) = .ok true := rfl
  have hmay : fieldThroughCast.aliasing (.inst ⟨2⟩) (.inst ⟨1⟩) = .ok .may := rfl
  -- the laws carry the one answer that is computed over to the other three
  obtain ⟨-, -, -, hsame, hcast, -⟩ := aliasing_coherent hends (.inst ⟨2⟩) (.inst ⟨0⟩) (.inst ⟨1⟩)
  obtain ⟨hsymm, -⟩ := aliasing_coherent hends (.inst ⟨2⟩) (.inst ⟨1⟩) (.inst ⟨1⟩)
  refine ⟨hends, hmust, hmay, (hsymm _).mp hmay, ?_, ?_⟩
  · rw [← hsame hmust, hmay]
  · rw [hcast ⟨3⟩ rfl (by decide) (by decide), hmay]

end Relock.Tables
