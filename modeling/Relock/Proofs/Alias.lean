import Relock.Alias
import Relock.Proofs.Program.Safety

/-!
# Comparing values

Two values of a program are compared by the objects that they are derived from. Only a chain that has no
end can keep them from being compared.

* `Tables.aliasing_eq_must`: when two values are certainly the same place;
* `Tables.safe_aliasing`: nothing but chains is in the way;
* `Tables.exists_aliasing`: where all chains end, any two values can be compared.
-/

namespace Relock

/-- An address adds a path to the object and leaves the object as it is. -/
theorem Address.object_ofDerivation (d : Derivation) : (Address.ofDerivation d).object = d.object := by
  unfold Address.ofDerivation
  split <;> rfl

namespace Tables

variable {t : Tables}

/-- It can be told of every value of a program whether it is an identified object. -/
theorem exists_isIdentified {v : Value} (hv : v.Within t.sizes) : ∃ b, t.isIdentified v = .ok b := by
  cases v with
  | inst i =>
    obtain ⟨k, hk⟩ := InRange.exists_kindOf hv
    simp only [isIdentified, hk, ok_bind]
    cases k <;> exact ⟨_, rfl⟩
  | _ => exact ⟨_, rfl⟩

/-- Two paths from one object lead to the same place only if they are equal. -/
theorem comparePaths_eq_must {p q : List Int} : comparePaths p q = .must ↔ p = q := by
  unfold comparePaths
  by_cases hpq : p = q
  · simp [hpq]
  · rw [if_neg (by simpa using hpq)]
    split <;> simp [hpq]

/-- Values are certainly the same place if they are the same, or the same path away from one object. -/
theorem aliasing_eq_must {a b : Value} : t.aliasing a b = .ok .must ↔ a = b ∨
    ∃ x y, t.address a = .ok x ∧ t.address b = .ok y ∧ x.object = y.object ∧
      (x.exact = true ∧ y.exact = true) ∧ x.path = y.path := by
  unfold aliasing
  by_cases hab : a = b
  · simp [hab]
  · rw [if_neg (by simpa using hab), or_iff_right hab]
    constructor
    · intro h
      obtain ⟨x, hx, h⟩ := bind_eq_ok.mp h
      obtain ⟨y, hy, h⟩ := bind_eq_ok.mp h
      refine ⟨x, y, hx, hy, ?_⟩
      split at h
      · -- different objects are apart or may overlap
        obtain ⟨left, -, h⟩ := bind_eq_ok.mp h
        obtain ⟨right, -, h⟩ := bind_eq_ok.mp h
        cases left <;> cases right <;> cases h
      · next hobject =>
        split at h
        · cases h
        · -- one object and exact paths: what is left is to compare the paths
          next hexact =>
          have hpaths := comparePaths_eq_must.mp (pure_eq_ok.mp h)
          exact ⟨by simpa using hobject, by simpa using hexact, hpaths⟩
    · rintro ⟨x, y, hx, hy, hobject, hexact, hpath⟩
      simp [hx, hy, hobject, hexact, comparePaths_eq_must.mpr hpath]

/-- Being certainly the same place is symmetric. -/
theorem aliasing_must_symm {a b : Value} (h : t.aliasing a b = .ok .must) : t.aliasing b a = .ok .must := by
  rw [aliasing_eq_must] at h ⊢
  rcases h with rfl | ⟨x, y, hx, hy, hobject, hexact, hpath⟩
  · exact .inl rfl
  · exact .inr ⟨y, x, hy, hx, hobject.symm, hexact.symm, hpath.symm⟩

variable (ht : t.InRange)

include ht

/-- The object of an address is a value of the program. -/
theorem address_within {v : Value} {x : Address} (hv : v.Within t.sizes) (h : t.address v = .ok x) :
    x.object.Within t.sizes := by
  obtain ⟨d, hd, h⟩ := bind_eq_ok.mp h
  cases h
  obtain ⟨n, hn⟩ := endsIn_of_derivationWithin hd
  rw [Address.object_ofDerivation]
  exact hn.end_within ht hv

/-- Comparing two values of a program is safe: all that it looks up is in the tables. -/
theorem safe_aliasing {a b : Value} (ha : a.Within t.sizes) (hb : b.Within t.sizes) : t.Safe (t.aliasing a b) := by
  unfold aliasing
  split
  · -- the same value needs no look-up
    exact safe_ok _
  · refine (safe_derivation ht ha).bind_pure.bind fun x hx => (safe_derivation ht hb).bind_pure.bind fun y hy => ?_
    split
    · -- different objects are looked at once more, and they are in the tables
      refine (safe_of_exists (exists_isIdentified (address_within ht ha hx))).bind fun p _ => ?_
      exact (safe_of_exists (exists_isIdentified (address_within ht hb hy))).bind fun q _ => safe_ok _
    · split
      · exact safe_ok _
      · exact safe_ok _

/-- Where all chains end, any two values of a program can be compared. -/
theorem exists_aliasing (hends : t.ChainsEnd) {a b : Value} (ha : a.Within t.sizes) (hb : b.Within t.sizes) :
    ∃ r, t.aliasing a b = .ok r :=
  (safe_aliasing ht ha hb).exists_ok hends

end Tables

end Relock
