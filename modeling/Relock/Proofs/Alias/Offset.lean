import Relock.Proofs.Alias.Coherence
import Relock.Proofs.Description.InRange

/-!
# Paths and offsets

A layout gives every path of indices an offset and every value a number, so that a cast keeps the number
of what it is cast from and a field address adds the offset of its indices. The address of a value
flattens its field addresses to one path. From the second field address on the first index is dropped,
since it steps over a pointer to a field; the first index of the first one is kept. A first field address
without any index has none to keep, and then the path reads as if the next one had been the first.

* `Offsets`, `Tables.LaysOut`: layouts;
* `Offsets.sum_segments`: the offset that an exact path stands for;
* `Tables.LaysOut.addr_eq`: the number of a value is that of its object and the offset of its path;
* `Tables.must_laid_out_alike_iff`: which values that are certainly the same place have the same number in
  every layout.
-/

namespace Relock

/-- Offsets of paths of indices. What goes on from a field goes on from a pointer to the field, which the
index zero leaves where it is. -/
structure Offsets (off : List Int → Int) : Prop where
  nil : off [] = 0
  append : ∀ p q, p ≠ [] → off (p ++ q) = off p + off (0 :: q)

/-- Numbers for the values of a program, as casts and field addresses compute them. -/
structure Tables.LaysOut (t : Tables) (off : List Int → Int) (addr : Value → Int) : Prop where
  cast : ∀ i v, t.kindOf i = .ok (.cast v) → addr (.inst i) = addr v
  fieldAddr : ∀ i base indices, t.kindOf i = .ok (.fieldAddr base indices) →
    addr (.inst i) = addr base + off indices

/-- Two values have the same number in every layout. -/
def Tables.LaidOutAlike (t : Tables) (a b : Value) : Prop :=
  ∀ off addr, Offsets off → t.LaysOut off addr → addr a = addr b

/-- The field address nearest to the object has no index. -/
def Derivation.Unindexed (d : Derivation) : Prop := d.segments.head? = some []

instance (d : Derivation) : Decidable d.Unindexed :=
  inferInstanceAs (Decidable (_ = _))

/-- Two derivations that are exact and have one path. -/
structure Derivation.SamePath (d e : Derivation) : Prop where
  exact_left : (Address.ofDerivation d).exact = true
  exact_right : (Address.ofDerivation e).exact = true
  path : (Address.ofDerivation d).path = (Address.ofDerivation e).path

/-- There is no path to follow, or it is followed from the same kind of start. -/
def Derivation.Alike (d e : Derivation) : Prop :=
  (Address.ofDerivation d).path = [] ∨ (d.Unindexed ↔ e.Unindexed)

/-- The offsets of segments added up. -/
def offsetSum (off : List Int → Int) : List (List Int) → Int
  | [] => 0
  | s :: segments => off s + offsetSum off segments

/-- The last field address adds its offset at the end. -/
theorem offsetSum_concat (off : List Int → Int) (segments : List (List Int)) (s : List Int) :
    offsetSum off (segments ++ [s]) = offsetSum off segments + off s := by
  induction segments with
  | nil =>
    show off s + 0 = 0 + off s
    omega
  | cons r segments ih =>
    show off r + offsetSum off (segments ++ [s]) = off r + offsetSum off segments + off s
    omega

/-! ## The offset of a path -/

namespace Offsets

variable {off : List Int → Int} (hoff : Offsets off)

include hoff

/-- The index zero alone stays where it is, since going on from it changes nothing. -/
theorem zero : off [0] = 0 := by
  have h : off [0] = off [0] + off [0] := hoff.append [0] [] (by simp)
  omega

/-- A segment that starts where it stands may as well start with the index zero. -/
theorem eq_cons_zero {s : List Int} (hs : s.headD 0 = 0) : off s = off (0 :: s.tail) := by
  cases s with
  | nil => rw [hoff.nil, List.tail_nil, hoff.zero]
  | cons x s =>
    have hx : x = 0 := hs
    rw [hx, List.tail_cons]

/-- Segments that go on from a field add up to one path that does. -/
theorem sum_eq_cons_zero {segments : List (List Int)} (h : ∀ s ∈ segments, s.headD 0 = 0) :
    offsetSum off segments = off (0 :: segments.flatMap List.tail) := by
  induction segments with
  | nil => exact hoff.zero.symm
  | cons s segments ih =>
    obtain ⟨hs, hrest⟩ := List.forall_mem_cons.mp h
    rw [offsetSum, ih hrest, hoff.eq_cons_zero hs, List.flatMap_cons]
    exact (hoff.append (0 :: s.tail) _ (List.cons_ne_nil _ _)).symm

/-- **The offset that an exact path stands for.** Without an index to start with, the path goes on from the object
as it would from a field. -/
theorem sum_segments {d : Derivation} (hexact : (Address.ofDerivation d).exact = true) :
    offsetSum off d.segments =
      if d.Unindexed then off (0 :: (Address.ofDerivation d).path) else off (Address.ofDerivation d).path := by
  obtain ⟨object, segments⟩ := d
  cases segments with
  | nil =>
    rw [if_neg (by simp [Derivation.Unindexed])]
    exact hoff.nil.symm
  | cons s rest =>
    have hrest : ∀ r ∈ rest, r.headD 0 = 0 := by
      intro r hr
      exact beq_iff_eq.mp (List.all_eq_true.mp hexact r hr)
    rw [offsetSum, hoff.sum_eq_cons_zero hrest]
    -- only the field address next to the object can lack an index that matters
    by_cases hs : s = []
    · rw [if_pos (by simp [Derivation.Unindexed, hs]), hs, hoff.nil, Int.zero_add]
      rfl
    · rw [if_neg (by simp [Derivation.Unindexed, hs])]
      exact (hoff.append s _ hs).symm

/-- Exact paths that are equal stand for one offset, unless only one of them lacks its first index. -/
theorem sum_segments_eq {d e : Derivation} (h : d.SamePath e) (halike : d.Alike e) :
    offsetSum off d.segments = offsetSum off e.segments := by
  rw [hoff.sum_segments h.exact_left, hoff.sum_segments h.exact_right, ← h.path]
  -- an empty path has no offset either way
  rcases halike with hnil | hiff
  · rw [hnil, hoff.nil, hoff.zero, ite_self, ite_self]
  · simp only [hiff]

end Offsets

/-! ## The number of a value -/

namespace Tables

variable {t : Tables} {off : List Int → Int} {addr : Value → Int}

/-- The number of a value is that of its object and the offsets of its field addresses. -/
theorem LaysOut.addr_eq (h : t.LaysOut off addr) (hends : t.ChainsEnd) {v : Value} {d : Derivation}
    (hd : t.derivation v = .ok d) : addr v = addr d.object + offsetSum off d.segments := by
  obtain ⟨n, o, hn⟩ := hends v
  -- one step of the chain takes one cast or one segment away
  induction hn generalizing d with
  | stop hnone =>
    rw [derivation_of_origin?_eq_none hnone hd]
    exact (Int.add_zero _).symm
  | step hsome _ ih =>
    obtain ⟨i, k, rfl, hk, rfl | ⟨indices, rfl⟩⟩ := origin?_eq_some hsome
    · rw [derivation_cast hends hk] at hd
      rw [h.cast _ _ hk, ih hd]
    · rw [derivation_fieldAddr hends hk] at hd
      obtain ⟨e, he, rfl⟩ := map_eq_ok.mp hd
      rw [h.fieldAddr _ _ _ hk, ih he, offsetSum_concat, Int.add_assoc]

/-- Every segment of a derivation is the list of indices of a field address. -/
theorem exists_fieldAddr_of_mem_segments (hends : t.ChainsEnd) {v : Value} {d : Derivation}
    (hd : t.derivation v = .ok d) {s : List Int} (hs : s ∈ d.segments) :
    ∃ i base, t.kindOf i = .ok (.fieldAddr base s) := by
  obtain ⟨n, o, hn⟩ := hends v
  -- along the chain, as for the number of a value
  induction hn generalizing d with
  | stop hnone =>
    rw [derivation_of_origin?_eq_none hnone hd] at hs
    cases hs
  | step hsome _ ih =>
    obtain ⟨i, k, rfl, hk, rfl | ⟨indices, rfl⟩⟩ := origin?_eq_some hsome
    · rw [derivation_cast hends hk] at hd
      exact ih hd hs
    · rw [derivation_fieldAddr hends hk] at hd
      obtain ⟨e, he, rfl⟩ := map_eq_ok.mp hd
      rcases List.mem_append.mp hs with hs | hs
      · exact ih he hs
      · rw [List.mem_singleton.mp hs]
        exact ⟨i, _, hk⟩

/-! ## Counting fields -/

/-- How many fields a path steps into. -/
def depth (p : List Int) : Int := p.tail.length

/-- How many fields the field addresses of a value step into. -/
def depthOf (t : Tables) (v : Value) : Int :=
  match t.derivation v with
  | .ok d => offsetSum depth d.segments
  | .error _ => 0

/-- Counting fields respects how paths are put together. -/
theorem offsets_depth : Offsets depth where
  nil := rfl
  append p q hp := by
    cases p with
    | nil => exact absurd rfl hp
    | cons x p => simp [depth]

/-- Counting fields tells a path from the same path behind one more index. -/
theorem alike_of_sum_depth {d e : Derivation} (h : d.SamePath e)
    (hsum : offsetSum depth d.segments = offsetSum depth e.segments) : d.Alike e := by
  rw [offsets_depth.sum_segments h.exact_left, offsets_depth.sum_segments h.exact_right, ← h.path] at hsum
  unfold Derivation.Alike
  cases hpath : (Address.ofDerivation d).path with
  | nil => exact .inl rfl
  | cons x p =>
    -- one more index in front is one more field
    have hdepth : depth (0 :: x :: p) ≠ depth (x :: p) := by
      show ((p.length + 1 : Nat) : Int) ≠ p.length
      omega
    rw [hpath] at hsum
    right
    by_cases hd : d.Unindexed
    · by_cases he : e.Unindexed
      · exact iff_of_true hd he
      · rw [if_pos hd, if_neg he] at hsum
        exact absurd hsum hdepth
    · by_cases he : e.Unindexed
      · rw [if_neg hd, if_pos he] at hsum
        exact absurd hsum.symm hdepth
      · exact iff_of_false hd he

/-- Counting fields is a layout. -/
theorem laysOut_depthOf (ht : t.InRange) (hends : t.ChainsEnd) : t.LaysOut depth t.depthOf where
  cast i v hk := by
    unfold depthOf
    rw [derivation_cast hends hk]
  fieldAddr i base indices hk := by
    obtain ⟨n, o, hn⟩ := hends base
    -- the base has a derivation, since it is in the tables and its chain ends
    obtain ⟨passed, hpassed⟩ := hn.exists_derivation ht (origin_within ht (origin?_of_kindOf hk))
    unfold depthOf
    rw [derivation_fieldAddr hends hk, hpassed]
    exact offsetSum_concat depth passed indices

/-! ## Values that are certainly the same place -/

variable {a b : Value} {d e : Derivation}

/-- Different values that are certainly the same place are exact paths away from one object. -/
theorem samePath_of_must (hd : t.derivation a = .ok d) (he : t.derivation b = .ok e) (hab : a ≠ b)
    (h : t.aliasing a b = .ok .must) : d.object = e.object ∧ d.SamePath e := by
  rcases aliasing_eq_must.mp h with heq | ⟨x, y, hx, hy, hobject, ⟨hx', hy'⟩, hpath⟩
  · exact absurd heq hab
  · unfold address at hx hy
    rw [hd] at hx
    rw [he] at hy
    cases hx
    cases hy
    rw [Address.object_ofDerivation, Address.object_ofDerivation] at hobject
    exact ⟨hobject, hx', hy', hpath⟩

/-- Where every field address has an index, no derivation starts without one. -/
theorem not_unindexed (hends : t.ChainsEnd) (hindexed : ∀ i base, t.kindOf i ≠ .ok (.fieldAddr base []))
    (hd : t.derivation a = .ok d) : ¬ d.Unindexed := by
  intro hempty
  obtain ⟨i, base, hi⟩ := exists_fieldAddr_of_mem_segments hends hd (List.mem_of_head? hempty)
  exact hindexed i base hi

/-- Two values that are certainly the same place are told apart by some layout exactly if their paths start
differently. -/
theorem laidOutAlike_iff (ht : t.InRange) (hends : t.ChainsEnd) (hd : t.derivation a = .ok d)
    (he : t.derivation b = .ok e) (h : t.aliasing a b = .ok .must) : t.LaidOutAlike a b ↔ d.Alike e := by
  by_cases hab : a = b
  · -- a value is always laid out as itself, also if its path is not exact
    subst hab
    rw [hd] at he
    cases he
    exact ⟨fun _ => .inr Iff.rfl, fun _ _ _ _ _ => rfl⟩
  · obtain ⟨hobject, hsame⟩ := samePath_of_must hd he hab h
    constructor
    · intro hall
      -- the layout that counts fields is one of all layouts, and tells the two starts apart
      have hcount := hall depth t.depthOf offsets_depth (laysOut_depthOf ht hends)
      unfold depthOf at hcount
      rw [hd, he] at hcount
      exact alike_of_sum_depth hsame hcount
    · intro halike off addr hoff haddr
      rw [haddr.addr_eq hends hd, haddr.addr_eq hends he, hobject, hoff.sum_segments_eq hsame halike]

/-- **Values that are certainly the same place have the same number in every layout**, unless exactly one
of them is computed from a field address without an index that stands next to the object, and some index
follows it. Where every field address has an index there is no exception. -/
theorem must_laid_out_alike_iff (ht : t.InRange) (hends : t.ChainsEnd) (ha : a.Within t.sizes)
    (hb : b.Within t.sizes) (h : t.aliasing a b = .ok .must) :
    ∃ d e, t.derivation a = .ok d ∧ t.derivation b = .ok e ∧ (t.LaidOutAlike a b ↔ d.Alike e) ∧
      ((∀ i base, t.kindOf i ≠ .ok (.fieldAddr base [])) → t.LaidOutAlike a b) := by
  obtain ⟨n, o, hn⟩ := hends a
  obtain ⟨m, q, hm⟩ := hends b
  -- both values have a derivation, as all chains end
  obtain ⟨_, hd⟩ := hn.exists_derivation ht ha
  obtain ⟨_, he⟩ := hm.exists_derivation ht hb
  have hiff := laidOutAlike_iff ht hends hd he h
  refine ⟨_, _, hd, he, hiff, fun hindexed => hiff.mpr (.inr ?_)⟩
  exact iff_of_false (not_unindexed hends hindexed hd) (not_unindexed hends hindexed he)

/-- The two ways to the field of `fieldThroughCast` both start with an index. -/
theorem laid_out_alike_fieldThroughCast :
    fieldThroughCast.aliasing (.inst ⟨0⟩) (.inst ⟨3⟩) = .ok .must ∧
      fieldThroughCast.LaidOutAlike (.inst ⟨0⟩) (.inst ⟨3⟩) := by
  have hmust : fieldThroughCast.aliasing (.inst ⟨0⟩) (.inst ⟨3⟩) = .ok .must := rfl
  obtain ⟨d, e, hd, he, hiff, -⟩ := must_laid_out_alike_iff inRange_fieldThroughCast chainsEnd_fieldThroughCast
    (by decide) (by decide) hmust
  cases hd
  cases he
  exact ⟨hmust, hiff.mpr (.inr (by decide))⟩

/-- A field address without an index, a field of what it points to, and the element behind the object. -/
def steppedFromUnindexed : String :=
  "[[[\"M\",[\"i64\",\"i64\"]]],[],[[\"f\",[\"*M\"],\"void\",[[\"s\",[
    \x7b\"id\":\"same\",\"op\":\"field\",\"base\":\"%0\",\"indices\":[],\"ty\":\"*M\"\x7d,
    \x7b\"id\":\"field\",\"op\":\"field\",\"base\":\"same\",\"indices\":[0,1],\"ty\":\"*i64\"\x7d,
    \x7b\"id\":\"next\",\"op\":\"field\",\"base\":\"%0\",\"indices\":[1],\"ty\":\"*M\"\x7d]]]]]]"

/-- The tables of `steppedFromUnindexed`. -/
def unindexedTables : Tables where
  types := #[.void, .int 64, .record "M" [⟨1⟩, ⟨1⟩], .pointer ⟨2⟩, .pointer ⟨1⟩]
  globals := #[]
  functions := #[⟨"f", [⟨3⟩], ⟨0⟩, [⟨0⟩]⟩]
  blocks := #[⟨"s", ⟨0⟩, [⟨0⟩, ⟨1⟩, ⟨2⟩]⟩]
  insts := #[⟨.fieldAddr (.arg ⟨0⟩ 0) [], ⟨3⟩, ⟨0⟩, none⟩, ⟨.fieldAddr (.inst ⟨0⟩) [0, 1], ⟨4⟩, ⟨0⟩, none⟩,
    ⟨.fieldAddr (.arg ⟨0⟩ 0) [1], ⟨3⟩, ⟨0⟩, none⟩]

set_option maxRecDepth 4000 in
/-- The second field of a record and the next record are taken for the same place. -/
theorem must_steppedFromUnindexed : ∃ p off addr, Program.load steppedFromUnindexed = .ok p ∧ p.ChainsEnd ∧
    Offsets off ∧ p.LaysOut off addr ∧ p.aliasing (.inst ⟨1⟩) (.inst ⟨2⟩) = .ok .must ∧
      addr (.inst ⟨1⟩) ≠ addr (.inst ⟨2⟩) := by
  obtain ⟨p, hload, hp⟩ : ∃ p, Program.load steppedFromUnindexed = .ok p ∧ p.toTables = unindexedTables :=
    Program.exists_load_of_chars rfl (by decide +kernel)
  have ht := Program.inRange_of_load hload
  have hends : p.ChainsEnd := by
    rw [chainsEnd_iff ht, hp]
    decide +kernel
  -- the second field is one field deep, the next record is none
  refine ⟨p, depth, p.depthOf, hload, hends, offsets_depth, laysOut_depthOf ht hends, ?_, ?_⟩
  · rw [hp]
    rfl
  · rw [hp]
    decide

end Tables

end Relock
