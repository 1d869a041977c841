import Relock.Proofs.Builder.Entries
import Relock.Proofs.Builder.InRange

/-!
# Type tables with one index for each type

Types get into a table in two ways. Integers, pointers and types without known fields are shared: a builder
finds them again by what they are. Records are entries of their own, which change when their fields are set,
and are told apart by their names. The two ways do not get in each other's way as long as no name is
declared twice and no record is shared; then equal indices mean equal types and the other way round.

* `Tables.CanonicalTypes`: what holds of such a table;
* `Tables.CanonicalTypes.exists_typeName`: every type in it has a spelling;
* `Builder.Canonical`: the invariant, about the table and the shared types;
* `Builder.canonical_intern`, `Builder.canonical_declareRecord`, `Builder.canonical_setFields`: what keeps it.
-/

namespace Relock

/-! ## Tables -/

/-- No type is in the table twice, no name is declared twice, and pointers point back in the table. -/
structure Tables.CanonicalTypes (t : Tables) : Prop where
  void : t.type .void = .ok .void
  word : t.type .word = .ok (.int 64)
  kinds : ∀ i j k, t.type i = .ok k → t.type j = .ok k → i = j
  names : ∀ i j k l name, t.type i = .ok k → t.type j = .ok l → k.name? = some name → l.name? = some name → i = j
  pointers : ∀ i p, t.type i = .ok (.pointer p) → p.index < i.index

namespace Tables

variable {t : Tables}

theorem lt_of_type {i : TypeId} {k : TypeKind} (h : t.type i = .ok k) : i.index < t.types.size :=
  (Array.getElem?_eq_some_iff.mp (type_eq_ok.mp h)).1

/-- A look-up succeeds for the types of the table, and for no others. -/
theorem succeeds_type {i : TypeId} : Succeeds (t.type i) ↔ i.index < t.types.size := by
  constructor
  · rintro ⟨k, hk⟩
    exact lt_of_type hk
  · intro hi
    exact ⟨_, type_eq_ok.mpr (Array.getElem?_eq_getElem hi)⟩

/-- Only pointers are looked through, and each of them leads further back in the table. -/
theorem CanonicalTypes.exists_typeNameWithin (h : t.CanonicalTypes) {n : Nat} {i : TypeId} (hi : i.index < n)
    (htype : Succeeds (t.type i)) : ∃ name, t.typeNameWithin n i = .ok name := by
  induction n generalizing i with
  | zero => cases hi
  | succ n ih =>
    obtain ⟨k, hk⟩ := htype
    unfold typeNameWithin
    refine exists_bind_ok ⟨k, hk⟩ fun k' hk' => ?_
    cases k' with
    | pointer p =>
      -- the fuel is larger than the index, and the index gets smaller
      have hback := h.pointers i p hk'
      have hlt := lt_of_type hk
      refine exists_bind_ok (ih (by omega) (succeeds_type.mpr (by omega))) fun name _ => ⟨_, rfl⟩
    | _ => exact ⟨_, rfl⟩

/-- Exactly the types of the table have a spelling. -/
theorem CanonicalTypes.exists_typeName (h : t.CanonicalTypes) (i : TypeId) :
    (∃ name, t.typeName i = .ok name) ↔ i.index < t.types.size := by
  constructor
  · rintro ⟨name, hname⟩
    obtain ⟨k, hk, -⟩ := bind_eq_ok.mp hname
    exact lt_of_type hk
  · intro hi
    exact h.exists_typeNameWithin (Nat.lt_succ_of_lt hi) (succeeds_type.mpr hi)

end Tables

/-! ## What the operations do to the types -/

/-- A type with other fields, if it is a record. -/
def TypeKind.withFields (fields : List TypeId) : TypeKind → TypeKind
  | .record name _ => .record name fields
  | k => k

@[simp] theorem TypeKind.name?_withFields (fields : List TypeId) (k : TypeKind) :
    (k.withFields fields).name? = k.name? := by
  cases k <;> rfl

/-- What is no record afterwards was none before, and has not changed. -/
theorem TypeKind.withFields_eq {fields : List TypeId} {k l : TypeKind}
    (hl : ∀ name fields, l ≠ .record name fields) : k.withFields fields = l ↔ k = l := by
  cases k with
  | record name old =>
    refine iff_of_false (fun heq => hl name fields heq.symm) (fun heq => hl name old heq.symm)
  | _ => rfl

namespace Builder

variable {b b' : Builder}

/-- A type that is added comes last, and the others stay where they are. -/
theorem type_addType {k l : TypeKind} {i : TypeId} : (b.addType k).2.tables.type i = .ok l ↔
    b.tables.type i = .ok l ∨ i = ⟨b.tables.types.size⟩ ∧ l = k := by
  rw [Tables.type_eq_ok, Tables.type_eq_ok, addType, Array.getElem?_push]
  obtain ⟨n⟩ := i
  by_cases hn : n = b.tables.types.size
  · simp [hn, eq_comm]
  · simp [hn]

/-- No type has a name that is not found. -/
theorem lookupNamed_eq_none {name : String} : b.lookupNamed name = none ↔
    ∀ i k, b.tables.type i = .ok k → k.name? ≠ some name := by
  rw [lookupNamed, Option.map_eq_none_iff, Array.findIdx?_eq_none_iff]
  simp only [Tables.type_eq_ok, beq_eq_false_iff_ne]
  constructor
  · intro h i k hk
    exact h k (Array.mem_of_getElem? hk)
  · -- a type of the table has an index
    intro h k hk
    obtain ⟨n, hn⟩ := Array.mem_iff_getElem?.mp hk
    exact h ⟨n⟩ k hn

/-- Setting fields changes one entry, if it is a record. -/
theorem type_setFields {t i : TypeId} {fields : List TypeId} {l : TypeKind} (h : b.setFields t fields = .ok b') :
    b'.tables.type i = .ok l ↔
      ∃ k, b.tables.type i = .ok k ∧ (if i = t then k.withFields fields else k) = l := by
  obtain ⟨k, hk, h⟩ := bind_eq_ok.mp h
  -- a record is replaced; any other type is left as it is, which `withFields` says too
  cases k with
  | record name old =>
    cases h
    rw [Tables.type_eq_ok, Array.getElem?_setIfInBounds]
    split
    · next heq =>
      obtain rfl : t = i := congrArg TypeId.mk heq
      simp [hk, TypeKind.withFields, Tables.lt_of_type hk]
    · next hne =>
      have hit : i ≠ t := fun heq => hne (congrArg TypeId.index heq.symm)
      simp [hit, Tables.type_eq_ok]
  | _ =>
    cases h
    by_cases hit : i = t
    · subst hit
      simp [hk, TypeKind.withFields]
    · simp [hit]

theorem interned_setFields {t : TypeId} {fields : List TypeId} (h : b.setFields t fields = .ok b') :
    b'.interned = b.interned := by
  obtain ⟨k, -, h⟩ := bind_eq_ok.mp h
  cases k <;> cases h <;> rfl

/-! ## Canonical builders -/

/-- The types other than records are found again by what they are, records have names of their own, and
pointers point back in the table. -/
structure Canonical (b : Builder) : Prop where
  void : b.tables.type .void = .ok .void
  word : b.tables.type .word = .ok (.int 64)
  shared : ∀ k i, (∀ name fields, k ≠ .record name fields) →
    (b.interned.lookup k = some i ↔ b.tables.type i = .ok k)
  names : ∀ i j k l name, b.tables.type i = .ok k → b.tables.type j = .ok l → k.name? = some name →
    l.name? = some name → i = j
  pointers : ∀ i p, b.tables.type i = .ok (.pointer p) → p.index < i.index

/-- **The table of a canonical builder has one index for each type.** Records are told apart by name, all other
types by being shared. -/
theorem Canonical.types (hb : b.Canonical) : b.tables.CanonicalTypes := by
  refine ⟨hb.void, hb.word, fun i j k hi hj => ?_, hb.names, hb.pointers⟩
  cases k with
  | record name fields => exact hb.names i j _ _ name hi hj rfl rfl
  | _ =>
    -- both indices are what the shared types have for this kind
    have hlookup := (hb.shared _ i (by simp)).mpr hi
    rw [(hb.shared _ j (by simp)).mpr hj] at hlookup
    exact (Option.some.inj hlookup).symm

theorem Canonical.of_eq (hb : b.Canonical) (htypes : b'.tables.types = b.tables.types)
    (hinterned : b'.interned = b.interned) : b'.Canonical := by
  have htype : b'.tables.type = b.tables.type := by
    unfold Tables.type
    rw [htypes]
  constructor
  · rw [htype]
    exact hb.void
  · rw [htype]
    exact hb.word
  · rw [htype, hinterned]
    exact hb.shared
  · rw [htype]
    exact hb.names
  · rw [htype]
    exact hb.pointers

/-- A type that is shared and in the table is found, and nothing is added. -/
theorem Canonical.intern_eq (hb : b.Canonical) {k : TypeKind} {i : TypeId}
    (hk : ∀ name fields, k ≠ .record name fields) (hi : b.tables.type i = .ok k) : b.intern k = (i, b) := by
  unfold intern
  rw [(hb.shared k i hk).mpr hi]

/-- A type that is declared is found by its name. -/
theorem Canonical.lookupNamed_eq (hb : b.Canonical) {name : String} {i : TypeId} {k : TypeKind}
    (hi : b.tables.type i = .ok k) (hname : k.name? = some name) : b.lookupNamed name = some i := by
  cases hlookup : b.lookupNamed name with
  | none => exact absurd hname (lookupNamed_eq_none.mp hlookup i k hi)
  | some j =>
    obtain ⟨l, hj, hl⟩ := type_of_lookupNamed hlookup
    rw [hb.names j i l k name hj hi hl hname]

/-- A new entry with a name of its own, if it has one, that points to an older type, if it is a pointer. -/
structure NewType (b : Builder) (k : TypeKind) : Prop where
  name : ∀ name, k.name? = some name → b.lookupNamed name = none
  pointer : ∀ p, k = .pointer p → p.index < b.tables.types.size

theorem NewType.names_addType {k : TypeKind} (hk : b.NewType k) (hb : b.Canonical) {i j : TypeId}
    {l m : TypeKind} {name : String} (hi : (b.addType k).2.tables.type i = .ok l)
    (hj : (b.addType k).2.tables.type j = .ok m) (hl : l.name? = some name) (hm : m.name? = some name) :
    i = j := by
  -- the new entry has a name that no other entry has
  rcases type_addType.mp hi with hold | ⟨rfl, rfl⟩
  · rcases type_addType.mp hj with hold' | ⟨rfl, rfl⟩
    · exact hb.names i j l m name hold hold' hl hm
    · exact absurd hl (lookupNamed_eq_none.mp (hk.name name hm) i l hold)
  · rcases type_addType.mp hj with hold' | ⟨rfl, -⟩
    · exact absurd hm (lookupNamed_eq_none.mp (hk.name name hl) j m hold')
    · rfl

theorem NewType.pointers_addType {k : TypeKind} (hk : b.NewType k) (hb : b.Canonical) {i p : TypeId}
    (hi : (b.addType k).2.tables.type i = .ok (.pointer p)) : p.index < i.index := by
  rcases type_addType.mp hi with hi | ⟨rfl, hp⟩
  · exact hb.pointers i p hi
  · exact hk.pointer p hp.symm

/-- A record is declared under a new name. -/
theorem canonical_declareRecord (hb : b.Canonical) {name : String} (hname : b.lookupNamed name = none) :
    (b.declareRecord name).2.Canonical := by
  have hnew : b.NewType (.record name []) := ⟨by rintro _ ⟨⟩; exact hname, by simp⟩
  refine ⟨type_addType.mpr (.inl hb.void), type_addType.mpr (.inl hb.word), fun k i hk => ?_,
    fun _ _ _ _ _ hi hj => hnew.names_addType hb hi hj, fun _ _ hi => hnew.pointers_addType hb hi⟩
  -- records are not shared, so nothing has to be said about the new entry
  refine (hb.shared k i hk).trans ⟨fun hi => type_addType.mpr (.inl hi), fun hi => ?_⟩
  exact (type_addType.mp hi).resolve_right fun h => hk _ _ h.2

/-- A shared type is added if it is not in the table yet. -/
theorem canonical_intern (hb : b.Canonical) {k : TypeKind} (hk : ∀ name fields, k ≠ .record name fields)
    (hnew : b.interned.lookup k = none → b.NewType k) : (b.intern k).2.Canonical := by
  unfold intern
  cases hlookup : b.interned.lookup k with
  | some i => exact hb
  | none =>
    have hnew := hnew hlookup
    refine ⟨type_addType.mpr (.inl hb.void), type_addType.mpr (.inl hb.word), fun l i hl => ?_,
      fun _ _ _ _ _ hi hj => hnew.names_addType hb hi hj, fun _ _ hi => hnew.pointers_addType hb hi⟩
    show ((k, _) :: b.interned).lookup l = some i ↔ (b.addType k).2.tables.type i = .ok l
    rw [type_addType, ← hb.shared l i hl, List.lookup_cons]
    -- what is found for `k` is the new entry; for other types nothing has changed
    by_cases hlk : l = k
    · subst hlk
      simp [hlookup, eq_comm, addType]
    · simp [hlk, beq_eq_false_iff_ne.mpr hlk]

/-- Integers have no name and point to nothing, so they can always be added. -/
theorem canonical_int (hb : b.Canonical) (bits : Nat) : (b.int bits).2.Canonical :=
  canonical_intern hb (by simp) fun _ => ⟨by simp [TypeKind.name?], by simp⟩

theorem canonical_pointer (hb : b.Canonical) {t : TypeId} (ht : t.index < b.tables.types.size) :
    (b.pointer t).2.Canonical :=
  canonical_intern hb (by simp) fun _ => ⟨by simp [TypeKind.name?], by rintro _ ⟨⟩; exact ht⟩

theorem canonical_bodylessType (hb : b.Canonical) {name : String} (hname : b.lookupNamed name = none) :
    (b.bodylessType name).2.Canonical :=
  canonical_intern hb (by simp) fun _ => ⟨by rintro _ ⟨⟩; exact hname, by simp⟩

/-- Setting the fields of a record changes neither its name nor any type that is shared. -/
theorem canonical_setFields (hb : b.Canonical) {t : TypeId} {fields : List TypeId}
    (h : b.setFields t fields = .ok b') : b'.Canonical := by
  -- what is no record stays as it is
  have hother (i : TypeId) {l : TypeKind} (hl : ∀ name fields, l ≠ .record name fields) :
      b'.tables.type i = .ok l ↔ b.tables.type i = .ok l := by
    rw [type_setFields h]
    split
    · simp only [TypeKind.withFields_eq hl, exists_eq_right]
    · simp only [exists_eq_right]
  -- and what is one keeps its name
  have hnamed {i : TypeId} {l : TypeKind} (hi : b'.tables.type i = .ok l) :
      ∃ k, b.tables.type i = .ok k ∧ k.name? = l.name? := by
    obtain ⟨k, hk, rfl⟩ := (type_setFields h).mp hi
    refine ⟨k, hk, ?_⟩
    split <;> simp
  refine ⟨(hother _ (by simp)).mpr hb.void, (hother _ (by simp)).mpr hb.word, fun k i hk => ?_,
    fun i j k l name hi hj hk hl => ?_, fun i p hi => hb.pointers i p ((hother i (by simp)).mp hi)⟩
  · rw [interned_setFields h, hother i hk]
    exact hb.shared k i hk
  · obtain ⟨k', hi', hk'⟩ := hnamed hi
    obtain ⟨l', hj', hl'⟩ := hnamed hj
    exact hb.names i j k' l' name hi' hj' (hk'.trans hk) (hl'.trans hl)

theorem canonical_empty : Builder.empty.Canonical := by
  -- the table starts with two entries, and each field of the invariant is read off them
  have htype {i : TypeId} {k : TypeKind} : Builder.empty.tables.type i = .ok k ↔
      i = .void ∧ k = .void ∨ i = .word ∧ k = .int 64 := by
    have hnone : Builder.tables ⟨.empty, []⟩ = .empty := rfl
    refine (type_addType (b := (addType ⟨.empty, []⟩ .void).2)).trans ?_
    rw [type_addType, Tables.type_eq_ok, hnone]
    simp [Tables.empty, TypeId.void, TypeId.word, addType]
  refine ⟨rfl, rfl, fun k i _ => ?_, fun i j k l name hi _ hk => ?_, fun i p hi => ?_⟩
  · have hinterned : Builder.empty.interned = [(.int 64, .word), (.void, .void)] := rfl
    rw [htype, hinterned, List.lookup_cons, List.lookup_cons, List.lookup_nil]
    cases k <;> grind
  · rcases htype.mp hi with ⟨-, rfl⟩ | ⟨-, rfl⟩ <;> cases hk
  · rcases htype.mp hi with ⟨-, hp⟩ | ⟨-, hp⟩ <;> cases hp

end Builder

end Relock
