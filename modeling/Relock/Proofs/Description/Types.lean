import Relock.Proofs.Builder.Entries
import Relock.Proofs.Description.InRange
import Relock.Proofs.Description.TypeText

/-!
# Types are resolved to what their texts spell

Resolving a type may add pointers and integers to the table, so a text is related to an entry of the
tables that come out. Whether it can be resolved depends on the declared names alone.

* `Tables.Spells`: an entry of the tables is the type that a text spells;
* `resolveType_spells`, `resolveTypes_spell`: what is resolved is what is spelled;
* `succeeds_resolveType`, `succeeds_resolveTypes`: what can be resolved;
* `declareTypes_knows`, `succeeds_declareTypes`, `succeeds_defineRecords`: the declared types.
-/

namespace Relock

open Description (BaseType TypeText Spelling)

/-- What a base type says about an entry of the table. -/
def Description.BaseType.Describes : BaseType → TypeKind → Prop
  | .void, k => k = .void
  | .int bits, k => k = .int bits
  | .named name, k => k.name? = some name

namespace Tables

variable {t t' : Tables} {e : Entries}

/-- The type with the index `i` is that many pointers to a type that `base` describes. -/
inductive Denotes (t : Tables) (base : BaseType) : Nat → TypeId → Prop where
  | base {i : TypeId} {k : TypeKind} (hi : t.type i = .ok k) (hk : base.Describes k) : Denotes t base 0 i
  | pointer {stars : Nat} {i p : TypeId} (hp : t.type p = .ok (.pointer i)) (hi : Denotes t base stars i) :
      Denotes t base (stars + 1) p

/-- The type with the index `i` is the one that the text `s` spells. -/
def Spells (t : Tables) (s : String) (i : TypeId) : Prop :=
  ∃ text : TypeText, Spelling s text ∧ t.Denotes text.base text.stars i

/-- A type goes on to be what it is when entries are added. -/
theorem Denotes.mono {base : BaseType} {stars : Nat} {i : TypeId} (h : t.Denotes base stars i)
    (hadds : t.Adds e t') : t'.Denotes base stars i := by
  induction h with
  | base hi hk => exact .base (hadds.types _ _ hi) hk
  | pointer hp _ ih => exact .pointer (hadds.types _ _ hp) ih

/-- A text goes on to spell the type when entries are added. -/
theorem Spells.mono {s : String} {i : TypeId} (h : t.Spells s i) (hadds : t.Adds e t') : t'.Spells s i := by
  obtain ⟨text, hspelling, hdenotes⟩ := h
  exact ⟨text, hspelling, hdenotes.mono hadds⟩

end Tables

namespace Description

open Builder

variable {b b' : Builder} {names : List String}

/-! ## Resolving -/

/-- Types made on the way to a type, none of them declared. -/
structure Finds (b : Builder) (names : List String) (b' : Builder) : Prop where
  knows : b'.Knows names
  adds : b.tables.Adds {} b'.tables

theorem Finds.trans {b'' : Builder} (h : Finds b names b') (h' : Finds b' names b'') : Finds b names b'' :=
  ⟨h'.knows, h.adds.trans h'.adds⟩

/-- That many pointers are put around a type, one star at a time. -/
theorem pointers_denote (hb : b.Knows names) {base : BaseType} {i : TypeId}
    (hi : b.tables.Denotes base 0 i) (stars : Nat) :
    Finds b names (pointers b i stars).2 ∧
      (pointers b i stars).2.tables.Denotes base stars (pointers b i stars).1 := by
  induction stars with
  | zero => exact ⟨⟨hb, .refl _⟩, hi⟩
  | succ stars ih =>
    obtain ⟨hfinds, hdenotes⟩ := ih
    -- one pointer more, to what the stars so far denote
    have hptr := makes_pointer hfinds.knows (pointers b i stars).1
    exact ⟨hfinds.trans ⟨hptr.knows, hptr.adds⟩, .pointer hptr.type (hdenotes.mono hptr.adds)⟩

/-- A base type is resolved to the entry that it describes. A name is looked up among the declared types. -/
theorem resolveBase_denotes (hb : b.Knows names) {base : BaseType} {i : TypeId}
    (h : resolveBase b base = .ok (i, b')) : Finds b names b' ∧ b'.tables.Denotes base 0 i := by
  cases base with
  | void =>
    cases h
    exact ⟨⟨hb, .refl _⟩, .base hb.void rfl⟩
  | int bits =>
    have hint := makes_int hb bits
    rw [Except.ok.inj h] at hint
    exact ⟨⟨hint.knows, hint.adds⟩, .base hint.type rfl⟩
  | named name =>
    simp only [resolveBase] at h
    split at h
    · -- the name was found, so the type found has it
      next hname =>
      cases h
      obtain ⟨k, hk, hkname⟩ := type_of_lookupNamed hname
      exact ⟨⟨hb, .refl _⟩, .base hk hkname⟩
    · cases h

/-- **A text is resolved to the type that it spells**, and all that is added on the way are types. -/
theorem resolveType_spells (hb : b.Knows names) {s : String} {i : TypeId}
    (h : resolveType b s = .ok (i, b')) : Finds b names b' ∧ b'.tables.Spells s i := by
  obtain ⟨⟨base, b₁⟩, hbase, h⟩ := bind_eq_ok.mp h
  obtain ⟨hfinds, hdenotes⟩ := resolveBase_denotes hb hbase
  -- first the base type, then its pointers
  have hpointers := pointers_denote hfinds.knows hdenotes (TypeText.ofText s).stars
  rw [pure_eq_ok.mp h] at hpointers
  obtain ⟨hptrs, hdenotes⟩ := hpointers
  exact ⟨hfinds.trans hptrs, _, spelling_ofText s, hdenotes⟩

/-- Texts are resolved one after the other, each to the type that it spells. -/
theorem resolveTypes_spell (hb : b.Knows names) {ss : List String} {is : List TypeId}
    (h : resolveTypes b ss = .ok (is, b')) :
    Finds b names b' ∧ List.Forall₂ b'.tables.Spells ss is := by
  induction ss generalizing b is with
  | nil =>
    cases h
    exact ⟨⟨hb, .refl _⟩, .nil⟩
  | cons s ss ih =>
    obtain ⟨⟨i, b₁⟩, hi, h⟩ := bind_eq_ok.mp h
    obtain ⟨⟨is, b₂⟩, his, h⟩ := bind_eq_ok.mp h
    cases h
    obtain ⟨hfirst, hspells⟩ := resolveType_spells hb hi
    obtain ⟨hrest, hspell⟩ := ih hfirst.knows his
    -- the types of the rest are added after the first one
    exact ⟨hfirst.trans hrest, .cons (hspells.mono hrest.adds) hspell⟩

/-! ## What can be resolved -/

/-- **A text can be resolved exactly if it spells a type** with the names declared so far. -/
theorem succeeds_resolveType (hb : b.Knows names) {s : String} :
    Succeeds (resolveType b s) ↔ Resolves names s := by
  rw [resolves_iff, resolveType, succeeds_bind_pure]
  cases (TypeText.ofText s).base with
  -- void and integers can always be made, only a name can be missing
  | void => exact iff_of_true (succeeds_ok _) (by simp)
  | int bits => exact iff_of_true (succeeds_ok _) (by simp)
  | named name =>
    simp only [BaseType.named.injEq, forall_eq', ← hb.lookupNamed_isSome]
    simp only [resolveBase]
    cases b.lookupNamed name with
    | none => exact iff_of_false (not_succeeds_error _) (by simp)
    | some i => exact iff_of_true (succeeds_ok _) rfl

/-- Texts can be resolved exactly if each of them can. What the first ones add declares no name. -/
theorem succeeds_resolveTypes (hb : b.Knows names) {ss : List String} :
    Succeeds (resolveTypes b ss) ↔ ∀ s ∈ ss, Resolves names s := by
  induction ss generalizing b with
  | nil => exact iff_of_true (succeeds_ok _) (by simp)
  | cons s ss ih =>
    rw [List.forall_mem_cons, ← succeeds_resolveType hb, resolveTypes]
    refine succeeds_bind fun r hr => ?_
    obtain ⟨hfinds, -⟩ := resolveType_spells hb hr
    exact succeeds_bind_pure.trans (ih hfinds.knows)

/-- What the builder refuses is passed on as it is. -/
theorem succeeds_built {α : Type} {x : Except Fault α} : Succeeds (built x) ↔ Succeeds x := by
  simp only [Succeeds, built_eq_ok]

/-! ## Declared types -/

/-- After the declarations the declared names are known, and the records that were declared exist. -/
theorem declareTypes_knows (hb : b.Knows names) {ds : List TypeDesc} {records : List (TypeId × List String)}
    (h : declareTypes b ds = .ok (records, b')) :
    b'.Knows (ds.map TypeDesc.name ++ names) ∧ (∀ i, Succeeds (b.tables.type i) → Succeeds (b'.tables.type i)) ∧
      records.map Prod.snd = ds.filterMap TypeDesc.fields ∧ ∀ r ∈ records, Succeeds (b'.tables.type r.1) := by
  induction ds generalizing b names records with
  | nil =>
    cases h
    exact ⟨hb, fun _ hi => hi, rfl, by simp⟩
  | cons d ds ih =>
    -- the order in which names were declared does not matter
    have hnames (name : String) : name ∈ ds.map TypeDesc.name ++ d.name :: names ↔
        name ∈ (d :: ds).map TypeDesc.name ++ names := by
      simp only [List.map_cons, List.cons_append, List.mem_append, List.mem_cons]
      tauto
    unfold declareTypes at h
    split at h
    · cases h
    · split at h
      · -- without fields it is a type without a body, and gives no record
        next hfields =>
        have hmade := makes_bodylessType hb d.name
        obtain ⟨hknows, hkept, hrecords, hexist⟩ := ih hmade.knows h
        refine ⟨hknows.congr hnames, fun i hi => hkept i (hmade.adds.succeeds_type hi), ?_, hexist⟩
        rw [List.filterMap_cons_none hfields, hrecords]
      · next fields hfields =>
        obtain ⟨⟨more, b₁⟩, hmore, h⟩ := bind_eq_ok.mp h
        cases h
        have hmade := makes_declareRecord hb d.name
        obtain ⟨hknows, hkept, hrecords, hexist⟩ := ih hmade.knows hmore
        refine ⟨hknows.congr hnames, fun i hi => hkept i (hmade.adds.succeeds_type hi), ?_, ?_⟩
        · rw [List.filterMap_cons_some hfields, List.map_cons, hrecords]
        · rw [List.forall_mem_cons]
          exact ⟨hkept _ ⟨_, hmade.type⟩, hexist⟩

/-- The names that are taken by the first of some items are taken for the others. -/
theorem nodup_cons_iff {name : String} {names known : List String} (hname : name ∉ known) :
    ((name :: names).Nodup ∧ ∀ x ∈ name :: names, x ∉ known) ↔ names.Nodup ∧ ∀ x ∈ names, x ∉ name :: known := by
  rw [List.nodup_cons, List.forall_mem_cons]
  constructor
  · rintro ⟨⟨hfresh, hnodup⟩, -, hothers⟩
    refine ⟨hnodup, fun x hx hin => ?_⟩
    rcases List.mem_cons.mp hin with rfl | hin
    · exact hfresh hx
    · exact hothers x hx hin
  · rintro ⟨hnodup, hothers⟩
    exact ⟨⟨fun hin => hothers name hin (List.mem_cons_self ..), hnodup⟩, hname,
      fun x hx hin => hothers x hx (List.mem_cons_of_mem _ hin)⟩

/-- **Types can be declared exactly if their names are new** and no two of them are the same. -/
theorem succeeds_declareTypes (hb : b.Knows names) {ds : List TypeDesc} :
    Succeeds (declareTypes b ds) ↔
      (ds.map TypeDesc.name).Nodup ∧ ∀ name ∈ ds.map TypeDesc.name, name ∉ names := by
  induction ds generalizing b names with
  | nil => exact iff_of_true (succeeds_ok _) (by simp)
  | cons d ds ih =>
    unfold declareTypes
    split
    · -- the name is taken: the declaration is refused, and the names are not new
      next hknown =>
      rw [hb.lookupNamed_isSome] at hknown
      exact iff_of_false (not_succeeds_error _) fun h => h.2 d.name (by simp) hknown
    · next hknown =>
      rw [hb.lookupNamed_isSome] at hknown
      -- whichever kind of type it is, its name is taken for the rest
      have hrest {b₁ : Builder} (hb₁ : b₁.Knows (d.name :: names)) : Succeeds (declareTypes b₁ ds) ↔
          ((d :: ds).map TypeDesc.name).Nodup ∧ ∀ name ∈ (d :: ds).map TypeDesc.name, name ∉ names := by
        rw [ih hb₁, List.map_cons, nodup_cons_iff hknown]
      split
      · exact hrest (makes_bodylessType hb d.name).knows
      · exact succeeds_bind_pure.trans (hrest (makes_declareRecord hb d.name).knows)

/-- Giving records their fields declares no name. -/
theorem defineRecords_knows (hb : b.Knows names) {records : List (TypeId × List String)}
    (h : defineRecords b records = .ok b') : b'.Knows names := by
  induction records generalizing b with
  | nil =>
    cases h
    exact hb
  | cons record records ih =>
    obtain ⟨⟨fields, b₁⟩, hfields, h⟩ := bind_eq_ok.mp h
    obtain ⟨b₂, hset, h⟩ := bind_eq_ok.mp h
    obtain ⟨hfinds, -⟩ := resolveTypes_spell hb hfields
    exact ih (knows_setFields hfinds.knows (built_eq_ok.mp hset)) h

/-- **Records can be given their fields exactly if the text of every field spells a type.** Every name is declared
by then, so records may mention each other in any order. -/
theorem succeeds_defineRecords (hb : b.Knows names) {records : List (TypeId × List String)}
    (hrecords : ∀ r ∈ records, Succeeds (b.tables.type r.1)) :
    Succeeds (defineRecords b records) ↔ ∀ r ∈ records, ∀ s ∈ r.2, Resolves names s := by
  induction records generalizing b with
  | nil => exact iff_of_true (succeeds_ok _) (by simp)
  | cons record records ih =>
    obtain ⟨hrecord, hrecords⟩ := List.forall_mem_cons.mp hrecords
    rw [List.forall_mem_cons, ← succeeds_resolveTypes hb, defineRecords]
    refine succeeds_bind fun ⟨fields, b₁⟩ hfields => ?_
    obtain ⟨hfinds, -⟩ := resolveTypes_spell hb hfields
    -- the record exists, so its fields can be set
    obtain ⟨b₂, hset⟩ := succeeds_setFields (hfinds.adds.succeeds_type hrecord) fields
    show Succeeds (built (b₁.setFields record.1 fields) >>= fun b => defineRecords b records) ↔ _
    rw [hset]
    refine ih (knows_setFields hfinds.knows hset) fun r hr => ?_
    exact succeeds_type_setFields hset (hfinds.adds.succeeds_type (hrecords r hr))

end Description

end Relock
