import Relock.Proofs.Builder.Arrangement
import Relock.Proofs.Grouping

/-!
# What builders add

Apart from the lists of blocks and instructions, which `Tables.Arranged` accounts for, a builder changes
no entry: all that it does is to add entries at the end of the tables. `Tables.entries` is what the tables
hold besides types when those lists are left out, and `Tables.Adds` says what was added.

* `Tables.entries`, `Tables.Adds`: the entries of a program and how they grow;
* `Builder.Knows`: shared types stand where they are said to stand, and names are those declared;
* `Builder.Makes`: an operation that makes or finds a type of a certain kind.
-/

namespace Relock

/-! ## Entries without lists -/

/-- A function without the list of its blocks. -/
def Function.header (g : Function) : Function := { g with blocks := [] }

/-- A block without the list of its instructions. -/
def Block.head (x : Block) : Block := { x with insts := [] }

/-- The entries of tables in order, with functions and blocks as they are before anything is put into
them. -/
@[ext] structure Entries where
  globals : List Global := []
  functions : List Function := []
  blocks : List Block := []
  insts : List Instruction := []

namespace Entries

instance : Append Entries where
  append e e' := ⟨e.globals ++ e'.globals, e.functions ++ e'.functions, e.blocks ++ e'.blocks,
    e.insts ++ e'.insts⟩

variable (e e' e'' : Entries)

@[simp] theorem globals_append : (e ++ e').globals = e.globals ++ e'.globals := rfl

@[simp] theorem functions_append : (e ++ e').functions = e.functions ++ e'.functions := rfl

@[simp] theorem blocks_append : (e ++ e').blocks = e.blocks ++ e'.blocks := rfl

@[simp] theorem insts_append : (e ++ e').insts = e.insts ++ e'.insts := rfl

/-- Entries are added one lot after the other. -/
theorem append_assoc : e ++ e' ++ e'' = e ++ (e' ++ e'') := by
  ext1 <;> simp

@[simp] theorem append_empty : e ++ ({} : Entries) = e := by
  ext1 <;> simp

end Entries

namespace Tables

variable {t t' t'' : Tables} {e e' : Entries}

/-- The entries of tables other than types. -/
def entries (t : Tables) : Entries where
  globals := t.globals.toList
  functions := t.functions.toList.map Function.header
  blocks := t.blocks.toList.map Block.head
  insts := t.insts.toList

/-- All that happened to the tables is that types and the entries `e` were added at the end. -/
structure Adds (t : Tables) (e : Entries) (t' : Tables) : Prop where
  types : ∀ i k, t.type i = .ok k → t'.type i = .ok k
  entries : t'.entries = t.entries ++ e

theorem Adds.refl (t : Tables) : t.Adds {} t :=
  ⟨fun _ _ h => h, t.entries.append_empty.symm⟩

/-- **Two steps add what both of them add**, in order. Every claim about a longer part of the loader is put
together with this. -/
theorem Adds.trans (h : t.Adds e t') (h' : t'.Adds e' t'') : t.Adds (e ++ e') t'' :=
  ⟨fun i k hk => h'.types i k (h.types i k hk),
    by rw [h'.entries, h.entries, Entries.append_assoc]⟩

/-- Types that are added on the way are no entries. -/
theorem Adds.types_trans (h : t.Adds {} t') (h' : t'.Adds e t'') : t.Adds e t'' := h.trans h'

theorem type_eq_ok {i : TypeId} {k : TypeKind} : t.type i = .ok k ↔ t.types[i.index]? = some k := lookUp_eq_ok

theorem Adds.succeeds_type (h : t.Adds e t') {i : TypeId} (hi : Succeeds (t.type i)) : Succeeds (t'.type i) := by
  obtain ⟨k, hk⟩ := hi
  exact ⟨k, h.types i k hk⟩

/-- A function keeps its name and its result type. -/
theorem Adds.function (h : t.Adds e t') {f : FunctionId} {g : Function} (hg : t.function f = .ok g) :
    ∃ g', t'.function f = .ok g' ∧ g'.name = g.name ∧ g'.ret = g.ret := by
  -- the header of the function stands at its place, before and after
  have hold : t.entries.functions[f.index]? = some g.header := by
    simp [Tables.entries, function_eq_ok.mp hg]
  have hnew : t'.entries.functions[f.index]? = some g.header := by
    rw [h.entries, Entries.functions_append, List.getElem?_append_left (List.getElem?_eq_some_iff.mp hold).1, hold]
  obtain ⟨g', hg', heq⟩ : ∃ g', t'.functions[f.index]? = some g' ∧ g'.header = g.header := by
    simpa [Tables.entries] using hnew
  refine ⟨g', function_eq_ok.mpr hg', ?_, ?_⟩
  · show g'.header.name = g.header.name
    rw [heq]
  · show g'.header.ret = g.header.ret
    rw [heq]

end Tables

namespace Builder

variable {b b' : Builder}

/-! ## New entries -/

/-- A change of one entry that a view of the entries does not show. -/
theorem map_modify {α β : Type} {xs : List α} {n : Nat} {change : α → α} {view : α → β}
    (h : ∀ x, view (change x) = view x) : (xs.modify n change).map view = xs.map view := by
  apply List.ext_getElem?
  intro m
  simp only [List.getElem?_map, List.getElem?_modify]
  -- at the place that changes the view is the same, elsewhere the entry is
  split
  · cases xs[m]? <;> simp [h]
  · cases xs[m]? <;> rfl

/-- `Builder.function` adds one function without a body. -/
theorem adds_function (b : Builder) (name : String) (params : List TypeId) (ret : TypeId) :
    b.tables.Adds { functions := [⟨name, params, ret, []⟩] } (b.function name params ret).2.tables := by
  refine ⟨fun _ _ hk => hk, ?_⟩
  ext1 <;> simp [function, Tables.entries, Function.header]

/-- `Builder.block` adds one empty block. The function that lists it changes nothing else. -/
theorem adds_block {f : FunctionId} {label : String} {i : BlockId} (h : b.block f label = .ok (i, b')) :
    b.tables.Adds { blocks := [⟨label, f, []⟩] } b'.tables := by
  obtain ⟨-, rfl, rfl⟩ := block_eq_ok.mp h
  refine ⟨fun _ _ hk => hk, ?_⟩
  -- the function that lists one more block has the same header
  have hheader : ∀ g : Function, Function.header { g with blocks := g.blocks ++ [⟨b.tables.blocks.size⟩] } =
      g.header := fun _ => rfl
  ext1 <;> simp [Tables.entries, Block.head, map_modify hheader]

/-- `Builder.push` adds one instruction, without a location. -/
theorem adds_push {bb : BlockId} {kind : InstKind} {ty : TypeId} {i : InstId}
    (h : b.push bb kind ty = .ok (i, b')) : b.tables.Adds { insts := [⟨kind, ty, bb, none⟩] } b'.tables := by
  obtain ⟨-, rfl, rfl⟩ := push_eq_ok.mp h
  refine ⟨fun _ _ hk => hk, ?_⟩
  -- the block that lists one more instruction has the same head
  have hhead : ∀ x : Block, Block.head { x with insts := x.insts ++ [⟨b.tables.insts.size⟩] } = x.head :=
    fun _ => rfl
  ext1 <;> simp [Tables.entries, map_modify hhead]

/-- An instruction that is given its location right after it was added. -/
theorem adds_push_setLocation {bb : BlockId} {kind : InstKind} {ty : TypeId} {i : InstId} {loc : Location}
    {b'' : Builder} (h : b.push bb kind ty = .ok (i, b')) (h' : b'.setLocation i loc = .ok b'') :
    b.tables.Adds { insts := [⟨kind, ty, bb, some loc⟩] } b''.tables := by
  obtain ⟨-, rfl, rfl⟩ := push_eq_ok.mp h
  obtain ⟨-, rfl⟩ := setLocation_eq_ok.mp h'
  refine ⟨fun _ _ hk => hk, ?_⟩
  have hhead : ∀ x : Block, Block.head { x with insts := x.insts ++ [⟨b.tables.insts.size⟩] } = x.head :=
    fun _ => rfl
  -- the instruction that gets the location is the last one
  have hlast : (b.tables.insts.toList ++ [Instruction.mk kind ty bb none]).modify b.tables.insts.size
      (fun x => { x with loc := some loc }) = b.tables.insts.toList ++ [⟨kind, ty, bb, some loc⟩] := by
    simp [List.modify_eq_take_drop]
  ext1 <;> simp [Tables.entries, map_modify hhead, hlast]

/-! ## When entries can be added -/

/-- A block can be opened in every function that exists, and in no other. -/
theorem succeeds_block {f : FunctionId} {label : String} :
    Succeeds (b.block f label) ↔ Succeeds (b.tables.function f) := by
  refine (succeeds_bind (P := True) fun _ _ => iff_of_true ⟨_, rfl⟩ trivial).trans ?_
  rw [and_true]

/-- An instruction can be pushed into every block that exists, and into no other. -/
theorem succeeds_push {bb : BlockId} {kind : InstKind} {ty : TypeId} :
    Succeeds (b.push bb kind ty) ↔ Succeeds (b.tables.block bb) := by
  refine (succeeds_bind (P := True) fun _ _ => iff_of_true ⟨_, rfl⟩ trivial).trans ?_
  rw [and_true]

/-- The instruction that was added last can be given a location. -/
theorem succeeds_setLocation {bb : BlockId} {kind : InstKind} {ty : TypeId} {i : InstId}
    (h : b.push bb kind ty = .ok (i, b')) (loc : Location) : Succeeds (b'.setLocation i loc) := by
  obtain ⟨-, rfl, rfl⟩ := push_eq_ok.mp h
  refine exists_bind_ok ⟨⟨kind, ty, bb, none⟩, ?_⟩ fun _ _ => ⟨_, rfl⟩
  rw [Tables.inst_eq_ok]
  simp

/-! ## Types -/

/-- What is known about the types of a builder: shared types stand where they are said to stand and are
no records, which alone get changed; the declared names are `names`. -/
structure Knows (b : Builder) (names : List String) : Prop where
  void : b.tables.type .void = .ok .void
  interned : ∀ e ∈ b.interned, b.tables.type e.2 = .ok e.1 ∧ ∀ name fields, e.1 ≠ .record name fields
  named : ∀ name, name ∈ names ↔ ∃ k ∈ b.tables.types, k.name? = some name

/-- The type returned is of the kind `k`, the only one that was added, if any. -/
structure Makes (b : Builder) (names : List String) (k : TypeKind) (r : TypeId × Builder) : Prop where
  knows : r.2.Knows (k.name?.toList ++ names)
  adds : b.tables.Adds {} r.2.tables
  type : r.2.tables.type r.1 = .ok k

variable {names : List String} {k : TypeKind}

/-- What is known about types depends on the types alone. -/
theorem Knows.of_eq (hb : b.Knows names) (htypes : b'.tables.types = b.tables.types)
    (hinterned : b'.interned = b.interned) : b'.Knows names := by
  have htype (i : TypeId) : b'.tables.type i = b.tables.type i := by
    unfold Tables.type
    rw [htypes]
  refine ⟨?_, ?_, ?_⟩
  · rw [htype]
    exact hb.void
  · rw [hinterned]
    intro e he
    rw [htype]
    exact hb.interned e he
  · rw [htypes]
    exact hb.named

theorem Knows.congr {names' : List String} (hb : b.Knows names) (h : ∀ name, name ∈ names ↔ name ∈ names') :
    b.Knows names' :=
  ⟨hb.void, hb.interned, fun name => (h name).symm.trans (hb.named name)⟩

/-- A type that is added at the end is of the kind asked for, and its name is declared from then on. -/
theorem makes_addType (hb : b.Knows names) (k : TypeKind) : b.Makes names k (b.addType k) := by
  -- an old index is still within bounds, and not that of the new type
  have hold (i : TypeId) (k' : TypeKind) (hk' : b.tables.type i = .ok k') :
      (b.addType k).2.tables.type i = .ok k' := by
    rw [Tables.type_eq_ok] at hk' ⊢
    have hlt := (Array.getElem?_eq_some_iff.mp hk').1
    rw [addType, Array.getElem?_push, if_neg (Nat.ne_of_lt hlt), hk']
  refine ⟨⟨hold _ _ hb.void, ?_, ?_⟩, ⟨hold, (Entries.append_empty _).symm⟩, ?_⟩
  · intro e he
    obtain ⟨htype, hrecord⟩ := hb.interned e he
    exact ⟨hold _ _ htype, hrecord⟩
  · intro name
    simp only [addType, Array.mem_push, List.mem_append, hb.named, Option.mem_toList]
    constructor
    · rintro (hname | ⟨k', hk', hname⟩)
      · exact ⟨k, .inr rfl, hname⟩
      · exact ⟨k', .inl hk', hname⟩
    · rintro ⟨k', hk' | rfl, hname⟩
      · exact .inr ⟨k', hk', hname⟩
      · exact .inl hname
  · rw [Tables.type_eq_ok]
    simp [addType]

/-- **Interning makes or finds.** A type of the same kind is shared if there is one, and added if there is none. -/
theorem makes_intern (hb : b.Knows names) (hk : ∀ name fields, k ≠ .record name fields) :
    b.Makes names k (b.intern k) := by
  unfold intern
  cases hlookup : b.interned.lookup k with
  | some i =>
    -- the type was made before, and so was its name declared
    obtain ⟨htype, -⟩ := hb.interned _ (mem_of_lookup hlookup)
    refine ⟨⟨hb.void, hb.interned, fun name => ?_⟩, .refl _, htype⟩
    rw [List.mem_append, Option.mem_toList, hb.named, or_iff_right_iff_imp]
    intro hname
    exact ⟨k, Array.mem_of_getElem? (Tables.type_eq_ok.mp htype), hname⟩
  | none =>
    -- the type is new, and is shared from now on; it is no record, so nothing will change it
    have hadd := makes_addType hb k
    refine ⟨⟨hadd.knows.void, ?_, hadd.knows.named⟩, hadd.adds, hadd.type⟩
    intro e he
    rcases List.mem_cons.mp he with rfl | he
    · exact ⟨hadd.type, hk⟩
    · exact hadd.knows.interned e he

theorem makes_int (hb : b.Knows names) (bits : Nat) : b.Makes names (.int bits) (b.int bits) :=
  makes_intern hb (by simp)

theorem makes_pointer (hb : b.Knows names) (i : TypeId) : b.Makes names (.pointer i) (b.pointer i) :=
  makes_intern hb (by simp)

/-- A new global, with the pointer type that it has. -/
theorem adds_global (hb : b.Knows names) (name : String) (ty : TypeId) :
    (b.global name ty).2.Knows names ∧
      b.tables.Adds { globals := [⟨name, ty, (b.pointer ty).1⟩] } (b.global name ty).2.tables ∧
      (b.global name ty).2.tables.type (b.pointer ty).1 = .ok (.pointer ty) := by
  -- the pointer type is made first, then the global is added
  have hptr := makes_pointer hb ty
  have hpush : (b.pointer ty).2.tables.Adds { globals := [⟨name, ty, (b.pointer ty).1⟩] }
      (b.global name ty).2.tables := by
    refine ⟨fun _ _ hk => hk, ?_⟩
    ext1 <;> simp [global, Tables.entries]
  exact ⟨hptr.knows.of_eq rfl rfl, hptr.adds.types_trans hpush, hpush.types _ _ hptr.type⟩

theorem makes_bodylessType (hb : b.Knows names) (name : String) :
    b.Makes names (.bodyless name) (b.bodylessType name) :=
  makes_intern hb (by simp)

/-- A record is declared without fields, and never shared. -/
theorem makes_declareRecord (hb : b.Knows names) (name : String) :
    b.Makes names (.record name []) (b.declareRecord name) :=
  makes_addType hb _

/-- A type that is found by its name has that name. -/
theorem type_of_lookupNamed {name : String} {i : TypeId} (h : b.lookupNamed name = some i) :
    ∃ k, b.tables.type i = .ok k ∧ k.name? = some name := by
  obtain ⟨n, hn, rfl⟩ := Option.map_eq_some_iff.mp h
  obtain ⟨hlt, htest, -⟩ := Array.findIdx?_eq_some_iff_getElem.mp hn
  exact ⟨_, Tables.type_eq_ok.mpr (Array.getElem?_eq_getElem hlt), by simpa using htest⟩

/-- Exactly the declared names are found. -/
theorem Knows.lookupNamed_isSome (hb : b.Knows names) {name : String} :
    (b.lookupNamed name).isSome ↔ name ∈ names := by
  rw [lookupNamed, Option.isSome_map, Array.findIdx?_isSome, Array.any_eq_true', hb.named]
  simp

/-- Setting the fields of a record changes neither names nor shared types. -/
theorem knows_setFields (hb : b.Knows names) {i : TypeId} {fields : List TypeId}
    (h : b.setFields i fields = .ok b') : b'.Knows names := by
  obtain ⟨k, hk, h⟩ := bind_eq_ok.mp h
  cases k with
  | record name old =>
    cases h
    -- any other type stays as it is
    have hold {j : TypeId} {k : TypeKind} (hj : b.tables.type j = .ok k)
        (hrecord : ∀ name fields, k ≠ .record name fields) :
        lookUp .types (b.tables.types.setIfInBounds i.index (.record name fields)) j.index = .ok k := by
      have hne : i.index ≠ j.index := by
        intro heq
        rw [Tables.type_eq_ok, heq, Tables.type_eq_ok.mp hj] at hk
        cases hk
        exact hrecord _ _ rfl
      rw [lookUp_eq_ok, Array.getElem?_setIfInBounds_ne hne]
      exact Tables.type_eq_ok.mp hj
    refine ⟨hold hb.void (by simp), fun e he => ?_, fun n => ?_⟩
    · obtain ⟨htype, hrecord⟩ := hb.interned e he
      exact ⟨hold htype hrecord, hrecord⟩
    · rw [hb.named]
      have hi := Tables.type_eq_ok.mp hk
      constructor
      · -- the record that is replaced has the same name as the one that replaces it
        rintro ⟨k, hk, hname⟩
        obtain ⟨j, hj⟩ := Array.mem_iff_getElem?.mp hk
        by_cases hij : i.index = j
        · subst hij
          rw [hi] at hj
          cases hj
          exact ⟨_, Array.mem_setIfInBounds (Array.getElem?_eq_some_iff.mp hi).1, hname⟩
        · exact ⟨k, Array.mem_of_getElem? (by rw [Array.getElem?_setIfInBounds_ne hij]; exact hj), hname⟩
      · rintro ⟨k, hk, hname⟩
        rcases Array.mem_or_eq_of_mem_setIfInBounds hk with hk | rfl
        · exact ⟨k, hk, hname⟩
        · exact ⟨_, Array.mem_of_getElem? hi, hname⟩
  | _ =>
    cases h
    exact hb

/-- The fields of any type that exists can be set, which does nothing unless it is a record. -/
theorem succeeds_setFields {i : TypeId} (hi : Succeeds (b.tables.type i)) (fields : List TypeId) :
    Succeeds (b.setFields i fields) := by
  refine exists_bind_ok hi fun k _ => ?_
  cases k <;> exact ⟨_, rfl⟩

/-- Setting the fields of a record keeps the number of types. -/
theorem succeeds_type_setFields {i j : TypeId} {fields : List TypeId} (h : b.setFields i fields = .ok b')
    (hj : Succeeds (b.tables.type j)) : Succeeds (b'.tables.type j) := by
  obtain ⟨k, -, h⟩ := bind_eq_ok.mp h
  cases k with
  | record name old =>
    cases h
    obtain ⟨k, hk⟩ := hj
    have hlt := (Array.getElem?_eq_some_iff.mp (Tables.type_eq_ok.mp hk)).1
    obtain ⟨k', -, hk'⟩ := @exists_lookUp _ .types
      (b.tables.types.setIfInBounds i.index (.record name fields)) j.index (by simpa using hlt)
    exact ⟨k', hk'⟩
  | _ =>
    cases h
    exact hj

/-- A new builder has the void type and the pointer-sized integer, which have no names. -/
theorem knows_empty : Builder.empty.Knows [] := by
  -- the void type is put into the table by hand, the integer is interned
  have hnone : Knows ⟨⟨#[.void], #[], #[], #[], #[]⟩, [(.void, .void)]⟩ [] :=
    ⟨rfl, by simp; rfl, by simp [TypeKind.name?]⟩
  exact (makes_int hnone 64).knows

end Builder

end Relock
