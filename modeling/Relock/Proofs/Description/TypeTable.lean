import Mathlib.Logic.Relation
import Relock.Proofs.Builder.Canonical
import Relock.Proofs.Description.InRange

/-!
# The type table of a description

Names are declared first. From then on the elaboration makes integer and pointer types where texts spell them,
sets the fields of the declared records, and otherwise leaves types alone. `TypeStep` lists what a single step
can do, `Continues` is any number of steps, and what every step keeps holds wherever the elaboration gets to.

* `TypeStep`, `Continues`: how the types change once the names are declared;
* `continues_resolveType`, `continues_lower`, `continues_addBody`: the elaboration does nothing else;
* `continues_of_elaborateBuilder`: from the declarations to the end;
* `Program.canonicalTypes_of_load`: programs that were loaded have one index for each type.
-/

namespace Relock.Description

open Builder

variable {b b' : Builder} {s s' : State} {scope : Scope}

/-! ## Steps -/

/-- What a step of the elaboration can do to the types: nothing, make or find an integer type or a pointer to
a type of the table, or set the fields of a record to types of the table. -/
inductive TypeStep : Builder → Builder → Prop where
  | beside {b b' : Builder} (htypes : b'.tables.types = b.tables.types) (hinterned : b'.interned = b.interned) :
      TypeStep b b'
  | int (b : Builder) (bits : Nat) : TypeStep b (b.int bits).2
  | pointer {b : Builder} {t : TypeId} (ht : t.index < b.tables.types.size) : TypeStep b (b.pointer t).2
  | fields {b b' : Builder} {t : TypeId} {ts : List TypeId} (hts : ∀ i ∈ ts, i.index < b.tables.types.size)
      (h : b.setFields t ts = .ok b') : TypeStep b b'

/-- The builder `b'` comes from `b` by such steps. -/
def Continues : Builder → Builder → Prop := Relation.ReflTransGen TypeStep

theorem Continues.refl (b : Builder) : Continues b b := Relation.ReflTransGen.refl

theorem Continues.trans {b'' : Builder} (h : Continues b b') (h' : Continues b' b'') : Continues b b'' :=
  Relation.ReflTransGen.trans h h'

theorem TypeStep.continues (h : TypeStep b b') : Continues b b' := Relation.ReflTransGen.single h

/-- **What each step keeps is kept.** Every fact about the type table below is proved for `TypeStep` only, and
carried over by this. -/
theorem Continues.keeps {P : Builder → Prop} (hstep : ∀ {b b'}, TypeStep b b' → P b → P b')
    (h : Continues b b') (hb : P b) : P b' := by
  induction h with
  | refl => exact hb
  | tail _ hlast ih => exact hstep hlast ih

/-- A step names types of the table only. -/
theorem TypeStep.typesInRange (h : TypeStep b b') (hb : b.TypesInRange) : b'.TypesInRange := by
  cases h with
  | beside htypes hinterned => exact hb.of_eq htypes hinterned
  | int bits => exact (makesType_int hb bits).types
  | pointer ht => exact (makesType_pointer hb ht).types
  | fields hts h => exact (setFields_inRange hb hts h).1

/-- **Step lemma**: a step keeps one index for each type. -/
theorem TypeStep.canonical (h : TypeStep b b') (hb : b.Canonical) : b'.Canonical := by
  cases h with
  | beside htypes hinterned => exact hb.of_eq htypes hinterned
  | int bits => exact canonical_int hb bits
  | pointer ht => exact canonical_pointer hb ht
  | fields _ h => exact canonical_setFields hb h

theorem Continues.typesInRange (h : Continues b b') (hb : b.TypesInRange) : b'.TypesInRange :=
  h.keeps TypeStep.typesInRange hb

/-- **Run lemma**: there is one index for each type all along. -/
theorem Continues.canonical (h : Continues b b') (hb : b.Canonical) : b'.Canonical :=
  h.keeps TypeStep.canonical hb

/-! ## Types -/

/-- Pointers are made one star at a time. -/
theorem continues_pointers (hb : b.TypesInRange) {t : TypeId} (ht : t.index < b.tables.types.size) (stars : Nat) :
    Continues b (pointers b t stars).2 := by
  induction stars with
  | zero => exact .refl b
  | succ stars ih => exact ih.trans (TypeStep.pointer (makesType_pointers hb ht stars).lt).continues

/-- Resolving a text makes an integer at most, and pointers. -/
theorem continues_resolveType (hb : b.TypesInRange) {text : String} {t : TypeId}
    (h : resolveType b text = .ok (t, b')) : Continues b b' := by
  obtain ⟨⟨base, b₁⟩, hbase, h⟩ := bind_eq_ok.mp h
  have hmade := makesType_resolveBase hb hbase
  have hptrs := continues_pointers hmade.types hmade.lt (TypeText.ofText text).stars
  rw [pure_eq_ok.mp h] at hptrs
  refine .trans ?_ hptrs
  -- only an integer may have to be made
  cases hbaseType : (TypeText.ofText text).base with
  | void =>
    rw [hbaseType] at hbase
    cases hbase
    exact .refl b
  | int bits =>
    rw [hbaseType] at hbase
    obtain rfl : b₁ = (b.int bits).2 := congrArg Prod.snd (Except.ok.inj hbase).symm
    exact (TypeStep.int b bits).continues
  | named name =>
    rw [hbaseType, resolveBase] at hbase
    split at hbase
    · cases hbase
      exact .refl b
    · cases hbase

theorem continues_resolveTypes (hb : b.TypesInRange) {texts : List String} {ts : List TypeId}
    (h : resolveTypes b texts = .ok (ts, b')) : Continues b b' := by
  induction texts generalizing b ts with
  | nil =>
    cases h
    exact .refl _
  | cons text texts ih =>
    obtain ⟨⟨t, b₁⟩, ht, h⟩ := bind_eq_ok.mp h
    obtain ⟨⟨ts, b₂⟩, hts, h⟩ := bind_eq_ok.mp h
    cases h
    have hfirst := continues_resolveType hb ht
    exact hfirst.trans (ih (hfirst.typesInRange hb) hts)

/-- Defining records resolves their fields, and sets them. -/
theorem continues_defineRecords (hb : b.TypesInRange) {records : List (TypeId × List String)}
    (h : defineRecords b records = .ok b') : Continues b b' := by
  induction records generalizing b with
  | nil =>
    cases h
    exact .refl _
  | cons record records ih =>
    obtain ⟨⟨ts, b₁⟩, hts, h⟩ := bind_eq_ok.mp h
    obtain ⟨b₂, hset, h⟩ := bind_eq_ok.mp h
    -- the fields are resolved before any of them is set
    have hmade := makesTypes_resolveTypes hb hts
    have hstep := (continues_resolveTypes hb hts).trans (TypeStep.fields hmade.lt (built_eq_ok.mp hset)).continues
    exact hstep.trans (ih (hstep.typesInRange hb) h)

/-! ## Globals and function headers -/

/-- A global brings its pointer type. -/
theorem continues_global {ty : TypeId} (hty : ty.index < b.tables.types.size) (name : String) :
    Continues b (b.global name ty).2 :=
  (TypeStep.pointer hty).continues.trans (TypeStep.continues (.beside rfl rfl))

theorem continues_addGlobals (hs : s.builder.TypesInRange) {ds : List GlobalDesc} (h : addGlobals s ds = .ok s') :
    Continues s.builder s'.builder := by
  induction ds generalizing s with
  | nil =>
    cases h
    exact .refl _
  | cons d ds ih =>
    obtain ⟨⟨ty, b₁⟩, hty, h⟩ := bind_eq_ok.mp h
    have hmade := makesType_resolveType hs hty
    have hstep := (continues_resolveType hs hty).trans (continues_global hmade.lt d.name)
    exact hstep.trans (ih (hstep.typesInRange hs) h)

theorem continues_addHeaders (hs : s.builder.TypesInRange) {ds : List FunctionDesc}
    (h : addHeaders s ds = .ok s') : Continues s.builder s'.builder := by
  induction ds generalizing s with
  | nil =>
    cases h
    exact .refl _
  | cons d ds ih =>
    unfold addHeaders at h
    split at h
    · cases h
    · obtain ⟨⟨params, b₁⟩, hparams, h⟩ := bind_eq_ok.mp h
      obtain ⟨⟨ret, b₂⟩, hret, h⟩ := bind_eq_ok.mp h
      have hfirst := continues_resolveTypes hs hparams
      have hsecond := hfirst.trans (continues_resolveType (hfirst.typesInRange hs) hret)
      have hstep : Continues s.builder (b₂.function d.name params ret).2 :=
        hsecond.trans (TypeStep.continues (.beside rfl rfl))
      exact hstep.trans (ih (hstep.typesInRange hs) h)

/-! ## Instructions -/

/-- A callee that is declared on the spot brings the type given for the call. -/
theorem continues_resolveCallee (hs : s.builder.TypesInRange) {name : String} {ty : Option String}
    {f : FunctionId} (h : resolveCallee s name ty = .ok (f, s')) : Continues s.builder s'.builder := by
  unfold resolveCallee at h
  split at h
  · cases h
    exact .refl _
  · cases ty with
    | some ty =>
      obtain ⟨⟨ret, b₁⟩, hret, h⟩ := bind_eq_ok.mp h
      cases h
      exact (continues_resolveType hs hret).trans (TypeStep.continues (.beside rfl rfl))
    | none =>
      cases h
      exact TypeStep.continues (.beside rfl rfl)

/-- Only callees, comparisons and stack slots bring types with them. -/
theorem continues_lower (hs : s.builder.TypesInRange) {ty : Option String} {op : Operation} {kind : InstKind}
    {given : TypeId} (h : lower s scope ty op = .ok (kind, given, s')) : Continues s.builder s'.builder := by
  cases op with
  | call =>
    obtain ⟨⟨f, s₁⟩, hf, h⟩ := bind_eq_ok.mp h
    obtain ⟨_, -, h⟩ := bind_eq_ok.mp h
    obtain ⟨_, -, h⟩ := bind_eq_ok.mp h
    cases h
    exact continues_resolveCallee hs hf
  | invoke =>
    obtain ⟨⟨f, s₁⟩, hf, h⟩ := bind_eq_ok.mp h
    obtain ⟨_, -, h⟩ := bind_eq_ok.mp h
    obtain ⟨_, -, h⟩ := bind_eq_ok.mp h
    obtain ⟨_, -, h⟩ := bind_eq_ok.mp h
    obtain ⟨_, -, h⟩ := bind_eq_ok.mp h
    cases h
    exact continues_resolveCallee hs hf
  | icmp =>
    obtain ⟨_, -, h⟩ := bind_eq_ok.mp h
    obtain ⟨_, -, h⟩ := bind_eq_ok.mp h
    cases h
    exact (TypeStep.int s.builder 1).continues
  | alloca =>
    obtain ⟨⟨t, b₁⟩, ht, h⟩ := bind_eq_ok.mp h
    cases h
    exact (continues_resolveType hs ht).trans (TypeStep.pointer (makesType_resolveType hs ht).lt).continues
  | ret value =>
    cases value with
    | none =>
      cases h
      exact .refl _
    | some value =>
      obtain ⟨_, -, h⟩ := bind_eq_ok.mp h
      cases h
      exact .refl _
  -- all other operations leave the builder alone
  | unreachable | landingPad =>
    cases h
    exact .refl _
  | br | load | field | cast | phi | debug | other =>
    obtain ⟨_, -, h⟩ := bind_eq_ok.mp h
    cases h
    exact .refl _
  | callIndirect | store =>
    obtain ⟨_, -, h⟩ := bind_eq_ok.mp h
    obtain ⟨_, -, h⟩ := bind_eq_ok.mp h
    cases h
    exact .refl _
  | condBr =>
    obtain ⟨_, -, h⟩ := bind_eq_ok.mp h
    obtain ⟨_, -, h⟩ := bind_eq_ok.mp h
    obtain ⟨_, -, h⟩ := bind_eq_ok.mp h
    cases h
    exact .refl _

/-- One described instruction. -/
theorem continues_addInst (hs : s.builder.TypesInRange) {bb : BlockId} {d : InstDesc}
    (h : addInst s scope bb d = .ok s') : Continues s.builder s'.builder := by
  obtain ⟨kind, given, s₁, ty, b₁, i, b₂, b₃, hlower, htype, hpush, hloc, rfl⟩ := of_addInst h
  have hlowered := continues_lower hs hlower
  -- the type given for the instruction, if there is one
  have htyped : Continues s₁.builder b₁ := by
    rcases htype with ⟨text, -, hty⟩ | ⟨-, -, rfl⟩
    · exact continues_resolveType (hlowered.typesInRange hs) hty
    · exact .refl _
  -- the instruction itself and its location are beside the types
  have hpushed : TypeStep b₁ b₃ := by
    obtain ⟨-, -, rfl⟩ := push_eq_ok.mp hpush
    rcases hloc with ⟨loc, -, hset⟩ | ⟨-, rfl⟩
    · obtain ⟨-, rfl⟩ := setLocation_eq_ok.mp hset
      exact .beside rfl rfl
    · exact .beside rfl rfl
  exact (hlowered.trans htyped).trans hpushed.continues

theorem continues_addInsts (hs : s.builder.TypesInRange) {bb : BlockId} {ds : List InstDesc}
    (h : addInsts s scope bb ds = .ok s') : Continues s.builder s'.builder := by
  induction ds generalizing s with
  | nil =>
    cases h
    exact .refl _
  | cons d ds ih =>
    obtain ⟨s₁, hadd, h⟩ := bind_eq_ok.mp h
    have hfirst := continues_addInst hs hadd
    exact hfirst.trans (ih (hfirst.typesInRange hs) h)

/-! ## Bodies -/

/-- Blocks bring no types. -/
theorem continues_addBlocks {f : FunctionId} {function : String} {known blocks : List (String × BlockId)}
    {ds : List BlockDesc} (h : addBlocks b f function known ds = .ok (blocks, b')) : Continues b b' := by
  induction ds generalizing b known with
  | nil =>
    cases h
    exact .refl _
  | cons d ds ih =>
    obtain ⟨⟨i, b₁⟩, hblock, h⟩ := bind_eq_ok.mp h
    have hstep : TypeStep b b₁ := by
      obtain ⟨-, -, rfl⟩ := block_eq_ok.mp (built_eq_ok.mp hblock)
      exact .beside rfl rfl
    simp only at h
    split at h
    · cases h
    · exact hstep.continues.trans (ih h)

theorem continues_fillBlocks (hs : s.builder.TypesInRange) {ds : List BlockDesc}
    (h : fillBlocks s scope ds = .ok s') : Continues s.builder s'.builder := by
  induction ds generalizing s with
  | nil =>
    cases h
    exact .refl _
  | cons d ds ih =>
    obtain ⟨bb, -, h⟩ := bind_eq_ok.mp h
    obtain ⟨s₁, hadd, h⟩ := bind_eq_ok.mp h
    have hfirst := continues_addInsts hs hadd
    exact hfirst.trans (ih (hfirst.typesInRange hs) h)

theorem continues_addBody (hs : s.builder.TypesInRange) {f : FunctionId} {d : FunctionDesc}
    (h : addBody s f d = .ok s') : Continues s.builder s'.builder := by
  obtain ⟨⟨blocks, b₁⟩, hblocks, h⟩ := bind_eq_ok.mp h
  obtain ⟨insts, -, h⟩ := bind_eq_ok.mp h
  have hfirst := continues_addBlocks hblocks
  exact hfirst.trans (continues_fillBlocks (s := { s with builder := b₁ }) (hfirst.typesInRange hs) h)

theorem continues_addBodies (hs : s.builder.TypesInRange) {next : Nat} {ds : List FunctionDesc}
    (h : addBodies s next ds = .ok s') : Continues s.builder s'.builder := by
  induction ds generalizing s next with
  | nil =>
    cases h
    exact .refl _
  | cons d ds ih =>
    obtain ⟨s₁, hbody, h⟩ := bind_eq_ok.mp h
    have hfirst := continues_addBody hs hbody
    exact hfirst.trans (ih (hfirst.typesInRange hs) h)

/-! ## Whole programs -/

/-- A name is only declared if no type has it. -/
theorem canonical_declareTypes (hb : b.Canonical) {ds : List TypeDesc} {records : List (TypeId × List String)}
    (h : declareTypes b ds = .ok (records, b')) : b'.Canonical := by
  induction ds generalizing b records with
  | nil =>
    cases h
    exact hb
  | cons d ds ih =>
    unfold declareTypes at h
    split at h
    · cases h
    · next hknown =>
      -- the name was looked up before it is declared
      have hname : b.lookupNamed d.name = none := by simpa using hknown
      split at h
      · exact ih (canonical_bodylessType hb hname) h
      · obtain ⟨⟨more, b₁⟩, hmore, h⟩ := bind_eq_ok.mp h
        cases h
        exact ih (canonical_declareRecord hb hname) hmore

/-- After the declarations an elaboration makes, finds and completes types, and nothing more. -/
theorem continues_of_elaborateBuilder {d : ProgramDesc} (h : elaborateBuilder d = .ok b) :
    ∃ records b₀, declareTypes .empty d.types = .ok (records, b₀) ∧ b₀.Canonical ∧ Continues b₀ b := by
  obtain ⟨⟨records, b₀⟩, hdeclare, h⟩ := bind_eq_ok.mp h
  obtain ⟨b₁, hdefine, h⟩ := bind_eq_ok.mp h
  obtain ⟨s₁, hglobals, h⟩ := bind_eq_ok.mp h
  obtain ⟨s₂, hheaders, h⟩ := bind_eq_ok.mp h
  obtain ⟨s₃, hbodies, h⟩ := bind_eq_ok.mp h
  cases h
  -- stage by stage, each one from where the one before it has got to
  have hrange := (declareTypes_inRange typesInRange_empty hdeclare).1
  have hfields := continues_defineRecords hrange hdefine
  have hglobal := hfields.trans (continues_addGlobals (s := ⟨b₁, [], []⟩) (hfields.typesInRange hrange) hglobals)
  have hheader := hglobal.trans (continues_addHeaders (hglobal.typesInRange hrange) hheaders)
  have hbody := hheader.trans (continues_addBodies (hheader.typesInRange hrange) hbodies)
  exact ⟨records, b₀, hdeclare, canonical_declareTypes canonical_empty hdeclare, hbody⟩

end Relock.Description

namespace Relock.Program

/-- **In a program that was loaded, equal types have equal indices.** No type is in the table twice, no two
types were declared under one name, void and the 64-bit integers stand where they are taken to stand, and a
pointer points to an earlier entry. Printing a type therefore comes to an end for every type of the table, also
where records lead back to themselves. -/
theorem canonicalTypes_of_load {text : String} {p : Program} (h : Program.load text = .ok p) :
    p.CanonicalTypes ∧ ∀ i, (∃ name, p.typeName i = .ok name) ↔ i.index < p.types.size := by
  obtain ⟨d, b, hb, heq⟩ := exists_desc_of_load h
  obtain ⟨records, b₀, -, hcanonical, hcontinues⟩ := Description.continues_of_elaborateBuilder hb
  rw [← heq]
  have htypes := (hcontinues.canonical hcanonical).types
  exact ⟨htypes, htypes.exists_typeName⟩

/-- A record that points to itself, spelled in two ways, and one with the name of an integer type. -/
def linkedRecords : String :=
  "[[[\"Node\",[\"*Node\",\"i+64\",\" * * Node \"]],[\"Mutex\"],[\"i64\",[]]],[[\"g\",\"Mutex\"]]]"

/-- The two spellings of the pointer share one entry, and the record called `i64` is not the integer type. -/
theorem canonicalTypes_linkedRecords : ∃ p, Program.load linkedRecords = .ok p ∧ p.CanonicalTypes ∧
    p.type ⟨2⟩ = .ok (.record "Node" [⟨5⟩, ⟨1⟩, ⟨6⟩]) ∧ p.type ⟨6⟩ = .ok (.pointer ⟨5⟩) ∧
      p.type ⟨5⟩ = .ok (.pointer ⟨2⟩) ∧ ∃ name, p.typeName ⟨6⟩ = .ok name := by
  obtain ⟨p, hload, hp⟩ : ∃ p, Program.load linkedRecords = .ok p ∧ p.toTables = {
      types := #[.void, .int 64, .record "Node" [⟨5⟩, ⟨1⟩, ⟨6⟩], .bodyless "Mutex", .record "i64" [], .pointer ⟨2⟩,
        .pointer ⟨5⟩, .pointer ⟨3⟩]
      globals := #[⟨"g", ⟨3⟩, ⟨7⟩⟩]
      functions := #[]
      blocks := #[]
      insts := #[] } :=
    exists_load_of_chars rfl (by decide +kernel)
  obtain ⟨hcanonical, hnames⟩ := canonicalTypes_of_load hload
  refine ⟨p, hload, hcanonical, ?_, ?_, ?_, (hnames ⟨6⟩).mpr (by rw [hp]; decide)⟩
  all_goals
    rw [hp]
    rfl

end Relock.Program
