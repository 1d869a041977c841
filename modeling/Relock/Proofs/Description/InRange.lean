import Relock.Description.Load
import Relock.Proofs.Builder.InRange

/-!
# Loaded programs have their indices in range

Elaboration resolves every name to an entry that exists, or to an instruction that it is going to add.
The invariant `State.Sound` says so while a body is filled in: `n` is then the number of instructions
that the program has at the end of the body, which is known from the start because every described
instruction is added exactly once.

* `makesType_resolveType`: a text denotes an existing type;
* `lower_sound`: an operation names existing entries;
* `fillBlocks_sound`: a body gets as many instructions as are described;
* `inRange_of_load`, `arranged_of_load`: what holds of every program that was loaded;
* `exists_load_of_chars`: what a given text is loaded as.
-/

namespace Relock.Description

open Builder

variable {b b' : Builder}

/-! ## Types -/

/-- Pointers to an existing type exist, however many stars there are. -/
theorem makesType_pointers (hb : b.TypesInRange) {t : TypeId} (ht : t.index < b.tables.types.size)
    (stars : Nat) : b.MakesType (pointers b t stars) := by
  induction stars with
  | zero => exact makesType_self hb ht
  | succ stars ih =>
    have hptr := makesType_pointer ih.types ih.lt
    exact ⟨hptr.types, ih.adds.trans hptr.adds, hptr.lt⟩

/-- A base type denotes an existing type. -/
theorem makesType_resolveBase (hb : b.TypesInRange) {base : BaseType} {r : TypeId × Builder}
    (h : resolveBase b base = .ok r) : b.MakesType r := by
  cases base with
  | void =>
    cases h
    -- void comes before the word in every type table
    exact makesType_self hb (Nat.lt_of_succ_lt hb.word)
  | int bits =>
    cases h
    exact makesType_int hb bits
  | named name =>
    unfold resolveBase at h
    cases hname : b.lookupNamed name with
    | none => simp [hname] at h
    | some t =>
      simp only [hname] at h
      cases h
      exact makesType_self hb (lt_of_lookupNamed hname)

/-- A text that is resolved denotes an existing type. -/
theorem makesType_resolveType (hb : b.TypesInRange) {text : String} {r : TypeId × Builder}
    (h : resolveType b text = .ok r) : b.MakesType r := by
  obtain ⟨⟨base, b₁⟩, hbase, h⟩ := bind_eq_ok.mp h
  cases h
  have hmade := makesType_resolveBase hb hbase
  have hptrs := makesType_pointers hmade.types hmade.lt (TypeText.ofText text).stars
  exact ⟨hptrs.types, hmade.adds.trans hptrs.adds, hptrs.lt⟩

/-- Texts that are resolved one after the other denote existing types. Later texts may add types, but remove none. -/
theorem makesTypes_resolveTypes (hb : b.TypesInRange) {texts : List String} {r : List TypeId × Builder}
    (h : resolveTypes b texts = .ok r) : b.MakesTypes r := by
  induction texts generalizing b r with
  | nil =>
    cases h
    exact ⟨hb, .refl b, by simp⟩
  | cons text texts ih =>
    obtain ⟨⟨t, b₁⟩, ht, h⟩ := bind_eq_ok.mp h
    obtain ⟨⟨ts, b₂⟩, hts, h⟩ := bind_eq_ok.mp h
    cases h
    have hfirst := makesType_resolveType hb ht
    have hrest := ih hfirst.types hts
    refine ⟨hrest.types, hfirst.adds.trans hrest.adds, fun u hu => ?_⟩
    rcases List.mem_cons.mp hu with rfl | hu
    · exact Nat.lt_of_lt_of_le hfirst.lt hrest.adds.le
    · exact hrest.lt u hu

/-- Declaring types only adds types. -/
theorem declareTypes_inRange (hb : b.TypesInRange) {ds : List TypeDesc}
    {records : List (TypeId × List String)} (h : declareTypes b ds = .ok (records, b')) :
    b'.TypesInRange ∧ b.AddsTypes b' := by
  induction ds generalizing b records with
  | nil =>
    cases h
    exact ⟨hb, .refl _⟩
  | cons d ds ih =>
    unfold declareTypes at h
    split at h
    · cases h
    · -- a type without fields is interned, a record is always a new entry
      split at h
      · have hmade := makesType_bodylessType hb d.name
        obtain ⟨htypes, hadds⟩ := ih hmade.types h
        exact ⟨htypes, hmade.adds.trans hadds⟩
      · obtain ⟨⟨more, b₁⟩, hmore, h⟩ := bind_eq_ok.mp h
        cases h
        have hmade := makesType_declareRecord hb d.name
        obtain ⟨htypes, hadds⟩ := ih hmade.types hmore
        exact ⟨htypes, hmade.adds.trans hadds⟩

/-- A builder operation succeeds during elaboration exactly if it succeeds by itself. -/
theorem built_eq_ok {α : Type} {x : Except Fault α} {a : α} : built x = .ok a ↔ x = .ok a := by
  cases x <;> simp [built]

/-- Records get fields that exist. -/
theorem defineRecords_inRange (hb : b.TypesInRange) {records : List (TypeId × List String)}
    (h : defineRecords b records = .ok b') : b'.TypesInRange ∧ b.AddsTypes b' := by
  induction records generalizing b with
  | nil =>
    cases h
    exact ⟨hb, .refl _⟩
  | cons record records ih =>
    obtain ⟨⟨fields, b₁⟩, hfields, h⟩ := bind_eq_ok.mp h
    obtain ⟨b₂, hset, h⟩ := bind_eq_ok.mp h
    -- the fields are resolved first, and may add types of their own
    have hmade := makesTypes_resolveTypes hb hfields
    obtain ⟨htypes₂, hadds₂⟩ := setFields_inRange hmade.types hmade.lt (built_eq_ok.mp hset)
    obtain ⟨htypes, hadds⟩ := ih htypes₂ h
    exact ⟨htypes, (hmade.adds.trans hadds₂).trans hadds⟩

/-! ## Whole states -/

/-- A state of a program that is going to have `n` instructions: what is known by name exists. -/
structure State.Sound (s : State) (n : Nat) : Prop where
  builder : s.builder.Sound n
  functions : ∀ e ∈ s.functions, e.2.index < s.builder.tables.functions.size
  globals : ∀ e ∈ s.globals, e.2.Within (s.builder.tables.sizesUpTo n)

/-- The state `s'` is sound and has the entries of `s`, among them `k` new instructions. -/
structure State.GrowsTo (s : State) (n k : Nat) (s' : State) : Prop where
  sound : s'.Sound n
  le : s.builder.tables.sizes.Le s'.builder.tables.sizes
  added : s'.builder.tables.insts.size = s.builder.tables.insts.size + k

variable {s s' s'' : State} {n k l : Nat}

theorem State.GrowsTo.refl (hs : s.Sound n) : s.GrowsTo n 0 s :=
  ⟨hs, .refl _, rfl⟩

theorem State.GrowsTo.trans (h : s.GrowsTo n k s') (h' : s'.GrowsTo n l s'') :
    s.GrowsTo n (k + l) s'' :=
  ⟨h'.sound, h.le.trans h'.le, by rw [h'.added, h.added, Nat.add_assoc]⟩

/-- What exists when `m` instructions are expected exists when more are. -/
theorem State.Sound.mono {m : Nat} (hs : s.Sound m) (hmn : m ≤ n) : s.Sound n :=
  ⟨hs.builder.mono hmn, hs.functions, fun e he => (hs.globals e he).mono ((Sizes.Le.refl _).upTo hmn)⟩

/-- What is known by name still exists in a larger builder. -/
theorem State.Sound.withBuilder (hs : s.Sound n) (hb : s.builder.GrowsTo n k b') :
    s.GrowsTo n k { s with builder := b' } :=
  ⟨⟨hb.sound, fun e he => Nat.lt_of_lt_of_le (hs.functions e he) hb.le.functions,
    fun e he => (hs.globals e he).mono (hb.le.upTo (Nat.le_refl n))⟩, hb.le, hb.added⟩

theorem State.GrowsTo.withGlobal (h : s.GrowsTo n k s') (name : String) {v : Value}
    (hv : v.Within (s'.builder.tables.sizesUpTo n)) :
    s.GrowsTo n k { s' with globals := (name, v) :: s'.globals } := by
  refine ⟨⟨h.sound.builder, h.sound.functions, fun e he => ?_⟩, h.le, h.added⟩
  rcases List.mem_cons.mp he with rfl | he
  · exact hv
  · exact h.sound.globals e he

theorem State.GrowsTo.withFunction (h : s.GrowsTo n k s') (name : String) {f : FunctionId}
    (hf : f.index < s'.builder.tables.functions.size) :
    s.GrowsTo n k { s' with functions := (name, f) :: s'.functions } := by
  refine ⟨⟨h.sound.builder, fun e he => ?_, h.sound.globals⟩, h.le, h.added⟩
  rcases List.mem_cons.mp he with rfl | he
  · exact hf
  · exact h.sound.functions e he

/-! ## Globals and function headers -/

theorem addGlobals_sound (hs : s.Sound n) {ds : List GlobalDesc} (h : addGlobals s ds = .ok s') :
    s.GrowsTo n 0 s' := by
  induction ds generalizing s with
  | nil =>
    cases h
    exact .refl hs
  | cons d ds ih =>
    obtain ⟨⟨ty, b₁⟩, hty, h⟩ := bind_eq_ok.mp h
    -- its type first, then its entry, then its name
    have hmade := makesType_resolveType hs.builder.types hty
    have htyped := hs.builder.makesType hmade
    have hgrows := hs.withBuilder (htyped.trans (htyped.sound.global d.name hmade.lt))
    have hstep := hgrows.withGlobal d.name (v := (b₁.global d.name ty).1)
      (by simp [Builder.global, Value.Within, Tables.sizesUpTo, Tables.sizes])
    exact hstep.trans (ih hstep.sound h)

theorem addFunction_sound (hs : s.Sound n) (hb : s.builder.AddsTypes b') (htypes : b'.TypesInRange)
    (name : String) {params : List TypeId} {ret : TypeId}
    (hparams : ∀ i ∈ params, i.index < b'.tables.types.size) (hret : ret.index < b'.tables.types.size) :
    s.GrowsTo n 0 { s with
      builder := (b'.function name params ret).2
      functions := (name, (b'.function name params ret).1) :: s.functions } := by
  have htyped := hs.builder.addsTypes hb htypes
  have hgrows := hs.withBuilder (htyped.trans (htyped.sound.function name hparams hret))
  exact hgrows.withFunction name (by simp [Builder.function])

theorem addHeaders_sound (hs : s.Sound n) {ds : List FunctionDesc} (h : addHeaders s ds = .ok s') :
    s.GrowsTo n 0 s' := by
  induction ds generalizing s with
  | nil =>
    cases h
    exact .refl hs
  | cons d ds ih =>
    unfold addHeaders at h
    split at h
    · cases h
    · obtain ⟨⟨params, b₁⟩, hparams, h⟩ := bind_eq_ok.mp h
      obtain ⟨⟨ret, b₂⟩, hret, h⟩ := bind_eq_ok.mp h
      -- the parameters are resolved before the result, which may add types
      have hmade := makesTypes_resolveTypes hs.builder.types hparams
      have hmadeRet := makesType_resolveType hmade.types hret
      have hstep := addFunction_sound hs (hmade.adds.trans hmadeRet.adds) hmadeRet.types d.name
        (fun i hi => Nat.lt_of_lt_of_le (hmade.lt i hi) hmadeRet.adds.le) hmadeRet.lt
      exact hstep.trans (ih hstep.sound h)

/-! ## Operands -/

/-- What is known by name in a function exists, or is going to. -/
structure Scope.Fits (scope : Scope) (t : Tables) (n : Nat) : Prop where
  func : scope.func.index < t.functions.size
  blocks : ∀ e ∈ scope.blocks, e.2.index < t.blocks.size
  insts : ∀ e ∈ scope.insts, e.2.index < n

variable {scope : Scope}

/-- What is known in a function stays known when tables grow. -/
theorem Scope.Fits.mono {t t' : Tables} (h : scope.Fits t n) (hle : t.sizes.Le t'.sizes) : scope.Fits t' n :=
  ⟨Nat.lt_of_lt_of_le h.func hle.functions, fun e he => Nat.lt_of_lt_of_le (h.blocks e he) hle.blocks,
    h.insts⟩

/-- An operand that is resolved names an entry that exists, or an instruction of the body. -/
theorem resolveOperand_within (hs : s.Sound n) (hscope : scope.Fits s.builder.tables n) {op : Operand}
    {v : Value} (h : resolveOperand s scope op = .ok v) : v.Within (s.builder.tables.sizesUpTo n) := by
  cases op with
  | int m =>
    cases h
    exact trivial
  | name name =>
    simp only [resolveOperand] at h
    split at h
    · -- an argument of the function itself
      split at h
      · cases h
        exact hscope.func
      · cases h
    · split at h
      · next v' hlookup =>
        cases h
        exact hs.globals _ (mem_of_lookup hlookup)
      · cases h
    · split at h
      · next i hlookup =>
        cases h
        exact hscope.insts _ (mem_of_lookup hlookup)
      · cases h

theorem resolveOperands_within (hs : s.Sound n) (hscope : scope.Fits s.builder.tables n)
    {ops : List Operand} {vs : List Value} (h : resolveOperands s scope ops = .ok vs) :
    ∀ v ∈ vs, v.Within (s.builder.tables.sizesUpTo n) := by
  intro v hv
  obtain ⟨op, -, hop⟩ := (mem_of_mapM h).mp hv
  exact resolveOperand_within hs hscope hop

/-- A label that is resolved names a block of the function. -/
theorem resolveBlock_lt {t : Tables} (hscope : scope.Fits t n) {label : String} {bb : BlockId}
    (h : resolveBlock scope label = .ok bb) : bb.index < (t.sizesUpTo n).blocks := by
  unfold resolveBlock at h
  split at h
  · next hlookup =>
    cases h
    exact hscope.blocks _ (mem_of_lookup hlookup)
  · cases h

/-- A function that is called exists, if need be because it was declared for the call. -/
theorem resolveCallee_sound (hs : s.Sound n) {name : String} {ty : Option String} {f : FunctionId}
    (h : resolveCallee s name ty = .ok (f, s')) :
    s.GrowsTo n 0 s' ∧ f.index < s'.builder.tables.functions.size := by
  unfold resolveCallee at h
  split at h
  · next hlookup =>
    cases h
    exact ⟨.refl hs, hs.functions _ (mem_of_lookup hlookup)⟩
  · -- an unknown function: its result type is the one of the call, or void
    obtain ⟨ret, b₁, hmade, rfl, rfl⟩ : ∃ ret b₁, s.builder.MakesType (ret, b₁) ∧
        f = (b₁.function name [] ret).1 ∧ s' = { s with
          builder := (b₁.function name [] ret).2
          functions := (name, (b₁.function name [] ret).1) :: s.functions } := by
      cases ty with
      | some ty =>
        obtain ⟨⟨ret, b₁⟩, hret, h⟩ := bind_eq_ok.mp h
        cases h
        exact ⟨ret, b₁, makesType_resolveType hs.builder.types hret, rfl, rfl⟩
      | none =>
        cases h
        exact ⟨.void, s.builder, makesType_self hs.builder.types (Nat.lt_of_succ_lt hs.builder.types.word),
          rfl, rfl⟩
    exact ⟨addFunction_sound hs hmade.adds hmade.types name (by simp) hmade.lt, by simp [Builder.function]⟩

/-! ## Instructions -/

/-- An operation whose operands, callee and blocks exist, with a type that exists. -/
structure Lowered (s : State) (n : Nat) (kind : InstKind) (ty : TypeId) (s' : State) : Prop where
  grows : s.GrowsTo n 0 s'
  kind : kind.Within (s'.builder.tables.sizesUpTo n)
  ty : ty.index < s'.builder.tables.types.size

/-- An operation that adds nothing to the tables and has no type of its own. -/
theorem lowered_plain (hs : s.Sound n) {kind : InstKind} (hkind : kind.Within (s.builder.tables.sizesUpTo n)) :
    Lowered s n kind .void s :=
  ⟨.refl hs, hkind, Nat.lt_of_succ_lt hs.builder.types.word⟩

theorem within_of_operands {kind : InstKind} {sizes : Sizes} (hcallee : kind.callee? = none)
    (hblocks : kind.blocks = []) (h : ∀ v ∈ kind.operands, v.Within sizes) : kind.Within sizes :=
  ⟨h, by simp [hcallee], by simp [hblocks]⟩

/-- **One operation.** Whatever it is, the instruction that it becomes names only entries that exist or
instructions that are going to be added, and its type exists. -/
theorem lower_sound (hs : s.Sound n) (hscope : scope.Fits s.builder.tables n) {ty : Option String}
    {op : Operation} {kind : InstKind} {given : TypeId}
    (h : lower s scope ty op = .ok (kind, given, s')) : Lowered s n kind given s' := by
  cases op with
  | call callee args =>
    -- the callee may have to be declared first, so the operands are resolved in a larger state
    obtain ⟨⟨f, s₁⟩, hf, h⟩ := bind_eq_ok.mp h
    obtain ⟨ret, hret, h⟩ := bind_eq_ok.mp h
    obtain ⟨vs, hvs, h⟩ := bind_eq_ok.mp h
    cases h
    obtain ⟨hgrows, hlt⟩ := resolveCallee_sound hs hf
    have hargs := resolveOperands_within hgrows.sound (hscope.mono hgrows.le) hvs
    refine ⟨hgrows, ⟨?_, ?_, ?_⟩, hgrows.sound.builder.returnType_lt (built_eq_ok.mp hret)⟩
    · simpa [InstKind.operands, Callee.operands] using hargs
    · rintro _ ⟨⟩
      exact hlt
    · simp [InstKind.blocks, InstKind.targets]
  | callIndirect callee args =>
    obtain ⟨v, hv, h⟩ := bind_eq_ok.mp h
    obtain ⟨vs, hvs, h⟩ := bind_eq_ok.mp h
    cases h
    refine lowered_plain hs (within_of_operands rfl rfl fun w hw => ?_)
    rcases List.mem_append.mp hw with hw | hw
    · exact resolveOperands_within hs hscope hvs w hw
    · rw [List.mem_singleton.mp hw]
      exact resolveOperand_within hs hscope hv
  | invoke callee args normal unwind =>
    obtain ⟨⟨f, s₁⟩, hf, h⟩ := bind_eq_ok.mp h
    obtain ⟨ret, hret, h⟩ := bind_eq_ok.mp h
    obtain ⟨vs, hvs, h⟩ := bind_eq_ok.mp h
    obtain ⟨bb, hbb, h⟩ := bind_eq_ok.mp h
    obtain ⟨cc, hcc, h⟩ := bind_eq_ok.mp h
    cases h
    obtain ⟨hgrows, hlt⟩ := resolveCallee_sound hs hf
    have hfits := hscope.mono hgrows.le
    have hargs := resolveOperands_within hgrows.sound hfits hvs
    have hnormal := resolveBlock_lt hfits hbb
    have hunwind := resolveBlock_lt hfits hcc
    refine ⟨hgrows, ⟨?_, ?_, ?_⟩, hgrows.sound.builder.returnType_lt (built_eq_ok.mp hret)⟩
    · simpa [InstKind.operands, Callee.operands] using hargs
    · rintro _ ⟨⟩
      exact hlt
    · simpa [InstKind.blocks, InstKind.targets] using ⟨hnormal, hunwind⟩
  | br dest =>
    obtain ⟨bb, hbb, h⟩ := bind_eq_ok.mp h
    cases h
    refine lowered_plain hs ⟨by simp [InstKind.operands], by simp [InstKind.callee?], ?_⟩
    simpa [InstKind.blocks, InstKind.targets] using resolveBlock_lt hscope hbb
  | condBr cond thenDest elseDest =>
    obtain ⟨v, hv, h⟩ := bind_eq_ok.mp h
    obtain ⟨bb, hbb, h⟩ := bind_eq_ok.mp h
    obtain ⟨cc, hcc, h⟩ := bind_eq_ok.mp h
    cases h
    refine lowered_plain hs ⟨?_, by simp [InstKind.callee?], ?_⟩
    · simpa [InstKind.operands] using resolveOperand_within hs hscope hv
    · have hthen := resolveBlock_lt hscope hbb
      have helse := resolveBlock_lt hscope hcc
      simpa [InstKind.blocks, InstKind.targets] using ⟨hthen, helse⟩
  | ret value =>
    cases value with
    | none =>
      cases h
      exact lowered_plain hs (within_of_operands rfl rfl (by simp [InstKind.operands]))
    | some value =>
      obtain ⟨v, hv, h⟩ := bind_eq_ok.mp h
      cases h
      refine lowered_plain hs (within_of_operands rfl rfl ?_)
      simpa [InstKind.operands] using resolveOperand_within hs hscope hv
  | unreachable | landingPad =>
    cases h
    exact lowered_plain hs (within_of_operands rfl rfl (by simp [InstKind.operands]))
  | load value | field value _ | cast value =>
    obtain ⟨v, hv, h⟩ := bind_eq_ok.mp h
    cases h
    refine lowered_plain hs (within_of_operands rfl rfl ?_)
    simpa [InstKind.operands] using resolveOperand_within hs hscope hv
  | store value ptr =>
    obtain ⟨v, hv, h⟩ := bind_eq_ok.mp h
    obtain ⟨w, hw, h⟩ := bind_eq_ok.mp h
    cases h
    have hvalue := resolveOperand_within hs hscope hv
    have hptr := resolveOperand_within hs hscope hw
    exact lowered_plain hs (within_of_operands rfl rfl (by simpa [InstKind.operands] using ⟨hvalue, hptr⟩))
  | icmp pred lhs rhs =>
    obtain ⟨v, hv, h⟩ := bind_eq_ok.mp h
    obtain ⟨w, hw, h⟩ := bind_eq_ok.mp h
    cases h
    -- the type of the result is made on the way
    have hbit := makesType_int hs.builder.types 1
    have hgrows := hs.withBuilder (hs.builder.makesType hbit)
    have hle := hgrows.le.upTo (Nat.le_refl n)
    have hleft := (resolveOperand_within hs hscope hv).mono hle
    have hright := (resolveOperand_within hs hscope hw).mono hle
    exact ⟨hgrows, within_of_operands rfl rfl (by simpa [InstKind.operands] using ⟨hleft, hright⟩), hbit.lt⟩
  | alloca allocated =>
    obtain ⟨⟨t, b₁⟩, ht, h⟩ := bind_eq_ok.mp h
    cases h
    have hmade := makesType_resolveType hs.builder.types ht
    -- a stack slot has the type of a pointer to what is allocated
    have hptr := makesType_pointer hmade.types hmade.lt
    have hgrows := hs.withBuilder (hs.builder.addsTypes (hmade.adds.trans hptr.adds) hptr.types)
    exact ⟨hgrows, within_of_operands rfl rfl (by simp [InstKind.operands]), hptr.lt⟩
  | phi incoming =>
    obtain ⟨pairs, hpairs, h⟩ := bind_eq_ok.mp h
    cases h
    -- each pair comes from one operand and one label
    have hpair : ∀ e ∈ pairs, e.1.Within (s.builder.tables.sizesUpTo n) ∧
        e.2.index < (s.builder.tables.sizesUpTo n).blocks := by
      intro e he
      obtain ⟨⟨op, label⟩, -, hop⟩ := (mem_of_mapM hpairs).mp he
      obtain ⟨v, hv, hop⟩ := bind_eq_ok.mp hop
      obtain ⟨bb, hbb, hop⟩ := bind_eq_ok.mp hop
      cases hop
      exact ⟨resolveOperand_within hs hscope hv, resolveBlock_lt hscope hbb⟩
    refine lowered_plain hs ⟨?_, by simp [InstKind.callee?], ?_⟩
    · intro v hv
      obtain ⟨e, he, rfl⟩ := List.mem_map.mp hv
      exact (hpair e he).1
    · intro bb hbb
      obtain ⟨e, he, rfl⟩ := List.mem_map.mp hbb
      exact (hpair e he).2
  | debug operands | other operands =>
    obtain ⟨vs, hvs, h⟩ := bind_eq_ok.mp h
    cases h
    exact lowered_plain hs (within_of_operands rfl rfl (resolveOperands_within hs hscope hvs))

/-- An instruction is added and its location set if there is one. -/
theorem of_pushLocated {b : Builder} {bb : BlockId} {kind : InstKind} {ty : TypeId} {loc : Option Location}
    (h : (do
      let (i, b) ← built (b.push bb kind ty)
      match loc with
      | some loc => return { s with builder := ← built (b.setLocation i loc) }
      | none => return { s with builder := b }) = .ok s') :
    ∃ i b₁ b₂, b.push bb kind ty = .ok (i, b₁) ∧
      ((∃ l, loc = some l ∧ b₁.setLocation i l = .ok b₂) ∨ loc = none ∧ b₂ = b₁) ∧
        s' = { s with builder := b₂ } := by
  obtain ⟨⟨i, b₁⟩, hpush, h⟩ := bind_eq_ok.mp h
  have hpush := built_eq_ok.mp hpush
  cases loc with
  | none =>
    cases h
    exact ⟨i, b₁, b₁, hpush, .inr ⟨rfl, rfl⟩, rfl⟩
  | some l =>
    obtain ⟨b₂, hset, h⟩ := bind_eq_ok.mp h
    cases h
    exact ⟨i, b₁, b₂, hpush, .inl ⟨l, rfl, built_eq_ok.mp hset⟩, rfl⟩

/-- The type of an instruction is the one described or the one that its operation gives. -/
theorem of_addInst {bb : BlockId} {d : InstDesc} (h : addInst s scope bb d = .ok s') :
    ∃ kind given s₁ ty b₁ i b₂ b₃, lower s scope d.ty d.op = .ok (kind, given, s₁) ∧
      ((∃ text, d.ty = some text ∧ resolveType s₁.builder text = .ok (ty, b₁)) ∨
        d.ty = none ∧ ty = given ∧ b₁ = s₁.builder) ∧
        b₁.push bb kind ty = .ok (i, b₂) ∧
          ((∃ loc, d.loc = some loc ∧ b₂.setLocation i loc = .ok b₃) ∨ d.loc = none ∧ b₃ = b₂) ∧
            s' = { s₁ with builder := b₃ } := by
  obtain ⟨⟨kind, given, s₁⟩, hlower, h⟩ := bind_eq_ok.mp h
  cases hty : d.ty with
  | none =>
    simp only [hty] at h
    obtain ⟨i, b₂, b₃, hpushed⟩ := of_pushLocated h
    exact ⟨kind, given, s₁, given, s₁.builder, i, b₂, b₃, hty ▸ hlower, .inr ⟨rfl, rfl, rfl⟩, hpushed⟩
  | some text =>
    simp only [hty] at h
    obtain ⟨⟨ty, b₁⟩, htype, h⟩ := bind_eq_ok.mp h
    obtain ⟨i, b₂, b₃, hpushed⟩ := of_pushLocated h
    exact ⟨kind, given, s₁, ty, b₁, i, b₂, b₃, hty ▸ hlower, .inl ⟨text, rfl, htype⟩, hpushed⟩

/-- **The step of a body.** One more instruction is there, and everything is in range of what is going to be
there. -/
theorem addInst_sound (hs : s.Sound n) (hscope : scope.Fits s.builder.tables n)
    (hroom : s.builder.tables.insts.size < n) {bb : BlockId} {d : InstDesc}
    (h : addInst s scope bb d = .ok s') : s.GrowsTo n 1 s' := by
  obtain ⟨kind, given, s₁, ty, b₁, i, b₂, b₃, hlower, htype, hpush, hloc, rfl⟩ := of_addInst h
  have hlowered := lower_sound hs hscope hlower
  have hs₁ := hlowered.grows.sound
  -- the type that is written, or else the one of the operation
  have hmade : s₁.builder.MakesType (ty, b₁) := by
    rcases htype with ⟨text, -, hty⟩ | ⟨-, rfl, rfl⟩
    · exact makesType_resolveType hs₁.builder.types hty
    · exact makesType_self hs₁.builder.types hlowered.ty
  have htyped := hs₁.builder.makesType hmade
  have hkind := hlowered.kind.mono (htyped.le.upTo (Nat.le_refl n))
  -- neither the operation nor its type has added an instruction
  have hroom₁ : b₁.tables.insts.size < n := by
    rw [htyped.added, hlowered.grows.added]
    exact hroom
  have hpushed := htyped.trans (htyped.sound.push hkind hmade.lt hroom₁ hpush)
  rcases hloc with ⟨loc, -, hset⟩ | ⟨-, rfl⟩
  · exact hlowered.grows.trans (hs₁.withBuilder (hpushed.trans (hpushed.sound.setLocation hset)))
  · exact hlowered.grows.trans (hs₁.withBuilder hpushed)

/-- **The run of a block.** As many instructions are added as are described. -/
theorem addInsts_sound (hs : s.Sound n) (hscope : scope.Fits s.builder.tables n) {bb : BlockId}
    {ds : List InstDesc} (hroom : s.builder.tables.insts.size + ds.length ≤ n)
    (h : addInsts s scope bb ds = .ok s') : s.GrowsTo n ds.length s' := by
  induction ds generalizing s with
  | nil =>
    cases h
    exact .refl hs
  | cons d ds ih =>
    obtain ⟨s₁, hadd, h⟩ := bind_eq_ok.mp h
    rw [List.length_cons] at hroom
    -- the first instruction takes up one of the places that are left
    have hfirst := addInst_sound hs hscope (by omega) hadd
    have hrest := ih hfirst.sound (hscope.mono hfirst.le) (by rw [hfirst.added]; omega) h
    rw [List.length_cons, Nat.add_comm]
    exact hfirst.trans hrest

/-! ## Bodies -/

/-- The blocks of a function are added before its instructions, and all their labels are known then. -/
theorem addBlocks_sound {f : FunctionId} {function : String} {known blocks : List (String × BlockId)}
    {ds : List BlockDesc} (hb : b.Sound n) (hknown : ∀ e ∈ known, e.2.index < b.tables.blocks.size)
    (h : addBlocks b f function known ds = .ok (blocks, b')) :
    b.GrowsTo n 0 b' ∧ (∀ e ∈ blocks, e.2.index < b'.tables.blocks.size) ∧
      (ds ≠ [] → f.index < b.tables.functions.size) := by
  induction ds generalizing b known with
  | nil =>
    cases h
    exact ⟨⟨hb, .refl _, rfl⟩, hknown, by simp⟩
  | cons d ds ih =>
    obtain ⟨⟨i, b₁⟩, hblock, h⟩ := bind_eq_ok.mp h
    obtain ⟨hgrows, hf, hi⟩ := hb.block (built_eq_ok.mp hblock)
    simp only at h
    split at h
    · cases h
    · -- the new label, and those of the blocks before
      have hknown₁ : ∀ e ∈ (d.label, i) :: known, e.2.index < b₁.tables.blocks.size := by
        intro e he
        rcases List.mem_cons.mp he with rfl | he
        · exact hi
        · exact Nat.lt_of_lt_of_le (hknown e he) hgrows.le.blocks
      obtain ⟨hrest, hblocks, -⟩ := ih hgrows.sound hknown₁ h
      exact ⟨hgrows.trans hrest, hblocks, fun _ => hf⟩

/-- The numbers given to the instructions of a body are those that they are going to have. -/
theorem nameInsts_lt {next : Nat} {function : String} {known insts : List (String × InstId)}
    {ds : List InstDesc} (hknown : ∀ e ∈ known, e.2.index < next)
    (h : nameInsts next function known ds = .ok insts) : ∀ e ∈ insts, e.2.index < next + ds.length := by
  induction ds generalizing next known with
  | nil =>
    cases h
    exact hknown
  | cons d ds ih =>
    rw [List.length_cons, Nat.add_comm ds.length, ← Nat.add_assoc]
    unfold nameInsts at h
    -- an instruction without an identifier takes up a number too
    split at h
    · exact ih (fun e he => Nat.lt_succ_of_lt (hknown e he)) h
    · split at h
      · cases h
      · refine ih (fun e he => ?_) h
        rcases List.mem_cons.mp he with rfl | he
        · exact Nat.lt_succ_self next
        · exact Nat.lt_succ_of_lt (hknown e he)

/-- **The run of a body.** As many instructions are added as its blocks describe. -/
theorem fillBlocks_sound (hs : s.Sound n) (hscope : scope.Fits s.builder.tables n) {ds : List BlockDesc}
    (hroom : s.builder.tables.insts.size + (ds.flatMap BlockDesc.insts).length ≤ n)
    (h : fillBlocks s scope ds = .ok s') : s.GrowsTo n (ds.flatMap BlockDesc.insts).length s' := by
  induction ds generalizing s with
  | nil =>
    cases h
    exact .refl hs
  | cons d ds ih =>
    obtain ⟨bb, -, h⟩ := bind_eq_ok.mp h
    obtain ⟨s₁, hadd, h⟩ := bind_eq_ok.mp h
    rw [List.flatMap_cons, List.length_append] at hroom ⊢
    have hfirst := addInsts_sound hs hscope (by omega) hadd
    exact hfirst.trans (ih hfirst.sound (hscope.mono hfirst.le) (by rw [hfirst.added]; omega) h)

/-- After a body all its instructions are there, so the invariant holds for the instructions that the
program then has. -/
theorem addBody_sound {f : FunctionId} {d : FunctionDesc} (hs : s.Sound s.builder.tables.insts.size)
    (h : addBody s f d = .ok s') : s'.Sound s'.builder.tables.insts.size := by
  obtain ⟨⟨blocks, b₁⟩, hblocks, h⟩ := bind_eq_ok.mp h
  obtain ⟨insts, hinsts, h⟩ := bind_eq_ok.mp h
  -- operands may name instructions further down, so the body is built for the size that it ends with
  have hn := Nat.le_add_right s.builder.tables.insts.size (d.blocks.flatMap BlockDesc.insts).length
  obtain ⟨hgrows, hlabels, hfunc⟩ := addBlocks_sound (hs.builder.mono hn) (by simp) hblocks
  have hstate := (hs.mono hn).withBuilder hgrows
  cases hdescribed : d.blocks with
  | nil =>
    -- a declaration
    rw [hdescribed] at h hstate
    cases h
    rw [hgrows.added]
    exact hstate.sound
  | cons first rest =>
    have hscope : Scope.Fits ⟨f, blocks, insts⟩ b₁.tables _ :=
      { func := Nat.lt_of_lt_of_le (hfunc (by simp [hdescribed])) hgrows.le.functions
        blocks := hlabels
        insts := nameInsts_lt (by simp) hinsts }
    have hadded : b₁.tables.insts.size = s.builder.tables.insts.size := hgrows.added
    rw [hadded] at hscope
    have hfilled := fillBlocks_sound hstate.sound hscope (Nat.le_of_eq (by rw [hadded])) h
    rw [hfilled.added, hadded]
    exact hfilled.sound

/-- The bodies of all functions, one after the other. -/
theorem addBodies_sound {next : Nat} {ds : List FunctionDesc} (hs : s.Sound s.builder.tables.insts.size)
    (h : addBodies s next ds = .ok s') : s'.Sound s'.builder.tables.insts.size := by
  induction ds generalizing s next with
  | nil =>
    cases h
    exact hs
  | cons d ds ih =>
    obtain ⟨s₁, hbody, h⟩ := bind_eq_ok.mp h
    exact ih (addBody_sound hs hbody) h

/-! ## Whole programs -/

/-- **A description that is elaborated leaves a sound builder**, for exactly the instructions that it then has. -/
theorem elaborateBuilder_sound {d : ProgramDesc} (h : elaborateBuilder d = .ok b) :
    b.Sound b.tables.insts.size := by
  obtain ⟨⟨records, b₁⟩, hdeclare, h⟩ := bind_eq_ok.mp h
  obtain ⟨b₂, hdefine, h⟩ := bind_eq_ok.mp h
  obtain ⟨s₁, hglobals, h⟩ := bind_eq_ok.mp h
  obtain ⟨s₂, hheaders, h⟩ := bind_eq_ok.mp h
  obtain ⟨s₃, hbodies, h⟩ := bind_eq_ok.mp h
  cases h
  -- the five steps of the elaboration, in their order
  obtain ⟨htypes₁, hadds₁⟩ := declareTypes_inRange typesInRange_empty hdeclare
  obtain ⟨htypes₂, hadds₂⟩ := defineRecords_inRange htypes₁ hdefine
  have hb₂ := sound_empty.addsTypes (hadds₁.trans hadds₂) htypes₂
  have hs₁ := addGlobals_sound ⟨hb₂.sound, by simp, by simp⟩ hglobals
  have hs₂ := addHeaders_sound hs₁.sound hheaders
  -- up to here there are no instructions
  have hnone : s₂.builder.tables.insts.size = 0 := by
    rw [hs₂.added, hs₁.added]
    exact hb₂.added
  exact (addBodies_sound (by rw [hnone]; exact hs₂.sound) hbodies).builder

end Relock.Description

namespace Relock.Program

/-- A program that was loaded was elaborated from some description. -/
theorem exists_desc_of_load {text : String} {p : Program} (h : Program.load text = .ok p) :
    ∃ d b, Description.elaborateBuilder d = .ok b ∧ b.tables = p.toTables := by
  unfold Program.load at h
  split at h
  · unfold Program.ofJson at h
    split at h
    · next d _ =>
      unfold Program.ofDesc at h
      split at h
      · next helab =>
        cases h
        obtain ⟨b, hb, hfinish⟩ := bind_eq_ok.mp helab
        cases hfinish
        exact ⟨d, b, hb, rfl⟩
      · cases h
    · cases h
  · cases h

/-- Every index in a program that was loaded is in range. -/
theorem inRange_of_load {text : String} {p : Program} (h : Program.load text = .ok p) : p.InRange := by
  obtain ⟨d, b, hb, heq⟩ := exists_desc_of_load h
  rw [← heq]
  exact (Description.elaborateBuilder_sound hb).inRange

/-- A program that was loaded is arranged: blocks and functions list what names them. -/
theorem arranged_of_load {text : String} {p : Program} (h : Program.load text = .ok p) : p.Arranged := by
  obtain ⟨d, b, hb, heq⟩ := exists_desc_of_load h
  rw [← heq]
  exact (Description.elaborateBuilder_sound hb).arranged

/-- A text whose tables are known denotes a program. Its characters can be read off a literal at once. -/
theorem exists_load_of_chars {text : String} {chars : List Char} {t : Tables}
    (htext : text = .ofList chars)
    (h : (do
      let v ← (do Json.Parser.finish (← (← Json.tokens chars).foldlM Json.Parser.step (.value []))).toOption
      return (← (ofJson v).toOption).toTables) = some t) :
    ∃ p, Program.load text = .ok p ∧ p.toTables = t := by
  obtain ⟨v, hv, h⟩ := Option.bind_eq_some_iff.mp h
  obtain ⟨p, hp, h⟩ := Option.bind_eq_some_iff.mp h
  refine ⟨p, ?_, Option.some.inj h⟩
  -- the hypothesis is what `load` computes, without the wording of its errors
  subst htext
  unfold load Json.parse
  rw [String.toList_ofList, toOption_eq_some.mp hv]
  exact toOption_eq_some.mp hp

end Relock.Program
