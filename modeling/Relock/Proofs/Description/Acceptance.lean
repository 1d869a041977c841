import Relock.Proofs.Description.Elaboration
import Relock.Proofs.Description.WellFormed

/-!
# Exactly the well-formed descriptions are accepted

Elaboration stops at the first name that it cannot resolve, in a state that depends on all that was
elaborated before. What it can resolve does not: types are found by the declared names, whichever other
types were made on the way, and functions that are not known are declared. So each step succeeds under a
condition on the description alone, and the whole under the conditions of all steps together.

* `Scope.Covers`: the names that a scope resolves;
* `succeeds_lower`, `succeeds_addInst`, `succeeds_addBody`, `succeeds_addBodies`: the steps, from the inside out;
* `succeeds_addGlobals`, `succeeds_addHeaders`: the steps before them;
* `succeeds_elaborateBuilder`: all steps;
* `accepted_iff_wellFormed`: what is accepted, in which order ever it is declared.
-/

namespace Relock.Description

open Builder

variable {b b' : Builder} {s s' : State} {scope : Scope} {names globals labels ids : List String}

/-! ## Operands and blocks -/

/-- The names that can be resolved in a body. -/
structure Scope.Covers (scope : Scope) (known : List (String × Value)) (globals labels ids : List String) :
    Prop where
  globals : ∀ name, (known.lookup name).isSome ↔ name ∈ globals
  labels : ∀ label, (scope.blocks.lookup label).isSome ↔ label ∈ labels
  ids : ∀ id, (scope.insts.lookup id).isSome ↔ id ∈ ids

/-- **An operand can be resolved exactly if it is known**: each way to fail is one of the ways not to be known. -/
theorem succeeds_resolveOperand (hscope : scope.Covers s.globals globals labels ids) {o : Operand} :
    Succeeds (resolveOperand s scope o) ↔ o.Known globals ids := by
  cases o with
  | int n => exact iff_of_true (succeeds_ok _) (.int n)
  | name name =>
    simp only [resolveOperand]
    split
    · -- `%`: what follows has to be a number
      next digits hname =>
      split
      · next position hposition => exact iff_of_true (succeeds_ok _) (.arg hname hposition)
      · next cause hcause =>
        refine iff_of_false (not_succeeds_error _) ?_
        intro hknown
        cases hknown with
        | arg hs hdigits =>
          rw [hname] at hs
          cases hs
          rw [hcause] at hdigits
          cases hdigits
        | global hs =>
          rw [hname] at hs
          cases hs
        | inst harg => exact harg (by rw [hname]; rfl)
    · -- `@`: what follows has to be the name of a global
      next rest hname =>
      have hglobal := hscope.globals (String.ofList rest)
      split
      · next v hv =>
        rw [hv] at hglobal
        exact iff_of_true (succeeds_ok _) (.global hname (hglobal.mp rfl))
      · next hnone =>
        rw [hnone] at hglobal
        refine iff_of_false (not_succeeds_error _) ?_
        intro hknown
        cases hknown with
        | arg hs =>
          rw [hname] at hs
          cases hs
        | global hs hrest =>
          rw [hname] at hs
          cases hs
          exact absurd (hglobal.mpr hrest) (by simp)
        | inst _ hnot => exact hnot (by rw [hname]; rfl)
    · -- neither sign: it has to be the name of an instruction
      next harg hglobal =>
      have hid := hscope.ids name
      split
      · next i hi =>
        rw [hi] at hid
        exact iff_of_true (succeeds_ok _) (.inst (head?_ne harg) (head?_ne hglobal) (hid.mp rfl))
      · next hnone =>
        rw [hnone] at hid
        refine iff_of_false (not_succeeds_error _) ?_
        intro hknown
        cases hknown with
        | arg hs => exact harg _ hs
        | global hs => exact hglobal _ hs
        | inst _ _ hs => exact absurd (hid.mpr hs) (by simp)

/-- Operands can be resolved exactly if each of them is known. -/
theorem succeeds_resolveOperands (hscope : scope.Covers s.globals globals labels ids) {ops : List Operand} :
    Succeeds (resolveOperands s scope ops) ↔ ∀ o ∈ ops, o.Known globals ids := by
  rw [resolveOperands, succeeds_mapM]
  simp only [succeeds_resolveOperand hscope]

/-- A label can be resolved exactly if a block has it. -/
theorem succeeds_resolveBlock {known : List (String × Value)} (hscope : scope.Covers known globals labels ids)
    {label : String} : Succeeds (resolveBlock scope label) ↔ label ∈ labels := by
  simp only [Succeeds, resolveBlock_eq_ok, ← hscope.labels, Option.isSome_iff_exists]

/-! ## Instructions -/

/-- Any function can be called, if the type that is given for the call can be resolved. -/
theorem succeeds_resolveCallee (hs : s.Knows names) {ty : Option String}
    (hty : ∀ text, ty = some text → Resolves names text) (name : String) : Succeeds (resolveCallee s name ty) := by
  unfold resolveCallee
  split
  · exact succeeds_ok _
  · cases ty with
    | none => exact succeeds_ok _
    | some text =>
      obtain ⟨r, hr⟩ := (succeeds_resolveType hs.builder).mpr (hty text rfl)
      exact ⟨_, bind_eq_ok.mpr ⟨r, hr, rfl⟩⟩

/-- A function that is called has a result type, and to declare it changes no name of a value. -/
theorem succeeds_returnType (hs : s.Knows names) (hscope : scope.Covers s.globals globals labels ids)
    {name : String} {ty : Option String} {f : FunctionId} (h : resolveCallee s name ty = .ok (f, s')) :
    Succeeds (built (s'.builder.returnType f)) ∧ scope.Covers s'.globals globals labels ids := by
  obtain ⟨hcalls, g, hg, -⟩ := resolveCallee_calls hs h
  rw [hcalls.globals]
  exact ⟨succeeds_built.mpr ⟨g.ret, returnType_eq_ok.mpr ⟨g, hg, rfl⟩⟩, hscope⟩

/-- **An operation can be lowered exactly if all that it mentions is known**: types, operands and labels. -/
theorem succeeds_lower (hs : s.Knows names) (hscope : scope.Covers s.globals globals labels ids)
    {ty : Option String} (hty : ∀ text, ty = some text → Resolves names text) {op : Operation} :
    Succeeds (lower s scope ty op) ↔ (∀ text ∈ op.typeTexts, Resolves names text) ∧
      (∀ o ∈ op.operands, o.Known globals ids) ∧ ∀ label ∈ op.labels, label ∈ labels := by
  -- conditions for the parts that most operations are made of
  have hop {o : Operand} := @succeeds_resolveOperand s scope globals labels ids hscope o
  have hops {ops : List Operand} := @succeeds_resolveOperands s scope globals labels ids hscope ops
  have hblock {label : String} := @succeeds_resolveBlock scope globals labels ids _ hscope label
  cases op with
  | call callee args =>
    -- the callee is resolved first and may be declared by that, so the operands are resolved in a later state
    refine (succeeds_bind (P := ∀ o ∈ args, o.Known globals ids) fun ⟨f, s₁⟩ hf => ?_).trans ?_
    · simp [succeeds_resolveCallee hs hty callee]
    · obtain ⟨⟨ret, hret⟩, hscope₁⟩ := succeeds_returnType hs hscope hf
      show Succeeds (built (s₁.builder.returnType f) >>= fun ret => do
        return (InstKind.call (.direct f) (← resolveOperands s₁ scope args), ret, s₁)) ↔ _
      rw [hret]
      exact succeeds_bind_pure.trans (succeeds_resolveOperands hscope₁)
  | callIndirect callee args =>
    rw [lower, succeeds_bind fun _ _ => succeeds_bind_pure, hop, hops]
    simp
  | invoke callee args normal unwind =>
    refine (succeeds_bind (P := (∀ o ∈ args, o.Known globals ids) ∧ normal ∈ labels ∧ unwind ∈ labels)
      fun ⟨f, s₁⟩ hf => ?_).trans ?_
    · simp [succeeds_resolveCallee hs hty callee]
    · obtain ⟨⟨ret, hret⟩, hscope₁⟩ := succeeds_returnType hs hscope hf
      show Succeeds (built (s₁.builder.returnType f) >>= fun ret => do
        let args ← resolveOperands s₁ scope args
        return (InstKind.invoke (.direct f) args (← resolveBlock scope normal) (← resolveBlock scope unwind),
          ret, s₁)) ↔ _
      rw [hret, ← succeeds_resolveOperands hscope₁, ← hblock, ← hblock]
      exact succeeds_bind fun _ _ => succeeds_bind fun _ _ => succeeds_bind_pure
  | br dest =>
    rw [lower, succeeds_bind_pure, hblock]
    simp
  | condBr cond thenDest elseDest =>
    rw [lower, succeeds_bind fun _ _ => succeeds_bind fun _ _ => succeeds_bind_pure, hop, hblock, hblock]
    simp
  | ret value =>
    cases value with
    | none => exact iff_of_true (succeeds_ok _) (by simp)
    | some value =>
      rw [lower, succeeds_bind_pure, hop]
      simp
  | unreachable | landingPad =>
    exact iff_of_true (succeeds_ok _) (by simp)
  | load value | field value _ | cast value =>
    rw [lower, succeeds_bind_pure, hop]
    simp
  | store value ptr =>
    rw [lower, succeeds_bind fun _ _ => succeeds_bind_pure, hop, hop]
    simp
  | icmp pred lhs rhs =>
    show Succeeds (do
      let v ← resolveOperand s scope lhs
      let w ← resolveOperand s scope rhs
      return (InstKind.icmp (predicateOf pred) v w, (s.builder.int 1).1,
        { s with builder := (s.builder.int 1).2 })) ↔ _
    rw [succeeds_bind fun _ _ => succeeds_bind_pure, hop, hop]
    simp
  | alloca allocated =>
    rw [lower, succeeds_bind (P := True) fun ⟨i, b₁⟩ _ => iff_of_true ⟨_, rfl⟩ trivial,
      succeeds_resolveType hs.builder]
    simp
  | phi incoming =>
    -- a phi resolves a value and a label for each of its entries
    have hpair (e : Operand × String) : Succeeds (do
        return (← resolveOperand s scope e.1, ← resolveBlock scope e.2)) ↔ e.1.Known globals ids ∧ e.2 ∈ labels := by
      rw [succeeds_bind fun _ _ => succeeds_bind_pure, hop, hblock]
    rw [lower, succeeds_bind_pure, succeeds_mapM]
    refine (forall₂_congr fun e _ => hpair e).trans ?_
    simp only [Operation.typeTexts, Operation.operands, Operation.labels, List.forall_mem_map]
    constructor
    · intro hall
      exact ⟨by simp, fun e he => (hall e he).1, fun e he => (hall e he).2⟩
    · rintro ⟨-, hknown, hlabels⟩ e he
      exact ⟨hknown e he, hlabels e he⟩
  | debug operands | other operands =>
    rw [lower, succeeds_bind_pure, hops]
    simp

/-- What the names that a scope resolves stand for. -/
def Scope.naming (scope : Scope) (known : List (String × Value)) : Naming where
  func := scope.func
  block label bb := scope.blocks.lookup label = some bb
  inst id i := scope.insts.lookup id = some i
  global name v := known.lookup name = some v

/-- A scope resolves names to what they stand for in it. -/
theorem Scope.names_naming (scope : Scope) (known : List (String × Value)) :
    scope.Names known (scope.naming known) :=
  ⟨rfl, fun _ _ h => h, fun _ _ h => h, fun _ _ h => h⟩

/-- An instruction can be added to a block that exists, with or without a location. -/
theorem succeeds_pushLocated {bb : BlockId} (hbb : Succeeds (b.tables.block bb)) (kind : InstKind) (ty : TypeId)
    (loc : Option Location) : Succeeds (do
      let (i, b) ← built (b.push bb kind ty)
      match loc with
      | some loc => return { s with builder := ← built (b.setLocation i loc) }
      | none => return { s with builder := b }) := by
  refine exists_bind_ok (succeeds_built.mpr (succeeds_push.mpr hbb)) fun ⟨i, b₁⟩ hb₁ => ?_
  cases loc with
  | none => exact ⟨_, rfl⟩
  | some loc => exact succeeds_bind_pure.mpr (succeeds_built.mpr (succeeds_setLocation (built_eq_ok.mp hb₁) loc))

/-- **Step lemma**: an instruction can be added exactly if it is well-formed. -/
theorem succeeds_addInst (hs : s.Knows names) (hscope : scope.Covers s.globals globals labels ids) {bb : BlockId}
    (hbb : Succeeds (s.builder.tables.block bb)) {d : InstDesc} :
    Succeeds (addInst s scope bb d) ↔ d.WellFormed names globals labels ids := by
  have hlowered {r : InstKind × TypeId × State} (hr : lower s scope d.ty d.op = .ok r) :
      r.2.2.Knows names ∧ Succeeds (r.2.2.builder.tables.block bb) := by
    obtain ⟨⟨hadds, -, hknows, -⟩, -, -⟩ := lower_means hs (scope.names_naming s.globals) hr
    exact ⟨hknows, hadds.succeeds_block hbb⟩
  -- a call of an unknown function resolves the type before its operands, other operations after: split on it
  by_cases hty : ∀ text, d.ty = some text → Resolves names text
  · refine (succeeds_bind (P := True) fun ⟨kind, given, s₁⟩ hlower => ?_).trans ?_
    · rw [succeeds_lower hs hscope hty, and_true]
      constructor
      · rintro ⟨htypes, hoperands, hlabels⟩
        exact ⟨hty, htypes, hoperands, hlabels⟩
      · intro hd
        exact ⟨hd.types, hd.operands, hd.labels⟩
    · refine iff_of_true ?_ trivial
      obtain ⟨hknows, hbb₁⟩ := hlowered hlower
      cases htext : d.ty with
      | none => exact succeeds_pushLocated hbb₁ kind given d.loc
      | some text =>
        -- the described type is resolved once more, now for the instruction
        refine exists_bind_ok ((succeeds_resolveType hknows.builder).mpr (hty text htext)) fun ⟨ty, b₁⟩ hb₁ => ?_
        obtain ⟨hfinds, -⟩ := resolveType_spells hknows.builder hb₁
        exact succeeds_pushLocated (hfinds.adds.succeeds_block hbb₁) kind ty d.loc
  · -- an instruction that was added has had its type resolved, whatever its operation is
    refine iff_of_false ?_ fun hd => hty hd.ty
    rintro ⟨s', h⟩
    obtain ⟨⟨kind, given, s₁⟩, hlower, h⟩ := bind_eq_ok.mp h
    obtain ⟨hknows, -⟩ := hlowered hlower
    refine hty fun text htext => ?_
    simp only [htext] at h
    obtain ⟨r, hr, -⟩ := bind_eq_ok.mp h
    exact (succeeds_resolveType hknows.builder).mp ⟨r, hr⟩

/-- The instructions of a block can be added exactly if each of them is well-formed. -/
theorem succeeds_addInsts (hs : s.Knows names) (hscope : scope.Covers s.globals globals labels ids)
    {bb : BlockId} (hbb : Succeeds (s.builder.tables.block bb)) {ds : List InstDesc} :
    Succeeds (addInsts s scope bb ds) ↔ ∀ d ∈ ds, d.WellFormed names globals labels ids := by
  induction ds generalizing s with
  | nil => exact iff_of_true (succeeds_ok _) (by simp)
  | cons d ds ih =>
    rw [List.forall_mem_cons, ← succeeds_addInst hs hscope hbb, addInsts]
    refine succeeds_bind fun s₁ hs₁ => ?_
    have hfirst := addInst_elaborates hs (scope.names_naming s.globals) hs₁
    rw [← hfirst.globals] at hscope
    exact ih hfirst.knows hscope (hfirst.succeeds_block hbb)

/-! ## Bodies -/

/-- Blocks can be added exactly if their labels are new and differ. -/
theorem succeeds_addBlocks {f : FunctionId} {function : String} {known : List (String × BlockId)}
    {ds : List BlockDesc} (hf : Succeeds (b.tables.function f)) :
    Succeeds (addBlocks b f function known ds) ↔ (ds.map BlockDesc.label).Nodup ∧
      ∀ label ∈ ds.map BlockDesc.label, label ∉ known.map Prod.fst := by
  induction ds generalizing b known with
  | nil => exact iff_of_true (succeeds_ok _) (by simp)
  | cons d ds ih =>
    refine (succeeds_bind fun ⟨i, b₁⟩ hb₁ => ?_).trans (and_iff_right (succeeds_built.mpr (succeeds_block.mpr hf)))
    simp only
    split
    · -- the label is taken: the block is refused, and the labels are not new
      next htaken =>
      rw [isSome_lookup] at htaken
      exact iff_of_false (not_succeeds_error _) fun h => h.2 d.label (by simp) htaken
    · next hfresh =>
      rw [isSome_lookup] at hfresh
      rw [List.map_cons, nodup_cons_iff hfresh]
      exact ih ((adds_block (built_eq_ok.mp hb₁)).succeeds_function hf)

/-- Instructions can be named exactly if their names are new and differ. -/
theorem succeeds_nameInsts {next : Nat} {function : String} {known : List (String × InstId)} {ds : List InstDesc} :
    Succeeds (nameInsts next function known ds) ↔ (ds.filterMap InstDesc.id).Nodup ∧
      ∀ id ∈ ds.filterMap InstDesc.id, id ∉ known.map Prod.fst := by
  induction ds generalizing next known with
  | nil => exact iff_of_true (succeeds_ok _) (by simp)
  | cons d ds ih =>
    unfold nameInsts
    split
    · next hid =>
      rw [List.filterMap_cons_none hid]
      exact ih
    · next id hid =>
      rw [List.filterMap_cons_some hid]
      split
      · next htaken =>
        rw [isSome_lookup] at htaken
        exact iff_of_false (not_succeeds_error _) fun h => h.2 id (by simp) htaken
      · next hfresh =>
        rw [isSome_lookup] at hfresh
        rw [nodup_cons_iff hfresh]
        exact ih

/-- Blocks can be filled exactly if all instructions are well-formed. -/
theorem succeeds_fillBlocks (hs : s.Knows names) (hscope : scope.Covers s.globals globals labels ids)
    {ds : List BlockDesc} (hds : ∀ bd ∈ ds, ∃ bb, scope.blocks.lookup bd.label = some bb ∧
      Succeeds (s.builder.tables.block bb)) :
    Succeeds (fillBlocks s scope ds) ↔
      ∀ d ∈ ds.flatMap BlockDesc.insts, d.WellFormed names globals labels ids := by
  -- the blocks are there before the first is filled, and filling one takes none away
  induction ds generalizing s with
  | nil => exact iff_of_true (succeeds_ok _) (by simp)
  | cons bd ds ih =>
    obtain ⟨⟨bb, hbb, hblock⟩, hds⟩ := List.forall_mem_cons.mp hds
    rw [List.flatMap_cons, List.forall_mem_append, ← succeeds_addInsts hs hscope hblock, fillBlocks,
      resolveBlock_eq_ok.mpr hbb, ok_bind]
    refine succeeds_bind fun s₁ hs₁ => ?_
    have hfirst := addInsts_elaborates hs (scope.names_naming s.globals) hs₁
    rw [← hfirst.globals] at hscope
    refine ih hfirst.knows hscope fun bd' hbd' => ?_
    obtain ⟨bb', hbb', hblock'⟩ := hds bd' hbd'
    exact ⟨bb', hbb', hfirst.succeeds_block hblock'⟩

theorem map_fst_namedInsts (next : Nat) (ds : List InstDesc) :
    (namedInsts next ds).map Prod.fst = ds.filterMap InstDesc.id := by
  induction ds generalizing next with
  | nil => rfl
  | cons d ds ih =>
    rw [namedInsts, List.map_append, ih]
    cases hid : d.id with
    | none => simp [List.filterMap_cons_none hid]
    | some id => simp [List.filterMap_cons_some hid]

theorem map_fst_zip_blockRange (first : Nat) (ds : List BlockDesc) :
    ((ds.map BlockDesc.label).zip (blockRange first ds.length)).map Prod.fst = ds.map BlockDesc.label := by
  rw [List.map_fst_zip]
  simp [blockRange]

/-- **A body can be added exactly if it is well-formed.** No condition is on the state, but that the function
exists. -/
theorem succeeds_addBody (hs : s.Knows names) (hglobals : ∀ name, (s.globals.lookup name).isSome ↔ name ∈ globals)
    {f : FunctionId} (hf : Succeeds (s.builder.tables.function f)) {fd : FunctionDesc} :
    Succeeds (addBody s f fd) ↔ fd.labels.Nodup ∧ fd.ids.Nodup ∧
      ∀ d ∈ fd.insts, d.WellFormed names globals fd.labels fd.ids := by
  have hlabels : Succeeds (addBlocks s.builder f fd.name [] fd.blocks) ↔ fd.labels.Nodup := by
    rw [succeeds_addBlocks hf]
    simp [FunctionDesc.labels]
  rw [← hlabels]
  refine succeeds_bind fun added hblocks => ?_
  obtain ⟨blocks, b₁⟩ := added
  obtain ⟨hb₁, hadds, hblocksEq, -⟩ := addBlocks_elaborates hblocks hs.builder .nil
  rw [List.append_nil] at hblocksEq
  -- no instruction has been added so far, so only the names are checked
  have hids : Succeeds (nameInsts b₁.tables.insts.size fd.name [] (fd.blocks.flatMap BlockDesc.insts)) ↔
      fd.ids.Nodup := by
    rw [succeeds_nameInsts]
    simp [FunctionDesc.ids, FunctionDesc.insts]
  rw [← hids]
  refine succeeds_bind fun insts hinsts => ?_
  have hinstsEq := nameInsts_eq hinsts
  rw [List.append_nil] at hinstsEq
  -- both tables of names are complete before the first operand is resolved, so it may name what comes later
  have hscope : Scope.Covers ⟨f, blocks, insts⟩ s.globals globals fd.labels fd.ids := by
    refine ⟨hglobals, fun label => ?_, fun id => ?_⟩
    · rw [isSome_lookup, hblocksEq, List.map_reverse, List.mem_reverse, map_fst_zip_blockRange]
      exact Iff.rfl
    · rw [isSome_lookup, hinstsEq, List.map_reverse, List.mem_reverse, map_fst_namedInsts]
      exact Iff.rfl
  refine succeeds_fillBlocks (hs.withBuilder hb₁ hadds rfl) hscope fun bd hbd => ?_
  -- the blocks that the labels find are those that were just added
  obtain ⟨bb, hbb⟩ := Option.isSome_iff_exists.mp ((hscope.labels bd.label).mpr (List.mem_map_of_mem hbd))
  refine ⟨bb, hbb, ?_⟩
  have hmem := mem_of_lookup hbb
  rw [hblocksEq, List.mem_reverse] at hmem
  obtain ⟨k, hk, rfl⟩ := List.mem_map.mp (List.of_mem_zip hmem).2
  have hlt := (List.mem_range'_1.mp hk).2
  obtain ⟨x, -, hx⟩ := @exists_lookUp _ .blocks b₁.tables.blocks k (by
    rw [hadds.size_blocks, List.length_map]
    exact hlt)
  exact ⟨x, hx⟩

/-- **Run lemma**: all bodies can be added exactly if each of them is well-formed. -/
theorem succeeds_addBodies {d : ProgramDesc} (hs : s.Knows names) (hknown : s.KnowsGlobals d)
    (hglobals : ∀ name, (s.globals.lookup name).isSome ↔ name ∈ globals) {next : Nat} {fds : List FunctionDesc}
    (hfds : ∀ k, next ≤ k → k < next + fds.length → Succeeds (s.builder.tables.function ⟨k⟩)) :
    Succeeds (addBodies s next fds) ↔ ∀ fd ∈ fds, fd.labels.Nodup ∧ fd.ids.Nodup ∧
      ∀ x ∈ fd.insts, x.WellFormed names globals fd.labels fd.ids := by
  induction fds generalizing s next with
  | nil => exact iff_of_true (succeeds_ok _) (by simp)
  | cons fd fds ih =>
    rw [List.length_cons] at hfds
    rw [List.forall_mem_cons, ← succeeds_addBody hs hglobals (hfds next (by omega) (by omega))]
    refine succeeds_bind fun s₁ hs₁ => ?_
    have hfirst := addBody_elaborates hs hknown hs₁
    rw [← hfirst.globals] at hglobals
    refine ih hfirst.knows (hknown.of_eq hfirst.globals) hglobals fun k hle hlt => ?_
    exact hfirst.succeeds_function (hfds k (by omega) (by omega))

/-! ## Globals and function headers -/

/-- Globals can be added exactly if their types can be resolved, whatever their names are. -/
theorem succeeds_addGlobals (hs : s.Knows names) {ds : List GlobalDesc} :
    Succeeds (addGlobals s ds) ↔ ∀ gd ∈ ds, Resolves names gd.ty := by
  induction ds generalizing s with
  | nil => exact iff_of_true (succeeds_ok _) (by simp)
  | cons gd ds ih =>
    rw [List.forall_mem_cons, ← succeeds_resolveType hs.builder]
    refine succeeds_bind fun ⟨ty, b₁⟩ hty => ?_
    obtain ⟨hfinds, -⟩ := resolveType_spells hs.builder hty
    obtain ⟨hknows, hadds, -⟩ := adds_global hfinds.knows gd.name ty
    exact ih (hs.withBuilder hknows (hfinds.adds.types_trans hadds) rfl)

/-- Globals are known by their names, and nothing is known about functions that was not known before. -/
theorem addGlobals_names {ds : List GlobalDesc} (h : addGlobals s ds = .ok s') :
    s'.globals.map Prod.fst = (ds.map GlobalDesc.name).reverse ++ s.globals.map Prod.fst ∧
      s'.functions = s.functions := by
  induction ds generalizing s with
  | nil =>
    cases h
    exact ⟨rfl, rfl⟩
  | cons gd ds ih =>
    obtain ⟨⟨ty, b₁⟩, -, h⟩ := bind_eq_ok.mp h
    obtain ⟨hglobals, hfunctions⟩ := ih h
    exact ⟨by simp [hglobals], hfunctions⟩

/-- Headers can be added exactly if the names of functions are new and differ, and their types can be resolved. -/
theorem succeeds_addHeaders (hs : s.Knows names) {fds : List FunctionDesc} :
    Succeeds (addHeaders s fds) ↔
      ((fds.map FunctionDesc.name).Nodup ∧ ∀ name ∈ fds.map FunctionDesc.name, name ∉ s.functions.map Prod.fst) ∧
        ∀ fd ∈ fds, (∀ text ∈ fd.params, Resolves names text) ∧ Resolves names fd.ret := by
  induction fds generalizing s with
  | nil => exact iff_of_true (succeeds_ok _) (by simp)
  | cons fd fds ih =>
    unfold addHeaders
    split
    · next htaken =>
      rw [isSome_lookup] at htaken
      exact iff_of_false (not_succeeds_error _) fun h => h.1.2 fd.name (by simp) htaken
    · -- the parameter types are resolved before the result type, and declare no name
      next hfresh =>
      rw [isSome_lookup] at hfresh
      rw [List.map_cons, nodup_cons_iff hfresh, List.forall_mem_cons, and_left_comm, and_assoc,
        ← succeeds_resolveTypes hs.builder]
      refine succeeds_bind fun resolved hparams => ?_
      obtain ⟨params, b₁⟩ := resolved
      obtain ⟨hfinds₁, -⟩ := resolveTypes_spell hs.builder hparams
      rw [← succeeds_resolveType hfinds₁.knows]
      refine succeeds_bind fun resolved hret => ?_
      obtain ⟨ret, b₂⟩ := resolved
      obtain ⟨hfinds₂, -⟩ := resolveType_spells hfinds₁.knows hret
      have hfinds := hfinds₁.trans hfinds₂
      exact ih (hs.withFunction hfinds.knows hfinds.adds fd.name params ret)

/-! ## Programs -/

/-- The conditions on a description, by the steps that check them. -/
theorem ProgramDesc.wellFormed_iff_steps (d : ProgramDesc) :
    d.WellFormed ↔ d.typeNames.Nodup ∧
      (∀ fields ∈ d.types.filterMap TypeDesc.fields, ∀ text ∈ fields, Resolves d.typeNames text) ∧
      (∀ gd ∈ d.globals, Resolves d.typeNames gd.ty) ∧
      ((d.functions.map FunctionDesc.name).Nodup ∧
        ∀ fd ∈ d.functions, (∀ text ∈ fd.params, Resolves d.typeNames text) ∧ Resolves d.typeNames fd.ret) ∧
      ∀ fd ∈ d.functions, fd.labels.Nodup ∧ fd.ids.Nodup ∧
        ∀ x ∈ fd.insts, x.WellFormed d.typeNames d.globalNames fd.labels fd.ids := by
  constructor
  · intro hd
    refine ⟨hd.typeNames, fun fields hfields => ?_, hd.globals, ⟨hd.functionNames, fun fd hfd => ?_⟩,
      fun fd hfd => ?_⟩
    · obtain ⟨td, htd, hfields⟩ := List.mem_filterMap.mp hfields
      exact hd.fields td htd fields hfields
    · have h := hd.functions fd hfd
      exact ⟨h.params, h.ret⟩
    · have h := hd.functions fd hfd
      exact ⟨h.labels, h.ids, h.insts⟩
  · rintro ⟨htypes, hfields, hglobals, ⟨hnames, hheaders⟩, hbodies⟩
    refine ⟨htypes, hnames, fun td htd fields hsome => ?_, hglobals, fun fd hfd => ?_⟩
    · exact hfields fields (List.mem_filterMap.mpr ⟨td, htd, hsome⟩)
    · obtain ⟨hparams, hret⟩ := hheaders fd hfd
      obtain ⟨hlabels, hids, hinsts⟩ := hbodies fd hfd
      exact ⟨hparams, hret, hlabels, hids, hinsts⟩

/-- **All stages of the loader succeed exactly if the description is well-formed.** -/
theorem succeeds_elaborateBuilder (d : ProgramDesc) : Succeeds (elaborateBuilder d) ↔ d.WellFormed := by
  have htypes : Succeeds (declareTypes .empty d.types) ↔ d.typeNames.Nodup := by
    rw [succeeds_declareTypes Builder.knows_empty]
    simp [ProgramDesc.typeNames]
  -- each step succeeds if its own condition holds, in a state that the steps before it have described
  rw [d.wellFormed_iff_steps, ← htypes]
  refine succeeds_bind fun ⟨records, b₁⟩ hrecords => ?_
  obtain ⟨hb₁, -, hfields, hexist⟩ := declareTypes_knows Builder.knows_empty hrecords
  rw [List.append_nil, ← ProgramDesc.typeNames] at hb₁
  rw [← hfields, List.forall_mem_map, ← succeeds_defineRecords hb₁ hexist]
  refine succeeds_bind fun b₂ hb₂ => ?_
  obtain ⟨hs, hempty⟩ := knows_records hrecords hb₂
  rw [← ProgramDesc.typeNames] at hs
  rw [← succeeds_addGlobals hs]
  refine succeeds_bind fun s₁ hs₁ => ?_
  obtain ⟨hknows₁, hknown, gs, hadds₁, -⟩ := addGlobals_known hs hempty hs₁
  obtain ⟨hglobals, hfunctions⟩ := addGlobals_names hs₁
  -- no function is known before the headers
  have hheaders : Succeeds (addHeaders s₁ d.functions) ↔ (d.functions.map FunctionDesc.name).Nodup ∧
      ∀ fd ∈ d.functions, (∀ text ∈ fd.params, Resolves d.typeNames text) ∧ Resolves d.typeNames fd.ret := by
    rw [succeeds_addHeaders hknows₁, hfunctions]
    simp [ProgramDesc.typeNames]
  rw [← hheaders]
  refine succeeds_bind fun s₂ hs₂ => ?_
  obtain ⟨hknows₂, hsame, hs, hadds₂, hdescribed⟩ := addHeaders_describe hknows₁ hs₂
  -- the globals that bodies may name are all of them
  have hcovers : ∀ name, (s₂.globals.lookup name).isSome ↔ name ∈ d.globalNames := by
    intro name
    rw [isSome_lookup, hsame, hglobals, List.map_nil, List.append_nil, List.mem_reverse]
    exact Iff.rfl
  refine succeeds_bind_pure.trans (succeeds_addBodies hknows₂ (hknown.of_eq hsame) hcovers fun k _ hk => ?_)
  -- one function was added for each described one
  have hsize := hadds₂.size_functions
  rw [← hdescribed.length_eq] at hsize
  obtain ⟨g, -, hg⟩ := @exists_lookUp _ .functions s₂.builder.tables.functions k (by omega)
  exact ⟨g, hg⟩

theorem succeeds_elaborate (d : ProgramDesc) : Succeeds (elaborate d) ↔ d.WellFormed := by
  rw [elaborate, succeeds_bind_pure, succeeds_elaborateBuilder]

/-- **A description is accepted if and only if it is well-formed.** So neither the order of its declarations
matters, nor whether globals share their names. -/
theorem accepted_iff_wellFormed (d : ProgramDesc) :
    ((∃ p, elaborate d = .ok p) ↔ d.WellFormed) ∧
      (∀ d', d.Reorders d' → ((∃ p, elaborate d = .ok p) ↔ ∃ p, elaborate d' = .ok p)) ∧
      ∀ gd : GlobalDesc, gd.name ∈ d.globalNames → Resolves d.typeNames gd.ty →
        ((∃ p, elaborate { d with globals := gd :: d.globals } = .ok p) ↔ ∃ p, elaborate d = .ok p) := by
  refine ⟨succeeds_elaborate d, fun d' hd' => ?_, fun gd hname hty => ?_⟩
  · exact (succeeds_elaborate d).trans (hd'.wellFormed_iff.trans (succeeds_elaborate d').symm)
  · have hsame := ProgramDesc.wellFormed_of_repeated hname hty
    exact (succeeds_elaborate _).trans (hsame.trans (succeeds_elaborate d).symm)

/-- Two globals share a name, and what is used is declared later: a type, an instruction and a function. -/
def sharedName : ProgramDesc where
  types := [⟨"Guard", some ["*Lock"]⟩, ⟨"Lock", none⟩]
  globals := [⟨"g", "Lock"⟩, ⟨"g", "i32"⟩]
  functions := [
    ⟨"main", ["*Guard"], "void", [
      ⟨"start", [⟨none, none, none, .call "helper" [.name "%0", .name "x"]⟩,
        ⟨some "x", none, none, .load (.name "@g")⟩]⟩,
      ⟨"stop", [⟨none, none, none, .br "start"⟩]⟩]⟩,
    ⟨"helper", [], " * i8 ", []⟩]

/-- The same in the opposite order. -/
def sharedNameReversed : ProgramDesc where
  types := [⟨"Lock", none⟩, ⟨"Guard", some ["*Lock"]⟩]
  globals := [⟨"g", "i32"⟩, ⟨"g", "Lock"⟩]
  functions := [
    ⟨"helper", [], " * i8 ", []⟩,
    ⟨"main", ["*Guard"], "void", [
      ⟨"stop", [⟨none, none, none, .br "start"⟩]⟩,
      ⟨"start", [⟨some "x", none, none, .load (.name "@g")⟩,
        ⟨none, none, none, .call "helper" [.name "%0", .name "x"]⟩]⟩]⟩]

/-- One description is the other one in reverse. -/
theorem reorders_sharedName : sharedName.Reorders sharedNameReversed := by
  refine ⟨.swap .., .swap .., sharedNameReversed.functions.reverse, ?_, List.reverse_perm _⟩
  refine .cons ⟨rfl, rfl, rfl, _, ?_, .swap ..⟩ (.cons ⟨rfl, rfl, rfl, [], .nil, .refl _⟩ .nil)
  exact .cons ⟨rfl, .swap ..⟩ (.cons ⟨rfl, .refl _⟩ .nil)

/-- Both are accepted, and so is a third global of the same name. -/
theorem accepted_sharedName : sharedName.WellFormed ∧ (∃ p, elaborate sharedNameReversed = .ok p) ∧
    ∃ p, elaborate { sharedName with globals := ⟨"g", "*Guard"⟩ :: sharedName.globals } = .ok p := by
  obtain ⟨hiff, horder, hrepeated⟩ := accepted_iff_wellFormed sharedName
  have haccepted : ∃ p, elaborate sharedName = .ok p := by
    have hsome : (elaborate sharedName).toOption.isSome := by decide +kernel
    obtain ⟨p, hp⟩ := Option.isSome_iff_exists.mp hsome
    exact ⟨p, toOption_eq_some.mp hp⟩
  have hguard : Resolves sharedName.typeNames "*Guard" := by
    rw [resolves_iff]
    intro name hname
    have hnamed : (TypeText.ofText "*Guard").base = .named "Guard" := by decide +kernel
    rw [hnamed] at hname
    cases hname
    decide
  refine ⟨hiff.mp haccepted, (horder _ reorders_sharedName).mp haccepted, ?_⟩
  exact (hrepeated ⟨"g", "*Guard"⟩ (by decide) hguard).mpr haccepted

end Relock.Description
