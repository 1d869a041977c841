import Relock.Proofs.Description.Meaning

/-!
# Elaboration adds what is described

What each step of the elaboration adds to the tables, as a relation between the states before and after it.
Instructions get the numbers that were given to their names beforehand because every step adds exactly what
is described, in order: `State.Elaborates` says so for single instructions, and steps are put together by
`State.Elaborates.trans`.

* `State.Knows`: functions are known under their names;
* `lower_means`: an operation is lowered to what it means;
* `Placed`, `State.Elaborates`: what the part of a body adds;
* `addInst_elaborates`, `fillBlocks_elaborates`, `addBody_elaborates`, `addBodies_elaborate`: the steps, from
  the inside out;
* `addGlobals_describe`, `addHeaders_describe`: the steps before them;
* `knows_records`, `addGlobals_known`: the state in which these begin.
-/

namespace Relock

/-! ## Sizes -/

namespace Tables

variable {t t' : Tables} {e : Entries}

/-- The names of the functions in order. -/
def functionNames (t : Tables) : List String := t.entries.functions.map Function.name

/-- The names of new functions come after those of the old ones. -/
theorem Adds.functionNames (h : t.Adds e t') :
    t'.functionNames = t.functionNames ++ e.functions.map Function.name := by
  rw [Tables.functionNames, h.entries, Entries.functions_append, List.map_append, Tables.functionNames]

theorem Adds.size_globals (h : t.Adds e t') : t'.globals.size = t.globals.size + e.globals.length := by
  have hlength := congrArg (fun e => e.globals.length) h.entries
  simpa [Tables.entries] using hlength

theorem Adds.size_functions (h : t.Adds e t') : t'.functions.size = t.functions.size + e.functions.length := by
  have hlength := congrArg (fun e => e.functions.length) h.entries
  simpa [Tables.entries] using hlength

theorem Adds.size_blocks (h : t.Adds e t') : t'.blocks.size = t.blocks.size + e.blocks.length := by
  have hlength := congrArg (fun e => e.blocks.length) h.entries
  simpa [Tables.entries] using hlength

/-- How many instructions there are. The loader hands out the numbers of instructions before it adds them, so
these counts are what makes the numbers right. -/
theorem Adds.size_insts (h : t.Adds e t') : t'.insts.size = t.insts.size + e.insts.length := by
  have hlength := congrArg (fun e => e.insts.length) h.entries
  simpa [Tables.entries] using hlength

theorem Adds.succeeds_block (h : t.Adds e t') {b : BlockId} (hb : Succeeds (t.block b)) :
    Succeeds (t'.block b) := by
  obtain ⟨x, hx⟩ := hb
  -- a block may list more instructions now, so only its index is carried over
  have hlt := lt_of_block hx
  obtain ⟨y, -, hy⟩ := @exists_lookUp _ .blocks t'.blocks b.index (by rw [h.size_blocks]; omega)
  exact ⟨y, hy⟩

theorem Adds.succeeds_function (h : t.Adds e t') {f : FunctionId} (hf : Succeeds (t.function f)) :
    Succeeds (t'.function f) := by
  obtain ⟨g, hg⟩ := hf
  obtain ⟨g', hg', -⟩ := h.function hg
  exact ⟨g', hg'⟩

end Tables

namespace Description

open Builder

variable {b b' : Builder} {s s' s'' : State} {names : List String} {n : Naming} {scope : Scope}

/-! ## Functions and their names -/

/-- Functions are known under their names, and all of them are. -/
structure State.Knows (s : State) (names : List String) : Prop where
  builder : s.builder.Knows names
  functions : ∀ name f, s.functions.lookup name = some f → s.builder.tables.Named name f
  others : ∀ name, s.functions.lookup name = none → name ∉ s.builder.tables.functionNames

/-- A step that adds no function keeps the table of names exact. -/
theorem State.Knows.withBuilder {e : Entries} {globals : List (String × Value)} (hs : s.Knows names)
    (hb : b'.Knows names) (hadds : s.builder.tables.Adds e b'.tables) (he : e.functions = []) :
    State.Knows ⟨b', s.functions, globals⟩ names := by
  refine ⟨hb, fun name f hf => (hs.functions name f hf).mono hadds, fun name hname => ?_⟩
  rw [hadds.functionNames, he, List.map_nil, List.append_nil]
  exact hs.others name hname

/-- A new function is known under its name from then on, as the last of that name. -/
theorem State.Knows.withFunction (hs : s.Knows names) (hb : b'.Knows names)
    (hadds : s.builder.tables.Adds {} b'.tables) (name : String) (params : List TypeId) (ret : TypeId) :
    State.Knows { s with
      builder := (b'.function name params ret).2
      functions := (name, (b'.function name params ret).1) :: s.functions } names := by
  have hadds' := hadds.types_trans (adds_function b' name params ret)
  refine ⟨hb.of_eq rfl rfl, fun name' f hf => ?_, fun name' hname' => ?_⟩
  · rw [List.lookup_cons] at hf
    split at hf
    · -- the new name, which stands for the function at the end of the table
      next heq =>
      cases hf
      refine ⟨⟨name, params, ret, []⟩, ?_, (eq_of_beq heq).symm⟩
      rw [Tables.function_eq_ok]
      simp [Builder.function]
    · exact (hs.functions name' f hf).mono hadds'
  · rw [List.lookup_cons] at hname'
    split at hname'
    · cases hname'
    · -- any other name that is not known is not that of the new function either
      next hne =>
      rw [hadds'.functionNames, List.mem_append, not_or]
      refine ⟨hs.others name' hname', ?_⟩
      simpa using hne

/-! ## Functions declared for calls -/

/-- The step adds nothing but types and the functions that are called and not known. -/
inductive State.Calls (s : State) (names : List String) (calls : List (String × Option String)) (s' : State) :
    Prop where
  | intro {decls : List Function} (adds : s.builder.tables.Adds { functions := decls } s'.builder.tables)
      (declared : List.Forall₂ (Declares s'.builder.tables) (firstCalls s.builder.tables.functionNames calls) decls)
      (knows : s'.Knows names) (globals : s'.globals = s.globals) : Calls s names calls s'

/-- Declaring functions leaves the names of globals alone. -/
theorem State.Calls.globals {calls : List (String × Option String)} (h : s.Calls names calls s') :
    s'.globals = s.globals := by
  obtain ⟨-, -, -, hglobals⟩ := h
  exact hglobals

/-- No call declares nothing. -/
theorem State.Calls.refl (hs : s.Knows names) : s.Calls names [] s :=
  .intro (.refl _) .nil hs rfl

/-- A step that makes types on the way. -/
theorem State.Calls.withBuilder (hs : s.Knows names) (hb : Finds s.builder names b') :
    s.Calls names [] { s with builder := b' } :=
  .intro hb.adds .nil (hs.withBuilder hb.knows hb.adds rfl) rfl

/-- **A callee is found or declared.** The name that is called stands for the function returned, and a function is
added only if none of that name was known. -/
theorem resolveCallee_calls (hs : s.Knows names) {name : String} {ty : Option String} {f : FunctionId}
    (h : resolveCallee s name ty = .ok (f, s')) :
    s.Calls names [(name, ty)] s' ∧ s'.builder.tables.Named name f := by
  unfold resolveCallee at h
  split at h
  · next hlookup =>
    cases h
    obtain ⟨g, hg, rfl⟩ := hs.functions _ _ hlookup
    -- the callee is known, so its call is no first call
    have hknown : g.name ∈ s.builder.tables.functionNames := by
      have hmem := Array.mem_of_getElem? (Tables.function_eq_ok.mp hg)
      simp only [Tables.functionNames, Tables.entries, List.mem_map, Array.mem_toList_iff]
      exact ⟨g.header, ⟨g, hmem, rfl⟩, rfl⟩
    have hnone : firstCalls s.builder.tables.functionNames [(g.name, ty)] = [] := by
      rw [firstCalls, if_pos hknown, firstCalls]
    exact ⟨.intro (.refl _) (by rw [hnone]; exact .nil) hs rfl, g, hg, rfl⟩
  · next hlookup =>
    -- the result type is the one given for the call, or void
    obtain ⟨ret, b₁, hfinds, hgiven, hvoid, rfl, rfl⟩ : ∃ ret b₁, Finds s.builder names b₁ ∧
        (∀ text, ty = some text → b₁.tables.Spells text ret) ∧ (ty = none → ret = .void) ∧
          f = (b₁.function name [] ret).1 ∧ s' = { s with
            builder := (b₁.function name [] ret).2
            functions := (name, (b₁.function name [] ret).1) :: s.functions } := by
      cases ty with
      | some ty =>
        obtain ⟨⟨ret, b₁⟩, hret, h⟩ := bind_eq_ok.mp h
        cases h
        obtain ⟨hfinds, hspells⟩ := resolveType_spells hs.builder hret
        exact ⟨ret, b₁, hfinds, fun _ htext => Option.some.inj htext ▸ hspells, by simp, rfl, rfl⟩
      | none =>
        cases h
        exact ⟨.void, s.builder, ⟨hs.builder, .refl _⟩, by simp, fun _ => rfl, rfl, rfl⟩
    have hadds := hfinds.adds.types_trans (adds_function b₁ name [] ret)
    have hknows := hs.withFunction hfinds.knows hfinds.adds name [] ret
    refine ⟨.intro hadds ?_ hknows rfl, hknows.functions name _ (by simp)⟩
    -- the callee is not known: this is its first call, and it is declared for it
    rw [firstCalls, if_neg (hs.others name hlookup)]
    refine .cons ⟨rfl, rfl, rfl, ?_⟩ .nil
    cases ty with
    | some text => exact (hgiven text rfl).mono (adds_function b₁ name [] ret)
    | none => exact hvoid rfl

/-! ## Operands and blocks -/

/-- The names that a scope resolves stand for what they are resolved to. -/
structure Scope.Names (scope : Scope) (globals : List (String × Value)) (n : Naming) : Prop where
  func : scope.func = n.func
  block : ∀ label b, scope.blocks.lookup label = some b → n.block label b
  inst : ∀ name i, scope.insts.lookup name = some i → n.inst name i
  global : ∀ name v, globals.lookup name = some v → n.global name v

theorem head?_ne {name : String} {c : Char} (hc : ∀ rest, name.toList = c :: rest → False) :
    name.toList.head? ≠ some c := by
  intro hhead
  obtain ⟨rest, hrest⟩ := List.head?_eq_some_iff.mp hhead
  exact hc rest hrest

/-- **An operand is resolved to the value it stands for**: an argument of this function, a global, or an
instruction of this body. -/
theorem resolveOperand_means (hscope : scope.Names s.globals n) {op : Operand} {v : Value}
    (h : resolveOperand s scope op = .ok v) : op.Means n v := by
  cases op with
  | int k =>
    cases h
    exact .int k
  | name name =>
    simp only [resolveOperand] at h
    split at h
    · -- `%` and a number: an argument
      next digits hname =>
      split at h
      · next position hposition =>
        cases h
        rw [hscope.func]
        exact .arg hname hposition
      · cases h
    · -- `@` and a name: a global
      next rest hname =>
      split at h
      · next v' hv' =>
        cases h
        exact .global hname (hscope.global _ _ hv')
      · cases h
    · -- anything else: an instruction of this body
      next harg hglobal =>
      split at h
      · next i hi =>
        cases h
        exact .inst (head?_ne harg) (head?_ne hglobal) (hscope.inst _ _ hi)
      · cases h

/-- Operands are resolved one by one. -/
theorem resolveOperands_mean (hscope : scope.Names s.globals n) {ops : List Operand} {vs : List Value}
    (h : resolveOperands s scope ops = .ok vs) : List.Forall₂ (Operand.Means n) ops vs :=
  (mapM_eq_ok.mp h).imp fun _ _ hop => resolveOperand_means hscope hop

/-- A label is resolved if it is a label of this body. -/
theorem resolveBlock_eq_ok {label : String} {bb : BlockId} :
    resolveBlock scope label = .ok bb ↔ scope.blocks.lookup label = some bb := by
  unfold resolveBlock
  cases scope.blocks.lookup label <;> simp

/-- A label is resolved to the block it stands for. -/
theorem resolveBlock_means {globals : List (String × Value)} (hscope : scope.Names globals n) {label : String}
    {bb : BlockId} (h : resolveBlock scope label = .ok bb) : n.block label bb :=
  hscope.block _ _ (resolveBlock_eq_ok.mp h)

/-! ## Operations -/

/-- The instruction and the type that an operation is lowered to, and the state that comes out. -/
structure LowersTo (s : State) (names : List String) (n : Naming) (ty : Option String) (op : Operation)
    (kind : InstKind) (given : TypeId) (s' : State) : Prop where
  calls : s.Calls names (op.callee?.toList.map fun callee => (callee, ty)) s'
  means : op.Means s'.builder.tables n kind
  type : op.DefaultType s'.builder.tables kind given

/-- An operation that adds nothing to the tables. -/
theorem lowersTo_plain (hs : s.Knows names) {ty : Option String} {op : Operation} {kind : InstKind}
    (hmeans : op.Means s.builder.tables n kind) (hcallee : op.callee? = none)
    (htype : op.DefaultType s.builder.tables kind .void) : LowersTo s names n ty op kind .void s := by
  refine ⟨?_, hmeans, htype⟩
  rw [hcallee]
  exact .refl hs

/-- The result type of a callee is that of its header. -/
theorem returnType_eq_ok {f : FunctionId} {ret : TypeId} :
    b.returnType f = .ok ret ↔ ∃ g, b.tables.function f = .ok g ∧ g.ret = ret := by
  simp [returnType]

/-- **An operation is lowered to what it means**, operation by operation. Besides types, it adds no entry but the
declaration of a callee that was not known. -/
theorem lower_means (hs : s.Knows names) (hscope : scope.Names s.globals n) {ty : Option String}
    {op : Operation} {kind : InstKind} {given : TypeId}
    (h : lower s scope ty op = .ok (kind, given, s')) : LowersTo s names n ty op kind given s' := by
  cases op with
  | call callee args =>
    -- the operands are resolved after the callee, which adds no names of values
    obtain ⟨⟨f, s₁⟩, hf, h⟩ := bind_eq_ok.mp h
    obtain ⟨ret, hret, h⟩ := bind_eq_ok.mp h
    obtain ⟨vs, hvs, h⟩ := bind_eq_ok.mp h
    cases h
    obtain ⟨hcalls, hnamed⟩ := resolveCallee_calls hs hf
    obtain ⟨g, hg, hret⟩ := returnType_eq_ok.mp (built_eq_ok.mp hret)
    rw [← hcalls.globals] at hscope
    exact ⟨hcalls, .call hnamed (resolveOperands_mean hscope hvs), f, g, rfl, hg, hret⟩
  | callIndirect callee args =>
    obtain ⟨v, hv, h⟩ := bind_eq_ok.mp h
    obtain ⟨vs, hvs, h⟩ := bind_eq_ok.mp h
    cases h
    have hcallee := resolveOperand_means hscope hv
    exact lowersTo_plain hs (.callIndirect hcallee (resolveOperands_mean hscope hvs)) rfl rfl
  | invoke callee args normal unwind =>
    obtain ⟨⟨f, s₁⟩, hf, h⟩ := bind_eq_ok.mp h
    obtain ⟨ret, hret, h⟩ := bind_eq_ok.mp h
    obtain ⟨vs, hvs, h⟩ := bind_eq_ok.mp h
    obtain ⟨bb, hbb, h⟩ := bind_eq_ok.mp h
    obtain ⟨cc, hcc, h⟩ := bind_eq_ok.mp h
    cases h
    obtain ⟨hcalls, hnamed⟩ := resolveCallee_calls hs hf
    obtain ⟨g, hg, hret⟩ := returnType_eq_ok.mp (built_eq_ok.mp hret)
    rw [← hcalls.globals] at hscope
    have hnormal := resolveBlock_means hscope hbb
    have hunwind := resolveBlock_means hscope hcc
    exact ⟨hcalls, .invoke hnamed (resolveOperands_mean hscope hvs) hnormal hunwind, f, g, rfl, hg, hret⟩
  -- from here on nothing is added but types: the operands are resolved and the state stays
  | br dest =>
    obtain ⟨bb, hbb, h⟩ := bind_eq_ok.mp h
    cases h
    exact lowersTo_plain hs (.br (resolveBlock_means hscope hbb)) rfl rfl
  | condBr cond thenDest elseDest =>
    obtain ⟨v, hv, h⟩ := bind_eq_ok.mp h
    obtain ⟨bb, hbb, h⟩ := bind_eq_ok.mp h
    obtain ⟨cc, hcc, h⟩ := bind_eq_ok.mp h
    cases h
    have hthen := resolveBlock_means hscope hbb
    have helse := resolveBlock_means hscope hcc
    exact lowersTo_plain hs (.condBr (resolveOperand_means hscope hv) hthen helse) rfl rfl
  | ret value =>
    cases value with
    | none =>
      cases h
      exact lowersTo_plain hs .ret rfl rfl
    | some value =>
      obtain ⟨v, hv, h⟩ := bind_eq_ok.mp h
      cases h
      exact lowersTo_plain hs (.retValue (resolveOperand_means hscope hv)) rfl rfl
  | unreachable =>
    cases h
    exact lowersTo_plain hs .unreachable rfl rfl
  | landingPad =>
    cases h
    exact lowersTo_plain hs .landingPad rfl rfl
  | load ptr =>
    obtain ⟨v, hv, h⟩ := bind_eq_ok.mp h
    cases h
    exact lowersTo_plain hs (.load (resolveOperand_means hscope hv)) rfl rfl
  | field base indices =>
    obtain ⟨v, hv, h⟩ := bind_eq_ok.mp h
    cases h
    exact lowersTo_plain hs (.field (resolveOperand_means hscope hv)) rfl rfl
  | cast value =>
    obtain ⟨v, hv, h⟩ := bind_eq_ok.mp h
    cases h
    exact lowersTo_plain hs (.cast (resolveOperand_means hscope hv)) rfl rfl
  | store value ptr =>
    obtain ⟨v, hv, h⟩ := bind_eq_ok.mp h
    obtain ⟨p, hp, h⟩ := bind_eq_ok.mp h
    cases h
    have hvalue := resolveOperand_means hscope hv
    exact lowersTo_plain hs (.store hvalue (resolveOperand_means hscope hp)) rfl rfl
  | icmp pred lhs rhs =>
    obtain ⟨v, hv, h⟩ := bind_eq_ok.mp h
    obtain ⟨w, hw, h⟩ := bind_eq_ok.mp h
    cases h
    -- the type of the result is made on the way
    have hbit := makes_int hs.builder 1
    have hleft := resolveOperand_means hscope hv
    exact ⟨.withBuilder hs ⟨hbit.knows, hbit.adds⟩, .icmp hleft (resolveOperand_means hscope hw), hbit.type⟩
  | alloca allocated =>
    obtain ⟨⟨i, b₁⟩, hi, h⟩ := bind_eq_ok.mp h
    cases h
    obtain ⟨hfinds, hspells⟩ := resolveType_spells hs.builder hi
    have hptr := makes_pointer hfinds.knows i
    refine ⟨.withBuilder hs (hfinds.trans ⟨hptr.knows, hptr.adds⟩), .alloca, i, ?_, hptr.type⟩
    exact hspells.mono hptr.adds
  | phi incoming =>
    obtain ⟨pairs, hpairs, h⟩ := bind_eq_ok.mp h
    cases h
    refine lowersTo_plain hs (.phi ((mapM_eq_ok.mp hpairs).imp ?_)) rfl rfl
    rintro ⟨op, label⟩ pair hpair
    obtain ⟨v, hv, hpair⟩ := bind_eq_ok.mp hpair
    obtain ⟨bb, hbb, hpair⟩ := bind_eq_ok.mp hpair
    cases hpair
    exact ⟨resolveOperand_means hscope hv, resolveBlock_means hscope hbb⟩
  | debug operands =>
    obtain ⟨vs, hvs, h⟩ := bind_eq_ok.mp h
    cases h
    exact lowersTo_plain hs (.debug (resolveOperands_mean hscope hvs)) rfl rfl
  | other operands =>
    obtain ⟨vs, hvs, h⟩ := bind_eq_ok.mp h
    cases h
    exact lowersTo_plain hs (.other (resolveOperands_mean hscope hvs)) rfl rfl

/-! ## Instructions -/

/-- A described instruction, the block it belongs into and what the names in it stand for. -/
structure Placed where
  naming : Naming
  block : BlockId
  desc : InstDesc

/-- The instruction is the described one, in its block. -/
structure Placed.Is (t : Tables) (e : Placed) (x : Instruction) : Prop where
  block : x.block = e.block
  means : e.desc.Means t e.naming x

/-- An instruction goes on to be the described one. -/
theorem Placed.Is.mono {t t' : Tables} {added : Entries} {e : Placed} {x : Instruction} (h : e.Is t x)
    (hadds : t.Adds added t') : e.Is t' x :=
  ⟨h.block, h.means.mono hadds⟩

/-- The step adds the blocks `heads`, which it leaves empty, the described instructions, and the functions
that these call and that are not known. -/
inductive State.Elaborates (s : State) (names : List String) (heads : List Block) (places : List Placed)
    (s' : State) : Prop where
  | intro {decls : List Function} {xs : List Instruction}
      (adds : s.builder.tables.Adds { functions := decls, blocks := heads, insts := xs } s'.builder.tables)
      (declared : List.Forall₂ (Declares s'.builder.tables)
        (firstCalls s.builder.tables.functionNames (places.flatMap fun e => e.desc.calls)) decls)
      (placed : List.Forall₂ (Placed.Is s'.builder.tables) places xs)
      (knows : s'.Knows names) (globals : s'.globals = s.globals) : Elaborates s names heads places s'

variable {heads heads' : List Block} {places places' : List Placed}

/-- Functions go on to be known under their names. -/
theorem State.Elaborates.knows (h : s.Elaborates names heads places s') : s'.Knows names := by
  obtain ⟨-, -, -, hknows, -⟩ := h
  exact hknows

/-- Bodies add no global. -/
theorem State.Elaborates.globals (h : s.Elaborates names heads places s') : s'.globals = s.globals := by
  obtain ⟨-, -, -, -, hglobals⟩ := h
  exact hglobals

/-- A part with nothing in it adds nothing. -/
theorem State.Elaborates.refl (hs : s.Knows names) : s.Elaborates names [] [] s :=
  .intro (.refl _) .nil .nil hs rfl

/-- **Two parts add what both of them describe**, in order. This is what the inductions over instructions, blocks
and functions rest on. -/
theorem State.Elaborates.trans (h : s.Elaborates names heads places s')
    (h' : s'.Elaborates names heads' places' s'') :
    s.Elaborates names (heads ++ heads') (places ++ places') s'' := by
  obtain ⟨hadds, hdeclared, hplaced, -, hglobals⟩ := h
  obtain ⟨hadds', hdeclared', hplaced', hknows', hglobals'⟩ := h'
  refine .intro (hadds.trans hadds') ?_ ?_ hknows' (hglobals'.trans hglobals)
  · -- the functions declared by the first step are known in the second one
    have hnames := map_eq_map_of_forall₂ hdeclared fun _ _ hd => hd.name.symm
    rw [hadds.functionNames, ← hnames] at hdeclared'
    rw [List.flatMap_append, firstCalls_append]
    exact List.rel_append (hdeclared.imp fun _ _ hd => hd.mono hadds') hdeclared'
  · -- the instructions of the first step mean the same after the second one
    exact List.rel_append (hplaced.imp fun _ _ hx => hx.mono hadds') hplaced'

theorem State.Elaborates.size_blocks (h : s.Elaborates names heads places s') :
    s'.builder.tables.blocks.size = s.builder.tables.blocks.size + heads.length := by
  obtain ⟨hadds, -, -, -, -⟩ := h
  exact hadds.size_blocks

theorem State.Elaborates.succeeds_block (h : s.Elaborates names heads places s') {bb : BlockId}
    (hbb : Succeeds (s.builder.tables.block bb)) : Succeeds (s'.builder.tables.block bb) := by
  obtain ⟨hadds, -, -, -, -⟩ := h
  exact hadds.succeeds_block hbb

theorem State.Elaborates.succeeds_function (h : s.Elaborates names heads places s') {f : FunctionId}
    (hf : Succeeds (s.builder.tables.function f)) : Succeeds (s'.builder.tables.function f) := by
  obtain ⟨hadds, -, -, -, -⟩ := h
  exact hadds.succeeds_function hf

/-- How many instructions a part adds: one for each one described. -/
theorem State.Elaborates.size_insts (h : s.Elaborates names heads places s') :
    s'.builder.tables.insts.size = s.builder.tables.insts.size + places.length := by
  obtain ⟨hadds, -, hplaced, -, -⟩ := h
  rw [hadds.size_insts, hplaced.length_eq]

/-- **Step lemma**: one described instruction adds the instruction that it means, at the end of its block. -/
theorem addInst_elaborates (hs : s.Knows names) (hscope : scope.Names s.globals n) {bb : BlockId}
    {d : InstDesc} (h : addInst s scope bb d = .ok s') : s.Elaborates names [] [⟨n, bb, d⟩] s' := by
  obtain ⟨kind, given, s₁, ty, b₁, i, b₂, b₃, hlower, htype, hpush, hloc, rfl⟩ := of_addInst h
  obtain ⟨hcalls, hmeans, hdefault⟩ := lower_means hs hscope hlower
  obtain @⟨decls, hadds, hdeclared, hknows, hglobals⟩ := hcalls
  -- the type of the instruction may have to be made as well
  have hfinds : Finds s₁.builder names b₁ := by
    rcases htype with ⟨text, -, hty⟩ | ⟨-, -, rfl⟩
    · exact (resolveType_spells hknows.builder hty).1
    · exact ⟨hknows.builder, .refl _⟩
  -- with or without a location, one instruction is added
  obtain ⟨hpushed, hknows₃⟩ : b₁.tables.Adds { insts := [⟨kind, ty, bb, d.loc⟩] } b₃.tables ∧ b₃.Knows names := by
    have hadds₂ := adds_push hpush
    obtain ⟨-, rfl, rfl⟩ := push_eq_ok.mp hpush
    rcases hloc with ⟨loc, hloc, hset⟩ | ⟨hloc, rfl⟩
    · rw [hloc]
      refine ⟨adds_push_setLocation hpush hset, ?_⟩
      obtain ⟨-, rfl⟩ := setLocation_eq_ok.mp hset
      exact hfinds.knows.of_eq rfl rfl
    · rw [hloc]
      exact ⟨hadds₂, hfinds.knows.of_eq rfl rfl⟩
  have hlast := hfinds.adds.types_trans hpushed
  -- the declarations of `lower` and the instruction itself are all that is added
  have hboth : ({ functions := decls } : Entries) ++ { insts := [⟨kind, ty, bb, d.loc⟩] } =
      { functions := decls, insts := [⟨kind, ty, bb, d.loc⟩] } := by
    ext1 <;> simp
  refine .intro (hboth ▸ hadds.trans hlast) ?_ (.cons ⟨rfl, ?_, ?_, rfl⟩ .nil)
    (hknows.withBuilder hknows₃ hlast rfl) hglobals
  · rw [List.flatMap_singleton]
    exact hdeclared.imp fun _ _ hd => hd.mono hlast
  · exact hmeans.mono hlast
  · -- the type is the one given or the one described
    rcases htype with ⟨text, hty, hresolve⟩ | ⟨hty, rfl, rfl⟩
    · simp only [hty]
      exact (resolveType_spells hknows.builder hresolve).2.mono hpushed
    · simp only [hty]
      exact hdefault.mono hpushed

/-- The instructions of one block. -/
theorem addInsts_elaborates (hs : s.Knows names) (hscope : scope.Names s.globals n) {bb : BlockId}
    {ds : List InstDesc} (h : addInsts s scope bb ds = .ok s') :
    s.Elaborates names [] (ds.map fun d => ⟨n, bb, d⟩) s' := by
  induction ds generalizing s with
  | nil =>
    cases h
    exact .refl hs
  | cons d ds ih =>
    obtain ⟨s₁, hadd, h⟩ := bind_eq_ok.mp h
    have hfirst := addInst_elaborates hs hscope hadd
    -- the scope is made once for the body and holds in all states of it
    rw [← hfirst.globals] at hscope
    exact hfirst.trans (ih hfirst.knows hscope h)

/-! ## Names in a body -/

/-- That many blocks from `first` on. -/
def blockRange (first count : Nat) : List BlockId := (List.range' first count).map BlockId.mk

/-- That many instructions from `first` on. -/
def instRange (first count : Nat) : List InstId := (List.range' first count).map InstId.mk

/-- Blocks are known by their labels and numbered in the order in which they are described. -/
theorem addBlocks_elaborates {f : FunctionId} {function : String} {known blocks : List (String × BlockId)}
    {ds : List BlockDesc} (h : addBlocks b f function known ds = .ok (blocks, b')) (hb : b.Knows names)
    (hknown : (known.map Prod.fst).Nodup) :
    b'.Knows names ∧ b.tables.Adds { blocks := ds.map fun d => ⟨d.label, f, []⟩ } b'.tables ∧
      blocks = ((ds.map BlockDesc.label).zip (blockRange b.tables.blocks.size ds.length)).reverse ++ known ∧
      (blocks.map Prod.fst).Nodup := by
  induction ds generalizing b known with
  | nil =>
    cases h
    exact ⟨hb, .refl _, rfl, hknown⟩
  | cons d ds ih =>
    obtain ⟨⟨i, b₁⟩, hblock, h⟩ := bind_eq_ok.mp h
    have hblock := built_eq_ok.mp hblock
    have hadds := adds_block hblock
    have hsize := hadds.size_blocks
    obtain ⟨-, rfl, hb₁⟩ := block_eq_ok.mp hblock
    simp only at h
    split at h
    · cases h
    · -- a label that is not known yet; a second block of the same label is refused
      next hfresh =>
      have hnodup : (((d.label, (⟨b.tables.blocks.size⟩ : BlockId)) :: known).map Prod.fst).Nodup := by
        rw [List.map_cons, List.nodup_cons]
        refine ⟨fun hmem => hfresh ?_, hknown⟩
        obtain ⟨e, he, heq⟩ := List.mem_map.mp hmem
        exact List.lookup_isSome_iff.mpr ⟨e, he, by simp [heq]⟩
      obtain ⟨hknows, hrest, rfl, hkeys⟩ := ih h (by rw [hb₁]; exact hb.of_eq rfl rfl) hnodup
      refine ⟨hknows, hadds.trans hrest, ?_, hkeys⟩
      rw [hsize]
      simp [blockRange, List.range'_succ]

/-- The names of instructions that are numbered from `next` on. -/
def namedInsts : Nat → List InstDesc → List (String × InstId)
  | _, [] => []
  | next, d :: ds => d.id.toList.map (fun id => (id, ⟨next⟩)) ++ namedInsts (next + 1) ds

/-- The names of a body are those of its instructions, with the numbers that these will have. -/
theorem nameInsts_eq {next : Nat} {function : String} {known insts : List (String × InstId)}
    {ds : List InstDesc} (h : nameInsts next function known ds = .ok insts) :
    insts = (namedInsts next ds).reverse ++ known := by
  induction ds generalizing next known with
  | nil =>
    cases h
    rfl
  | cons d ds ih =>
    unfold nameInsts at h
    rw [namedInsts]
    split at h
    · -- an instruction without a name still takes a number
      next hid =>
      rw [ih h, hid]
      rfl
    · next id hid =>
      split at h
      · cases h
      · rw [ih h, hid]
        simp

/-- A name stands for the instruction at its own place. -/
theorem mem_zip_of_mem_namedInsts {next : Nat} {ds : List InstDesc} {id : String} {i : InstId}
    (h : (id, i) ∈ namedInsts next ds) : (some id, i) ∈ (ds.map InstDesc.id).zip (instRange next ds.length) := by
  induction ds generalizing next with
  | nil => cases h
  | cons d ds ih =>
    rw [namedInsts, List.mem_append] at h
    have hrange : instRange next (d :: ds).length = ⟨next⟩ :: instRange (next + 1) ds.length := by
      simp [instRange, List.range'_succ]
    rw [hrange, List.map_cons, List.zip_cons_cons, List.mem_cons]
    rcases h with h | h
    · obtain ⟨id', hid', heq⟩ := List.mem_map.mp h
      cases heq
      rw [Option.mem_toList] at hid'
      exact .inl (by rw [hid'])
    · exact .inr (ih h)

/-! ## Bodies -/

/-- The instructions of blocks that are numbered from `first` on. -/
def placeBlocks (n : Naming) : Nat → List BlockDesc → List Placed
  | _, [] => []
  | first, d :: ds => d.insts.map (fun x => ⟨n, ⟨first⟩, x⟩) ++ placeBlocks n (first + 1) ds

/-- No instruction of a body is left out. -/
theorem length_placeBlocks (n : Naming) (first : Nat) (ds : List BlockDesc) :
    (placeBlocks n first ds).length = (ds.flatMap BlockDesc.insts).length := by
  induction ds generalizing first with
  | nil => rfl
  | cons d ds ih => simp [placeBlocks, ih]

/-- The blocks of a body are filled in order, each one under its own label. -/
theorem fillBlocks_elaborates (hs : s.Knows names) (hscope : scope.Names s.globals n) {first : Nat}
    {ds : List BlockDesc} (hlabels : ∀ e ∈ (ds.map BlockDesc.label).zip (blockRange first ds.length),
      scope.blocks.lookup e.1 = some e.2)
    (h : fillBlocks s scope ds = .ok s') : s.Elaborates names [] (placeBlocks n first ds) s' := by
  induction ds generalizing s first with
  | nil =>
    cases h
    exact .refl hs
  | cons d ds ih =>
    obtain ⟨bb, hbb, h⟩ := bind_eq_ok.mp h
    obtain ⟨s₁, hadd, hrest⟩ := bind_eq_ok.mp h
    -- the first block has the first number, the others go on from there
    have hrange : blockRange first (d :: ds).length = ⟨first⟩ :: blockRange (first + 1) ds.length := by
      simp [blockRange, List.range'_succ]
    rw [hrange, List.map_cons, List.zip_cons_cons, List.forall_mem_cons] at hlabels
    -- the label of the block finds the block itself
    obtain rfl : ⟨first⟩ = bb := by
      rw [resolveBlock_eq_ok, hlabels.1] at hbb
      exact Option.some.inj hbb
    have hfirst := addInsts_elaborates hs hscope hadd
    rw [← hfirst.globals] at hscope
    exact hfirst.trans (ih hfirst.knows hscope hlabels.2 hrest)

/-- Globals are known under their names, the last one of each name. -/
def State.KnowsGlobals (s : State) (d : ProgramDesc) : Prop :=
  ∀ name v, s.globals.lookup name = some v →
    ∃ k, v = .global ⟨k⟩ ∧ IsLast (d.globals.map GlobalDesc.name) name k

/-- Steps that leave the names of globals alone keep them exact. -/
theorem State.KnowsGlobals.of_eq {d : ProgramDesc} (h : s.KnowsGlobals d) (hglobals : s'.globals = s.globals) :
    s'.KnowsGlobals d := by
  unfold State.KnowsGlobals
  rw [hglobals]
  exact h

/-- The instructions of functions, if these are numbered from `next` on, their blocks from `first` on and
their instructions from `start` on. -/
def ProgramDesc.placeBodies (d : ProgramDesc) : Nat → Nat → Nat → List FunctionDesc → List Placed
  | _, _, _, [] => []
  | next, first, start, fd :: fds =>
    placeBlocks (d.naming ⟨next⟩ fd (blockRange first fd.blocks.length) (instRange start fd.insts.length))
        first fd.blocks ++
      d.placeBodies (next + 1) (first + fd.blocks.length) (start + fd.insts.length) fds

/-- The blocks of functions that are numbered from `next` on. -/
def bodyHeads : Nat → List FunctionDesc → List Block
  | _, [] => []
  | next, fd :: fds => fd.blocks.map (fun bd => ⟨bd.label, ⟨next⟩, []⟩) ++ bodyHeads (next + 1) fds

/-- **The body of a function adds its blocks and its instructions**, with each name standing for what is described
under it, also where it is used before it is described. -/
theorem addBody_elaborates {d : ProgramDesc} {f : FunctionId} {fd : FunctionDesc} (hs : s.Knows names)
    (hglobals : s.KnowsGlobals d) (h : addBody s f fd = .ok s') :
    s.Elaborates names (fd.blocks.map fun bd => ⟨bd.label, f, []⟩)
      (placeBlocks (d.naming f fd (blockRange s.builder.tables.blocks.size fd.blocks.length)
        (instRange s.builder.tables.insts.size fd.insts.length)) s.builder.tables.blocks.size fd.blocks) s' := by
  obtain ⟨⟨blocks, b₁⟩, hblocks, h⟩ := bind_eq_ok.mp h
  obtain ⟨insts, hinsts, h⟩ := bind_eq_ok.mp h
  obtain ⟨hb₁, hadds, hlabels, hkeys⟩ := addBlocks_elaborates hblocks hs.builder .nil
  rw [List.append_nil] at hlabels
  -- no instruction is added before the names are given
  have hsize : b₁.tables.insts.size = s.builder.tables.insts.size := hadds.size_insts
  rw [hsize] at hinsts
  have hnames := nameInsts_eq hinsts
  rw [List.append_nil] at hnames
  -- all blocks are added first, and are empty
  have hempty : s.Elaborates names (fd.blocks.map fun bd => ⟨bd.label, f, []⟩) [] { s with builder := b₁ } :=
    .intro hadds .nil .nil (hs.withBuilder hb₁ hadds rfl) rfl
  -- labels and names are looked up in the lists just made; there is no other way to find them
  have hscope : Scope.Names ⟨f, blocks, insts⟩ s.globals
      (d.naming f fd (blockRange s.builder.tables.blocks.size fd.blocks.length)
        (instRange s.builder.tables.insts.size fd.insts.length)) := by
    refine ⟨rfl, fun label bb hbb => ?_, fun name i hi => ?_, hglobals⟩
    · have hmem := mem_of_lookup hbb
      rw [hlabels, List.mem_reverse] at hmem
      exact hmem
    · have hmem := mem_of_lookup hi
      rw [hnames, List.mem_reverse] at hmem
      exact mem_zip_of_mem_namedInsts hmem
  -- labels are all different, so each one finds its own block
  have hlookup : ∀ e ∈ (fd.blocks.map BlockDesc.label).zip
      (blockRange s.builder.tables.blocks.size fd.blocks.length), blocks.lookup e.1 = some e.2 := by
    intro e he
    refine lookup_of_mem hkeys ?_
    rw [hlabels, List.mem_reverse]
    exact he
  have hboth := hempty.trans (fillBlocks_elaborates hempty.knows hscope hlookup h)
  rwa [List.append_nil] at hboth

/-- **Run lemma**: the bodies of all functions, in their order. -/
theorem addBodies_elaborate {d : ProgramDesc} {next : Nat} {fds : List FunctionDesc} (hs : s.Knows names)
    (hglobals : s.KnowsGlobals d) (h : addBodies s next fds = .ok s') :
    s.Elaborates names (bodyHeads next fds)
      (d.placeBodies next s.builder.tables.blocks.size s.builder.tables.insts.size fds) s' := by
  induction fds generalizing s next with
  | nil =>
    cases h
    exact .refl hs
  | cons fd fds ih =>
    obtain ⟨s₁, hbody, h⟩ := bind_eq_ok.mp h
    have hfirst := addBody_elaborates hs hglobals hbody
    have hrest := ih hfirst.knows (hglobals.of_eq hfirst.globals) h
    -- the numbers go on where the first body ends
    rw [hfirst.size_blocks, hfirst.size_insts, length_placeBlocks, List.length_map] at hrest
    exact hfirst.trans hrest

/-! ## Globals and function headers -/

/-- A new name is the last of its kind, and hides the others. -/
theorem isLast_append {names : List String} {name last : String} {k : Nat}
    (h : (k = names.length ∧ name = last) ∨ (name ≠ last ∧ IsLast names name k)) :
    IsLast (names ++ [last]) name k := by
  rcases h with ⟨rfl, rfl⟩ | ⟨hne, hk, hlast⟩
  · refine ⟨by simp, fun l hl => ?_⟩
    rw [List.getElem?_eq_none (by simp; omega)]
    simp
  · have hlt := (List.getElem?_eq_some_iff.mp hk).1
    refine ⟨by rw [List.getElem?_append_left hlt, hk], fun l hl => ?_⟩
    rcases Nat.lt_trichotomy l names.length with hlt' | rfl | hgt
    · rw [List.getElem?_append_left hlt']
      exact hlast l hl
    · simpa using hne.symm
    · rw [List.getElem?_eq_none (by simp; omega)]
      simp

/-- A global goes on to be as described. -/
theorem GlobalDesc.Describes.mono {t t' : Tables} {e : Entries} {gd : GlobalDesc} {g : Global}
    (h : gd.Describes t g) (hadds : t.Adds e t') : gd.Describes t' g :=
  ⟨h.name, h.ty.mono hadds, hadds.types _ _ h.ptrTy⟩

/-- Globals are added in order, and each one is known under its name from then on. -/
theorem addGlobals_describe {before ds : List GlobalDesc} (hs : s.Knows names)
    (hglobals : ∀ name v, s.globals.lookup name = some v →
      ∃ k, v = .global ⟨k⟩ ∧ IsLast (before.map GlobalDesc.name) name k)
    (hsize : s.builder.tables.globals.size = before.length) (h : addGlobals s ds = .ok s') :
    s'.Knows names ∧
      (∃ gs, s.builder.tables.Adds { globals := gs } s'.builder.tables ∧
        List.Forall₂ (GlobalDesc.Describes s'.builder.tables) ds gs) ∧
      ∀ name v, s'.globals.lookup name = some v →
        ∃ k, v = .global ⟨k⟩ ∧ IsLast ((before ++ ds).map GlobalDesc.name) name k := by
  induction ds generalizing s before with
  | nil =>
    cases h
    exact ⟨hs, ⟨[], .refl _, .nil⟩, by simpa using hglobals⟩
  | cons gd ds ih =>
    obtain ⟨⟨ty, b₁⟩, hty, h⟩ := bind_eq_ok.mp h
    obtain ⟨hfinds, hspells⟩ := resolveType_spells hs.builder hty
    obtain ⟨hknows, hadds, hptr⟩ := adds_global hfinds.knows gd.name ty
    have hall := hfinds.adds.types_trans hadds
    -- the number of the global is that of the globals before it
    have hvalue : (b₁.global gd.name ty).1 = .global ⟨before.length⟩ := by
      have hnone := (hfinds.adds.trans (makes_pointer hfinds.knows ty).adds).size_globals
      rw [hsize] at hnone
      exact congrArg (fun k => Value.global ⟨k⟩) hnone
    -- a global of the same name hides the earlier one
    have hlookup : ∀ name v, ((gd.name, (b₁.global gd.name ty).1) :: s.globals).lookup name = some v →
        ∃ k, v = .global ⟨k⟩ ∧ IsLast ((before ++ [gd]).map GlobalDesc.name) name k := by
      intro name v hv
      rw [List.map_append]
      rw [List.lookup_cons] at hv
      split at hv
      · next heq =>
        cases hv
        exact ⟨_, hvalue, isLast_append (.inl ⟨by simp, eq_of_beq heq⟩)⟩
      · next hne =>
        obtain ⟨k, rfl, hk⟩ := hglobals name v hv
        exact ⟨k, rfl, isLast_append (.inr ⟨by simpa using hne, hk⟩)⟩
    have hsize₁ : (b₁.global gd.name ty).2.tables.globals.size = (before ++ [gd]).length := by
      rw [hall.size_globals, hsize, List.length_append]
      rfl
    obtain ⟨hknows', ⟨gs, hadds', hgs⟩, hlookup'⟩ := ih (hs.withBuilder hknows hall rfl) hlookup hsize₁ h
    rw [List.append_assoc] at hlookup'
    refine ⟨hknows', ⟨_, hall.trans hadds', .cons ?_ hgs⟩, hlookup'⟩
    exact ⟨rfl, (hspells.mono hadds).mono hadds', hadds'.types _ _ hptr⟩

/-- A function without its body is as described. -/
structure FunctionDesc.DescribesHeader (t : Tables) (fd : FunctionDesc) (g : Function) : Prop where
  name : g.name = fd.name
  params : List.Forall₂ t.Spells fd.params g.params
  ret : t.Spells fd.ret g.ret

/-- A header goes on to be as described. -/
theorem FunctionDesc.DescribesHeader.mono {t t' : Tables} {e : Entries} {fd : FunctionDesc} {g : Function}
    (h : fd.DescribesHeader t g) (hadds : t.Adds e t') : fd.DescribesHeader t' g :=
  ⟨h.name, h.params.imp fun _ _ hparam => hparam.mono hadds, h.ret.mono hadds⟩

/-- The headers of all functions are added before any body, so that a body can call each of them. -/
theorem addHeaders_describe {fds : List FunctionDesc} (hs : s.Knows names) (h : addHeaders s fds = .ok s') :
    s'.Knows names ∧ s'.globals = s.globals ∧
      ∃ gs, s.builder.tables.Adds { functions := gs } s'.builder.tables ∧
        List.Forall₂ (FunctionDesc.DescribesHeader s'.builder.tables) fds gs := by
  induction fds generalizing s with
  | nil =>
    cases h
    exact ⟨hs, rfl, [], .refl _, .nil⟩
  | cons fd fds ih =>
    unfold addHeaders at h
    split at h
    · cases h
    · obtain ⟨⟨params, b₁⟩, hparams, h⟩ := bind_eq_ok.mp h
      obtain ⟨⟨ret, b₂⟩, hret, h⟩ := bind_eq_ok.mp h
      obtain ⟨hfinds₁, hspell⟩ := resolveTypes_spell hs.builder hparams
      obtain ⟨hfinds₂, hspells⟩ := resolveType_spells hfinds₁.knows hret
      have hfinds := hfinds₁.trans hfinds₂
      have hadds := adds_function b₂ fd.name params ret
      have hknows₁ := hs.withFunction hfinds.knows hfinds.adds fd.name params ret
      obtain ⟨hknows, hglobals, gs, hadds', hgs⟩ := ih hknows₁ h
      -- the parameter types are resolved before the result type, and stay what they are
      have hheader : fd.DescribesHeader b₂.tables ⟨fd.name, params, ret, []⟩ :=
        ⟨rfl, hspell.imp fun _ _ hparam => hparam.mono hfinds₂.adds, hspells⟩
      refine ⟨hknows, hglobals, _, (hfinds.adds.types_trans hadds).trans hadds', .cons ?_ hgs⟩
      exact (hheader.mono hadds).mono hadds'

/-- Before the globals are added there are only types. -/
theorem knows_records {d : ProgramDesc} {records : List (TypeId × List String)} {b b' : Builder}
    (hdeclare : declareTypes .empty d.types = .ok (records, b)) (hdefine : defineRecords b records = .ok b') :
    State.Knows ⟨b', [], []⟩ (d.types.map TypeDesc.name) ∧ b'.tables.entries = {} := by
  obtain ⟨htypes, hadds⟩ := declareTypes_inRange Builder.typesInRange_empty hdeclare
  obtain ⟨-, hadds'⟩ := defineRecords_inRange htypes hdefine
  obtain ⟨hglobals, hfunctions, hblocks, hinsts, -⟩ := hadds.trans hadds'
  have hentries : b'.tables.entries = {} := by
    rw [Tables.entries, hglobals, hfunctions, hblocks, hinsts]
    rfl
  obtain ⟨hknows, -⟩ := declareTypes_knows Builder.knows_empty hdeclare
  rw [List.append_nil] at hknows
  refine ⟨⟨defineRecords_knows hknows hdefine, by simp, fun name _ => ?_⟩, hentries⟩
  rw [Tables.functionNames, hentries]
  simp

/-- After the globals of a description, its globals are known. -/
theorem addGlobals_known {d : ProgramDesc} (hs : State.Knows ⟨b, [], []⟩ names) (hempty : b.tables.entries = {})
    (h : addGlobals ⟨b, [], []⟩ d.globals = .ok s') :
    s'.Knows names ∧ s'.KnowsGlobals d ∧ ∃ gs, b.tables.Adds { globals := gs } s'.builder.tables ∧
      List.Forall₂ (GlobalDesc.Describes s'.builder.tables) d.globals gs := by
  have hsize : b.tables.globals.size = 0 := congrArg (fun e => e.globals.length) hempty
  have hnone : ∀ name v, ([] : List (String × Value)).lookup name = some v →
      ∃ k, v = .global ⟨k⟩ ∧ IsLast (([] : List GlobalDesc).map GlobalDesc.name) name k := by simp
  obtain ⟨hknows, hgs, hlast⟩ := addGlobals_describe hs hnone hsize h
  exact ⟨hknows, hlast, hgs⟩

end Description

end Relock
