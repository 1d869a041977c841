import Relock.Proofs.Description.Meaning

/-!
# Well-formed descriptions

What a description must be like to denote a program, said without the order in which it is elaborated: no
name is declared twice, except those of globals, and whatever a name refers to is there.

* `Operand.Known`, `InstDesc.WellFormed`, `FunctionDesc.WellFormed`, `ProgramDesc.WellFormed`;
* `ProgramDesc.Reorders`: the same declarations, blocks and instructions in another order;
* `ProgramDesc.Reorders.wellFormed_iff`: the order does not matter;
* `ProgramDesc.wellFormed_of_repeated`: nor does it matter how often the name of a global is given.
-/

namespace Relock.Description

/-! ## What a description mentions -/

/-- The operands of an operation. -/
@[simp] def Operation.operands : Operation → List Operand
  | .call _ args => args
  | .callIndirect callee args => callee :: args
  | .invoke _ args _ _ => args
  | .br _ => []
  | .condBr cond _ _ => [cond]
  | .ret value => value.toList
  | .unreachable => []
  | .load ptr => [ptr]
  | .store value ptr => [value, ptr]
  | .field base _ => [base]
  | .cast value => [value]
  | .icmp _ lhs rhs => [lhs, rhs]
  | .alloca _ => []
  | .phi incoming => incoming.map Prod.fst
  | .debug operands => operands
  | .landingPad => []
  | .other operands => operands

/-- The labels that an operation refers to. -/
@[simp] def Operation.labels : Operation → List String
  | .invoke _ _ normal unwind => [normal, unwind]
  | .br dest => [dest]
  | .condBr _ thenDest elseDest => [thenDest, elseDest]
  | .phi incoming => incoming.map Prod.snd
  | _ => []

/-- The types that an operation is made with. -/
@[simp] def Operation.typeTexts : Operation → List String
  | .alloca allocated => [allocated]
  | _ => []

/-- The labels of the blocks of a function. -/
def FunctionDesc.labels (d : FunctionDesc) : List String := d.blocks.map BlockDesc.label

/-- The names of the instructions of a function. -/
def FunctionDesc.ids (d : FunctionDesc) : List String := d.insts.filterMap InstDesc.id

/-! ## Well-formed descriptions -/

/-- An operand that stands for something: an integer, `%` and a number, `@` and the name of a global, or
without these signs the name of an instruction. -/
inductive Operand.Known (globals ids : List String) : Operand → Prop where
  | int (n : Int) : Known globals ids (.int n)
  | arg {s : String} {digits : List Char} {position : Nat} (hs : s.toList = '%' :: digits)
      (hdigits : Text.readU32 digits = .ok position) : Known globals ids (.name s)
  | global {s : String} {rest : List Char} (hs : s.toList = '@' :: rest)
      (hrest : String.ofList rest ∈ globals) : Known globals ids (.name s)
  | inst {s : String} (harg : s.toList.head? ≠ some '%') (hglobal : s.toList.head? ≠ some '@')
      (hs : s ∈ ids) : Known globals ids (.name s)

/-- An instruction in a program with the types `names` and the globals `globals`, in a function with the
labels `labels` and the instruction names `ids`. -/
structure InstDesc.WellFormed (names globals labels ids : List String) (d : InstDesc) : Prop where
  ty : ∀ s, d.ty = some s → Resolves names s
  types : ∀ s ∈ d.op.typeTexts, Resolves names s
  operands : ∀ o ∈ d.op.operands, o.Known globals ids
  labels : ∀ label ∈ d.op.labels, label ∈ labels

/-- A function in a program with the types `names` and the globals `globals`. -/
structure FunctionDesc.WellFormed (names globals : List String) (d : FunctionDesc) : Prop where
  params : ∀ s ∈ d.params, Resolves names s
  ret : Resolves names d.ret
  labels : d.labels.Nodup
  ids : d.ids.Nodup
  insts : ∀ x ∈ d.insts, x.WellFormed names globals d.labels d.ids

/-- The names of the declared types. -/
def ProgramDesc.typeNames (d : ProgramDesc) : List String := d.types.map TypeDesc.name

/-- The names of the globals. -/
def ProgramDesc.globalNames (d : ProgramDesc) : List String := d.globals.map GlobalDesc.name

/-- A description that denotes a program. -/
structure ProgramDesc.WellFormed (d : ProgramDesc) : Prop where
  typeNames : d.typeNames.Nodup
  functionNames : (d.functions.map FunctionDesc.name).Nodup
  fields : ∀ td ∈ d.types, ∀ fields, td.fields = some fields → ∀ s ∈ fields, Resolves d.typeNames s
  globals : ∀ gd ∈ d.globals, Resolves d.typeNames gd.ty
  functions : ∀ fd ∈ d.functions, fd.WellFormed d.typeNames d.globalNames

/-! ## Order -/

/-- The same instructions in another order. -/
structure BlockDesc.Reorders (d d' : BlockDesc) : Prop where
  label : d.label = d'.label
  insts : d.insts.Perm d'.insts

/-- The same blocks in another order, up to the order of their instructions. -/
structure FunctionDesc.Reorders (d d' : FunctionDesc) : Prop where
  name : d.name = d'.name
  params : d.params = d'.params
  ret : d.ret = d'.ret
  blocks : ∃ blocks, List.Forall₂ BlockDesc.Reorders d.blocks blocks ∧ blocks.Perm d'.blocks

/-- The same declarations in another order, up to the order within bodies. -/
structure ProgramDesc.Reorders (d d' : ProgramDesc) : Prop where
  types : d.types.Perm d'.types
  globals : d.globals.Perm d'.globals
  functions : ∃ functions, List.Forall₂ FunctionDesc.Reorders d.functions functions ∧
    functions.Perm d'.functions

section Congruence

variable {names names' globals globals' labels labels' ids ids' : List String}

/-- The order in which types are declared does not matter to a text. -/
theorem resolves_iff_of_perm (hnames : names.Perm names') {s : String} : Resolves names s ↔ Resolves names' s := by
  simp only [Resolves, hnames.mem_iff]

/-- Nor does the order of names to an operand. Of globals there may even be more. -/
theorem Operand.Known.of_perm (hglobals : globals ⊆ globals') (hids : ids.Perm ids') {o : Operand}
    (h : o.Known globals ids) : o.Known globals' ids' := by
  cases h with
  | int n => exact .int n
  | arg hs hdigits => exact .arg hs hdigits
  | global hs hrest => exact .global hs (hglobals hrest)
  | inst harg hglobal hs => exact .inst harg hglobal (hids.mem_iff.mp hs)

/-- An instruction is well-formed in any order of the names that it may use. -/
theorem InstDesc.WellFormed.of_perm (hnames : names.Perm names') (hglobals : globals ⊆ globals')
    (hlabels : labels.Perm labels') (hids : ids.Perm ids') {d : InstDesc}
    (h : d.WellFormed names globals labels ids) : d.WellFormed names' globals' labels' ids' where
  ty s hs := (resolves_iff_of_perm hnames).mp (h.ty s hs)
  types s hs := (resolves_iff_of_perm hnames).mp (h.types s hs)
  operands o ho := (h.operands o ho).of_perm hglobals hids
  labels label hlabel := hlabels.mem_iff.mp (h.labels label hlabel)

/-- Of the order in a body only the labels and the instructions are seen. -/
theorem FunctionDesc.WellFormed.of_perm {d d' : FunctionDesc} (hnames : names.Perm names')
    (hglobals : globals ⊆ globals') (hparams : d.params = d'.params) (hret : d.ret = d'.ret)
    (hlabels : d.labels.Perm d'.labels) (hinsts : d.insts.Perm d'.insts) (h : d.WellFormed names globals) :
    d'.WellFormed names' globals' := by
  have hids : d.ids.Perm d'.ids := hinsts.filterMap _
  exact {
    params := fun s hs => (resolves_iff_of_perm hnames).mp (h.params s (hparams ▸ hs))
    ret := (resolves_iff_of_perm hnames).mp (hret ▸ h.ret)
    labels := hlabels.nodup_iff.mp h.labels
    ids := hids.nodup_iff.mp h.ids
    insts := fun x hx => (h.insts x (hinsts.mem_iff.mpr hx)).of_perm hnames hglobals hlabels hids }

end Congruence

/-- Reordering keeps the labels of a body. -/
theorem FunctionDesc.Reorders.labels {d d' : FunctionDesc} (h : d.Reorders d') : d.labels.Perm d'.labels := by
  obtain ⟨blocks, hblocks, hperm⟩ := h.blocks
  rw [FunctionDesc.labels, map_eq_map_of_forall₂ hblocks fun _ _ hb => hb.label]
  exact hperm.map _

/-- Reordering keeps the instructions of a body, across its blocks. -/
theorem FunctionDesc.Reorders.insts {d d' : FunctionDesc} (h : d.Reorders d') : d.insts.Perm d'.insts := by
  obtain ⟨blocks, hblocks, hperm⟩ := h.blocks
  -- block by block, before the blocks themselves change places
  have hsame {bds bds' : List BlockDesc} (hbds : List.Forall₂ BlockDesc.Reorders bds bds') :
      (bds.flatMap BlockDesc.insts).Perm (bds'.flatMap BlockDesc.insts) := by
    induction hbds with
    | nil => exact .refl _
    | cons hb _ ih =>
      rw [List.flatMap_cons, List.flatMap_cons]
      exact hb.insts.append ih
  exact (hsame hblocks).trans (hperm.flatMap_right _)

/-- Reordered bodies are well-formed together. -/
theorem functions_wellFormed_iff {names names' globals globals' : List String}
    (hnames : names.Perm names') (hglobals : globals.Perm globals') {fds fds' : List FunctionDesc}
    (h : List.Forall₂ FunctionDesc.Reorders fds fds') :
    (∀ fd ∈ fds, fd.WellFormed names globals) ↔ ∀ fd ∈ fds', fd.WellFormed names' globals' := by
  induction h with
  | nil => simp
  | @cons fd fd' fds fds' hfd _ ih =>
    rw [List.forall_mem_cons, List.forall_mem_cons, ih]
    have hlabels := hfd.labels
    have hinsts := hfd.insts
    -- reordering is symmetric, so one direction is enough
    have hiff : fd.WellFormed names globals ↔ fd'.WellFormed names' globals' :=
      ⟨.of_perm hnames hglobals.subset hfd.params hfd.ret hlabels hinsts,
        .of_perm hnames.symm hglobals.symm.subset hfd.params.symm hfd.ret.symm hlabels.symm hinsts.symm⟩
    rw [hiff]

/-- **Whether a description is well-formed does not depend on its order**, neither on that of declarations nor on
that within bodies. -/
theorem ProgramDesc.Reorders.wellFormed_iff {d d' : ProgramDesc} (h : d.Reorders d') :
    d.WellFormed ↔ d'.WellFormed := by
  have hnames : d.typeNames.Perm d'.typeNames := h.types.map _
  have hglobals : d.globalNames.Perm d'.globalNames := h.globals.map _
  have hresolves (s : String) : Resolves d.typeNames s ↔ Resolves d'.typeNames s := resolves_iff_of_perm hnames
  obtain ⟨functions, hfunctions, hperm⟩ := h.functions
  have hfunctionNames : (d.functions.map FunctionDesc.name).Nodup ↔ (d'.functions.map FunctionDesc.name).Nodup := by
    rw [map_eq_map_of_forall₂ hfunctions fun _ _ hfd => hfd.name]
    exact (hperm.map _).nodup_iff
  -- first the bodies are reordered in place, then the functions among each other
  have hwellFormed : (∀ fd ∈ d.functions, fd.WellFormed d.typeNames d.globalNames) ↔
      ∀ fd ∈ d'.functions, fd.WellFormed d'.typeNames d'.globalNames := by
    rw [functions_wellFormed_iff hnames hglobals hfunctions]
    simp only [hperm.mem_iff]
  constructor
  · intro hd
    exact {
      typeNames := hnames.nodup_iff.mp hd.typeNames
      functionNames := hfunctionNames.mp hd.functionNames
      fields := fun td htd fields hfields s hs =>
        (hresolves s).mp (hd.fields td (h.types.mem_iff.mpr htd) fields hfields s hs)
      globals := fun gd hgd => (hresolves _).mp (hd.globals gd (h.globals.mem_iff.mpr hgd))
      functions := hwellFormed.mp hd.functions }
  · intro hd
    exact {
      typeNames := hnames.nodup_iff.mpr hd.typeNames
      functionNames := hfunctionNames.mpr hd.functionNames
      fields := fun td htd fields hfields s hs =>
        (hresolves s).mpr (hd.fields td (h.types.mem_iff.mp htd) fields hfields s hs)
      globals := fun gd hgd => (hresolves _).mpr (hd.globals gd (h.globals.mem_iff.mp hgd))
      functions := hwellFormed.mpr hd.functions }

/-- A name that a global has already can be given to another one: it is known before and after. -/
theorem ProgramDesc.wellFormed_of_repeated {d : ProgramDesc} {gd : GlobalDesc} (hname : gd.name ∈ d.globalNames)
    (hty : Resolves d.typeNames gd.ty) : { d with globals := gd :: d.globals }.WellFormed ↔ d.WellFormed := by
  -- as sets, the names of globals are the same with and without the repeated one
  have hmore : d.globalNames ⊆ gd.name :: d.globalNames := List.subset_cons_self ..
  have hsame : gd.name :: d.globalNames ⊆ d.globalNames := List.cons_subset.mpr ⟨hname, List.Subset.refl _⟩
  constructor
  · intro hd
    exact {
      typeNames := hd.typeNames
      functionNames := hd.functionNames
      fields := hd.fields
      globals := fun g hg => hd.globals g (List.mem_cons_of_mem _ hg)
      functions := fun fd hfd => .of_perm (.refl _) hsame rfl rfl (.refl _) (.refl _) (hd.functions fd hfd) }
  · intro hd
    exact {
      typeNames := hd.typeNames
      functionNames := hd.functionNames
      fields := hd.fields
      globals := List.forall_mem_cons.mpr ⟨hty, hd.globals⟩
      functions := fun fd hfd => .of_perm (.refl _) hmore rfl rfl (.refl _) (.refl _) (hd.functions fd hfd) }

end Relock.Description
