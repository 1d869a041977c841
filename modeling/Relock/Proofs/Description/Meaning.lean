import Relock.Proofs.Description.Types

/-!
# What a description says about a program

The reading of a description without the order in which it is elaborated: each name stands for the entry
that was described under it, wherever in the function or in the document that is, and each described
instruction for the instruction at its place.

* `Naming`, `Operand.Means`: what the names in a body stand for;
* `Operation.Means`, `InstDesc.Means`: an instruction with its names replaced, and its type;
* `firstCalls`: the functions that are called and not described;
* `FunctionDesc.Describes`, `Faithful`: a function and a whole program that are as described.
-/

namespace Relock

/-- The function `f` has the name `name`. -/
def Tables.Named (t : Tables) (name : String) (f : FunctionId) : Prop :=
  ∃ g, t.function f = .ok g ∧ g.name = name

theorem Tables.Named.mono {t t' : Tables} {e : Entries} {name : String} {f : FunctionId}
    (h : t.Named name f) (hadds : t.Adds e t') : t'.Named name f := by
  obtain ⟨g, hg, rfl⟩ := h
  obtain ⟨g', hg', hname, -⟩ := hadds.function hg
  exact ⟨g', hg', hname⟩

namespace Description

variable {t t' : Tables} {e : Entries}

/-! ## Names -/

/-- What the names in the body of a function stand for. -/
structure Naming where
  func : FunctionId
  block : String → BlockId → Prop
  inst : String → InstId → Prop
  global : String → Value → Prop

/-- The value that an operand stands for. -/
inductive Operand.Means (n : Naming) : Operand → Value → Prop where
  | int (k : Int) : Means n (.int k) (.const k)
  | arg {s : String} {digits : List Char} {position : Nat} (hs : s.toList = '%' :: digits)
      (hdigits : Text.readU32 digits = .ok position) : Means n (.name s) (.arg n.func position)
  | global {s : String} {rest : List Char} {v : Value} (hs : s.toList = '@' :: rest)
      (hv : n.global (String.ofList rest) v) : Means n (.name s) v
  | inst {s : String} {i : InstId} (harg : s.toList.head? ≠ some '%') (hglobal : s.toList.head? ≠ some '@')
      (hi : n.inst s i) : Means n (.name s) (.inst i)

/-! ## Instructions -/

/-- The instruction that an operation stands for. -/
inductive Operation.Means (t : Tables) (n : Naming) : Operation → InstKind → Prop where
  | call {callee : String} {args : List Operand} {f : FunctionId} {vs : List Value} (hf : t.Named callee f)
      (hargs : List.Forall₂ (Operand.Means n) args vs) : Means t n (.call callee args) (.call (.direct f) vs)
  | callIndirect {callee : Operand} {args : List Operand} {v : Value} {vs : List Value}
      (hv : callee.Means n v) (hargs : List.Forall₂ (Operand.Means n) args vs) :
      Means t n (.callIndirect callee args) (.call (.indirect v) vs)
  | invoke {callee normal unwind : String} {args : List Operand} {f : FunctionId} {vs : List Value}
      {b c : BlockId} (hf : t.Named callee f) (hargs : List.Forall₂ (Operand.Means n) args vs)
      (hnormal : n.block normal b) (hunwind : n.block unwind c) :
      Means t n (.invoke callee args normal unwind) (.invoke (.direct f) vs b c)
  | br {dest : String} {b : BlockId} (hdest : n.block dest b) : Means t n (.br dest) (.br b)
  | condBr {cond : Operand} {thenDest elseDest : String} {v : Value} {b c : BlockId} (hcond : cond.Means n v)
      (hthen : n.block thenDest b) (helse : n.block elseDest c) :
      Means t n (.condBr cond thenDest elseDest) (.condBr v b c)
  | ret : Means t n (.ret none) (.ret none)
  | retValue {value : Operand} {v : Value} (hv : value.Means n v) : Means t n (.ret (some value)) (.ret (some v))
  | unreachable : Means t n .unreachable .unreachable
  | load {ptr : Operand} {p : Value} (hp : ptr.Means n p) : Means t n (.load ptr) (.load p)
  | store {value ptr : Operand} {v p : Value} (hv : value.Means n v) (hp : ptr.Means n p) :
      Means t n (.store value ptr) (.store v p)
  | field {base : Operand} {indices : List Int} {v : Value} (hv : base.Means n v) :
      Means t n (.field base indices) (.fieldAddr v indices)
  | cast {value : Operand} {v : Value} (hv : value.Means n v) : Means t n (.cast value) (.cast v)
  | icmp {pred : Option String} {lhs rhs : Operand} {v w : Value} (hv : lhs.Means n v) (hw : rhs.Means n w) :
      Means t n (.icmp pred lhs rhs) (.icmp (predicateOf pred) v w)
  | alloca {allocated : String} : Means t n (.alloca allocated) .alloca
  | phi {incoming : List (Operand × String)} {pairs : List (Value × BlockId)}
      (hpairs : List.Forall₂ (fun e p => e.1.Means n p.1 ∧ n.block e.2 p.2) incoming pairs) :
      Means t n (.phi incoming) (.phi pairs)
  | debug {operands : List Operand} {vs : List Value} (hvs : List.Forall₂ (Operand.Means n) operands vs) :
      Means t n (.debug operands) (.debug vs)
  | landingPad : Means t n .landingPad .landingPad
  | other {operands : List Operand} {vs : List Value} (hvs : List.Forall₂ (Operand.Means n) operands vs) :
      Means t n (.other operands) (.other vs)

/-- The type of an instruction that none is given for: the result of the function that it calls, one bit
for a comparison, a pointer for a stack slot, and void for anything else. -/
def Operation.DefaultType (t : Tables) (kind : InstKind) (ty : TypeId) : Operation → Prop
  | .call .. | .invoke .. => ∃ f g, kind.callee? = some f ∧ t.function f = .ok g ∧ g.ret = ty
  | .icmp .. => t.type ty = .ok (.int 1)
  | .alloca allocated => ∃ i, t.Spells allocated i ∧ t.type ty = .ok (.pointer i)
  | _ => ty = .void

/-- The instruction that a description stands for. -/
structure InstDesc.Means (t : Tables) (n : Naming) (d : InstDesc) (x : Instruction) : Prop where
  kind : d.op.Means t n x.kind
  type : match d.ty with
    | some s => t.Spells s x.ty
    | none => d.op.DefaultType t x.kind x.ty
  loc : x.loc = d.loc

/-- What an operation stands for is not changed by what is added later. Only the callee is looked up in the
tables. -/
theorem Operation.Means.mono {n : Naming} {op : Operation} {kind : InstKind} (h : op.Means t n kind)
    (hadds : t.Adds e t') : op.Means t' n kind := by
  cases h with
  | call hf hargs => exact .call (hf.mono hadds) hargs
  | invoke hf hargs hnormal hunwind => exact .invoke (hf.mono hadds) hargs hnormal hunwind
  -- no other operation looks at the tables
  | callIndirect hv hargs => exact .callIndirect hv hargs
  | br hdest => exact .br hdest
  | condBr hcond hthen helse => exact .condBr hcond hthen helse
  | ret => exact .ret
  | retValue hv => exact .retValue hv
  | unreachable => exact .unreachable
  | load hp => exact .load hp
  | store hv hp => exact .store hv hp
  | field hv => exact .field hv
  | cast hv => exact .cast hv
  | icmp hv hw => exact .icmp hv hw
  | alloca => exact .alloca
  | phi hpairs => exact .phi hpairs
  | debug hvs => exact .debug hvs
  | landingPad => exact .landingPad
  | other hvs => exact .other hvs

/-- The type that an operation has by default is not changed by what is added later. -/
theorem Operation.DefaultType.mono {op : Operation} {kind : InstKind} {ty : TypeId}
    (h : op.DefaultType t kind ty) (hadds : t.Adds e t') : op.DefaultType t' kind ty := by
  -- a function keeps its result type
  have hcall (h : ∃ f g, kind.callee? = some f ∧ t.function f = .ok g ∧ g.ret = ty) :
      ∃ f g, kind.callee? = some f ∧ t'.function f = .ok g ∧ g.ret = ty := by
    obtain ⟨f, g, hf, hg, rfl⟩ := h
    obtain ⟨g', hg', -, hret⟩ := hadds.function hg
    exact ⟨f, g', hf, hg', hret⟩
  cases op with
  | call => exact hcall h
  | invoke => exact hcall h
  | icmp => exact hadds.types _ _ h
  | alloca =>
    obtain ⟨i, hi, hty⟩ := h
    exact ⟨i, hi.mono hadds, hadds.types _ _ hty⟩
  | _ => exact h

/-- **The meaning of an instruction is stable**: it holds in all later tables. -/
theorem InstDesc.Means.mono {n : Naming} {d : InstDesc} {x : Instruction} (h : d.Means t n x)
    (hadds : t.Adds e t') : d.Means t' n x := by
  refine ⟨h.kind.mono hadds, ?_, h.loc⟩
  have htype := h.type
  split at htype
  · exact htype.mono hadds
  · exact htype.mono hadds

/-! ## Functions that are called and not described -/

/-- The function that an operation calls by name. -/
def Operation.callee? : Operation → Option String
  | .call callee _ => some callee
  | .invoke callee _ _ _ => some callee
  | _ => none

/-- The function that an instruction calls by name, with the type given for the call. -/
def InstDesc.calls (d : InstDesc) : List (String × Option String) :=
  d.op.callee?.toList.map fun callee => (callee, d.ty)

/-- The first call of each function whose name is not known. -/
def firstCalls (known : List String) : List (String × Option String) → List (String × Option String)
  | [] => []
  | call :: calls =>
    if call.1 ∈ known then firstCalls known calls
    else call :: firstCalls (known ++ [call.1]) calls

/-- A function that is declared for a call has the name that is called, no parameters, no body, and the
type of the call as its result. -/
structure Declares (t : Tables) (call : String × Option String) (g : Function) : Prop where
  name : g.name = call.1
  params : g.params = []
  blocks : g.blocks = []
  ret : match call.2 with
    | some s => t.Spells s g.ret
    | none => g.ret = .void

/-- A declaration goes on to be one for its call. -/
theorem Declares.mono {call : String × Option String} {g : Function} (h : Declares t call g)
    (hadds : t.Adds e t') : Declares t' call g := by
  refine ⟨h.name, h.params, h.blocks, ?_⟩
  have hret := h.ret
  split at hret
  · exact hret.mono hadds
  · exact hret

/-- The first calls of two parts: those of the first part, and then those of the second one whose names are still
not known. -/
theorem firstCalls_append (known : List String) (calls calls' : List (String × Option String)) :
    firstCalls known (calls ++ calls') =
      firstCalls known calls ++ firstCalls (known ++ (firstCalls known calls).map Prod.fst) calls' := by
  induction calls generalizing known with
  | nil => simp [firstCalls]
  | cons call calls ih =>
    rw [List.cons_append, firstCalls, firstCalls]
    split
    · -- the call is of a known function, and is left out of both sides
      exact ih known
    · rw [ih, List.map_cons, List.cons_append, List.append_assoc, List.singleton_append]

/-! ## Whole programs -/

/-- The instructions of a function in the order in which they are described. -/
def FunctionDesc.insts (d : FunctionDesc) : List InstDesc := d.blocks.flatMap BlockDesc.insts

/-- The entry `k` is the last one that is `name`. -/
def IsLast (names : List String) (name : String) (k : Nat) : Prop :=
  names[k]? = some name ∧ ∀ l, k < l → names[l]? ≠ some name

/-- What names stand for in the body of the function `f`, if `blocks` and `insts` are its blocks and
instructions: labels and instruction names stand for what is at their place, and the name of a global for
the last one of that name. -/
def ProgramDesc.naming (d : ProgramDesc) (f : FunctionId) (fd : FunctionDesc) (blocks : List BlockId)
    (insts : List InstId) : Naming where
  func := f
  block label b := (label, b) ∈ (fd.blocks.map BlockDesc.label).zip blocks
  inst name i := (some name, i) ∈ (fd.insts.map InstDesc.id).zip insts
  global name v := ∃ k, v = .global ⟨k⟩ ∧ IsLast (d.globals.map GlobalDesc.name) name k

/-- The block `b` of the function `f` is as described. -/
def BlockDesc.Describes (t : Tables) (f : FunctionId) (n : Naming) (bd : BlockDesc) (b : BlockId) : Prop :=
  ∃ x, t.block b = .ok x ∧ x.label = bd.label ∧ x.func = f ∧
    List.Forall₂ (fun d i => ∃ y, t.inst i = .ok y ∧ d.Means t n y) bd.insts x.insts

/-- The function `f` with the instructions `is` is as described. -/
structure FunctionDesc.Describes (d : ProgramDesc) (t : Tables) (f : FunctionId) (fd : FunctionDesc)
    (g : Function) (is : List InstId) : Prop where
  function : t.function f = .ok g
  insts : t.instsOf f = .ok is
  name : g.name = fd.name
  params : List.Forall₂ t.Spells fd.params g.params
  ret : t.Spells fd.ret g.ret
  blocks : List.Forall₂ (BlockDesc.Describes t f (d.naming f fd g.blocks is)) fd.blocks g.blocks

/-- A global is as described. -/
structure GlobalDesc.Describes (t : Tables) (gd : GlobalDesc) (g : Global) : Prop where
  name : g.name = gd.name
  ty : t.Spells gd.ty g.ty
  ptrTy : t.type g.ptrTy = .ok (.pointer g.ty)

/-- The calls of a program in the order in which they are described. -/
def ProgramDesc.calls (d : ProgramDesc) : List (String × Option String) :=
  d.functions.flatMap fun fd => fd.insts.flatMap InstDesc.calls

/-- The program is the described one. -/
structure Faithful (d : ProgramDesc) (t : Tables) : Prop where
  globals : List.Forall₂ (GlobalDesc.Describes t) d.globals t.globals.toList
  /-- The described functions come first, in their order. -/
  functions : ∀ (k : Nat) (fd : FunctionDesc), d.functions[k]? = some fd → ∃ g is, fd.Describes d t ⟨k⟩ g is
  /-- Instructions are numbered in the order in which they are described. -/
  numbered : ∃ bodies, (List.range d.functions.length).mapM (fun k => t.instsOf ⟨k⟩) = .ok bodies ∧
    bodies.flatten = t.instIds
  /-- All other functions are declared for calls. -/
  declared : List.Forall₂ (Declares t) (firstCalls (d.functions.map FunctionDesc.name) d.calls)
    (t.functions.toList.drop d.functions.length)

end Description

end Relock
