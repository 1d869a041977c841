import Relock.Proofs.Description.Faithful

/-!
# Bodies refer to nothing in other bodies

Names of instructions and blocks are resolved in the function that they stand in, and `%N` is an argument
of that function. What an instruction refers to is therefore found in its own function, unless it is a
global or a constant.

* `Tables.Owns`, `Tables.SelfContained`: what belongs to a function;
* `selfContained_of_faithful`: programs that are as described are self-contained;
* `Program.selfContained_of_load`: so is every program that was loaded.
-/

namespace Relock

/-- A value that belongs to some function belongs to `f`. -/
def Tables.Owns (t : Tables) (f : FunctionId) : Value → Prop
  | .inst i => t.functionOf i = .ok f
  | .arg g _ => g = f
  | .global _ => True
  | .const _ => True

/-- The instructions of a function use no values and go to no blocks of other functions. -/
structure Tables.SelfContained (t : Tables) : Prop where
  operands : ∀ i f kind, t.functionOf i = .ok f → t.kindOf i = .ok kind → ∀ v ∈ kind.operands, t.Owns f v
  blocks : ∀ i f kind, t.functionOf i = .ok f → t.kindOf i = .ok kind →
    ∀ b ∈ kind.blocks, ∃ x, t.block b = .ok x ∧ x.func = f

namespace Description

variable {t : Tables} {n : Naming} {op : Operation} {kind : InstKind}

/-- Every operand of an instruction is what an operand of its description stands for. -/
theorem Operation.Means.exists_operand (h : op.Means t n kind) {v : Value} (hv : v ∈ kind.operands) :
    ∃ o : Operand, o.Means n v := by
  -- an operand in a list of operands
  have hlist {ops : List Operand} {vs : List Value} (hvs : List.Forall₂ (Operand.Means n) ops vs)
      (hv : v ∈ vs) : ∃ o : Operand, o.Means n v := by
    obtain ⟨o, -, ho⟩ := exists_of_forall₂ hvs hv
    exact ⟨o, ho⟩
  cases h with
  | call _ hargs =>
    rw [InstKind.operands, Callee.operands, List.append_nil] at hv
    exact hlist hargs hv
  | invoke _ hargs _ _ =>
    rw [InstKind.operands, Callee.operands, List.append_nil] at hv
    exact hlist hargs hv
  -- the callee of an indirect call is an operand too, behind the arguments
  | callIndirect hcallee hargs =>
    rcases List.mem_append.mp hv with hv | hv
    · exact hlist hargs hv
    · rw [List.mem_singleton.mp hv]
      exact ⟨_, hcallee⟩
  | condBr hcond _ _ =>
    rw [List.mem_singleton.mp hv]
    exact ⟨_, hcond⟩
  | retValue hvalue =>
    rw [List.mem_singleton.mp hv]
    exact ⟨_, hvalue⟩
  | load hp =>
    rw [List.mem_singleton.mp hv]
    exact ⟨_, hp⟩
  | field hbase =>
    rw [List.mem_singleton.mp hv]
    exact ⟨_, hbase⟩
  | cast hvalue =>
    rw [List.mem_singleton.mp hv]
    exact ⟨_, hvalue⟩
  | store hvalue hp => exact hlist (.cons hvalue (.cons hp .nil)) hv
  | icmp hleft hright => exact hlist (.cons hleft (.cons hright .nil)) hv
  | phi hpairs =>
    obtain ⟨pair, hpair, rfl⟩ := List.mem_map.mp hv
    obtain ⟨e, -, he, -⟩ := exists_of_forall₂ hpairs hpair
    exact ⟨e.1, he⟩
  | debug hvs => exact hlist hvs hv
  | other hvs => exact hlist hvs hv
  | br | ret | unreachable | alloca | landingPad => cases hv

/-- Every block that an instruction names is what a label stands for. -/
theorem Operation.Means.exists_label (h : op.Means t n kind) {b : BlockId} (hb : b ∈ kind.blocks) :
    ∃ label, n.block label b := by
  cases h with
  | invoke _ _ hnormal hunwind =>
    rcases List.mem_cons.mp hb with rfl | hb
    · exact ⟨_, hnormal⟩
    · rw [List.mem_singleton.mp hb]
      exact ⟨_, hunwind⟩
  | br hdest =>
    rw [List.mem_singleton.mp hb]
    exact ⟨_, hdest⟩
  | condBr _ hthen helse =>
    rcases List.mem_cons.mp hb with rfl | hb
    · exact ⟨_, hthen⟩
    · rw [List.mem_singleton.mp hb]
      exact ⟨_, helse⟩
  | phi hpairs =>
    obtain ⟨pair, hpair, rfl⟩ := List.mem_map.mp hb
    obtain ⟨e, -, -, he⟩ := exists_of_forall₂ hpairs hpair
    exact ⟨e.2, he⟩
  | _ => cases hb

/-- An instruction with a function comes from a description in the body of that function. -/
theorem Faithful.exists_means {d : ProgramDesc} (ht : t.Arranged) (h : Faithful d t) {i : InstId}
    {f : FunctionId} (hi : t.functionOf i = .ok f) :
    ∃ fd g is, FunctionDesc.Describes d t f fd g is ∧
      ∃ id y, t.inst i = .ok y ∧ InstDesc.Means t (d.naming f fd g.blocks is) id y := by
  obtain ⟨y, x, hy, hx, rfl⟩ := Tables.functionOf_eq_ok.mp hi
  by_cases hlt : x.func.index < d.functions.length
  · obtain ⟨g, is, hdescribes⟩ := h.functions _ _ (List.getElem?_eq_getElem hlt)
    -- the block of the instruction is one of the described blocks
    have hblock : y.block ∈ g.blocks := (ht.mem_blocks hdescribes.function).mpr ⟨x, hx, rfl⟩
    obtain ⟨bd, -, x', hx', -, -, hinsts⟩ := exists_of_forall₂ hdescribes.blocks hblock
    obtain ⟨id, -, y', hy', hmeans⟩ := exists_of_forall₂ hinsts ((ht.mem_insts hx').mpr ⟨y, hy, rfl⟩)
    exact ⟨_, g, is, hdescribes, id, y', hy', hmeans⟩
  · -- a function that was declared for a call has no blocks
    have howner := ht.owners x (Array.mem_of_getElem? (Tables.block_eq_ok.mp hx))
    obtain ⟨g, -, hg⟩ := @exists_lookUp _ .functions _ _ howner
    have hblock : y.block ∈ g.blocks := (ht.mem_blocks hg).mpr ⟨x, hx, rfl⟩
    have hmem : g ∈ t.functions.toList.drop d.functions.length := by
      refine List.mem_of_getElem? (i := x.func.index - d.functions.length) ?_
      rw [List.getElem?_drop, Nat.add_sub_cancel' (Nat.le_of_not_lt hlt), Array.getElem?_toList]
      exact lookUp_eq_ok.mp hg
    obtain ⟨call, -, hdeclares⟩ := exists_of_forall₂ h.declared hmem
    rw [hdeclares.blocks] at hblock
    cases hblock

/-- **Programs that are as described are self-contained**, since a body has no names but its own, those of globals
and those of functions. -/
theorem selfContained_of_faithful {d : ProgramDesc} (ht : t.Arranged) (h : Faithful d t) : t.SelfContained := by
  constructor
  · intro i f kind hi hkind v hv
    obtain ⟨fd, g, is, hdescribes, id, y, hy, hmeans⟩ := h.exists_means ht hi
    rw [Tables.kindOf_of_inst hy] at hkind
    cases hkind
    obtain ⟨o, ho⟩ := hmeans.kind.exists_operand hv
    cases ho with
    | int => exact trivial
    | arg => exact rfl
    | global _ hv =>
      obtain ⟨k, rfl, -⟩ := hv
      exact trivial
    -- a name of the body is that of one of its instructions
    | inst _ _ hj =>
      have hmem := (List.of_mem_zip hj).2
      exact ((ht.of_instsOf hdescribes.insts).2 _).mp hmem
  · intro i f kind hi hkind b hb
    obtain ⟨fd, g, is, hdescribes, id, y, hy, hmeans⟩ := h.exists_means ht hi
    rw [Tables.kindOf_of_inst hy] at hkind
    cases hkind
    obtain ⟨label, hlabel⟩ := hmeans.kind.exists_label hb
    exact (ht.mem_blocks hdescribes.function).mp (List.of_mem_zip hlabel).2

end Description

namespace Program

/-- **Every loaded program is self-contained.** The walk of the detector and the release tracer stay in one
function for this reason. -/
theorem selfContained_of_load {text : String} {p : Program} (h : Program.load text = .ok p) :
    p.SelfContained := by
  obtain ⟨d, b, hb, heq⟩ := exists_desc_of_load h
  rw [← heq]
  exact Description.selfContained_of_faithful (Description.elaborateBuilder_sound hb).arranged
    (Description.faithful_of_elaborateBuilder hb)

end Program

end Relock
