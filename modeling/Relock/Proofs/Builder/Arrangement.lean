import Relock.Builder.Step
import Relock.Proofs.Program.Arrangement

/-!
# Builders keep programs arranged

A builder writes each block and each instruction twice: as an entry of its table, and at the end of the
list of what it belongs to. Both writes are made by one operation, so that no sequence of operations can
bring the lists and the tables apart, whatever indices the instructions name.

* `arranged_block`, `arranged_push`: the two operations that write to a list;
* `arranged_function`, `arranged_setLocation`, `arranged_intern`: the others change no list;
* `arranged_run`, `arranged_runAll`: one step of a construction, and all of them.
-/

namespace Relock.Builder

variable {b b' : Builder}

/-! ## What the operations do to the tables -/

/-- A new block is the last entry of its table and the last one of its function. -/
theorem block_eq_ok {f : FunctionId} {label : String} {i : BlockId} :
    b.block f label = .ok (i, b') ↔ (∃ g, b.tables.function f = .ok g) ∧ i = ⟨b.tables.blocks.size⟩ ∧
      b' = { b with tables := { b.tables with
        blocks := b.tables.blocks.push ⟨label, f, []⟩
        functions := b.tables.functions.modify f.index fun g => { g with blocks := g.blocks ++ [i] } } } := by
  simp only [block, bind_eq_ok, pure_eq_ok, Prod.mk.injEq]
  constructor
  · rintro ⟨g, hg, rfl, rfl⟩
    exact ⟨⟨g, hg⟩, rfl, rfl⟩
  · rintro ⟨⟨g, hg⟩, rfl, rfl⟩
    exact ⟨g, hg, rfl, rfl⟩

/-- A new instruction is the last entry of its table and the last one of its block. -/
theorem push_eq_ok {bb : BlockId} {kind : InstKind} {ty : TypeId} {i : InstId} :
    b.push bb kind ty = .ok (i, b') ↔ (∃ x, b.tables.block bb = .ok x) ∧ i = ⟨b.tables.insts.size⟩ ∧
      b' = { b with tables := { b.tables with
        insts := b.tables.insts.push ⟨kind, ty, bb, none⟩
        blocks := b.tables.blocks.modify bb.index fun c => { c with insts := c.insts ++ [i] } } } := by
  simp only [push, bind_eq_ok, pure_eq_ok, Prod.mk.injEq]
  constructor
  · rintro ⟨x, hx, rfl, rfl⟩
    exact ⟨⟨x, hx⟩, rfl, rfl⟩
  · rintro ⟨⟨x, hx⟩, rfl, rfl⟩
    exact ⟨x, hx, rfl, rfl⟩

/-- Setting a location changes one entry of the instruction table. -/
theorem setLocation_eq_ok {i : InstId} {loc : Location} :
    b.setLocation i loc = .ok b' ↔ (∃ x, b.tables.inst i = .ok x) ∧
      b' = { b with tables.insts := b.tables.insts.modify i.index fun x => { x with loc := some loc } } := by
  simp only [setLocation, bind_eq_ok, pure_eq_ok]
  constructor
  · rintro ⟨x, hx, rfl⟩
    exact ⟨⟨x, hx⟩, rfl⟩
  · rintro ⟨⟨x, hx⟩, rfl⟩
    exact ⟨x, hx, rfl⟩

/-! ## What stays arranged -/

/-- Types and globals are in no list. -/
theorem arranged_of_eq {t t' : Tables} (ht : t.Arranged) (hfunctions : t'.functions = t.functions)
    (hblocks : t'.blocks = t.blocks) (hinsts : t'.insts = t.insts) : t'.Arranged := by
  obtain ⟨_, _, _, _, _⟩ := t
  obtain ⟨_, _, _, _, _⟩ := t'
  obtain rfl := hfunctions
  obtain rfl := hblocks
  obtain rfl := hinsts
  exact ⟨ht.insts, ht.blocks, ht.parents, ht.owners⟩

theorem arranged_empty : Tables.empty.Arranged := by
  constructor
  · intro b x hb
    simp [Tables.block_eq_ok, Tables.empty] at hb
  · intro f g hf
    simp [Tables.function_eq_ok, Tables.empty] at hf
  · simp [Tables.empty]
  · simp [Tables.empty]

/-- A new function has no blocks, since no block can name it yet. -/
theorem arranged_function (hb : b.tables.Arranged) (name : String) (params : List TypeId) (ret : TypeId) :
    (b.function name params ret).2.tables.Arranged := by
  refine ⟨hb.insts, fun f g hf => ?_, hb.parents, fun x hx => ?_⟩
  · rw [Tables.function_eq_ok] at hf
    simp only [function, Array.getElem?_push] at hf
    -- the new function, whose list is empty, and the others, whose lists have not changed
    split at hf
    · next hnew =>
      cases hf
      have hnone : ∀ x ∈ b.tables.blocks, (x.func == f) = false := by
        intro x hx
        have hlt := hb.owners x hx
        rw [beq_eq_false_iff_ne]
        rintro rfl
        omega
      simp only [function, positions_eq_nil hnone, List.map_nil]
    · exact hb.blocks f g (Tables.function_eq_ok.mpr hf)
  · have hlt := hb.owners x hx
    simp only [function, Array.size_push]
    omega

/-- A new block has no instructions, since none can name it yet, and comes last in its function. -/
theorem arranged_block (hb : b.tables.Arranged) {f : FunctionId} {label : String} {i : BlockId}
    (h : b.block f label = .ok (i, b')) : b'.tables.Arranged := by
  obtain ⟨⟨g, hg⟩, rfl, rfl⟩ := block_eq_ok.mp h
  have hf : f.index < b.tables.functions.size :=
    (Array.getElem?_eq_some_iff.mp (Tables.function_eq_ok.mp hg)).1
  -- in turn: what blocks list, what functions list, the blocks of instructions, the functions of blocks
  refine ⟨fun c x hc => ?_, fun f' g' hf' => ?_, fun x hx => ?_, fun x hx => ?_⟩
  · -- no instruction names the new block
    rw [Tables.block_eq_ok] at hc
    simp only [Array.getElem?_push] at hc
    split at hc
    · next hnew =>
      cases hc
      have hnone : ∀ x ∈ b.tables.insts, (x.block == c) = false := by
        intro x hx
        have hlt := hb.parents x hx
        rw [beq_eq_false_iff_ne]
        rintro rfl
        omega
      simp only [positions_eq_nil hnone, List.map_nil]
    · exact hb.insts c x (Tables.block_eq_ok.mpr hc)
  · rw [Tables.function_eq_ok] at hf'
    simp only [Array.getElem?_modify] at hf'
    simp only [positions_push, List.map_append]
    -- the function of the new block lists one more, the others as many as before
    split at hf'
    · next heq =>
      obtain ⟨g₀, hg₀, rfl⟩ := Option.map_eq_some_iff.mp hf'
      obtain rfl : f = f' := by cases f; cases f'; exact congrArg _ heq
      simp [hb.blocks f g₀ (Tables.function_eq_ok.mpr hg₀)]
    · next hne =>
      have hff' : f ≠ f' := by rintro rfl; exact hne rfl
      simp [hb.blocks f' g' (Tables.function_eq_ok.mpr hf'), hff']
  · have hlt := hb.parents x hx
    simp only [Array.size_push]
    omega
  · rw [Array.size_modify]
    rcases Array.mem_push.mp hx with hx | rfl
    · exact hb.owners x hx
    · exact hf

/-- A new instruction comes last in its block. -/
theorem arranged_push (hb : b.tables.Arranged) {bb : BlockId} {kind : InstKind} {ty : TypeId} {i : InstId}
    (h : b.push bb kind ty = .ok (i, b')) : b'.tables.Arranged := by
  obtain ⟨⟨x₀, hx₀⟩, rfl, rfl⟩ := push_eq_ok.mp h
  have hbb : bb.index < b.tables.blocks.size :=
    (Array.getElem?_eq_some_iff.mp (Tables.block_eq_ok.mp hx₀)).1
  refine ⟨fun c x hc => ?_, fun f g hf => ?_, fun x hx => ?_, ?_⟩
  · rw [Tables.block_eq_ok] at hc
    simp only [Array.getElem?_modify] at hc
    simp only [positions_push, List.map_append]
    -- the block of the new instruction lists one more
    split at hc
    · next heq =>
      obtain ⟨y, hy, rfl⟩ := Option.map_eq_some_iff.mp hc
      obtain rfl : bb = c := by cases bb; cases c; exact congrArg _ heq
      simp [hb.insts bb y (Tables.block_eq_ok.mpr hy)]
    · next hne =>
      have hbc : bb ≠ c := by rintro rfl; exact hne rfl
      simp [hb.insts c x (Tables.block_eq_ok.mpr hc), hbc]
  · -- the block that lists one more instruction still names the same function
    rw [hb.blocks f g hf]
    congr 1
    symm
    apply positions_modify
    exact fun _ => rfl
  · rw [Array.size_modify]
    rcases Array.mem_push.mp hx with hx | rfl
    · exact hb.parents x hx
    · exact hbb
  · dsimp only
    apply forall_mem_modify hb.owners
    exact fun _ hlt => hlt

theorem arranged_setLocation (hb : b.tables.Arranged) {i : InstId} {loc : Location}
    (h : b.setLocation i loc = .ok b') : b'.tables.Arranged := by
  obtain ⟨-, rfl⟩ := setLocation_eq_ok.mp h
  refine ⟨fun c x hc => ?_, hb.blocks, ?_, hb.owners⟩
  · -- a location does not change the block that an instruction names
    rw [hb.insts c x hc]
    congr 1
    symm
    apply positions_modify
    exact fun _ => rfl
  · dsimp only
    apply forall_mem_modify hb.parents
    exact fun _ hlt => hlt

theorem arranged_addType (hb : b.tables.Arranged) (k : TypeKind) : (b.addType k).2.tables.Arranged :=
  arranged_of_eq hb rfl rfl rfl

theorem arranged_intern (hb : b.tables.Arranged) (k : TypeKind) : (b.intern k).2.tables.Arranged := by
  unfold intern
  cases b.interned.lookup k with
  | some i => exact hb
  | none => exact arranged_addType hb k

theorem arranged_setFields (hb : b.tables.Arranged) {t : TypeId} {fields : List TypeId}
    (h : b.setFields t fields = .ok b') : b'.tables.Arranged := by
  obtain ⟨k, -, h⟩ := bind_eq_ok.mp h
  cases k with
  | record name old =>
    cases h
    exact arranged_of_eq hb rfl rfl rfl
  | _ =>
    cases h
    exact hb

/-! ## Whole constructions -/

/-- **The step of a construction.** No operation brings the lists and the tables apart, also if the indices it is
given are out of range. -/
theorem arranged_run (hb : b.tables.Arranged) {s : Step} {answer : Answer} (h : s.run b = .ok (answer, b')) :
    b'.tables.Arranged := by
  cases s with
  | void | lookupNamed | arg | instCount =>
    cases h
    exact hb
  | int | pointer | recordType | bodylessType =>
    cases h
    exact arranged_intern hb _
  | declareRecord =>
    cases h
    exact arranged_addType hb _
  | setFields =>
    obtain ⟨c, hc, h⟩ := bind_eq_ok.mp h
    cases h
    exact arranged_setFields hb hc
  | global name ty =>
    cases h
    exact arranged_of_eq (arranged_intern hb (.pointer ty)) rfl rfl rfl
  | function name params ret =>
    cases h
    exact arranged_function hb name params ret
  | returnType =>
    obtain ⟨ty, -, h⟩ := bind_eq_ok.mp h
    cases h
    exact hb
  | block =>
    obtain ⟨c, hc, h⟩ := bind_eq_ok.mp h
    cases h
    exact arranged_block hb hc
  | setLocation =>
    obtain ⟨c, hc, h⟩ := bind_eq_ok.mp h
    cases h
    exact arranged_setLocation hb hc
  | call | invoke =>
    obtain ⟨c, hc, h⟩ := bind_eq_ok.mp h
    cases h
    obtain ⟨ty, -, hc⟩ := bind_eq_ok.mp hc
    -- the result type of the callee is looked up, which changes nothing
    exact arranged_push hb hc
  | icmp | alloca =>
    -- the type of the result is made first
    obtain ⟨c, hc, h⟩ := bind_eq_ok.mp h
    cases h
    exact arranged_push (arranged_intern hb _) hc
  | push =>
    obtain ⟨c, hc, h⟩ := bind_eq_ok.mp h
    cases h
    exact arranged_push hb hc

/-- **The run of a construction.** What each step keeps, all of them together keep. -/
theorem arranged_runAll (hb : b.tables.Arranged) {steps : List Step} (h : b.runAll steps = .ok b') :
    b'.tables.Arranged := by
  -- the steps before the last one have made an arranged builder
  induction steps generalizing b with
  | nil =>
    cases h
    exact hb
  | cons s steps ih =>
    obtain ⟨⟨answer, c⟩, hc, h⟩ := bind_eq_ok.mp h
    exact ih (arranged_run hb hc) h

/-- Every program that is built step by step is arranged. -/
theorem arranged_of_runAll {steps : List Step} (h : empty.runAll steps = .ok b) : b.tables.Arranged :=
  arranged_runAll (arranged_intern (arranged_intern (arranged_of_eq arranged_empty rfl rfl rfl) _) _) h

end Relock.Builder
