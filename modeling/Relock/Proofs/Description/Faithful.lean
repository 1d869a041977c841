import Relock.Proofs.Description.Elaboration

/-!
# Elaborated programs are as described

The elaboration fixes in which order blocks and instructions are added, and arranged tables list them in
that order. So the blocks of a function and the instructions of a block have consecutive numbers, and the
numbers that names were given beforehand are those of the entries described under them.

* `describes_block`, `describes_blocks`: one block, and by induction the blocks of one function;
* `describes_function`, `describes_functions`: one function, and by induction all functions;
* `faithful_of_elaborateBuilder`: what comes out of the elaboration is as described;
* `elaborate_faithful`: so is the program.
-/

namespace Relock.Description

variable {t : Tables} {n : Naming} {f : FunctionId}

/-! ## Consecutive numbers -/

theorem instRange_append (first count count' : Nat) :
    instRange first count ++ instRange (first + count) count' = instRange first (count + count') := by
  rw [instRange, instRange, instRange, ← List.map_append, ← List.range'_append, Nat.one_mul]

theorem instRange_succ (first count : Nat) :
    instRange first (count + 1) = ⟨first⟩ :: instRange (first + 1) count := by
  rw [instRange, List.range'_succ, List.map_cons, instRange]

theorem blockRange_succ (first count : Nat) :
    blockRange first (count + 1) = ⟨first⟩ :: blockRange (first + 1) count := by
  rw [blockRange, List.range'_succ, List.map_cons, blockRange]

/-- Instructions that stand together in the table are found under consecutive numbers. -/
theorem insts_of_forall₂ {α : Type} {P : α → Instruction → Prop} {ds : List α}
    {xs ys zs : List Instruction} (hinsts : t.insts.toList = xs ++ ys ++ zs) (h : List.Forall₂ P ds ys) :
    List.Forall₂ (fun d i => ∃ y, t.inst i = .ok y ∧ P d y) ds (instRange xs.length ys.length) := by
  induction h generalizing xs with
  | nil => exact .nil
  | @cons d y ds ys hy _ ih =>
    -- the next entry of the table is the first of those that stand together
    have hget : t.insts[xs.length]? = some y := by
      rw [← Array.getElem?_toList, hinsts]
      simp
    have hinsts' : t.insts.toList = (xs ++ [y]) ++ ys ++ zs := by
      rw [hinsts]
      simp
    have hrest := ih hinsts'
    rw [List.length_append] at hrest
    rw [List.length_cons, instRange_succ]
    exact .cons ⟨y, Tables.inst_eq_ok.mpr hget, hy⟩ hrest

/-! ## Blocks -/

/-- Instructions are placed in the blocks of their function only. -/
theorem block_of_mem_placeBlocks {first : Nat} {ds : List BlockDesc} {e : Placed}
    (h : e ∈ placeBlocks n first ds) : first ≤ e.block.index ∧ e.block.index < first + ds.length := by
  induction ds generalizing first with
  | nil => cases h
  | cons d ds ih =>
    rw [placeBlocks, List.mem_append] at h
    rw [List.length_cons]
    rcases h with h | h
    · obtain ⟨x, -, rfl⟩ := List.mem_map.mp h
      exact ⟨Nat.le_refl _, by show first < _; omega⟩
    · have hrest := ih h
      omega

/-- The block of an instruction is one that something was placed in. -/
theorem exists_placed_of_mem {places : List Placed} {ys : List Instruction}
    (h : List.Forall₂ (Placed.Is t) places ys) {y : Instruction} (hy : y ∈ ys) :
    ∃ e ∈ places, y.block = e.block := by
  obtain ⟨e, he, his⟩ := exists_of_forall₂ h hy
  exact ⟨e, he, his.block⟩

/-- An entry of a table, found in the list of entries without lists. -/
theorem block_of_entries {before after : List Block} {x : Block} (h : t.entries.blocks = before ++ x :: after) :
    ∃ y, t.block ⟨before.length⟩ = .ok y ∧ y.head = x := by
  have hget : (t.blocks.toList.map Block.head)[before.length]? = some x := by
    rw [show t.blocks.toList.map Block.head = before ++ x :: after from h]
    simp
  obtain ⟨y, hy, heq⟩ : ∃ y, t.blocks[before.length]? = some y ∧ y.head = x := by simpa using hget
  exact ⟨y, Tables.block_eq_ok.mpr hy, heq⟩

/-- A block lists the instructions that name it, under consecutive numbers if they stand together. -/
theorem insts_of_block (ht : t.Arranged) {b : BlockId} {x : Block} (hx : t.block b = .ok x)
    {xs ys zs : List Instruction} (hinsts : t.insts.toList = xs ++ ys ++ zs) (hxs : ∀ y ∈ xs, y.block ≠ b)
    (hys : ∀ y ∈ ys, y.block = b) (hzs : ∀ y ∈ zs, y.block ≠ b) : x.insts = instRange xs.length ys.length := by
  have hmiddle : t.insts.toList.map id = xs ++ ys ++ zs := by rw [List.map_id, hinsts]
  rw [ht.insts _ x hx, instRange]
  congr 1
  -- arranged tables list the places where the block is named
  refine positions_eq_range' id (fun y => y.block == b) hmiddle ?_ ?_ ?_
  · exact fun y hy => beq_eq_false_iff_ne.mpr (hxs y hy)
  · exact fun y hy => beq_iff_eq.mpr (hys y hy)
  · exact fun y hy => beq_eq_false_iff_ne.mpr (hzs y hy)

/-- **Step lemma**: one block. In the table of blocks it comes after `before`; its instructions `ys` come after
`xs`, which are in earlier blocks, and before `zs`, which are in later ones. -/
theorem describes_block (ht : t.Arranged) {bd : BlockDesc} {before after : List Block}
    {xs ys zs : List Instruction} (hblocks : t.entries.blocks = before ++ ⟨bd.label, f, []⟩ :: after)
    (hinsts : t.insts.toList = xs ++ ys ++ zs)
    (hys : List.Forall₂ (Placed.Is t) (bd.insts.map fun d => ⟨n, ⟨before.length⟩, d⟩) ys)
    (hxs : ∀ x ∈ xs, x.block.index < before.length) (hzs : ∀ z ∈ zs, before.length < z.block.index) :
    (do return (← t.block ⟨before.length⟩).insts) = .ok (instRange xs.length ys.length) ∧
      BlockDesc.Describes t f n bd ⟨before.length⟩ := by
  obtain ⟨x, hx, hhead⟩ := block_of_entries hblocks
  -- what the block lists are the places of its own instructions, and no others
  have hlisted : x.insts = instRange xs.length ys.length := by
    refine insts_of_block ht hx hinsts ?_ ?_ ?_
    · exact fun y hy heq => Nat.ne_of_lt (hxs y hy) (congrArg BlockId.index heq)
    · intro y hy
      obtain ⟨e, he, hblock⟩ := exists_placed_of_mem hys hy
      obtain ⟨d, -, rfl⟩ := List.mem_map.mp he
      exact hblock
    · exact fun y hy heq => Nat.ne_of_gt (hzs y hy) (congrArg BlockId.index heq)
  have hmeans : List.Forall₂ (fun d i => ∃ y, t.inst i = .ok y ∧ d.Means t n y) bd.insts x.insts := by
    rw [hlisted]
    refine (insts_of_forall₂ hinsts (List.forall₂_map_left_iff.mp hys)).imp ?_
    rintro d i ⟨y, hy, his⟩
    exact ⟨y, hy, his.means⟩
  refine ⟨?_, x, hx, ?_, ?_, hmeans⟩
  · rw [hx, ← hlisted]
    rfl
  · show x.head.label = bd.label
    rw [hhead]
  · show x.head.func = f
    rw [hhead]

/-- The blocks of one function, each after those before it. -/
theorem describes_blocks (ht : t.Arranged) {bds : List BlockDesc} {before after : List Block}
    {xs ys zs : List Instruction}
    (hblocks : t.entries.blocks = before ++ bds.map (fun bd => ⟨bd.label, f, []⟩) ++ after)
    (hinsts : t.insts.toList = xs ++ ys ++ zs)
    (hys : List.Forall₂ (Placed.Is t) (placeBlocks n before.length bds) ys)
    (hxs : ∀ x ∈ xs, x.block.index < before.length)
    (hzs : ∀ z ∈ zs, before.length + bds.length ≤ z.block.index) :
    List.Forall₂ (BlockDesc.Describes t f n) bds (blockRange before.length bds.length) ∧
      ∃ bodies, (blockRange before.length bds.length).mapM (fun b => do return (← t.block b).insts) = .ok bodies ∧
        bodies.flatten = instRange xs.length ys.length := by
  induction bds generalizing before xs ys with
  | nil =>
    cases hys
    exact ⟨.nil, [], rfl, rfl⟩
  | cons bd bds ih =>
    obtain ⟨ys₁, ys₂, rfl, hys₁, hys₂⟩ := forall₂_append_left hys
    rw [List.length_cons] at hzs
    -- the instructions split into those of the first block and those of later ones
    have hfirst : ∀ y ∈ ys₁, y.block.index = before.length := by
      intro y hy
      obtain ⟨e, he, hblock⟩ := exists_placed_of_mem hys₁ hy
      obtain ⟨d, -, rfl⟩ := List.mem_map.mp he
      rw [hblock]
    have hlater : ∀ y ∈ ys₂ ++ zs, before.length < y.block.index := by
      intro y hy
      rcases List.mem_append.mp hy with hy | hy
      · obtain ⟨e, he, hblock⟩ := exists_placed_of_mem hys₂ hy
        have hle := (block_of_mem_placeBlocks he).1
        rw [hblock]
        omega
      · have hle := hzs y hy
        omega
    obtain ⟨hlisted, hbd⟩ := describes_block ht (by simpa using hblocks) (by simpa using hinsts) hys₁ hxs hlater
    -- the rest comes after the first block and its instructions
    have hlength : (before ++ [Block.mk bd.label f []]).length = before.length + 1 := by simp
    have hblocks' : t.entries.blocks = (before ++ [Block.mk bd.label f []]) ++
        bds.map (fun bd => ⟨bd.label, f, []⟩) ++ after := by
      rw [hblocks]
      simp
    have hinsts' : t.insts.toList = (xs ++ ys₁) ++ ys₂ ++ zs := by
      rw [hinsts]
      simp
    have hearlier : ∀ y ∈ xs ++ ys₁, y.block.index < before.length + 1 := by
      intro y hy
      rcases List.mem_append.mp hy with hy | hy
      · exact Nat.lt_succ_of_lt (hxs y hy)
      · rw [hfirst y hy]
        exact Nat.lt_succ_self _
    have hzs' : ∀ z ∈ zs, before.length + 1 + bds.length ≤ z.block.index := by
      intro z hz
      have hle := hzs z hz
      omega
    have hrest := ih hblocks' hinsts' (by rw [hlength]; exact hys₂) (by rw [hlength]; exact hearlier)
      (by rw [hlength]; exact hzs')
    rw [hlength] at hrest
    obtain ⟨hdescribes, bodies, hbodies, hflatten⟩ := hrest
    rw [List.length_cons, blockRange_succ]
    -- what the blocks list, put together, is one run of numbers
    refine ⟨.cons hbd hdescribes, instRange xs.length ys₁.length :: bodies, ?_, ?_⟩
    · rw [List.mapM_cons, hlisted, hbodies]
      rfl
    · rw [List.flatten_cons, hflatten, List.length_append, List.length_append, instRange_append]

/-! ## Functions -/

/-- Instructions of later functions are placed in later blocks. -/
theorem block_of_mem_placeBodies {d : ProgramDesc} {next first start : Nat} {fds : List FunctionDesc} {e : Placed}
    (h : e ∈ d.placeBodies next first start fds) : first ≤ e.block.index := by
  induction fds generalizing next first start with
  | nil => cases h
  | cons fd fds ih =>
    rw [ProgramDesc.placeBodies, List.mem_append] at h
    rcases h with h | h
    · exact (block_of_mem_placeBlocks h).1
    · have hle := ih h
      omega

/-- Blocks are made for described functions only. -/
theorem func_of_mem_bodyHeads {next : Nat} {fds : List FunctionDesc} {x : Block} (h : x ∈ bodyHeads next fds) :
    next ≤ x.func.index ∧ x.func.index < next + fds.length := by
  induction fds generalizing next with
  | nil => cases h
  | cons fd fds ih =>
    rw [bodyHeads, List.mem_append] at h
    rw [List.length_cons]
    rcases h with h | h
    · obtain ⟨bd, -, rfl⟩ := List.mem_map.mp h
      exact ⟨Nat.le_refl _, by show next < _; omega⟩
    · have hrest := ih h
      omega

/-- A function of a table, found in the list of headers. -/
theorem function_of_entries {before after : List Function} {g : Function}
    (h : t.entries.functions = before ++ g :: after) :
    ∃ g', t.function ⟨before.length⟩ = .ok g' ∧ g'.header = g := by
  have hget : (t.functions.toList.map Function.header)[before.length]? = some g := by
    rw [show t.functions.toList.map Function.header = before ++ g :: after from h]
    simp
  obtain ⟨g', hg', heq⟩ : ∃ g', t.functions[before.length]? = some g' ∧ g'.header = g := by simpa using hget
  exact ⟨g', Tables.function_eq_ok.mpr hg', heq⟩

/-- A function lists the blocks that name it, under consecutive numbers if they stand together. -/
theorem blocks_of_function (ht : t.Arranged) {g : Function} (hg : t.function f = .ok g)
    {before among after : List Block} (hblocks : t.entries.blocks = before ++ among ++ after)
    (hbefore : ∀ x ∈ before, x.func ≠ f) (hamong : ∀ x ∈ among, x.func = f) (hafter : ∀ x ∈ after, x.func ≠ f) :
    g.blocks = blockRange before.length among.length := by
  rw [ht.blocks _ g hg, blockRange]
  congr 1
  -- the heads of blocks name the same functions as the blocks themselves
  refine positions_eq_range' Block.head (fun x => x.func == f) hblocks ?_ ?_ ?_
  · exact fun x hx => beq_eq_false_iff_ne.mpr (hbefore x hx)
  · exact fun x hx => beq_iff_eq.mpr (hamong x hx)
  · exact fun x hx => beq_eq_false_iff_ne.mpr (hafter x hx)

/-- One function, after those that have the headers `done`, the blocks `before` and the instructions `xs`. -/
theorem describes_function {d : ProgramDesc} (ht : t.Arranged) {fd : FunctionDesc} {g : Function}
    {done rest : List Function} {before after : List Block} {xs ys zs : List Instruction}
    (hfunctions : t.entries.functions = done ++ g :: rest) (hheader : fd.DescribesHeader t g)
    (hblocks : t.entries.blocks = before ++ fd.blocks.map (fun bd => ⟨bd.label, ⟨done.length⟩, []⟩) ++ after)
    (hinsts : t.insts.toList = xs ++ ys ++ zs)
    (hys : List.Forall₂ (Placed.Is t) (placeBlocks (d.naming ⟨done.length⟩ fd
      (blockRange before.length fd.blocks.length) (instRange xs.length fd.insts.length)) before.length fd.blocks) ys)
    (hbefore : ∀ x ∈ before, x.func.index < done.length) (hafter : ∀ x ∈ after, done.length < x.func.index)
    (hxs : ∀ x ∈ xs, x.block.index < before.length)
    (hzs : ∀ z ∈ zs, before.length + fd.blocks.length ≤ z.block.index) :
    ∃ g', fd.Describes d t ⟨done.length⟩ g' (instRange xs.length fd.insts.length) := by
  obtain ⟨hdescribes, bodies, hbodies, hflatten⟩ := describes_blocks ht hblocks hinsts hys hxs hzs
  rw [← hys.length_eq, length_placeBlocks] at hflatten
  obtain ⟨g', hg', heq⟩ := function_of_entries hfunctions
  have hlisted : g'.blocks = blockRange before.length fd.blocks.length := by
    rw [← List.length_map (f := fun bd : BlockDesc => Block.mk bd.label ⟨done.length⟩ [])]
    refine blocks_of_function ht hg' hblocks ?_ ?_ ?_
    · exact fun x hx hfunc => Nat.ne_of_lt (hbefore x hx) (congrArg FunctionId.index hfunc)
    · intro x hx
      obtain ⟨bd, -, rfl⟩ := List.mem_map.mp hx
      rfl
    · exact fun x hx hfunc => Nat.ne_of_gt (hafter x hx) (congrArg FunctionId.index hfunc)
  -- the function found has the header that was added, and the blocks that were added for it
  have hheader' : fd.DescribesHeader t g'.header := heq ▸ hheader
  refine ⟨g', hg', ?_, hheader'.name, hheader'.params, hheader'.ret, ?_⟩
  · rw [Tables.instsOf, hg', ok_bind, hlisted, hbodies, FunctionDesc.insts, ← hflatten]
    rfl
  · rw [hlisted]
    exact hdescribes

/-- **Run lemma**: all functions, each after those before it. -/
theorem describes_functions {d : ProgramDesc} (ht : t.Arranged) {fds : List FunctionDesc}
    {done gs decls : List Function} {before : List Block} {xs ys : List Instruction}
    (hfunctions : t.entries.functions = done ++ gs ++ decls)
    (hheaders : List.Forall₂ (FunctionDesc.DescribesHeader t) fds gs)
    (hblocks : t.entries.blocks = before ++ bodyHeads done.length fds)
    (hinsts : t.insts.toList = xs ++ ys)
    (hys : List.Forall₂ (Placed.Is t) (d.placeBodies done.length before.length xs.length fds) ys)
    (hbefore : ∀ x ∈ before, x.func.index < done.length)
    (hxs : ∀ x ∈ xs, x.block.index < before.length) :
    List.Forall₂ (fun fd k => ∃ g is, fd.Describes d t ⟨k⟩ g is) fds (List.range' done.length fds.length) ∧
      ∃ bodies, (List.range' done.length fds.length).mapM (fun k => t.instsOf ⟨k⟩) = .ok bodies ∧
        bodies.flatten = instRange xs.length ys.length := by
  induction fds generalizing done gs before xs ys with
  | nil =>
    cases hys
    exact ⟨.nil, [], rfl, rfl⟩
  | cons fd fds ih =>
    obtain _ | @⟨_, g, _, gs, hheader, hheaders⟩ := hheaders
    obtain ⟨ys₁, ys₂, rfl, hys₁, hys₂⟩ := forall₂_append_left hys
    have hlength : ys₁.length = fd.insts.length := by
      rw [← hys₁.length_eq, length_placeBlocks]
      rfl
    have hbody : t.entries.blocks = before ++ fd.blocks.map (fun bd => ⟨bd.label, ⟨done.length⟩, []⟩) ++
        bodyHeads (done.length + 1) fds := by
      rw [hblocks, bodyHeads, List.append_assoc]
    -- what later functions add stands in later blocks
    have hlater : ∀ z ∈ ys₂, before.length + fd.blocks.length ≤ z.block.index := by
      intro z hz
      obtain ⟨e, he, hblock⟩ := exists_placed_of_mem hys₂ hz
      rw [hblock]
      exact block_of_mem_placeBodies he
    have hinsts₁ : t.insts.toList = xs ++ ys₁ ++ ys₂ := by rw [hinsts, List.append_assoc]
    obtain ⟨g', hfd⟩ := describes_function ht (by simpa using hfunctions) hheader hbody hinsts₁ hys₁ hbefore
      (fun x hx => (func_of_mem_bodyHeads hx).1) hxs hlater
    -- the others, after the first one
    -- the induction goes on with one more function done, its blocks and its instructions
    have hdone : (done ++ [g]).length = done.length + 1 := by simp
    have hfunctions' : t.entries.functions = (done ++ [g]) ++ gs ++ decls := by
      rw [hfunctions]
      simp
    have hheads : (before ++ fd.blocks.map fun bd => Block.mk bd.label ⟨done.length⟩ []).length =
        before.length + fd.blocks.length := by
      simp
    have hxs' : (xs ++ ys₁).length = xs.length + fd.insts.length := by rw [List.length_append, hlength]
    have hrest := ih hfunctions' hheaders (by rw [hdone]; exact hbody) hinsts₁
      (by rw [hdone, hheads, hxs']; exact hys₂) ?_ ?_
    · rw [hdone, hxs'] at hrest
      obtain ⟨hothers, bodies', hbodies', hflatten'⟩ := hrest
      rw [List.length_cons, List.range'_succ]
      refine ⟨.cons ⟨g', _, hfd⟩ hothers, instRange xs.length fd.insts.length :: bodies', ?_, ?_⟩
      · rw [List.mapM_cons, hfd.insts, hbodies']
        rfl
      · rw [List.flatten_cons, hflatten', instRange_append, List.length_append, hlength]
    · intro x hx
      rw [hdone]
      rcases List.mem_append.mp hx with hx | hx
      · exact Nat.lt_succ_of_lt (hbefore x hx)
      · obtain ⟨bd, -, rfl⟩ := List.mem_map.mp hx
        exact Nat.lt_succ_self _
    · intro x hx
      rw [hheads]
      rcases List.mem_append.mp hx with hx | hx
      · have hlt := hxs x hx
        omega
      · obtain ⟨e, he, hblock⟩ := exists_placed_of_mem hys₁ hx
        rw [hblock]
        exact (block_of_mem_placeBlocks he).2

/-! ## Whole programs -/

/-- The calls among the placed instructions of a body are those described in it. -/
theorem flatMap_calls_placeBlocks (n : Naming) (first : Nat) (bds : List BlockDesc) :
    ((placeBlocks n first bds).flatMap fun e => e.desc.calls) =
      (bds.flatMap BlockDesc.insts).flatMap InstDesc.calls := by
  induction bds generalizing first with
  | nil => rfl
  | cons bd bds ih =>
    rw [placeBlocks, List.flatMap_append, ih, List.flatMap_map, List.flatMap_cons, List.flatMap_append]

/-- The calls among all placed instructions are those described, in order. -/
theorem flatMap_calls_placeBodies (d : ProgramDesc) (next first start : Nat) (fds : List FunctionDesc) :
    ((d.placeBodies next first start fds).flatMap fun e => e.desc.calls) =
      fds.flatMap fun fd => fd.insts.flatMap InstDesc.calls := by
  induction fds generalizing next first start with
  | nil => rfl
  | cons fd fds ih =>
    rw [ProgramDesc.placeBodies, List.flatMap_append, flatMap_calls_placeBlocks, ih, List.flatMap_cons]
    rfl

/-- Functions that no block names are only declared. -/
theorem map_header_drop (ht : t.Arranged) {count : Nat} (hnone : ∀ x ∈ t.entries.blocks, x.func.index < count) :
    (t.functions.toList.drop count).map Function.header = t.functions.toList.drop count := by
  conv_rhs => rw [← List.map_id (t.functions.toList.drop count)]
  apply List.map_congr_left
  intro g hg
  obtain ⟨k, hk⟩ := List.mem_iff_getElem?.mp hg
  rw [List.getElem?_drop, Array.getElem?_toList] at hk
  -- such a function lists no block, so its header is all of it
  have hblocks := ht.blocks ⟨count + k⟩ g (Tables.function_eq_ok.mpr hk)
  rw [positions_eq_nil, List.map_nil] at hblocks
  · rw [Function.header, ← hblocks, id]
  · intro x hx
    have hlt : x.func.index < count := hnone x.head (List.mem_map_of_mem (Array.mem_toList_iff.mpr hx))
    rw [beq_eq_false_iff_ne]
    intro hfunc
    rw [hfunc] at hlt
    exact Nat.not_lt_of_le (Nat.le_add_right _ _) hlt

/-- **The loader builds what is described.** Each stage is put after the one before it, so that all entries of the
tables are known in order; the numbers handed out beforehand are then seen to be right. -/
theorem faithful_of_elaborateBuilder {d : ProgramDesc} {b : Builder} (h : elaborateBuilder d = .ok b) :
    Faithful d b.tables := by
  have ht := (elaborateBuilder_sound h).arranged
  obtain ⟨⟨records, b₁⟩, hdeclare, h⟩ := bind_eq_ok.mp h
  obtain ⟨b₂, hdefine, h⟩ := bind_eq_ok.mp h
  obtain ⟨s₁, hglobals, h⟩ := bind_eq_ok.mp h
  obtain ⟨s₂, hheaders, h⟩ := bind_eq_ok.mp h
  obtain ⟨s₃, hbodies, h⟩ := bind_eq_ok.mp h
  cases h
  obtain ⟨hs₀, hempty⟩ := knows_records hdeclare hdefine
  obtain ⟨hs₁, hlookup, gs, hadds₁, hgs⟩ := addGlobals_known hs₀ hempty hglobals
  obtain ⟨hs₂, hsame, hs, hadds₂, hdescribes⟩ := addHeaders_describe hs₁ hheaders
  have hknown : s₂.KnowsGlobals d := hlookup.of_eq hsame
  obtain @⟨decls, xs, hadds₃, hdeclared, hplaced, -, -⟩ := addBodies_elaborate hs₂ hknown hbodies
  -- no block and no instruction is added before the bodies, so the numbers start at zero
  have hblocks₀ : s₂.builder.tables.blocks.size = 0 := by
    have hlength := congrArg (fun e => e.blocks.length) hempty
    rw [hadds₂.size_blocks, hadds₁.size_blocks]
    simpa [Tables.entries] using hlength
  have hinsts₀ : s₂.builder.tables.insts.size = 0 := by
    have hlength := congrArg (fun e => e.insts.length) hempty
    rw [hadds₂.size_insts, hadds₁.size_insts]
    simpa [Tables.entries] using hlength
  rw [hblocks₀, hinsts₀] at hplaced hdeclared
  -- all entries of the tables, in order
  have hentries := hadds₃.entries
  rw [hadds₂.entries, hadds₁.entries, hempty] at hentries
  have hglobals : s₃.builder.tables.globals.toList = gs := by
    simpa [Tables.entries] using congrArg Entries.globals hentries
  have hfunctions : s₃.builder.tables.entries.functions = [] ++ hs ++ decls := by simp [hentries]
  have hblocks : s₃.builder.tables.entries.blocks = [] ++ bodyHeads 0 d.functions := by simp [hentries]
  have hinsts : s₃.builder.tables.insts.toList = [] ++ xs := congrArg Entries.insts hentries
  have hdescribes₃ := hdescribes.imp fun _ _ hfd => hfd.mono hadds₃
  obtain ⟨hdescribed, bodies, hbodies, hflatten⟩ := describes_functions ht hfunctions hdescribes₃ hblocks hinsts
    hplaced (by simp) (by simp)
  refine ⟨?_, fun k fd hfd => ?_, ⟨bodies, ?_, ?_⟩, ?_⟩
  · rw [hglobals]
    exact hgs.imp fun _ _ hgd => (hgd.mono hadds₂).mono hadds₃
  · obtain ⟨hk, rfl⟩ := List.getElem?_eq_some_iff.mp hfd
    have hget := hdescribed.get hk (by simpa using hk)
    simpa using hget
  · rw [List.range_eq_range']
    exact hbodies
  · have hsize : s₃.builder.tables.insts.size = xs.length := by
      rw [← Array.length_toList, hinsts, List.nil_append]
    rw [hflatten, Tables.instIds, hsize, List.range_eq_range']
    rfl
  · -- when the bodies begin, the described functions are known and no others
    have hnames : s₂.builder.tables.functionNames = d.functions.map FunctionDesc.name := by
      rw [hadds₂.functionNames, hadds₁.functionNames, Tables.functionNames, hempty]
      exact (map_eq_map_of_forall₂ hdescribes fun _ _ hfd => hfd.name.symm).symm
    have hcount : hs.length = d.functions.length := hdescribes.length_eq.symm
    -- what comes behind the described functions was declared for calls
    have hdrop : s₃.builder.tables.functions.toList.drop d.functions.length = decls := by
      rw [← map_header_drop ht ?_, List.map_drop]
      · rw [show s₃.builder.tables.functions.toList.map Function.header = _ from hfunctions, ← hcount]
        simp
      · intro x hx
        rw [hblocks] at hx
        simpa using (func_of_mem_bodyHeads hx).2
    rw [hnames, flatMap_calls_placeBodies] at hdeclared
    rw [hdrop]
    exact hdeclared

end Relock.Description
