import Mathlib.Data.List.Nodup
import Relock.Proofs.Program.InRange

/-!
# How instructions are arranged in blocks and functions

An instruction names its block and a block lists its instructions, and the same holds one level up. In
an arranged program the two agree: a block lists exactly the instructions that name it, in the order of
the table, and a function lists exactly the blocks that name it.

* `positions`: the entries of a table that pass a test;
* `Tables.Arranged`: the lists are those that the tables determine;
* `Tables.Arranged.mem_insts`, `Tables.Arranged.mem_blocks`: who is listed;
* `Tables.Arranged.exists_instsOf`: the instructions of a function are those that belong to it, each once.
-/

namespace Relock

/-! ## Positions in a table -/

/-- The indices of the entries that pass a test, in order. -/
def positions {α : Type} (xs : Array α) (test : α → Bool) : List Nat :=
  (List.range xs.size).filter fun n => (xs[n]?).any test

section Positions

variable {α : Type} {xs : Array α} {test : α → Bool}

/-- A position is that of an entry that passes. -/
theorem mem_positions {n : Nat} : n ∈ positions xs test ↔ ∃ x, xs[n]? = some x ∧ test x = true := by
  rw [positions, List.mem_filter, List.mem_range, Option.any_eq_true]
  constructor
  · exact And.right
  · rintro ⟨x, hx, htest⟩
    exact ⟨(Array.getElem?_eq_some_iff.mp hx).1, x, hx, htest⟩

/-- Positions stand in order, so none is listed twice. -/
theorem positions_pairwise (xs : Array α) (test : α → Bool) : (positions xs test).Pairwise (· < ·) :=
  List.pairwise_lt_range.filter _

/-- Nothing passes a test that fails on every entry. -/
theorem positions_eq_nil (h : ∀ x ∈ xs, test x = false) : positions xs test = [] := by
  rw [List.eq_nil_iff_forall_not_mem]
  intro n hn
  obtain ⟨x, hx, htest⟩ := mem_positions.mp hn
  rw [h x (Array.mem_of_getElem? hx)] at htest
  cases htest

/-- A new entry comes after all others. -/
theorem positions_push (x : α) :
    positions (xs.push x) test = positions xs test ++ if test x then [xs.size] else [] := by
  -- the entries before it are looked up as before
  have hold : (List.range xs.size).filter (fun n => ((xs.push x)[n]?).any test) = positions xs test := by
    apply List.filter_congr
    intro n hn
    have hne : n ≠ xs.size := Nat.ne_of_lt (List.mem_range.mp hn)
    rw [Array.getElem?_push, if_neg hne]
  unfold positions at hold ⊢
  rw [Array.size_push, List.range_succ, List.filter_append, hold, List.filter_singleton,
    Array.getElem?_push_size, Option.any_some, Bool.cond_eq_ite]

/-- If the entries that pass stand together, so do their positions. -/
theorem positions_eq_range' {β : Type} (view : α → β) (test : β → Bool) {before among after : List β}
    (h : xs.toList.map view = before ++ among ++ after) (hbefore : ∀ x ∈ before, test x = false)
    (hamong : ∀ x ∈ among, test x = true) (hafter : ∀ x ∈ after, test x = false) :
    positions xs (fun x => test (view x)) = List.range' before.length among.length := by
  -- the three parts fill the table
  have hsize : xs.size = before.length + among.length + after.length := by
    have hlength := congrArg List.length h
    simp only [List.length_map, Array.length_toList, List.length_append] at hlength
    exact hlength
  have hany (n : Nat) : (xs[n]?).any (fun x => test (view x)) = ((before ++ among ++ after)[n]?).any test := by
    rw [← h, List.getElem?_map, Array.getElem?_toList, Option.any_map]
  have hsplit : List.range xs.size = List.range' 0 before.length ++
      List.range' before.length among.length ++ List.range' (before.length + among.length) after.length := by
    rw [hsize, List.range_eq_range', ← List.range'_append, ← List.range'_append]
    simp
  have hnone {part : List β} (hpart : ∀ x ∈ part, test x = false) (n : Nat) : (part[n]?).any test = false := by
    cases hx : part[n]? with
    | none => rfl
    | some x => exact hpart x (List.mem_of_getElem? hx)
  -- of the three parts of the table only the one in the middle passes
  unfold positions
  rw [hsplit, List.filter_append, List.filter_append, List.filter_eq_nil_iff.mpr ?_,
    List.filter_eq_self.mpr ?_, List.filter_eq_nil_iff.mpr ?_, List.nil_append, List.append_nil]
  · intro n hn
    rw [List.mem_range'_1] at hn
    rw [hany, List.getElem?_append_right (by rw [List.length_append]; omega), hnone hafter]
    simp
  · intro n hn
    rw [List.mem_range'_1] at hn
    rw [hany, List.getElem?_append_left (by rw [List.length_append]; omega),
      List.getElem?_append_right (by omega), List.getElem?_eq_getElem (by omega)]
    exact hamong _ (List.getElem_mem _)
  · intro n hn
    rw [List.mem_range'_1] at hn
    rw [hany, List.getElem?_append_left (by rw [List.length_append]; omega),
      List.getElem?_append_left (by omega), hnone hbefore]
    simp

/-- A change of an entry that the test does not see. -/
theorem positions_modify {k : Nat} {f : α → α} (h : ∀ x, test (f x) = test x) :
    positions (xs.modify k f) test = positions xs test := by
  unfold positions
  rw [Array.size_modify]
  apply List.filter_congr
  intro n _
  rw [Array.getElem?_modify]
  -- only the entry that is changed needs an argument
  split
  · cases xs[n]? with
    | none => rfl
    | some x => exact h x
  · rfl

/-- What a change of one entry keeps true of it stays true of all. -/
theorem forall_mem_modify {P : α → Prop} {k : Nat} {f : α → α} (h : ∀ x ∈ xs, P x)
    (hf : ∀ x, P x → P (f x)) : ∀ x ∈ xs.modify k f, P x := by
  intro x hx
  obtain ⟨n, hn⟩ := Array.mem_iff_getElem?.mp hx
  rw [Array.getElem?_modify] at hn
  split at hn
  · obtain ⟨y, hy, rfl⟩ := Option.map_eq_some_iff.mp hn
    exact hf y (h y (Array.mem_of_getElem? hy))
  · exact h x (Array.mem_of_getElem? hn)

end Positions

/-! ## Arranged programs -/

/-- Blocks list the instructions that name them, and functions the blocks that name them. -/
structure Tables.Arranged (t : Tables) : Prop where
  insts : ∀ b x, t.block b = .ok x → x.insts = (positions t.insts (·.block == b)).map InstId.mk
  blocks : ∀ f g, t.function f = .ok g → g.blocks = (positions t.blocks (·.func == f)).map BlockId.mk
  parents : ∀ x ∈ t.insts, x.block.index < t.blocks.size
  owners : ∀ x ∈ t.blocks, x.func.index < t.functions.size

namespace Tables

variable {t : Tables}

theorem lt_of_block {b : BlockId} {x : Block} (h : t.block b = .ok x) : b.index < t.blocks.size :=
  (Array.getElem?_eq_some_iff.mp (block_eq_ok.mp h)).1

theorem mem_blockIds {b : BlockId} : b ∈ t.blockIds ↔ b.index < t.blocks.size := by
  rw [blockIds, List.mem_map]
  constructor
  · rintro ⟨n, hn, rfl⟩
    exact List.mem_range.mp hn
  · intro hb
    exact ⟨b.index, List.mem_range.mpr hb, rfl⟩

theorem blockIds_nodup (t : Tables) : t.blockIds.Nodup := by
  rw [blockIds, List.Nodup, List.pairwise_map]
  exact List.nodup_range.imp fun hne heq => hne (congrArg BlockId.index heq)

/-- Each function with a body is listed once. -/
theorem bodies_nodup (t : Tables) : t.bodies.Nodup := by
  refine List.Nodup.filter _ ?_
  rw [functionIds, List.Nodup, List.pairwise_map]
  exact List.nodup_range.imp fun hne heq => hne (congrArg FunctionId.index heq)

namespace Arranged

variable (ht : t.Arranged)

include ht

/-! ## Blocks -/

/-- A block lists exactly the instructions that name it. -/
theorem mem_insts {b : BlockId} {x : Block} (hb : t.block b = .ok x) {i : InstId} :
    i ∈ x.insts ↔ ∃ y, t.inst i = .ok y ∧ y.block = b := by
  simp only [ht.insts b x hb, List.mem_map, mem_positions, inst_eq_ok, beq_iff_eq]
  constructor
  · rintro ⟨n, hn, rfl⟩
    exact hn
  · intro hi
    exact ⟨i.index, hi, rfl⟩

/-- A block lists its instructions in the order of the table. -/
theorem insts_pairwise {b : BlockId} {x : Block} (hb : t.block b = .ok x) :
    x.insts.Pairwise fun i j => i.index < j.index := by
  rw [ht.insts b x hb, List.pairwise_map]
  exact positions_pairwise _ _

/-- A block lists no instruction twice. -/
theorem insts_nodup {b : BlockId} {x : Block} (hb : t.block b = .ok x) : x.insts.Nodup :=
  (ht.insts_pairwise hb).imp fun hlt heq => Nat.ne_of_lt hlt (congrArg InstId.index heq)

/-- Every instruction is listed by the block that it names. -/
theorem exists_block {i : InstId} {y : Instruction} (hi : t.inst i = .ok y) :
    ∃ x, t.block y.block = .ok x ∧ i ∈ x.insts := by
  obtain ⟨x, -, hx⟩ := @exists_lookUp _ .blocks _ _ (ht.parents y (mem_of_inst hi))
  exact ⟨x, hx, (ht.mem_insts hx).mpr ⟨y, hi, rfl⟩⟩

/-- No instruction is listed by two blocks. -/
theorem block_unique {b c : BlockId} {x y : Block} {i : InstId} (hb : t.block b = .ok x)
    (hc : t.block c = .ok y) (hx : i ∈ x.insts) (hy : i ∈ y.insts) : b = c := by
  obtain ⟨z, hz, rfl⟩ := (ht.mem_insts hb).mp hx
  obtain ⟨z', hz', rfl⟩ := (ht.mem_insts hc).mp hy
  rw [hz] at hz'
  cases hz'
  rfl

/-! ## Functions -/

/-- A function lists exactly the blocks that name it. -/
theorem mem_blocks {f : FunctionId} {g : Function} (hf : t.function f = .ok g) {b : BlockId} :
    b ∈ g.blocks ↔ ∃ x, t.block b = .ok x ∧ x.func = f := by
  simp only [ht.blocks f g hf, List.mem_map, mem_positions, block_eq_ok, beq_iff_eq]
  constructor
  · rintro ⟨n, hn, rfl⟩
    exact hn
  · intro hb
    exact ⟨b.index, hb, rfl⟩

/-- A function lists its blocks in the order of the table. -/
theorem blocks_pairwise {f : FunctionId} {g : Function} (hf : t.function f = .ok g) :
    g.blocks.Pairwise fun b c => b.index < c.index := by
  rw [ht.blocks f g hf, List.pairwise_map]
  exact positions_pairwise _ _

theorem blocks_nodup {f : FunctionId} {g : Function} (hf : t.function f = .ok g) : g.blocks.Nodup :=
  (ht.blocks_pairwise hf).imp fun hlt heq => Nat.ne_of_lt hlt (congrArg BlockId.index heq)

/-- **The body of a function.** Its instructions can be listed; they are exactly those that belong to it, each
listed once. -/
theorem exists_instsOf {f : FunctionId} {g : Function} (hf : t.function f = .ok g) :
    ∃ is, t.instsOf f = .ok is ∧ is.Nodup ∧ ∀ i, i ∈ is ↔ t.functionOf i = .ok f := by
  -- the blocks that a function lists exist, so their instructions can be looked up
  have hfound : ∀ b ∈ g.blocks, ∃ is, (do return (← t.block b).insts) = .ok is := by
    intro b hb
    obtain ⟨x, hx, -⟩ := (ht.mem_blocks hf).mp hb
    exact ⟨x.insts, bind_eq_ok.mpr ⟨x, hx, rfl⟩⟩
  obtain ⟨bodies, hbodies⟩ := exists_mapM_ok hfound
  -- the lists that make up the body, each with its block
  have hbody {is : List InstId} (his : is ∈ bodies) :
      ∃ b ∈ g.blocks, ∃ x, t.block b = .ok x ∧ x.insts = is := by
    obtain ⟨b, hb, h⟩ := (mem_of_mapM hbodies).mp his
    obtain ⟨x, hx, h⟩ := bind_eq_ok.mp h
    exact ⟨b, hb, x, hx, pure_eq_ok.mp h⟩
  refine ⟨bodies.flatten, bind_eq_ok.mpr ⟨g, hf, bind_eq_ok.mpr ⟨bodies, hbodies, rfl⟩⟩, ?_, ?_⟩
  · -- no repetition within a block, and none between blocks
    rw [List.nodup_flatten]
    constructor
    · intro is his
      obtain ⟨b, -, x, hx, rfl⟩ := hbody his
      exact ht.insts_nodup hx
    · -- different blocks share no instruction
      refine pairwise_of_mapM hbodies (ht.blocks_nodup hf) ?_
      intro b c is js his hjs hbc i hi hj
      obtain ⟨x, hx, rfl⟩ := map_eq_ok.mp his
      obtain ⟨y, hy, rfl⟩ := map_eq_ok.mp hjs
      exact hbc (ht.block_unique hx hy hi hj)
  · intro i
    rw [List.mem_flatten, functionOf_eq_ok]
    constructor
    · rintro ⟨is, his, hi⟩
      obtain ⟨b, hb, x, hx, rfl⟩ := hbody his
      obtain ⟨y, hy, rfl⟩ := (ht.mem_insts hx).mp hi
      obtain ⟨x', hx', hfunc⟩ := (ht.mem_blocks hf).mp hb
      exact ⟨y, x', hy, hx', hfunc⟩
    · -- the instruction is listed by its block, and the block by its function
      rintro ⟨y, x, hy, hx, hfunc⟩
      have hb : y.block ∈ g.blocks := (ht.mem_blocks hf).mpr ⟨x, hx, hfunc⟩
      refine ⟨x.insts, (mem_of_mapM hbodies).mpr ⟨y.block, hb, bind_eq_ok.mpr ⟨x, hx, rfl⟩⟩, ?_⟩
      exact (ht.mem_insts hx).mpr ⟨y, hy, rfl⟩

/-- Whenever the instructions of a function are listed, these are the ones. -/
theorem of_instsOf {f : FunctionId} {is : List InstId} (h : t.instsOf f = .ok is) :
    is.Nodup ∧ ∀ i, i ∈ is ↔ t.functionOf i = .ok f := by
  obtain ⟨g, hg, -⟩ := bind_eq_ok.mp h
  obtain ⟨is', his', hspec⟩ := ht.exists_instsOf hg
  rw [h] at his'
  cases his'
  exact hspec

end Arranged

end Tables

end Relock
