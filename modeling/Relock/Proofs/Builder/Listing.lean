import Relock.Proofs.Builder.Arrangement
import Relock.Proofs.Grouping
import Relock.Proofs.Program.DefUse

/-!
# Everything is listed once

A block is written down twice, with its function in the table of blocks and in the list of blocks of that
function, and so is an instruction. In an arranged program the lists are cut out of the tables by what their
entries name, so that all lists of one kind together are the table again.

* `flatMap_positions_perm`, `flatMap_lists_perm`: the entries of a table, one owner after the other;
* `Tables.ListsOnce`: blocks and instructions are listed once, where they belong;
* `Tables.Arranged.listsOnce`: so it is in arranged programs;
* `Builder.built_lists_once`: so it is in programs that were built.
-/

namespace Relock

/-! ## Owners -/

section Owners

variable {α β γ κ : Type} [BEq κ] [LawfulBEq κ] {xs : Array α} {owners : Array γ}

/-- Taken owner by owner, the positions in a table are all positions, each once. -/
theorem flatMap_positions_perm {key : α → κ} {ks : List κ} (hks : ks.Nodup) (h : ∀ x ∈ xs, key x ∈ ks) :
    (ks.flatMap fun k => positions xs fun x => key x == k).Perm (List.range xs.size) := by
  -- the owner of a position is the owner of the entry there
  have hkeys : (ks.map some).Nodup := hks.map (Option.some_injective κ)
  have hall : ∀ n ∈ List.range xs.size, (xs[n]?).map key ∈ ks.map some := by
    intro n hn
    rw [Array.getElem?_eq_getElem (List.mem_range.mp hn), Option.map_some]
    exact List.mem_map_of_mem (h _ (Array.getElem_mem _))
  have hperm := flatMap_filter_perm (fun n => (xs[n]?).map key) hkeys hall
  rw [List.flatMap_map] at hperm
  refine List.Perm.trans (List.Perm.of_eq ?_) hperm
  refine List.flatMap_congr fun k _ => List.filter_congr fun n _ => ?_
  cases xs[n]? with
  | none => rfl
  | some x => rfl

/-- If every owner lists the entries that name it, the lists of all owners have every entry once. -/
theorem flatMap_lists_perm (key : α → κ) (owner : Nat → κ) {lists : γ → List β} {item : Nat → β}
    (howner : Function.Injective owner) (hkeys : ∀ x ∈ xs, ∃ n < owners.size, owner n = key x)
    (hlists : ∀ n g, owners[n]? = some g → lists g = (positions xs fun x => key x == owner n).map item) :
    (owners.toList.flatMap lists).Perm ((List.range xs.size).map item) := by
  have hnodup : ((List.range owners.size).map owner).Nodup := List.nodup_range.map howner
  have hmem : ∀ x ∈ xs, key x ∈ (List.range owners.size).map owner := by
    intro x hx
    obtain ⟨n, hn, heq⟩ := hkeys x hx
    exact List.mem_map.mpr ⟨n, List.mem_range.mpr hn, heq⟩
  -- the positions of all owners are all positions; each list is the entries at its own
  have hperm := (flatMap_positions_perm hnodup hmem).map item
  refine List.Perm.trans (List.Perm.of_eq ?_) hperm
  rw [List.flatMap_map, List.map_flatMap, List.flatMap_def, List.flatMap_def]
  congr 1
  -- owner by owner
  apply List.ext_getElem?
  intro n
  rw [List.getElem?_map, List.getElem?_map, Array.getElem?_toList]
  by_cases hn : n < owners.size
  · have hg : owners[n]? = some owners[n] := Array.getElem?_eq_getElem hn
    rw [hg, List.getElem?_range hn, Option.map_some, Option.map_some, hlists n _ hg]
  · rw [Array.getElem?_eq_none (Nat.le_of_not_lt hn), List.getElem?_eq_none (by simpa using hn)]
    rfl

end Owners

/-! ## Arranged programs -/

/-- Each block is in one list of blocks, which is that of its function, and each instruction in one list of
instructions, which is that of its block. The lists are in the order of the tables. -/
structure Tables.ListsOnce (t : Tables) : Prop where
  blocks : ∀ b, (t.functions.toList.flatMap Function.blocks).count b = if b.index < t.blocks.size then 1 else 0
  owners : ∀ b x, t.block b = .ok x → ∃ g, t.function x.func = .ok g ∧ b ∈ g.blocks
  insts : ∀ i, (t.blocks.toList.flatMap Block.insts).count i = if i.index < t.insts.size then 1 else 0
  parents : ∀ i y, t.inst i = .ok y → ∃ x, t.block y.block = .ok x ∧ i ∈ x.insts
  blocksOrdered : ∀ g ∈ t.functions, g.blocks.Pairwise fun b c => b.index < c.index
  instsOrdered : ∀ x ∈ t.blocks, x.insts.Pairwise fun i j => i.index < j.index

namespace Tables

variable {t : Tables}

/-- No instruction is in its table twice. -/
theorem instIds_nodup (t : Tables) : t.instIds.Nodup :=
  t.instIds_pairwise.imp fun hlt heq => Nat.ne_of_lt hlt (congrArg InstId.index heq)

namespace Arranged

variable (ht : t.Arranged)

include ht

/-- The lists of all functions together have every block. -/
theorem flatMap_blocks_perm : (t.functions.toList.flatMap Function.blocks).Perm t.blockIds := by
  refine flatMap_lists_perm Block.func FunctionId.mk (fun _ _ => FunctionId.mk.inj) (fun x hx => ?_) fun n g hg => ?_
  · exact ⟨x.func.index, ht.owners x hx, rfl⟩
  · exact ht.blocks ⟨n⟩ g (function_eq_ok.mpr hg)

/-- The lists of all blocks together have every instruction. -/
theorem flatMap_insts_perm : (t.blocks.toList.flatMap Block.insts).Perm t.instIds := by
  refine flatMap_lists_perm Instruction.block BlockId.mk (fun _ _ => BlockId.mk.inj) (fun x hx => ?_) fun n x hx => ?_
  · exact ⟨x.block.index, ht.parents x hx, rfl⟩
  · exact ht.insts ⟨n⟩ x (block_eq_ok.mpr hx)

/-- The function that a block names lists it. -/
theorem exists_function {b : BlockId} {x : Block} (hb : t.block b = .ok x) :
    ∃ g, t.function x.func = .ok g ∧ b ∈ g.blocks := by
  have hlt := ht.owners x (Array.mem_of_getElem? (block_eq_ok.mp hb))
  obtain ⟨g, -, hg⟩ := @exists_lookUp _ .functions _ _ hlt
  exact ⟨g, hg, (ht.mem_blocks hg).mpr ⟨x, hb, rfl⟩⟩

/-- **In arranged tables everything is listed once**, where it belongs. -/
theorem listsOnce : t.ListsOnce where
  blocks b := by
    rw [ht.flatMap_blocks_perm.count_eq, t.blockIds_nodup.count]
    simp only [mem_blockIds]
  owners b x hb := ht.exists_function hb
  insts i := by
    rw [ht.flatMap_insts_perm.count_eq, t.instIds_nodup.count]
    simp only [mem_instIds]
  parents i y hi := ht.exists_block hi
  blocksOrdered g hg := by
    obtain ⟨n, hn⟩ := Array.mem_iff_getElem?.mp hg
    exact ht.blocks_pairwise (f := ⟨n⟩) (function_eq_ok.mpr hn)
  instsOrdered x hx := by
    obtain ⟨n, hn⟩ := Array.mem_iff_getElem?.mp hx
    exact ht.insts_pairwise (b := ⟨n⟩) (block_eq_ok.mpr hn)

end Arranged

end Tables

namespace Builder

variable {b : Builder}

/-- **Builders keep their two records of what belongs to what in agreement.** After any steps that did not
fault, in whatever order they filled functions and blocks, every block is in one list of blocks, that of its
function, every instruction in one list of instructions, that of its block, and every list is increasing. Hence
an instruction belongs to a function exactly if it is among the instructions of the function, and is there
once. -/
theorem built_lists_once {steps : List Step} (h : empty.runAll steps = .ok b) :
    b.finish.ListsOnce ∧ ∀ i f,
      (b.finish.functionOf i = .ok f ↔ ∃ is, b.finish.instsOf f = .ok is ∧ i ∈ is) ∧
      ∀ is, b.finish.instsOf f = .ok is → i ∈ is → is.count i = 1 := by
  have ht : b.finish.Arranged := arranged_of_runAll h
  refine ⟨ht.listsOnce, fun i f => ⟨⟨fun hi => ?_, ?_⟩, fun is his hi => ?_⟩⟩
  · -- the function of an instruction exists, so its instructions can be listed
    obtain ⟨y, x, hy, hx, rfl⟩ := Tables.functionOf_eq_ok.mp hi
    obtain ⟨g, hg, -⟩ := ht.exists_function hx
    obtain ⟨is, his, -, hmem⟩ := ht.exists_instsOf hg
    exact ⟨is, his, (hmem i).mpr hi⟩
  · rintro ⟨is, his, hi⟩
    exact ((ht.of_instsOf his).2 i).mp hi
  · exact List.count_eq_one_of_mem (ht.of_instsOf his).1 hi

/-- Two functions that get their blocks and instructions by turns. -/
def alternateBodies : List Step :=
  [.function "f" [] .void, .block ⟨0⟩ "first", .function "g" [] .void, .block ⟨1⟩ "only", .block ⟨0⟩ "second",
    .push ⟨2⟩ (.ret none) .void, .alloca ⟨1⟩ .word, .call ⟨0⟩ ⟨1⟩ [], .icmp ⟨1⟩ .eq (.const 0) (.const 1),
    .setLocation ⟨0⟩ ⟨"src", "lib.rs", 1⟩, .push ⟨0⟩ (.br ⟨2⟩) .void]

/-- The instructions of the first function, block by block, although the steps went back and forth between the
functions. -/
theorem listed_alternateBodies : ∃ b, empty.runAll alternateBodies = .ok b ∧ b.finish.ListsOnce ∧
    b.finish.instsOf ⟨0⟩ = .ok [⟨2⟩, ⟨4⟩, ⟨0⟩] ∧ b.finish.functionOf ⟨4⟩ = .ok ⟨0⟩ ∧
      b.finish.functionOf ⟨3⟩ ≠ .ok ⟨0⟩ := by
  obtain ⟨b, hb⟩ : ∃ b, empty.runAll alternateBodies = .ok b := ⟨_, rfl⟩
  -- run on the steps; what belongs where is then what the theorem says
  have hinsts : b.finish.instsOf ⟨0⟩ = .ok [⟨2⟩, ⟨4⟩, ⟨0⟩] := by
    cases hb
    rfl
  obtain ⟨honce, hbelongs⟩ := built_lists_once hb
  refine ⟨b, hb, honce, hinsts, (hbelongs ⟨4⟩ ⟨0⟩).1.mpr ⟨_, hinsts, by decide⟩, fun hother => ?_⟩
  obtain ⟨is, his, hmem⟩ := (hbelongs ⟨3⟩ ⟨0⟩).1.mp hother
  rw [hinsts] at his
  cases his
  exact absurd hmem (by decide)

end Builder

end Relock
