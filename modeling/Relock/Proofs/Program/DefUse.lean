import Mathlib.Data.List.Induction
import Relock.Program.DefUse

/-!
# Def-use chains are exact

The index of a program is built by one pass over the instruction table that only ever compares with the
last user it noted. It lists each user of a value once and in order all the same, because the pass meets
every instruction once.

* `DefUse.latest_recordAll`: what one instruction adds to the index;
* `Program.users_eq`: the users of a value are the instructions with the value among their operands;
* `Program.mem_usedValues`: the values in the index are those that have a user.
-/

namespace Relock

/-! ## The order of values -/

namespace Value

instance : Std.TransCmp Value.cmp :=
  inferInstanceAs (Std.TransCmp (compareLex (compareOn fun a : Value => a.rank.1)
    (compareLex (compareOn fun a => a.rank.2.1) (compareOn fun a => a.rank.2.2))))

/-- Values are told apart by their places in the order of values. -/
theorem rank_injective {a b : Value} (h : a.rank = b.rank) : a = b := by
  cases a with
  | inst i =>
    cases b <;> simp [rank] at h
    case inst j =>
      have hij : i.index = j.index := by omega
      rw [show i = j from congrArg InstId.mk hij]
  | arg f n =>
    cases b <;> simp [rank] at h
    case arg g m =>
      have hfg : f = g := congrArg FunctionId.mk h.1
      have hnm : n = m := by omega
      rw [hfg, hnm]
  | global i =>
    cases b <;> simp [rank] at h
    case global j =>
      have hij : i.index = j.index := by omega
      rw [show i = j from congrArg GlobalId.mk hij]
  | const n =>
    cases b <;> simp [rank] at h
    case const m => rw [h]

/-- Only equal values compare as equal, so each value has its own entry in the index. -/
theorem cmp_eq_iff {a b : Value} : a.cmp b = .eq ↔ a = b := by
  constructor
  · intro h
    unfold cmp at h
    rw [Ordering.then_eq_eq, Ordering.then_eq_eq] at h
    obtain ⟨h₁, h₂, h₃⟩ := h
    -- all three parts of the places agree
    apply rank_injective
    exact Prod.ext (Std.LawfulEqCmp.eq_of_compare h₁)
      (Prod.ext (Std.LawfulEqCmp.eq_of_compare h₂) (Std.LawfulEqCmp.eq_of_compare h₃))
  · rintro rfl
    exact Std.ReflCmp.compare_self

instance : Std.LawfulEqCmp Value.cmp where
  eq_of_compare h := cmp_eq_iff.mp h

end Value

/-! ## Building the index -/

namespace DefUse

/-- Noting one use only changes the users of the value used. -/
theorem latest_record (i : InstId) (d : DefUse) (w v : Value) :
    (record i d w).latest v =
      if w = v ∧ v.isConst = false ∧ (d.latest v).head? ≠ some i then i :: d.latest v
      else d.latest v := by
  unfold record
  by_cases hskip : (w.isConst || (d.latest w).head? == some i) = true
  · -- nothing is noted: the value is a constant, or has `i` as its last user
    rw [if_pos hskip, if_neg]
    rintro ⟨rfl, hconst, hhead⟩
    rw [hconst, Bool.false_or, beq_iff_eq] at hskip
    exact hhead hskip
  · rw [if_neg hskip]
    show Std.TreeMap.getD (d.index.insert w (i :: d.latest w)) v [] = _
    -- the entry of `w` has changed, and no other
    rw [Std.TreeMap.getD_insert]
    simp only [Bool.or_eq_true, beq_iff_eq, not_or, Bool.not_eq_true] at hskip
    by_cases hwv : w = v
    · subst hwv
      rw [if_pos (Value.cmp_eq_iff.mpr rfl), if_pos ⟨rfl, hskip⟩]
    · rw [if_neg fun h => hwv (Value.cmp_eq_iff.mp h), if_neg fun h => hwv h.1]
      rfl

/-- Noting the operands of an instruction that has not been met before puts it in front of the users of
each of them, once. -/
theorem latest_foldl_record {i : InstId} {d : DefUse} {v : Value} (ops : List Value)
    (hnew : (d.latest v).head? ≠ some i) :
    (ops.foldl (record i) d).latest v =
      if v.isConst = false ∧ v ∈ ops then i :: d.latest v else d.latest v := by
  -- from the end, since each operand is noted in the index that the ones before it have left
  induction ops using List.reverseRecOn with
  | nil => simp
  | append_singleton ops w ih =>
    rw [List.foldl_append, List.foldl_cons, List.foldl_nil, latest_record, ih]
    by_cases hused : v.isConst = false ∧ v ∈ ops
    · -- `i` is already the last user of `v`
      rw [if_pos hused, if_neg (fun h => h.2.2 rfl),
        if_pos ⟨hused.1, List.mem_append_left _ hused.2⟩]
    · rw [if_neg hused]
      by_cases hw : w = v ∧ v.isConst = false
      · rw [if_pos ⟨hw.1, hw.2, hnew⟩, if_pos ⟨hw.2, by simp [hw.1]⟩]
      · rw [if_neg fun h => hw ⟨h.1, h.2.1⟩, if_neg]
        rintro ⟨hconst, hmem⟩
        rcases List.mem_append.mp hmem with hmem | hmem
        · exact hused ⟨hconst, hmem⟩
        · exact hw ⟨(List.mem_singleton.mp hmem).symm, hconst⟩

/-- Whether an instruction has a value among its operands. Constants are not tracked. -/
def uses (v : Value) (x : Instruction) : Bool :=
  !v.isConst && x.kind.operands.contains v

/-- One instruction that has not been met before is added to the users of its operands, once. -/
theorem latest_recordAll {d : DefUse} {v : Value} {x : Instruction} {n : Nat}
    (hnew : (d.latest v).head? ≠ some ⟨n⟩) :
    (d.recordAll (x, n)).latest v = if uses v x then ⟨n⟩ :: d.latest v else d.latest v := by
  show (x.kind.operands.foldl (record ⟨n⟩) d).latest v = _
  rw [latest_foldl_record _ hnew]
  simp [uses]

/-- The pass over a table from position `n` on, when everything noted before stands below `n`. -/
theorem latest_foldl_recordAll (xs : List Instruction) (n : Nat) (d : DefUse) (v : Value)
    (hbelow : ∀ i ∈ d.latest v, i.index < n) :
    ((xs.zipIdx n).foldl recordAll d).latest v =
      ((xs.zipIdx n).filter fun e => uses v e.1).reverse.map (fun e => ⟨e.2⟩) ++ d.latest v := by
  induction xs generalizing n d with
  | nil => rfl
  | cons x xs ih =>
    -- `n` is not below `n`, so this instruction has not been noted yet
    have hnew : (d.latest v).head? ≠ some ⟨n⟩ := by
      intro hhead
      have := hbelow _ (List.mem_of_head? hhead)
      simp at this
    have hstep := latest_recordAll (x := x) hnew
    rw [List.zipIdx_cons, List.foldl_cons, ih, hstep, List.filter_cons]
    · cases uses v x <;> simp
    · intro i hi
      rw [hstep] at hi
      split at hi
      · rcases List.mem_cons.mp hi with rfl | hi
        · simp
        · exact Nat.lt_succ_of_lt (hbelow i hi)
      · exact Nat.lt_succ_of_lt (hbelow i hi)

/-- Every value in the index has a user. -/
def Occupied (d : DefUse) : Prop := ∀ v ∈ d.index, d.latest v ≠ []

/-- Noting a use leaves no value without a user in the index. -/
theorem occupied_record {d : DefUse} (h : d.Occupied) (i : InstId) (w : Value) : (record i d w).Occupied := by
  unfold record
  split
  · exact h
  · intro v hv
    show Std.TreeMap.getD (d.index.insert w (i :: d.latest w)) v [] ≠ []
    rw [Std.TreeMap.getD_insert]
    -- the entry that was written has `i` in it, the others have not changed
    by_cases hwv : w.cmp v = .eq
    · rw [if_pos hwv]
      simp
    · rw [if_neg hwv]
      exact h v ((Std.TreeMap.mem_insert.mp hv).resolve_left hwv)

/-- No value gets into the index without a user. -/
theorem occupied_ofInsts (insts : Array Instruction) : (ofInsts insts).Occupied := by
  refine List.foldlRecOn (motive := Occupied) _ _ (fun v hv => absurd hv Std.TreeMap.not_mem_emptyc) ?_
  -- over the instructions, and for each of them over its operands
  intro d hd e _
  show (e.1.kind.operands.foldl (record ⟨e.2⟩) d).Occupied
  exact List.foldlRecOn (motive := Occupied) _ _ hd fun d hd w _ => occupied_record hd _ w

end DefUse

/-- The table lists its instructions in order. -/
theorem Tables.instIds_pairwise (t : Tables) : t.instIds.Pairwise fun i j => i.index < j.index := by
  rw [instIds, List.pairwise_map]
  exact List.pairwise_lt_range

namespace Program

/-- **The def-use index is exact.** The instructions that use a value are those with the value among their
operands, each once and in the order of the table. -/
theorem users_eq (p : Program) (v : Value) :
    p.users v = p.instIds.filter fun i => (p.insts[i.index]?).any (DefUse.uses v) := by
  have hempty : DefUse.empty.latest v = [] := Std.TreeMap.getD_emptyc
  have hlatest := DefUse.latest_foldl_recordAll p.insts.toList 0 .empty v (by simp [hempty])
  unfold users
  rw [p.defUse_eq, DefUse.ofInsts, hlatest, hempty, List.append_nil, ← List.map_reverse, List.reverse_reverse]
  -- both sides filter the positions of the table
  have hids : p.instIds = (p.insts.toList.zipIdx).map fun e => ⟨e.2⟩ := by
    rw [show (fun e : Instruction × Nat => InstId.mk e.2) = InstId.mk ∘ Prod.snd from rfl,
      ← List.map_map, List.zipIdx_map_snd]
    simp [Tables.instIds, List.range_eq_range']
  rw [hids, List.filter_map]
  congr 1
  apply List.filter_congr
  intro e he
  have hget : p.insts[e.2]? = some e.1 := by
    have := List.mem_zipIdx_iff_getElem?.mp he
    simpa using this
  simp [hget]

/-- The users of a value stand in the order of the table. -/
theorem users_pairwise (p : Program) (v : Value) : (p.users v).Pairwise fun i j => i.index < j.index := by
  rw [users_eq]
  exact p.instIds_pairwise.filter _

/-- A user of a value is an instruction that has it among its operands. Constants have no users. -/
theorem mem_users {p : Program} {v : Value} {u : InstId} :
    u ∈ p.users v ↔ v.isConst = false ∧ ∃ x, p.insts[u.index]? = some x ∧ v ∈ x.kind.operands := by
  have huses : ∀ x, DefUse.uses v x = true ↔ v.isConst = false ∧ v ∈ x.kind.operands := by
    intro x
    simp [DefUse.uses]
  rw [users_eq, List.mem_filter, Option.any_eq_true]
  constructor
  · rintro ⟨-, x, hx, huse⟩
    obtain ⟨hconst, hv⟩ := (huses x).mp huse
    exact ⟨hconst, x, hx, hv⟩
  · rintro ⟨hconst, x, hx, hv⟩
    refine ⟨?_, x, hx, (huses x).mpr ⟨hconst, hv⟩⟩
    have hlt : u.index < p.insts.size := by
      obtain ⟨h, -⟩ := Array.getElem?_eq_some_iff.mp hx
      exact h
    exact List.mem_map.mpr ⟨u.index, List.mem_range.mpr hlt, rfl⟩

theorem lt_of_mem_users {p : Program} {v : Value} {u : InstId} (hu : u ∈ p.users v) : u.index < p.insts.size := by
  obtain ⟨-, x, hx, -⟩ := mem_users.mp hu
  exact (Array.getElem?_eq_some_iff.mp hx).1

/-- The users but for one instruction, the lock call itself. -/
theorem mem_usersExcept {p : Program} {i u : InstId} {v : Value} :
    u ∈ p.usersExcept i v ↔ u ∈ p.users v ∧ u ≠ i := by
  rw [usersExcept, List.mem_filter, bne_iff_ne]

theorem mem_users_of_mem_usersExcept {p : Program} {i u : InstId} {v : Value} (hu : u ∈ p.usersExcept i v) :
    u ∈ p.users v :=
  (mem_usersExcept.mp hu).1

theorem lt_of_mem_usersExcept {p : Program} {i u : InstId} {v : Value} (hu : u ∈ p.usersExcept i v) :
    u.index < p.insts.size :=
  lt_of_mem_users (mem_users_of_mem_usersExcept hu)

/-- A value with a user has an entry in the index. -/
theorem mem_usedValues {p : Program} {v : Value} (h : p.users v ≠ []) : v ∈ p.usedValues := by
  rw [usedValues, Std.TreeMap.mem_keys]
  by_contra hnot
  apply h
  rw [users, DefUse.latest, Std.TreeMap.getD_eq_fallback hnot, List.reverse_nil]

/-- The values in the index are those that have a user. -/
theorem mem_usedValues_iff {p : Program} {v : Value} : v ∈ p.usedValues ↔ p.users v ≠ [] := by
  refine ⟨fun hv hnil => ?_, mem_usedValues⟩
  rw [usedValues, Std.TreeMap.mem_keys, p.defUse_eq] at hv
  -- the keys of the index are those that were written
  apply DefUse.occupied_ofInsts p.insts v hv
  rw [← p.defUse_eq]
  exact List.reverse_eq_nil_iff.mp hnil

theorem usedValues_nodup (p : Program) : p.usedValues.Nodup := Std.TreeMap.nodup_keys

end Program

end Relock
