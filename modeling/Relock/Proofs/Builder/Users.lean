import Relock.Proofs.Builder.Entries
import Relock.Proofs.Program.DefUse

/-!
# Def-use chains of programs that were built

A builder adds one instruction with each step that adds any, and changes none of them afterwards but for its
location. So the instructions of a program can be read off the steps that built it, and the def-use chains,
which are computed once all steps have run, list them by their operands.

* `Step.kind?`, `kinds_of_runAll`: the instructions of a program, by the steps that built it;
* `users_exact`: the users of a value.
-/

namespace Relock

/-- What the instruction does that a step adds. -/
def Step.kind? : Step → Option InstKind
  | .call _ f args => some (.call (.direct f) args)
  | .invoke _ f args normal unwind => some (.invoke (.direct f) args normal unwind)
  | .icmp _ pred lhs rhs => some (.icmp pred lhs rhs)
  | .alloca _ _ => some .alloca
  | .push _ kind _ => some kind
  | _ => none

/-- What the instructions do, in the order of the table. -/
def Tables.kinds (t : Tables) : List InstKind := t.insts.toList.map Instruction.kind

/-- What an instruction does, read off the list of all. -/
theorem Tables.kindOf_iff_kinds {t : Tables} {i : InstId} {k : InstKind} :
    t.kindOf i = .ok k ↔ t.kinds[i.index]? = some k := by
  rw [kindOf_eq_ok, kinds, List.getElem?_map, Array.getElem?_toList, Option.map_eq_some_iff]
  simp only [inst_eq_ok]

namespace Builder

variable {b b' : Builder}

/-! ## Steps -/

theorem kinds_intern (b : Builder) (k : TypeKind) : (b.intern k).2.tables.kinds = b.tables.kinds := by
  unfold intern
  cases b.interned.lookup k with
  | some i => rfl
  | none => rfl

theorem kinds_setFields {t : TypeId} {fields : List TypeId} (h : b.setFields t fields = .ok b') :
    b'.tables.kinds = b.tables.kinds := by
  obtain ⟨k, -, h⟩ := bind_eq_ok.mp h
  cases k <;> cases h <;> rfl

theorem kinds_push {bb : BlockId} {kind : InstKind} {ty : TypeId} {i : InstId}
    (h : b.push bb kind ty = .ok (i, b')) : b'.tables.kinds = b.tables.kinds ++ [kind] := by
  obtain ⟨-, rfl, rfl⟩ := push_eq_ok.mp h
  simp [Tables.kinds]

theorem kinds_setLocation {i : InstId} {loc : Location} (h : b.setLocation i loc = .ok b') :
    b'.tables.kinds = b.tables.kinds := by
  obtain ⟨-, rfl⟩ := setLocation_eq_ok.mp h
  have hkind : ∀ x : Instruction, Instruction.kind { x with loc := some loc } = x.kind := fun _ => rfl
  simp [Tables.kinds, map_modify hkind]

/-- **Step lemma**: a step adds its instruction behind all others, and changes none. -/
theorem kinds_run {s : Step} {answer : Answer} (h : s.run b = .ok (answer, b')) :
    b'.tables.kinds = b.tables.kinds ++ s.kind?.toList := by
  -- steps without an instruction leave the table alone; the others push one
  cases s with
  | void | lookupNamed | arg | instCount | function | declareRecord =>
    cases h
    exact (List.append_nil _).symm
  | int | pointer | recordType | bodylessType | global =>
    cases h
    exact (kinds_intern b _).trans (List.append_nil _).symm
  | setFields =>
    obtain ⟨c, hc, h⟩ := bind_eq_ok.mp h
    cases h
    exact (kinds_setFields hc).trans (List.append_nil _).symm
  | returnType =>
    obtain ⟨ty, -, h⟩ := bind_eq_ok.mp h
    cases h
    exact (List.append_nil _).symm
  | block =>
    obtain ⟨c, hc, h⟩ := bind_eq_ok.mp h
    cases h
    obtain ⟨-, -, heq⟩ := block_eq_ok.mp hc
    rw [heq]
    exact (List.append_nil _).symm
  | setLocation =>
    obtain ⟨c, hc, h⟩ := bind_eq_ok.mp h
    cases h
    exact (kinds_setLocation hc).trans (List.append_nil _).symm
  | call | invoke =>
    obtain ⟨c, hc, h⟩ := bind_eq_ok.mp h
    cases h
    obtain ⟨ty, -, hc⟩ := bind_eq_ok.mp hc
    exact kinds_push hc
  | icmp | alloca =>
    -- the type of the result is made first
    obtain ⟨c, hc, h⟩ := bind_eq_ok.mp h
    cases h
    exact (kinds_push hc).trans (congrArg (· ++ _) (kinds_intern b _))
  | push =>
    obtain ⟨c, hc, h⟩ := bind_eq_ok.mp h
    cases h
    exact kinds_push hc

/-- **Run lemma**: the steps add their instructions in order. -/
theorem kinds_runAll {steps : List Step} (h : b.runAll steps = .ok b') :
    b'.tables.kinds = b.tables.kinds ++ steps.filterMap Step.kind? := by
  induction steps generalizing b with
  | nil =>
    cases h
    exact (List.append_nil _).symm
  | cons s steps ih =>
    obtain ⟨⟨answer, c⟩, hc, h⟩ := bind_eq_ok.mp h
    rw [ih h, kinds_run hc, List.append_assoc]
    -- a step adds one instruction or none
    cases hs : s.kind? <;> simp [hs]

/-- The instructions of a program are those of the steps that built it. -/
theorem kinds_of_runAll {steps : List Step} (h : empty.runAll steps = .ok b) :
    b.tables.kinds = steps.filterMap Step.kind? :=
  kinds_runAll h

/-! ## Users -/

/-- **The def-use chains of every program that was built are exact.** Constants have no users. The users of
any other value are the instructions with the value among their operands, in the order in which they were
added and each once, however often it uses the value. What an instruction does is what the step says that
added it. -/
theorem users_exact {steps : List Step} (hb : empty.runAll steps = .ok b) (v : Value) :
    (v.isConst = true → b.finish.users v = []) ∧
    (v.isConst = false → (b.finish.users v).Pairwise (fun i j => i.index < j.index) ∧
      ∀ i, i ∈ b.finish.users v ↔ ∃ k, b.finish.kindOf i = .ok k ∧ v ∈ k.operands) ∧
    ∀ i k, b.finish.kindOf i = .ok k ↔ (steps.filterMap Step.kind?)[i.index]? = some k := by
  refine ⟨fun hconst => ?_, fun hconst => ⟨Program.users_pairwise _ v, fun i => ?_⟩, fun i k => ?_⟩
  · -- the index has no entries for constants
    rw [List.eq_nil_iff_forall_not_mem]
    intro i hi
    rw [(Program.mem_users.mp hi).1] at hconst
    cases hconst
  · rw [Program.mem_users, and_iff_right hconst]
    simp only [Tables.kindOf_eq_ok, Tables.inst_eq_ok]
    constructor
    · rintro ⟨x, hx, hv⟩
      exact ⟨x.kind, ⟨x, hx, rfl⟩, hv⟩
    · rintro ⟨k, ⟨x, hx, rfl⟩, hv⟩
      exact ⟨x, hx, hv⟩
  · -- the index is computed in the end, from the tables as the last step has left them
    rw [Tables.kindOf_iff_kinds, ← kinds_of_runAll hb]
    rfl

/-- A slot that is used several times by one instruction: at once, with another operand in between, and by a
call through it that also gets it as arguments. The call uses an instruction that is added after it. -/
def repeatedUses : List Step :=
  [.function "f" [] .void, .block ⟨0⟩ "entry", .alloca ⟨0⟩ .word,
    .push ⟨0⟩ (.other [.inst ⟨0⟩, .inst ⟨0⟩, .const 1, .inst ⟨0⟩]) .void, .call ⟨0⟩ ⟨0⟩ [.const 1],
    .push ⟨0⟩ (.call (.indirect (.inst ⟨0⟩)) [.inst ⟨0⟩, .inst ⟨4⟩, .inst ⟨0⟩]) .void,
    .push ⟨0⟩ (.load (.inst ⟨0⟩)) .word]

/-- Each user is listed once, however often it uses the slot. -/
theorem users_repeatedUses : ∃ b, empty.runAll repeatedUses = .ok b ∧ b.finish.users (.const 1) = [] ∧
    b.finish.users (.inst ⟨0⟩) = [⟨1⟩, ⟨3⟩, ⟨4⟩] ∧ (∀ i, (∃ k, b.finish.kindOf i = .ok k ∧ .inst ⟨0⟩ ∈ k.operands) ↔
      i = ⟨1⟩ ∨ i = ⟨3⟩ ∨ i = ⟨4⟩) ∧ b.finish.kindOf ⟨4⟩ = .ok (.load (.inst ⟨0⟩)) := by
  obtain ⟨b, hb⟩ : ∃ b, empty.runAll repeatedUses = .ok b := ⟨_, rfl⟩
  have hlist : b.finish.users (.inst ⟨0⟩) = [⟨1⟩, ⟨3⟩, ⟨4⟩] := by
    cases hb
    decide +kernel
  obtain ⟨hconst, -, hkinds⟩ := users_exact hb (.const 1)
  obtain ⟨-, hslot, -⟩ := users_exact hb (.inst ⟨0⟩)
  refine ⟨b, hb, hconst rfl, hlist, fun i => ?_, (hkinds _ _).mpr rfl⟩
  rw [← (hslot rfl).2, hlist]
  simp

end Builder

end Relock
