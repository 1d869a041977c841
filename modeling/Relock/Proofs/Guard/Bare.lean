import Relock.Proofs.Guard.Release
import Relock.Proofs.Program.Bare

/-!
# Phis and debug markers release nothing

Phis and debug markers are users of the values that they name, so the search for the releases of a guard comes
by them at every step: at the guard, at the slots that it is stored in, at what is loaded from them. No rule
asks for such a user. So the releases are the same without the values that phis and debug markers name.

* `Agrees`: what the rules see of one program they see of the other;
* `Agrees.isGuard`, `Agrees.releasedAt`: what the rules give for one program they give for the other;
* `releases_bare`: the releases of a guard.
-/

namespace Relock.Guard

/-- What the rules see of `p` they see of `q`: the instructions other than phis and debug markers, with the
values that these use. -/
structure Agrees (p q : Program) : Prop where
  inst : ∀ {i : InstId} {x : Instruction}, p.inst i = .ok x →
    ∃ y, q.inst i = .ok y ∧ y.ty = x.ty ∧ y.kind.args? = x.kind.args?
  kindOf : ∀ {i : InstId} {k : InstKind}, k.isSkipped = false → p.kindOf i = .ok k → q.kindOf i = .ok k
  users : ∀ {u : InstId} {v : Value} {k : InstKind}, k.isSkipped = false → p.kindOf u = .ok k →
    u ∈ p.users v → u ∈ q.users v
  isVoid : ∀ ty, q.isVoid ty = p.isVoid ty
  callsA : ∀ test i, q.callsA test i = p.callsA test i
  underlyingObject : ∀ v, q.underlyingObject v = p.underlyingObject v
  firstActiveOf : ∀ b, q.firstActiveOf b = p.firstActiveOf b

/-- The bare program has all that the rules ask for. -/
theorem agrees_bare (p : Program) : Agrees p p.bare where
  inst hx := by
    have hbare := (Tables.inst_bare _).trans (congrArg (Instruction.bare <$> ·) hx)
    exact ⟨_, hbare, rfl, InstKind.args?_bare _⟩
  kindOf hk := (Tables.kindOf_bare_eq_ok hk).mpr
  users hk hkind hu := Program.mem_users_bare.mpr ⟨hu, _, hkind, hk⟩
  isVoid _ := rfl
  callsA := Tables.callsA_bare
  underlyingObject := Tables.underlyingObject_bare
  firstActiveOf := Tables.firstActiveOf_bare

/-- It has nothing that the program itself lacks. -/
theorem bare_agrees (p : Program) : Agrees p.bare p where
  inst hx := by
    obtain ⟨y, hy, rfl⟩ := map_eq_ok.mp ((Tables.inst_bare _).symm.trans hx)
    exact ⟨y, hy, rfl, (InstKind.args?_bare y.kind).symm⟩
  kindOf hk := (Tables.kindOf_bare_eq_ok hk).mp
  users _ _ hu := (Program.mem_users_bare.mp hu).1
  isVoid _ := rfl
  callsA test i := (Tables.callsA_bare test i).symm
  underlyingObject v := (Tables.underlyingObject_bare v).symm
  firstActiveOf b := (Tables.firstActiveOf_bare b).symm

namespace Agrees

variable {p q : Program} {lock : InstId} (h : Agrees p q)

include h

/-! ## Users -/

theorem usersExcept {u : InstId} {v : Value} {k : InstKind} (hk : k.isSkipped = false) (hkind : p.kindOf u = .ok k)
    (hu : u ∈ p.usersExcept lock v) : u ∈ q.usersExcept lock v := by
  obtain ⟨hu, hne⟩ := List.mem_filter.mp hu
  exact List.mem_filter.mpr ⟨h.users hk hkind hu, hne⟩

theorem uses {u : InstId} {v : Value} {k : InstKind} (hk : k.isSkipped = false) (hu : Uses p lock v u k) :
    Uses q lock v u k :=
  ⟨h.usersExcept hk hu.2 hu.1, h.kindOf hk hu.2⟩

/-- A call is neither a phi nor a debug marker. -/
theorem usersExcept_of_callsA {test : String → Bool} {u : InstId} {v : Value} (hcall : p.callsA test u = .ok true)
    (hu : u ∈ p.usersExcept lock v) : u ∈ q.usersExcept lock v := by
  obtain ⟨k, hk⟩ := Tables.InRange.exists_kindOf (Program.lt_of_mem_usersExcept hu)
  have hskipped : k.isSkipped = false := by
    have hiscall := isCall_of_callsA hcall hk
    cases k with
    | phi => cases hiscall
    | debug => cases hiscall
    | _ => rfl
  exact h.usersExcept hskipped hk hu

theorem drops {u : InstId} {v : Value} (hu : Drops p lock v u) : Drops q lock v u :=
  ⟨h.usersExcept_of_callsA hu.2 hu.1, (h.callsA isRelease u).trans hu.2⟩

/-! ## Carriers -/

theorem unwrapsInto {u : InstId} {o : Value} (ho : UnwrapsInto p u o) : UnwrapsInto q u o := by
  cases ho with
  | result hx hty =>
    obtain ⟨y, hy, htype, -⟩ := h.inst hx
    exact .result hy (by rw [htype, h.isVoid, hty])
  | object hx hty hargs ho =>
    obtain ⟨y, hy, htype, hyargs⟩ := h.inst hx
    exact .object hy (by rw [htype, h.isVoid, hty]) (hyargs.trans hargs) ((h.underlyingObject _).trans ho)

/-- **Step by step, the guards of one program are guards of the other.** No rule goes through a phi. -/
theorem isGuard {result g : Value} (hg : IsGuard p lock result g) : IsGuard q lock result g := by
  induction hg with
  | result => exact .result
  -- the user is a call, so it is left in the bare program
  | unwrapped _ hu hcall ho ih =>
    exact .unwrapped ih (h.usersExcept_of_callsA hcall hu) ((h.callsA isUnwrap _).trans hcall) (h.unwrapsInto ho)

theorem movedThrough {c : InstId} {o : Value} (ho : MovedThrough p lock c o) : MovedThrough q lock c o := by
  cases ho with
  | @moved _ _ _ _ _ _ _ _ _ _ k _ hf hq hl hs hobject hu hk hfield =>
    -- the user that shows a field of the object is a field address
    have hskipped : k.isSkipped = false := by
      cases k with
      | fieldAddr => rfl
      | _ => cases hfield
    exact .moved (h.uses rfl hf) (h.uses rfl hq) (h.uses rfl hl) (h.uses rfl hs)
      ((h.underlyingObject _).trans hobject) (h.users hskipped hk hu) (h.kindOf hskipped hk) hfield

theorem isRelocated {result o : Value} (ho : IsRelocated p lock result o) : IsRelocated q lock result o := by
  cases ho with
  | moved hg hc ho => exact .moved (h.isGuard hg) (h.uses rfl hc) (h.movedThrough ho)

/-! ## Releases -/

theorem failsThrough {c i : InstId} (hi : FailsThrough p lock c i) : FailsThrough q lock c i := by
  cases hi with
  | branch hl hm hzero hbr hb hi =>
    exact .branch (h.uses rfl hl) (h.uses rfl hm) hzero (h.uses rfl hbr) hb ((h.firstActiveOf _).trans hi)

theorem releasesThrough {g : Value} {u i : InstId} (hi : ReleasesThrough p lock g u i) :
    ReleasesThrough q lock g u i := by
  -- all rules but the first name the kind of the user, and `rfl` tells that kind from phis and debug markers
  cases hi with
  | dropped hu => exact .dropped ((h.callsA isRelease u).trans hu)
  | loaded hu hi => exact .loaded (h.kindOf rfl hu) (h.drops hi)
  | slot hu hi => exact .slot (h.kindOf rfl hu) (h.drops hi)
  | reloaded hu hl hi => exact .reloaded (h.kindOf rfl hu) (h.uses rfl hl) (h.drops hi)
  | payload hu hf hi => exact .payload (h.kindOf rfl hu) (h.uses rfl hf) (h.drops hi)
  | failed hu hi => exact .failed (h.kindOf rfl hu) (h.failsThrough hi)

/-- A user that shows a release is neither a phi nor a debug marker. -/
theorem usersExcept_of_releasesThrough {g : Value} {u i : InstId} (hi : ReleasesThrough p lock g u i)
    (hu : u ∈ p.usersExcept lock g) : u ∈ q.usersExcept lock g := by
  cases hi with
  | dropped hcall => exact h.usersExcept_of_callsA hcall hu
  | loaded hk _ => exact h.usersExcept rfl hk hu
  | slot hk _ => exact h.usersExcept rfl hk hu
  | reloaded hk _ _ => exact h.usersExcept rfl hk hu
  | payload hk _ _ => exact h.usersExcept rfl hk hu
  | failed hk _ => exact h.usersExcept rfl hk hu

theorem releasesRelocated {o : Value} {i : InstId} (hi : ReleasesRelocated p lock o i) :
    ReleasesRelocated q lock o i := by
  cases hi with
  | dropped hi => exact .dropped (h.drops hi)
  | loaded hl hi => exact .loaded (h.uses rfl hl) (h.drops hi)

/-- **The rules give the same releases.** -/
theorem releasedAt {result : Value} {i : InstId} (hi : ReleasedAt p lock result i) :
    ReleasedAt q lock result i := by
  cases hi with
  | guard hg hu hi =>
    exact .guard (h.isGuard hg) (h.usersExcept_of_releasesThrough hi hu) (h.releasesThrough hi)
  | relocated ho hi => exact .relocated (h.isRelocated ho) (h.releasesRelocated hi)

end Agrees

/-- Without the values of phis and debug markers a guard is released where it was released before. -/
theorem releases_bare {p : Program} (hp : p.InRange) (hends : p.ChainsEnd) (lock : InstId) (g : Value) :
    releases p.bare lock g = releases p lock g := by
  obtain ⟨found, hfound, hmem⟩ := exists_releases lock hp hends g
  obtain ⟨found', hfound', hmem'⟩ := exists_releases (p := p.bare) lock hp.bare (Tables.chainsEnd_bare.mpr hends) g
  -- the two searches may find releases in different order, but the rules give the same ones
  have hsame (i : InstId) : i ∈ found' ↔ i ∈ found := by
    rw [hmem, hmem']
    exact ⟨(bare_agrees p).releasedAt, (agrees_bare p).releasedAt⟩
  rw [hfound, hfound', show p.bare.instIds = p.instIds from Tables.instIds_bare]
  refine congrArg Except.ok (List.filter_congr fun i _ => ?_)
  rw [Bool.eq_iff_iff, List.contains_iff_mem, List.contains_iff_mem, hsame]

end Relock.Guard
