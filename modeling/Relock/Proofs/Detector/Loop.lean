import Relock.Proofs.Detector.Check

/-!
# Loops

Control flow may come to an instruction after any number of rounds in a loop, while a walk enters each
block once, and the block of the first lock only behind the lock. This loses nothing but the locks that
stand before the first one in its own block: control flow comes to these only through the top of that
block, which the walk does not enter.

* `HeldAt`: control flow comes to an instruction while the first lock is held;
* `Route.avoids_or_returns`: what a route that does not pass the first lock again can do;
* `Pursuit.reaches_iff_not_standsBefore`: the instructions where the lock is held are reached, but for
  those that stand before the first lock;
* `Detector.hit_iff_not_standsBefore`: the same for the hits of a check.
-/

namespace Relock

/-- An instruction stands before another one in the block of both. -/
def Tables.StandsBefore (t : Tables) (i j : InstId) : Prop :=
  ∃ b x before between after, t.block b = .ok x ∧ x.insts = before ++ i :: (between ++ j :: after)

/-- Instructions of a block stand in the order of their indices. -/
theorem Tables.StandsBefore.lt {t : Tables} (ht : t.Arranged) {i j : InstId} (h : t.StandsBefore i j) :
    i.index < j.index := by
  obtain ⟨b, x, before, between, after, hx, hsplit⟩ := h
  -- an instruction that is added gets the next index, and is put last
  have hpairwise := ht.insts_pairwise hx
  rw [hsplit, List.pairwise_append, List.pairwise_cons] at hpairwise
  exact hpairwise.2.1.1 _ (by simp)

/-- Control flow, on which blocks may repeat, comes from the first lock to `i`, and on the way there passes
neither the first lock nor a release nor another lock that would block. -/
def HeldAt (t : Tables) (first : LockSite) (aliases : List LockSite) (release : List InstId)
    (i : InstId) : Prop :=
  ∃ passed b before after, Route t first.inst (fun _ => True) passed b (before ++ i :: after) ∧
    ∀ j ∈ passed ++ before, j ≠ first.inst ∧ j ∉ release ∧
      ∀ s ∈ aliases, s.inst = j → first.kind.nestsWith s.kind = true

/-- A route that does not pass the first lock again has not come back to its block, or has just entered it
from the top. -/
theorem Route.avoids_or_returns {t : Tables} (ht : t.Arranged) {first : InstId}
    {passed ahead : List InstId} {b : BlockId} (h : Route t first (fun _ => True) passed b ahead)
    (hfirst : first ∉ passed) :
    Route t first (fun c => ¬ t.LiesIn first c) passed b ahead ∨
      t.LiesIn first b ∧ ∃ x, t.block b = .ok x ∧ ahead = x.insts := by
  induction h with
  | start hlies hx hsplit => exact .inl (.start hlies hx hsplit)
  | @enter passed ahead b c x hroute hgoes _ hx ih =>
    obtain ⟨hpassed, hahead⟩ : first ∉ passed ∧ first ∉ ahead := by
      simpa [not_or] using hfirst
    rcases ih hpassed with havoids | ⟨hlies, y, hy, rfl⟩
    · by_cases hback : t.LiesIn first c
      · exact .inr ⟨hback, x, hx, rfl⟩
      · exact .inl (havoids.enter hgoes hback hx)
    · -- the block of the first lock cannot be left again without passing it
      obtain ⟨z, hz, rfl⟩ := hlies
      exact absurd ((ht.mem_insts hy).mpr ⟨z, hz, rfl⟩) hahead

namespace Pursuit

variable {q : Pursuit}

/-- Within one function, only releases and locks of the group that do not nest block. -/
theorem not_blocks_of_nests (hscope : q.scope = .here) {i : InstId} (hrelease : i ∉ q.release)
    (hnests : ∀ s ∈ q.aliases, s.inst = i → q.first.kind.nestsWith s.kind = true) : ¬ q.Blocks i := by
  rintro (hit | ⟨-, hin, -⟩)
  · cases hit with
    | direct _ hs hi hblocks =>
      rw [hnests _ hs hi] at hblocks
      cases hblocks
    -- calls are followed across functions only
    | call _ heverywhere =>
      rw [hscope] at heverywhere
      cases heverywhere
  · exact hrelease hin

/-- What stands before the first lock in its block is not reached. -/
theorem not_reaches_of_standsBefore (hq : q.WellPosed) {i : InstId}
    (h : q.tables.StandsBefore i q.first.inst) : ¬ q.Reaches i := by
  have hlt := h.lt hq.arranged
  obtain ⟨b, x, before, between, after, hx, hsplit⟩ := h
  have hi : i ∈ x.insts := by simp [hsplit]
  have hfirst : q.first.inst ∈ x.insts := by simp [hsplit]
  rintro ⟨passed, c, before', after', hroute, -⟩
  generalize hahead : before' ++ i :: after' = ahead at hroute
  cases hroute with
  | start hlies hx' hsplit' =>
    obtain rfl := hq.arranged.block_unique hx hx' hfirst (by simp [hsplit'])
    rw [hx] at hx'
    cases hx'
    -- in the order of the block, `i` would stand before the first lock and behind it
    rw [← hahead] at hsplit'
    have hgt := Tables.StandsBefore.lt hq.arranged ⟨b, x, _, before', after', hx, hsplit'⟩
    omega
  | enter _ _ hnot hx' =>
    -- a route does not enter the block of the first lock again, and `i` is in no other block
    obtain rfl := hq.arranged.block_unique hx hx' hi (by simp [← hahead])
    exact hnot ((hq.arranged.mem_insts hx).mp hfirst)

/-- Where the first lock is held, a lock of the group is reached unless it stands before the first one. -/
theorem reaches_iff_not_standsBefore (hq : q.WellPosed) (hscope : q.scope = .here) {i : InstId}
    (hi : i ≠ q.first.inst) (hheld : HeldAt q.tables q.first q.aliases q.release i) :
    q.Reaches i ↔ ¬ q.tables.StandsBefore i q.first.inst := by
  refine ⟨fun h hbefore => not_reaches_of_standsBefore hq hbefore h, fun hnot => ?_⟩
  obtain ⟨passed, b, before, after, hroute, hclear⟩ := hheld
  have hfirst : ∀ j ∈ passed ++ before, j ≠ q.first.inst := fun j hj => (hclear j hj).1
  rcases hroute.avoids_or_returns hq.arranged fun hin => hfirst _ (List.mem_append_left _ hin) rfl with
    havoids | ⟨hlies, x, hx, hahead⟩
  · -- the route never comes back to the first lock, so it is one that the walk follows
    refine ⟨passed, b, before, after, havoids, fun j hj => ?_⟩
    obtain ⟨-, hrelease, hnests⟩ := hclear j hj
    exact not_blocks_of_nests hscope hrelease hnests
  · -- the first lock is ahead in its block, and so behind `i`
    have hin : q.first.inst ∈ before ++ i :: after := hahead ▸ (hq.arranged.mem_insts hx).mpr hlies
    rcases List.mem_append.mp hin with hin | hin
    · exact absurd rfl (hfirst _ (List.mem_append_right _ hin))
    · obtain ⟨between, rest, rfl⟩ := List.append_of_mem ((List.mem_cons.mp hin).resolve_left hi.symm)
      exact absurd ⟨b, x, before, between, rest, hx, hahead.symm⟩ hnot

end Pursuit

namespace Detector

/-- A lock of the group that control flow comes to while the first one is held is reported, after however
many rounds in loops, unless it stands before the first one in its block. -/
theorem hit_iff_not_standsBefore {text : String} {p : Program} (hload : Program.load text = .ok p)
    (oracle : Oracle) (policy : Policy) (first : LockSite) {name : String}
    (hname : p.functionName first.inst = .ok name) (hkept : policy.isSuppressed name = false)
    {aliases : List LockSite} (haliases : ∀ s ∈ aliases, s.inst.index < p.insts.size)
    (hdistinct : (aliases.map LockSite.inst).Nodup) (hothers : ∀ s ∈ aliases, s.inst ≠ first.inst)
    (release : List InstId) {s : LockSite} (hs : s ∈ aliases)
    (hblocks : first.kind.nestsWith s.kind = false) (hactive : p.isSkipped s.inst = .ok false)
    (hheld : HeldAt p.toTables first aliases release s.inst) :
    ∃ d w hits reports, ofProgram p oracle policy = .ok d ∧
      d.walk .here first aliases release = .ok w ∧ w.hits = .ok hits ∧
        d.check .here first aliases release = .ok reports ∧
          List.Forall₂ (Told p.toTables first) hits reports ∧
            (⟨s.inst, [s], []⟩ ∈ hits ↔ ¬ p.StandsBefore s.inst first.inst) := by
  obtain ⟨d, hd, hready, rfl, rfl, rfl⟩ := exists_ready hload oracle policy
  have hq := hready.wellPosed .here (Tables.lt_of_functionName hname) haliases hdistinct release
  obtain ⟨w, hits, reports, hw, hhits, hcheck, htold, -, hmem, htells⟩ := exists_check hq hname hkept
  refine ⟨d, w, hits, reports, hd, hw, hhits, hcheck, htold, ?_⟩
  -- within one function there are no hits but locks of the alias set
  have hhit : (d.pursuit .here first aliases release).IsHit s.inst := .direct hactive hs rfl hblocks
  -- a lock of the group is met as itself, so it is reported just when it is reached
  refine Iff.trans ?_ (Pursuit.reaches_iff_not_standsBefore hq rfl (hothers s hs) hheld)
  constructor
  · intro hin
    exact ((hmem s.inst).mp (List.mem_map_of_mem hin)).2
  · intro hreaches
    obtain ⟨hit, hin, hmet⟩ := List.mem_map.mp ((hmem s.inst).mpr ⟨hhit, hreaches⟩)
    rwa [(htells hit hin).eq_direct hq hs hmet] at hin

/-- The second lock of `releasedOnOneBranch` is met after two rounds in the loop. -/
theorem hit_releasedOnOneBranch : ∃ p d w hits, Program.load releasedOnOneBranch = .ok p ∧
    ofProgram p p.aliasing .default = .ok d ∧
      d.walk .here (mutexAt ⟨0⟩) [mutexAt ⟨5⟩] [⟨2⟩] = .ok w ∧ w.hits = .ok hits ∧
        ⟨⟨5⟩, [mutexAt ⟨5⟩], []⟩ ∈ hits := by
  obtain ⟨p, hload, hp⟩ := exists_load_releasedOnOneBranch
  have hname : p.functionName ⟨0⟩ = .ok "f" := by
    rw [hp]
    rfl
  have haliases : ∀ s ∈ [mutexAt ⟨5⟩], s.inst.index < p.insts.size := by
    rw [hp]
    simp [mutexAt, branchTables]
  have hactive : p.isSkipped ⟨5⟩ = .ok false := by
    rw [hp]
    rfl
  -- the route passes the branch on which nothing is released
  have hheld : HeldAt p.toTables (mutexAt ⟨0⟩) [mutexAt ⟨5⟩] [⟨2⟩] ⟨5⟩ := by
    rw [hp]
    refine ⟨_, _, [], _, route_releasedOnOneBranch trivial trivial, fun j hj => ?_⟩
    obtain rfl | rfl : j = ⟨1⟩ ∨ j = ⟨4⟩ := by simpa using hj
    · simp [mutexAt]
    · simp [mutexAt]
  obtain ⟨d, w, hits, reports, hd, hw, hhits, -, -, hiff⟩ := hit_iff_not_standsBefore hload p.aliasing
    .default (mutexAt ⟨0⟩) hname (by decide) haliases (by simp) (by simp [mutexAt]) [⟨2⟩]
    (List.mem_singleton_self (mutexAt ⟨5⟩)) rfl hactive hheld
  refine ⟨p, d, w, hits, hload, hd, hw, hhits, hiff.mpr fun hbefore => ?_⟩
  exact absurd (hbefore.lt (Program.arranged_of_load hload)) (by decide)

/-! ### A lock at the top of a loop -/

/-- A mutex that is locked twice in a block that jumps to its own top. -/
def relockedInLoop : String :=
  "[[],[],[[\"f\",[\"*i64\"],\"void\",[[\"s\",[
    \x7b\"op\":\"call\",\"callee\":\"std::sync::mutex::Mutex<T>::lock\",\"args\":[\"%0\"],\"ty\":\"*i64\"\x7d,
    \x7b\"op\":\"call\",\"callee\":\"std::sync::mutex::Mutex<T>::lock\",\"args\":[\"%0\"]\x7d,
    \x7b\"op\":\"br\",\"dest\":\"s\"\x7d]]]]]]"

/-- The tables of `relockedInLoop`. -/
def loopTables : Tables where
  types := #[.void, .int 64, .pointer ⟨1⟩]
  globals := #[]
  functions := #[⟨"f", [⟨2⟩], ⟨0⟩, [⟨0⟩]⟩, ⟨"std::sync::mutex::Mutex<T>::lock", [], ⟨2⟩, []⟩]
  blocks := #[⟨"s", ⟨0⟩, [⟨0⟩, ⟨1⟩, ⟨2⟩]⟩]
  insts := #[⟨.call (.direct ⟨1⟩) [.arg ⟨0⟩ 0], ⟨2⟩, ⟨0⟩, none⟩,
    ⟨.call (.direct ⟨1⟩) [.arg ⟨0⟩ 0], ⟨2⟩, ⟨0⟩, none⟩, ⟨.br ⟨0⟩, ⟨0⟩, ⟨0⟩, none⟩]

/-- Both calls are lock sites, and the guard of the second one is never dropped. -/
theorem sites_relockedInLoop {p : Program} (hp : p.toTables = loopTables) :
    p.lockSites .all = .ok ⟨[mutexAt ⟨0⟩, mutexAt ⟨1⟩], []⟩ ∧
      Guard.releases p ⟨1⟩ (.inst ⟨1⟩) = .ok [] := by
  obtain rfl : p = .ofTables loopTables := Program.ext_tables hp
  exact ⟨toOption_eq_some.mp (by decide +kernel), toOption_eq_some.mp (by decide +kernel)⟩

/-- From the second lock, control flow comes to the first one while the lock is held. -/
theorem heldAt_relockedInLoop : HeldAt loopTables (mutexAt ⟨1⟩) [mutexAt ⟨0⟩] [] ⟨0⟩ := by
  have hsplit : [⟨0⟩, ⟨1⟩, ⟨2⟩] = [⟨0⟩] ++ InstId.mk 1 :: [⟨2⟩] := rfl
  have hstart : Route loopTables ⟨1⟩ (fun _ => True) [] ⟨0⟩ [⟨2⟩] := .start ⟨_, rfl, rfl⟩ rfl hsplit
  -- the jump at the end goes back to the top of its own block
  have hgoes : loopTables.GoesTo ⟨0⟩ ⟨0⟩ := ⟨_, rfl, by decide, rfl⟩
  have hagain : Route loopTables ⟨1⟩ (fun _ => True) [⟨2⟩] ⟨0⟩ [⟨0⟩, ⟨1⟩, ⟨2⟩] :=
    hstart.enter hgoes trivial rfl
  refine ⟨_, _, [], _, hagain, fun j hj => ?_⟩
  obtain rfl : j = ⟨2⟩ := by simpa using hj
  simp [mutexAt]

set_option maxRecDepth 4000 in
/-- The lock at the top of the loop is not reported. -/
theorem check_relockedInLoop : ∃ p d, Program.load relockedInLoop = .ok p ∧
    (p.lockSites .all = .ok ⟨[mutexAt ⟨0⟩, mutexAt ⟨1⟩], []⟩ ∧ Guard.releases p ⟨1⟩ (.inst ⟨1⟩) = .ok []) ∧
      ofProgram p p.aliasing .default = .ok d ∧ p.functionName ⟨1⟩ = .ok "f" ∧
        Policy.default.isSuppressed "f" = false ∧ p.isSkipped ⟨0⟩ = .ok false ∧
          HeldAt p.toTables (mutexAt ⟨1⟩) [mutexAt ⟨0⟩] [] ⟨0⟩ ∧
            (mutexAt ⟨1⟩).kind.nestsWith (mutexAt ⟨0⟩).kind = false ∧
              d.check .here (mutexAt ⟨1⟩) [mutexAt ⟨0⟩] [] = .ok [] := by
  obtain ⟨p, hload, hp⟩ : ∃ p, Program.load relockedInLoop = .ok p ∧ p.toTables = loopTables :=
    Program.exists_load_of_chars rfl (by decide +kernel)
  obtain ⟨d, hd, hready, rfl, -, hpolicy⟩ := exists_ready hload p.aliasing .default
  have hname : d.program.functionName ⟨1⟩ = .ok "f" := by
    rw [hp]
    rfl
  have hkept : d.policy.isSuppressed "f" = false := by
    rw [hpolicy]
    decide
  have hlt (s : LockSite) (hs : s ∈ [mutexAt ⟨0⟩]) : s.inst.index < d.program.insts.size := by
    cases List.mem_singleton.mp hs
    rw [hp]
    decide
  have hbefore : d.program.StandsBefore ⟨0⟩ ⟨1⟩ := by
    rw [hp]
    exact ⟨⟨0⟩, _, [], [], [⟨2⟩], rfl, rfl⟩
  have hq : (d.pursuit .here (mutexAt ⟨1⟩) [mutexAt ⟨0⟩] []).WellPosed :=
    hready.wellPosed .here (Tables.lt_of_functionName hname) hlt (by simp) []
  obtain ⟨w, hits, reports, -, -, hcheck, htold, -, hmem, -⟩ := exists_check hq hname hkept
  -- the one lock of the alias set stands before the first lock, and is not reached
  have hnone : hits = [] := by
    refine List.eq_nil_iff_forall_not_mem.mpr fun hit hin => ?_
    obtain ⟨hhit, hreaches⟩ := (hmem hit.met).mp (List.mem_map_of_mem hin)
    cases hhit with
    | direct _ hs hmet =>
      cases List.mem_singleton.mp hs
      rw [← hmet] at hreaches
      exact Pursuit.not_reaches_of_standsBefore hq hbefore hreaches
    | call _ hscope => cases hscope
  subst hnone
  cases htold
  refine ⟨d.program, d, hload, sites_relockedInLoop hp, hd, hname, by decide, ?_, ?_, rfl, hcheck⟩
  · rw [hp]
    rfl
  · rw [hp]
    exact heldAt_relockedInLoop

end Detector

end Relock
