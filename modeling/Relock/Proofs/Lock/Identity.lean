import Relock.Lock.Identity
import Relock.Proofs.Lock.Site
import Relock.Proofs.Program.Safety

/-!
# Groups of locks

What is known about a lock can be found out for every lock site, if all chains end. The sites that are
known to have the same place form one group, and the groups together have every site once.

* `strictTotal_pathLt`, `LockIdentity.strictTotal_lt`, `LockGroups.strictTotal_intraLt`: orders of keys;
* `Tables.safe_placeOf`, `Tables.exists_placeOf`: the place of a lock;
* `LockGroups.eq_of_mem_inter`, `LockGroups.eq_of_mem_intra`: the sites of a group;
* `LockGroups.flatMap_perm`: all groups together.
-/

namespace Relock

/-! ## Orders -/

/-- Field paths are ordered like words: index by index, and a path before those that go on from it. -/
theorem strictTotal_pathLt : StrictTotal pathLt where
  irrefl p := by
    induction p with
    | nil => rfl
    | cons a p ih => simp [pathLt, ih]
  trans p q r hpq hqr := by
    -- either the first indices decide, or they agree and the rest decides
    induction p generalizing q r with
    | nil =>
      cases q with
      | nil => cases hpq
      | cons b q =>
        cases r with
        | nil => cases hqr
        | cons c r => rfl
    | cons a p ih =>
      cases q with
      | nil => cases hpq
      | cons b q =>
        cases r with
        | nil => cases hqr
        | cons c r =>
          simp only [pathLt, Bool.or_eq_true, Bool.and_eq_true, decide_eq_true_eq, beq_iff_eq] at hpq hqr ⊢
          rcases hpq with hab | ⟨rfl, hpq⟩
          · exact .inl (by omega)
          · rcases hqr with hac | ⟨rfl, hqr⟩
            · exact .inl hac
            · exact .inr ⟨rfl, ih q r hpq hqr⟩
  tri p q hpq hqp := by
    induction p generalizing q with
    | nil =>
      cases q with
      | nil => rfl
      | cons b q => cases hpq
    | cons a p ih =>
      cases q with
      | nil => cases hqp
      | cons b q =>
        simp only [pathLt, Bool.or_eq_false_iff, Bool.and_eq_false_imp, decide_eq_false_iff_not,
          beq_iff_eq] at hpq hqp
        obtain rfl : a = b := by omega
        rw [ih q (hpq.2 rfl) (hqp.2 rfl)]

/-- Types are ordered by their index. -/
theorem strictTotal_typeId : StrictTotal fun a b : TypeId => decide (a.index < b.index) :=
  strictTotal_of_injective fun a b h => by cases a; cases b; exact congrArg _ h

/-- Lock identities are ordered by the aggregate, and then by the field path. -/
theorem LockIdentity.strictTotal_lt : StrictTotal LockIdentity.lt :=
  strictTotal_typeId.lex strictTotal_pathLt fun a b haggregate hindices => by
    cases a
    cases b
    cases haggregate
    cases hindices
    rfl

/-- Locks without an identity are ordered by their function, and then by their type. -/
theorem LockGroups.strictTotal_intraLt : StrictTotal LockGroups.intraLt :=
  CallGraph.strictTotal_functionId.lex strictTotal_typeId fun _ _ => Prod.ext

/-! ## Places -/

namespace Tables

variable {t : Tables}

/-- A lock is known by its field if the target has an identity. -/
theorem placeOf_eq_field {s : LockSite} {l : LockIdentity} :
    t.placeOf s = .ok (.field l) ↔ t.identityOf s.target = .ok (some l) := by
  unfold placeOf
  constructor
  · intro h
    obtain ⟨identity, hidentity, h⟩ := bind_eq_ok.mp h
    cases identity with
    | none => simp at h
    | some l' =>
      cases h
      exact hidentity
  · intro h
    rw [h]
    rfl

/-- Any other lock is known by its function and by the type of the target. -/
theorem placeOf_eq_within {s : LockSite} {f : FunctionId} {ty : TypeId} :
    t.placeOf s = .ok (.within f ty) ↔ t.identityOf s.target = .ok none ∧
      t.functionOf s.inst = .ok f ∧ t.valueType s.target = .ok ty := by
  unfold placeOf
  constructor
  · intro h
    obtain ⟨identity, hidentity, h⟩ := bind_eq_ok.mp h
    cases identity with
    | none =>
      obtain ⟨f', hf, h⟩ := bind_eq_ok.mp h
      obtain ⟨ty', hty, h⟩ := bind_eq_ok.mp h
      cases h
      exact ⟨hidentity, hf, hty⟩
    | some l => cases h
  · rintro ⟨hidentity, hf, hty⟩
    simp [hidentity, hf, hty]

variable (ht : t.InRange)

include ht

/-- The record that a value points to is found if casts end. -/
theorem safe_pointedRecord {v : Value} (hv : v.Within t.sizes) : t.Safe (t.pointedRecord v) := by
  -- only the casts on the way can go on for ever; the rest are look-ups
  refine (safe_stripCasts ht hv).bind fun w hw => ?_
  obtain ⟨ty, hty, hlt⟩ := ht.exists_valueType (within_of_stripCastsWithin ht hv hw)
  obtain ⟨pointee, hpointee, hrecord⟩ := ht.exists_pointee hlt
  rw [hty, ok_bind, hpointee, ok_bind]
  cases pointee with
  | none => exact safe_ok none
  | some r => exact (safe_of_exists (InRange.exists_isRecord (hrecord r rfl))).bind fun _ _ => safe_ok _

/-- The identity of a lock is found if casts end. -/
theorem safe_identityOf {v : Value} (hv : v.Within t.sizes) : t.Safe (t.identityOf v) := by
  cases v with
  | inst i =>
    obtain ⟨k, hk⟩ := InRange.exists_kindOf hv
    have hoperands := (ht.kindOf_within hk).operands
    simp only [identityOf, hk, ok_bind]
    cases k with
    -- a field is known by the record it is in, and a cast by the record it shows
    | fieldAddr base indices => exact (safe_pointedRecord ht (hoperands base (List.mem_cons_self ..))).bind_pure
    | cast w => exact (safe_pointedRecord ht (hoperands w (List.mem_cons_self ..))).bind_pure
    | _ => exact safe_ok none
  | _ => exact safe_ok none

/-- Only a chain without an end can keep the place of a lock site unknown. -/
theorem safe_placeOf {s : LockSite} (hs : t.IsLockSite s) : t.Safe (t.placeOf s) := by
  have htarget := hs.target_within ht
  refine (safe_identityOf ht htarget).bind fun identity _ => ?_
  cases identity with
  | some l => exact safe_ok _
  | none =>
    obtain ⟨f, hf, -⟩ := ht.exists_functionOf hs.lt
    obtain ⟨ty, hty, -⟩ := ht.exists_valueType htarget
    rw [hf, ok_bind, hty, ok_bind]
    exact safe_ok _

/-- The place of the lock of every site is known. -/
theorem exists_placeOf (hends : t.ChainsEnd) {s : LockSite} (hs : t.IsLockSite s) :
    ∃ place, t.placeOf s = .ok place :=
  (safe_placeOf ht hs).exists_ok hends

end Tables

/-! ## Groups -/

namespace LockGroups

section Picked

variable {κ : Type} {pick : LockPlace × LockSite → Option (κ × LockSite)} (place : κ → LockPlace)
  (hpick : ∀ x e, pick x = some e ↔ x = (place e.1, e.2))

include hpick

/-- The sites with a key that was picked are those with the place of the key. -/
theorem filter_picked [BEq κ] [LawfulBEq κ] (places : List (LockPlace × LockSite)) (k : κ) :
    ((places.filterMap pick).filter fun e => e.1 == k).map Prod.snd =
      (places.filter fun x => x.1 == place k).map Prod.snd := by
  induction places with
  | nil => rfl
  | cons x places ih =>
    rw [List.filterMap_cons, List.filter_cons]
    cases hx : pick x with
    | none =>
      -- a site with the place of a key is picked for this key
      have hne : (x.1 == place k) = false := by
        rw [beq_eq_false_iff_ne]
        intro heq
        rw [(hpick x (k, x.2)).mpr (Prod.ext heq rfl)] at hx
        cases hx
      rw [hne]
      exact ih
    | some e =>
      obtain ⟨l, site⟩ := e
      obtain rfl := (hpick x (l, site)).mp hx
      -- keys with one place are one key, so nothing else is filtered out
      have hkey : (place l == place k) = (l == k) := by
        rw [Bool.eq_iff_iff, beq_iff_eq, beq_iff_eq]
        refine ⟨fun heq => ?_, congrArg place⟩
        rw [heq, (hpick (place k, site) (k, site)).mpr rfl] at hx
        cases hx
        rfl
      dsimp only
      rw [List.filter_cons, hkey]
      cases l == k with
      | true => exact congrArg (site :: ·) ih
      | false => exact ih

end Picked

/-- The locks known by their field are picked for the inter-procedural groups. -/
theorem eq_field_iff (x : LockPlace × LockSite) (e : LockIdentity × LockSite) :
    (match x with
      | (.field l, site) => some (l, site)
      | (.within _ _, _) => none) = some e ↔ x = (.field e.1, e.2) := by
  obtain ⟨place, site⟩ := x
  obtain ⟨l, site'⟩ := e
  cases place <;> simp

/-- All other locks are picked for the intra-procedural groups. -/
theorem eq_within_iff (x : LockPlace × LockSite) (e : (FunctionId × TypeId) × LockSite) :
    (match x with
      | (.field _, _) => none
      | (.within f ty, site) => some ((f, ty), site)) = some e ↔ x = (.within e.1.1 e.1.2, e.2) := by
  obtain ⟨place, site⟩ := x
  obtain ⟨⟨f, ty⟩, site'⟩ := e
  cases place <;> simp [and_assoc]

variable {t : Tables} {sites : List LockSite} {places : List (LockPlace × LockSite)}
  (h : (sites.mapM fun site => do return (← t.placeOf site, site)) = .ok places)

include h

/-- A group of locks known by their field has all sites with this field. -/
theorem eq_of_mem_inter {l : LockIdentity} {group : List LockSite}
    (hg : (l, group) ∈ (ofPlaces places).inter) :
    group = sites.filter fun s => (t.placeOf s).toOption == some (.field l) := by
  obtain ⟨-, rfl⟩ := (mem_groupBy LockIdentity.strictTotal_lt).mp hg
  rw [← filter_keyed h]
  exact filter_picked .field eq_field_iff places l

/-- A group of locks known by their type has all sites in one function with this type. -/
theorem eq_of_mem_intra {k : FunctionId × TypeId} {group : List LockSite}
    (hg : (k, group) ∈ (ofPlaces places).intra) :
    group = sites.filter fun s => (t.placeOf s).toOption == some (.within k.1 k.2) := by
  obtain ⟨-, rfl⟩ := (mem_groupBy strictTotal_intraLt).mp hg
  rw [← filter_keyed h]
  exact filter_picked (fun k => .within k.1 k.2) eq_within_iff places k

/-- A lock known by its field is in the group of this field. -/
theorem mem_inter_of_placeOf {s : LockSite} (hs : s ∈ sites) {l : LockIdentity}
    (hplace : t.placeOf s = .ok (.field l)) :
    (l, sites.filter fun s => (t.placeOf s).toOption == some (.field l)) ∈ (ofPlaces places).inter := by
  have hmem : (.field l, s) ∈ places := (mem_of_mapM h).mpr ⟨s, hs, bind_eq_ok.mpr ⟨_, hplace, rfl⟩⟩
  refine (mem_groupBy LockIdentity.strictTotal_lt).mpr ⟨?_, ?_⟩
  · exact List.mem_map.mpr ⟨(l, s), List.mem_filterMap.mpr ⟨_, hmem, rfl⟩, rfl⟩
  · rw [← filter_keyed h]
    exact (filter_picked .field eq_field_iff places l).symm

/-- A lock known by its type is in the group of its function and this type. -/
theorem mem_intra_of_placeOf {s : LockSite} (hs : s ∈ sites) {f : FunctionId} {ty : TypeId}
    (hplace : t.placeOf s = .ok (.within f ty)) :
    ((f, ty), sites.filter fun s => (t.placeOf s).toOption == some (.within f ty)) ∈
      (ofPlaces places).intra := by
  have hmem : (.within f ty, s) ∈ places := (mem_of_mapM h).mpr ⟨s, hs, bind_eq_ok.mpr ⟨_, hplace, rfl⟩⟩
  refine (mem_groupBy strictTotal_intraLt).mpr ⟨?_, ?_⟩
  · exact List.mem_map.mpr ⟨((f, ty), s), List.mem_filterMap.mpr ⟨_, hmem, rfl⟩, rfl⟩
  · rw [← filter_keyed h]
    exact (filter_picked (fun k => .within k.1 k.2) eq_within_iff places (f, ty)).symm

/-- **Every site is in one group**, and in one only. -/
theorem flatMap_perm : ((ofPlaces places).intra.flatMap Prod.snd ++
    (ofPlaces places).inter.flatMap Prod.snd).Perm sites := by
  have hintra := groupBy_perm strictTotal_intraLt (places.filterMap fun
    | (.field _, _) => none
    | (.within f ty, site) => some ((f, ty), site))
  have hinter := groupBy_perm LockIdentity.strictTotal_lt (places.filterMap fun
    | (.field l, site) => some (l, site)
    | (.within _ _, _) => none)
  refine (hintra.append hinter).trans ?_
  rw [← map_snd_keyed h]
  clear h hintra hinter
  -- a place is of one kind or the other
  induction places with
  | nil => exact .nil
  | cons x places ih =>
    obtain ⟨place, site⟩ := x
    cases place with
    | field l => exact List.perm_middle.trans (ih.cons site)
    | within f ty => exact ih.cons site

end LockGroups

end Relock
