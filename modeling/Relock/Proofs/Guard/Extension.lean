import Mathlib.Data.List.Nodup
import Relock.Proofs.Guard.Release
import Relock.Proofs.Program.Extension

/-!
# Guards in programs that grow

The search for the releases of a guard goes from a value to its users and from there to further values.
All values that it comes to belong to the tables that the guard belongs to, so if the program grows apart
from them, the search meets the same users and ends with the same releases.

* `Carrier.Within`, `within_of_leadsTo`: the search does not leave the old tables;
* `Extension.carriersFrom`, `Extension.releasesFrom`: what one carrier leads to;
* `Extension.releases`: the releases of a guard persist.
-/

namespace Relock.Guard

/-- A carrier whose value is an entry of the tables. -/
def Carrier.Within (n : Sizes) : Carrier → Prop
  | .guard v => v.Within n
  | .relocated v => v.Within n

section Within

variable {p : Program} {lock : InstId} (hp : p.InRange)

include hp

/-- The object that a value of the tables is derived from belongs to the tables. -/
theorem within_of_underlyingObject {v o : Value} (hv : v.Within p.sizes) (ho : p.underlyingObject v = .ok o) :
    o.Within p.sizes := by
  obtain ⟨d, hd, ho⟩ := bind_eq_ok.mp ho
  cases ho
  obtain ⟨n, hn⟩ := Tables.endsIn_of_derivationWithin hd
  exact hn.end_within hp hv

/-- What a carrier leads to belongs to the tables. -/
theorem within_of_leadsTo {c d : Carrier} (h : LeadsTo p lock c d) : d.Within p.sizes := by
  cases c with
  -- what the payload was moved into leads no further
  | relocated o => exact h.elim
  | guard g =>
    obtain ⟨u, hu, hmakes⟩ := h
    cases hmakes with
    -- the object is that of the address which the payload is stored to
    | relocated hk ho =>
      obtain ⟨-, -, -, ⟨-, hstore⟩, hobject, -⟩ := ho
      exact within_of_underlyingObject hp ((hp.kindOf_within hstore).operands _ (by simp [InstKind.operands])) hobject
    -- the guard is the result of the call, or what its first argument points to
    | unwrapped hcall ho =>
      cases ho with
      | result hx hty => exact Tables.lt_of_inst hx
      | object hx hty hargs ho =>
        have hout := InstKind.mem_operands_of_args hargs (List.mem_cons_self ..)
        exact within_of_underlyingObject hp ((hp.kindOf_within (Tables.kindOf_of_inst hx)).operands _ hout) ho

end Within

theorem lt_of_loadsOf {p : Program} {lock : InstId} {v : Value} {loads : List InstId}
    (h : loadsOf p lock v = .ok loads) : ∀ l ∈ loads, l.index < p.insts.size := by
  intro l hl
  obtain ⟨a, hu, -⟩ := ((lists_loadsOf p lock v).mem_iff h).mp hl
  exact Program.lt_of_mem_usersExcept hu

theorem lt_of_fieldsOf {p : Program} {lock : InstId} {v : Value} {path : List Int} {fields : List InstId}
    (h : fieldsOf p lock v path = .ok fields) : ∀ f ∈ fields, f.index < p.insts.size := by
  intro f hf
  obtain ⟨b, hu, -⟩ := ((lists_fieldsOf p lock v path).mem_iff h).mp hf
  exact Program.lt_of_mem_usersExcept hu

namespace Extension

variable {p p' : Program} (h : p.ExtendsApart p'.toTables) (hp : p.InRange) {lock : InstId}

include h

/-- Old instructions do what they did. -/
theorem withKind (test : InstKind → Bool) (is : List InstId) :
    Persists (withKind p test is) (withKind p' test is) := by
  induction is with
  | nil => exact .refl _
  | cons i is ih => exact ih.bind fun rest _ => (h.kindOf i).bind_pure _

/-! ## Users of a value -/

/-- A traversal of the users of an old value goes through old instructions only. -/
theorem mapM_users {β : Type} {f f' : InstId → Except Fault β} {v : Value} (hv : v.Within p.sizes)
    (hf : ∀ u, u.index < p.insts.size → Persists (f u) (f' u)) :
    Persists ((p.usersExcept lock v).mapM f) ((p'.usersExcept lock v).mapM f') := by
  rw [Program.usersExcept_of_extendsApart h hv]
  exact .mapM fun u hu => hf u (Program.lt_of_mem_usersExcept hu)

theorem loadsOf {v : Value} (hv : v.Within p.sizes) : Persists (loadsOf p lock v) (loadsOf p' lock v) := by
  unfold Guard.loadsOf
  rw [Program.usersExcept_of_extendsApart h hv]
  exact withKind h _ _

theorem fieldsOf {v : Value} (hv : v.Within p.sizes) (path : List Int) :
    Persists (fieldsOf p lock v path) (fieldsOf p' lock v path) := by
  unfold Guard.fieldsOf
  rw [Program.usersExcept_of_extendsApart h hv]
  exact withKind h _ _

theorem dropsOf {v : Value} (hv : v.Within p.sizes) : Persists (dropsOf p lock v) (dropsOf p' lock v) := by
  unfold Guard.dropsOf
  rw [Program.usersExcept_of_extendsApart h hv]
  exact .filterM fun u _ => h.callsA isRelease u

theorem reloadedDropsOf {v : Value} (hv : v.Within p.sizes) :
    Persists (reloadedDropsOf p lock v) (reloadedDropsOf p' lock v) := by
  refine (loadsOf h hv).bind fun loads hloads => ?_
  exact (Persists.mapM fun l hl => dropsOf (v := .inst l) h (lt_of_loadsOf hloads l hl)).bind_pure _

/-! ## Failed lock operations -/

/-- A branch goes where it went if the lock operation failed. -/
theorem failureAt (pred : Predicate) (u : InstId) : Persists (failureAt p pred u) (failureAt p' pred u) := by
  refine (h.kindOf u).bind fun k _ => ?_
  cases k with
  -- control goes on at the first instruction that does something
  | condBr cond thenDest elseDest =>
    dsimp only
    cases nonzeroDest pred thenDest elseDest with
    | some b => exact (h.firstActiveOf b).bind_pure _
    | none => exact .refl _
  | _ => exact .refl _

/-- A comparison of the discriminant is branched on where it was. -/
theorem failuresOfCompare {u : InstId} (hu : u.index < p.insts.size) :
    Persists (failuresOfCompare p lock u) (failuresOfCompare p' lock u) := by
  refine (h.kindOf u).bind fun k _ => ?_
  cases k with
  | icmp pred lhs rhs =>
    -- only a comparison with zero is about the discriminant
    refine .ite (fun _ => ?_) fun _ => .refl _
    exact (mapM_users (v := .inst u) h hu fun br _ => failureAt h pred br).bind_pure _
  | _ => exact .refl _

/-- **Discriminant checks persist**: through the loads of the discriminant, their comparisons and the branches on
them. -/
theorem failuresOf {c : InstId} (hc : c.index < p.insts.size) :
    Persists (failuresOf p lock c) (failuresOf p' lock c) := by
  refine (loadsOf (v := .inst c) h hc).bind fun loads hloads => (Persists.mapM fun l hl => ?_).bind_pure _
  exact (mapM_users (v := .inst l) h (lt_of_loadsOf hloads l hl) fun m hm => failuresOfCompare h hm).bind_pure _

/-! ## Payloads -/

theorem payloadDropsOf {c : InstId} (hc : c.index < p.insts.size) :
    Persists (payloadDropsOf p lock c) (payloadDropsOf p' lock c) := by
  refine (fieldsOf (v := .inst c) h hc payloadPath).bind fun payloads hpayloads => ?_
  exact (Persists.mapM fun f hf => dropsOf (v := .inst f) h (lt_of_fieldsOf hpayloads f hf)).bind_pure _

include hp

/-- A store moves the payload into the object that it moved it into. -/
theorem relocationAt (l u : InstId) : Persists (relocationAt p l u) (relocationAt p' l u) := by
  refine (h.kindOf u).bind fun k hk => ?_
  cases k with
  | store v ptr =>
    refine .ite (fun _ => ?_) fun _ => .refl _
    refine (h.underlyingObject ptr).bind fun o ho => ?_
    -- the object is an old one, so it has no new users
    have hptr : ptr.Within p.sizes := (hp.kindOf_within hk).operands ptr (by simp [InstKind.operands])
    rw [Program.users_of_extendsApart h (within_of_underlyingObject hp hptr ho)]
    exact (withKind h _ _).bind_pure _
  | _ => exact .refl _

/-- **Payload moves persist.** -/
theorem relocationsOf {c : InstId} (hc : c.index < p.insts.size) :
    Persists (relocationsOf p lock c) (relocationsOf p' lock c) := by
  -- one more use at a time: the payload, the pointer in it, what is loaded from there, the stores of that
  refine (fieldsOf (v := .inst c) h hc payloadPath).bind fun payloads hpayloads => ?_
  refine (Persists.mapM fun f hf => fieldsOf (v := .inst f) h (lt_of_fieldsOf hpayloads f hf) innerPath).bind
    fun inner hinner => ?_
  have hinner' := forall_mem_flatten_of_mapM hinner fun f _ fields hfields => lt_of_fieldsOf hfields
  refine (Persists.mapM fun f hf => loadsOf (v := .inst f) h (hinner' f hf)).bind fun loads hloads => ?_
  have hloads' := forall_mem_flatten_of_mapM hloads fun f _ ls hls => lt_of_loadsOf hls
  refine (Persists.mapM fun l hl => ?_).bind_pure _
  exact (mapM_users (v := .inst l) h (hloads' l hl) fun u _ => relocationAt h hp l u).bind_pure _

/-! ## Carriers and releases -/

omit hp in
theorem unwrapped (u : InstId) : Persists (unwrapped p u) (unwrapped p' u) := by
  refine (h.inst u).bind fun x _ => (h.isVoid x.ty).bind fun void _ => .ite (fun _ => ?_) fun _ => .refl _
  cases x.kind.args?.getD [] with
  | nil => exact .refl _
  | cons out rest => exact (h.underlyingObject out).bind_pure _

theorem carriersAt {u : InstId} (hu : u.index < p.insts.size) :
    Persists (carriersAt p lock u) (carriersAt p' lock u) := by
  refine (h.callsA isRelease u).bind fun drops _ => .ite (fun _ => .refl _) fun _ => ?_
  -- calls and invokes are treated alike
  have hunwraps : Persists
      (do if ← p.callsA isUnwrap u then return (← Guard.unwrapped p u).map Carrier.guard else return [])
      (do if ← p'.callsA isUnwrap u then return (← Guard.unwrapped p' u).map Carrier.guard else return []) :=
    (h.callsA isUnwrap u).bind fun unwraps _ => .ite (fun _ => (unwrapped h u).bind_pure _) fun _ => .refl _
  refine (h.kindOf u).bind fun k _ => ?_
  cases k with
  | cast v => exact (relocationsOf h hp hu).bind_pure _
  | call callee args => exact hunwraps
  | invoke callee args normal unwind => exact hunwraps
  | _ => exact .refl _

/-- **Step lemma**: an old carrier leads to the carriers that it led to. -/
theorem carriersFrom {c : Carrier} (hc : c.Within p.sizes) :
    Persists (carriersFrom p lock c) (carriersFrom p' lock c) := by
  cases c with
  | guard g => exact (mapM_users h hc fun u hu => carriersAt h hp hu).bind_pure _
  | relocated o => exact .refl _

theorem releasesAt (g : Value) {u : InstId} (hu : u.index < p.insts.size) :
    Persists (releasesAt p lock g u) (releasesAt p' lock g u) := by
  refine (h.callsA isRelease u).bind fun drops _ => .ite (fun _ => .refl _) fun _ => ?_
  refine (h.kindOf u).bind fun k hk => ?_
  cases k with
  | load a => exact dropsOf (v := .inst u) h hu
  -- a guard in a slot is dropped there, or after it was loaded back
  | store v slot =>
    have hslot : slot.Within p.sizes := (hp.kindOf_within hk).operands slot (by simp [InstKind.operands])
    refine .ite (fun _ => ?_) fun _ => .refl _
    exact (dropsOf h hslot).bind fun _ _ => (reloadedDropsOf h hslot).bind_pure _
  | cast v => exact (failuresOf h hu).bind fun _ _ => (payloadDropsOf h hu).bind_pure _
  | _ => exact .refl _

theorem releasesFrom {c : Carrier} (hc : c.Within p.sizes) :
    Persists (releasesFrom p lock c) (releasesFrom p' lock c) := by
  cases c with
  | guard g => exact (mapM_users h hc fun u hu => releasesAt h hp g hu).bind_pure _
  | relocated o => exact (dropsOf h hc).bind fun _ _ => (reloadedDropsOf h hc).bind_pure _

omit hp in
/-- Of the values of the old tables, the same ones have a user. -/
theorem mem_allCarriers {c : Carrier} (hc : c.Within p.sizes) : c ∈ allCarriers p ↔ c ∈ allCarriers p' := by
  have hused {v : Value} (hv : v.Within p.sizes) : v ∈ p.usedValues ↔ v ∈ p'.usedValues := by
    rw [Program.mem_usedValues_iff, Program.mem_usedValues_iff, Program.users_of_extendsApart h hv]
  cases c with
  | guard v => simpa [allCarriers] using hused hc
  | relocated v => simpa [allCarriers] using hused hc

omit h hp in
theorem nodup_allCarriers (p : Program) : (allCarriers p).Nodup := by
  refine List.nodup_append.mpr ⟨?_, ?_, ?_⟩
  · exact p.usedValues_nodup.map fun v w heq => Carrier.guard.inj heq
  · exact p.usedValues_nodup.map fun v w heq => Carrier.relocated.inj heq
  · intro c hc d hd
    obtain ⟨v, -, rfl⟩ := List.mem_map.mp hc
    obtain ⟨w, -, rfl⟩ := List.mem_map.mp hd
    exact Carrier.noConfusion

variable (hends : p.ChainsEnd)

include hends

/-- **Run lemma**: the worklist of the release tracer comes to the carriers that it came to. -/
theorem carriers {g : Value} (hg : g.Within p.sizes) : Persists (carriers p lock g) (carriers p' lock g) := by
  refine persists_reach (P := Carrier.Within p.sizes) (fun c hc => carriersFrom h hp hc) ?_ ?_
    (fun c hc => mem_allCarriers h hc) (nodup_allCarriers p) (nodup_allCarriers p')
  · -- the worklist stays in the old tables
    intro c more _ hmore d hd
    exact within_of_leadsTo hp (((lists_carriersFrom hp hends c).mem_iff hmore).mp hd)
  · intro c hc
    obtain rfl := List.mem_singleton.mp hc
    exact hg

omit h in
/-- All of these belong to the old tables. -/
theorem within_of_mem_carriers {g : Value} (hg : g.Within p.sizes) {cs : List Carrier}
    (hcs : Guard.carriers p lock g = .ok cs) : ∀ c ∈ cs, c.Within p.sizes := by
  have hlists : Lists (Guard.carriers p lock g) _ :=
    lists_reach fun c _ => (lists_carriersFrom hp hends c).imp fun _ => And.left
  intro c hc
  have hreached := (hlists.mem_iff hcs).mp hc
  cases hreached with
  | start hwork _ =>
    obtain rfl := List.mem_singleton.mp hwork
    exact hg
  | step _ hnext hd _ => exact within_of_leadsTo hp (((lists_carriersFrom hp hends _).mem_iff hnext).mp hd)

/-- The guard of a lock call in the old tables is released where it was released. -/
theorem releases {g : Value} (hg : g.Within p.sizes) : Persists (releases p lock g) (releases p' lock g) := by
  intro rs hrs
  obtain ⟨cs, hcs, hrs⟩ := bind_eq_ok.mp hrs
  obtain ⟨found, hfound, hrs⟩ := bind_eq_ok.mp hrs
  cases hrs
  have hcs' := carriers h hp hends hg cs hcs
  have hfound' : cs.mapM (Guard.releasesFrom p' lock) = .ok found :=
    Persists.mapM (fun c hc => releasesFrom h hp (within_of_mem_carriers hp hends hg hcs c hc)) found hfound
  -- the releases are old instructions, so no new one is picked from the longer table
  have hold : ∀ i ∈ found.flatten, i.index < p.insts.size := by
    intro i hi
    have hall : (do return (← (← Guard.carriers p lock g).mapM (Guard.releasesFrom p lock)).flatten) =
        .ok found.flatten := bind_eq_ok.mpr ⟨cs, hcs, bind_eq_ok.mpr ⟨found, hfound, rfl⟩⟩
    exact lt_of_releasedAt hp (((lists_found lock hp hends g).mem_iff hall).mp hi)
  obtain ⟨more, hmore, hnew⟩ := h.exists_instIds
  have hnone : more.filter (fun i => found.flatten.contains i) = [] := by
    refine List.filter_eq_nil_iff.mpr fun i hi hcontains => ?_
    have hlt := hold i (List.contains_iff_mem.mp hcontains)
    have hge := hnew i hi
    omega
  have hsame : p'.instIds.filter (fun i => found.flatten.contains i) =
      p.instIds.filter fun i => found.flatten.contains i := by
    rw [hmore, List.filter_append, hnone, List.append_nil]
  exact bind_eq_ok.mpr ⟨cs, hcs', bind_eq_ok.mpr ⟨found, hfound', congrArg Except.ok hsame⟩⟩

end Extension

end Relock.Guard
