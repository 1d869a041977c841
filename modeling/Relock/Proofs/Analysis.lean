import Relock.Proofs.Audit
import Relock.Proofs.Description.Ownership
import Relock.Proofs.Detector.Safety

/-!
# Analyses of programs that were loaded

Loading a document checks every name in it, so a program that was loaded names only what it has, and the
body of a function only what belongs to that function. Analyses can rely on this: nothing they look up is
missing. They cannot rely on casts and field addresses to end. Loading lets an instruction be cast from
itself, and whoever follows the casts then goes round for ever.

* `analyses_never_out_of_range`: no analysis looks up what is not there;
* `chains_end_unless_circular`: chains end, and analyses with them, but for instructions that are computed
  from themselves;
* `circular_castOfItself`: there are such instructions.
-/

namespace Relock

open Tables

/-! ## Look-ups -/

/-- Every index in a program that was loaded is in range, and bodies refer to nothing in other bodies. So
the call graph, its text and the audit are computed without a fault, and the one fault that a detector can
raise is that of a chain of casts and field addresses that has no end, whatever it is configured to do. -/
theorem analyses_never_out_of_range {text : String} {p : Program} (hload : Program.load text = .ok p) :
    p.InRange ∧ p.SelfContained ∧
      (∃ graph dot, CallGraph.ofTables p.toTables = .ok graph ∧ graph.dot p.toTables = .ok dot) ∧
      (∃ reports, Audit.audit p = .ok reports) ∧
      ∀ (policy : Policy) (oracle : Oracle), (oracle = p.aliasing ∨ ∀ a b, ∃ r, oracle a b = .ok r) →
        ∃ d, Detector.ofProgram p oracle policy = .ok d ∧
          ((∃ found, d.detect = .ok found) ∨ ∃ v, d.detect = .error (.endlessChain v) ∧ p.Endless v) := by
  have hrange := Program.inRange_of_load hload
  have harranged := Program.arranged_of_load hload
  refine ⟨hrange, Program.selfContained_of_load hload, ?_, Audit.exists_audit hrange harranged,
    fun policy oracle horacle => ?_⟩
  · obtain ⟨graph, hgraph⟩ := CallGraph.exists_ofTables harranged
    obtain ⟨dot, hdot⟩ := CallGraph.exists_dot harranged hgraph hrange
    exact ⟨graph, dot, hgraph, hdot⟩
  · -- safe means: returned, or met a chain without an end
    obtain ⟨d, hd, hsafe⟩ := Detector.exists_safe hload policy horacle
    exact ⟨d, hd, hsafe.ok_or_endless⟩

/-- A lock on a value that is defined below, as a cast of itself. -/
def lockOfItself : String :=
  "[[],[],[[\"f\",[],\"void\",[[\"s\",[
    \x7b\"op\":\"call\",\"callee\":\"lock_api::mutex::Mutex<T>::lock\",\"args\":[\"a\"]\x7d,
    \x7b\"id\":\"a\",\"op\":\"cast\",\"value\":\"a\"\x7d]]]]]]"

set_option maxRecDepth 4000 in
/-- The document is loaded, and the detector faults on the chain if it faults at all. -/
theorem analyses_of_lockOfItself : ∃ p, Program.load lockOfItself = .ok p ∧
    p.kindOf ⟨1⟩ = .ok (.cast (.inst ⟨1⟩)) ∧ p.SelfContained ∧ (∃ reports, Audit.audit p = .ok reports) ∧
      ∃ d, Detector.ofProgram p p.aliasing .default = .ok d ∧
        ((∃ found, d.detect = .ok found) ∨ ∃ v, d.detect = .error (.endlessChain v) ∧ p.Endless v) := by
  obtain ⟨p, hload, hp⟩ : ∃ p, Program.load lockOfItself = .ok p ∧ p.toTables = {
      types := #[.void, .int 64]
      globals := #[]
      functions := #[⟨"f", [], ⟨0⟩, [⟨0⟩]⟩, ⟨"lock_api::mutex::Mutex<T>::lock", [], ⟨0⟩, []⟩]
      blocks := #[⟨"s", ⟨0⟩, [⟨0⟩, ⟨1⟩]⟩]
      insts := #[⟨.call (.direct ⟨1⟩) [.inst ⟨1⟩], ⟨0⟩, ⟨0⟩, none⟩, ⟨.cast (.inst ⟨1⟩), ⟨0⟩, ⟨0⟩, none⟩] } :=
    Program.exists_load_of_chars rfl (by decide +kernel)
  obtain ⟨-, hself, -, haudit, hdetect⟩ := analyses_never_out_of_range hload
  refine ⟨p, hload, ?_, hself, haudit, hdetect .default p.aliasing (.inl rfl)⟩
  rw [hp]
  rfl

/-! ## Chains -/

/-- In a program that was loaded, following casts and field addresses from a value ends after at most as
many steps as there are instructions, unless it leads to an instruction that is computed from itself. The
questions about a value whose chain ends have an answer. If no instruction is computed from itself, so have
those for the field that a lock is known by, for the releases of a guard and for the aliasing of values, and
every detector returns its reports. -/
theorem chains_end_unless_circular {text : String} {p : Program} (hload : Program.load text = .ok p) :
    (∀ v, (∃ n o, n ≤ p.insts.size ∧ p.EndsIn n v o) ↔ ¬ ∃ i k, p.DerivedFrom k v (.inst i) ∧ p.Circular i) ∧
    (∀ v, v.Within p.sizes → (∃ n o, p.EndsIn n v o) →
      (∃ w, p.stripCasts v = .ok w) ∧ (∃ o, p.underlyingObject v = .ok o) ∧ ∃ x, p.address v = .ok x) ∧
    ((∀ i, ¬ p.Circular i) →
      (∀ v, v.Within p.sizes → ∃ l, p.identityOf v = .ok l) ∧
      (∀ lock g, ∃ is, Guard.releases p lock g = .ok is) ∧
      (∀ a b, a.Within p.sizes → b.Within p.sizes → ∃ r, p.aliasing a b = .ok r) ∧
      ∀ (policy : Policy) (oracle : Oracle), (oracle = p.aliasing ∨ ∀ a b, ∃ r, oracle a b = .ok r) →
        ∃ d found, Detector.ofProgram p oracle policy = .ok d ∧ d.detect = .ok found) := by
  have hrange := Program.inRange_of_load hload
  refine ⟨fun v => ?_, fun v hv => ?_, fun hnone => ?_⟩
  · -- a chain that ends at all passes no instruction twice, which bounds its length
    rw [← endless_iff]
    constructor
    · rintro ⟨n, o, -, ho⟩ hendless
      exact hendless n o ho
    · intro hends
      by_contra hno
      exact hends fun n o ho => hno ⟨n, o, ho.le_size, ho⟩
  · rintro ⟨n, o, ho⟩
    -- a value whose chain ends has a derivation, from which its address is read
    obtain ⟨passed, hpassed⟩ := ho.exists_derivation hrange hv
    exact ⟨ho.exists_stripCasts hrange hv, ⟨o, ho.underlyingObject hrange hv⟩, _, bind_eq_ok.mpr ⟨_, hpassed, rfl⟩⟩
  · have hends := chainsEnd_iff_not_circular.mpr hnone
    refine ⟨fun v hv => ?_, fun lock g => ?_, fun a b ha hb => ?_, fun policy oracle horacle => ?_⟩
    · exact (safe_identityOf hrange hv).exists_ok hends
    · exact (Guard.safe_releases hrange g).exists_ok hends
    · exact exists_aliasing hrange hends ha hb
    · obtain ⟨d, hd, hsafe⟩ := Detector.exists_safe hload policy horacle
      obtain ⟨found, hfound⟩ := hsafe.exists_ok hends
      exact ⟨d, found, hd, hfound⟩

/-- A lock on a field, seen through two casts that are defined below it. -/
def lockThroughCasts : String :=
  "[[[\"M\",[\"i64\"]]],[],[[\"f\",[\"*M\"],\"void\",[[\"s\",[
    \x7b\"op\":\"call\",\"callee\":\"lock_api::mutex::Mutex<T>::lock\",\"args\":[\"c\"]\x7d,
    \x7b\"id\":\"c\",\"op\":\"cast\",\"value\":\"b\"\x7d,
    \x7b\"id\":\"b\",\"op\":\"field\",\"base\":\"a\",\"indices\":[0,0]\x7d,
    \x7b\"id\":\"a\",\"op\":\"cast\",\"value\":\"%0\"\x7d]]]]]]"

set_option maxRecDepth 4000 in
/-- Definitions below their use do no harm: this chain has three steps and ends. -/
theorem chains_end_lockThroughCasts : ∃ p, Program.load lockThroughCasts = .ok p ∧ (∀ i, ¬ p.Circular i) ∧
    (∃ n o, n ≤ p.insts.size ∧ p.EndsIn n (.inst ⟨1⟩) o) ∧ (∃ o, p.underlyingObject (.inst ⟨1⟩) = .ok o) ∧
      (∃ l, p.identityOf (.inst ⟨1⟩) = .ok l) ∧ ∃ is, Guard.releases p ⟨0⟩ (.inst ⟨0⟩) = .ok is := by
  obtain ⟨p, hload, hp⟩ : ∃ p, Program.load lockThroughCasts = .ok p ∧ p.toTables = {
      types := #[.void, .int 64, .record "M" [⟨1⟩], .pointer ⟨2⟩]
      globals := #[]
      functions := #[⟨"f", [⟨3⟩], ⟨0⟩, [⟨0⟩]⟩, ⟨"lock_api::mutex::Mutex<T>::lock", [], ⟨0⟩, []⟩]
      blocks := #[⟨"s", ⟨0⟩, [⟨0⟩, ⟨1⟩, ⟨2⟩, ⟨3⟩]⟩]
      insts := #[⟨.call (.direct ⟨1⟩) [.inst ⟨1⟩], ⟨0⟩, ⟨0⟩, none⟩, ⟨.cast (.inst ⟨2⟩), ⟨0⟩, ⟨0⟩, none⟩,
        ⟨.fieldAddr (.inst ⟨3⟩) [0, 0], ⟨0⟩, ⟨0⟩, none⟩, ⟨.cast (.arg ⟨0⟩ 0), ⟨0⟩, ⟨0⟩, none⟩] } :=
    Program.exists_load_of_chars rfl (by decide +kernel)
  have hends : p.ChainsEnd := by
    rw [chainsEnd_iff (Program.inRange_of_load hload), hp]
    decide +kernel
  have hnone := chainsEnd_iff_not_circular.mp hends
  have hwithin : (Value.inst ⟨1⟩).Within p.sizes := by
    rw [hp]
    decide
  obtain ⟨hlength, hanswers, hall⟩ := chains_end_unless_circular hload
  obtain ⟨hidentity, hreleases, -⟩ := hall hnone
  refine ⟨p, hload, hnone, (hlength _).mpr fun ⟨i, _, _, hi⟩ => hnone i hi, ?_, hidentity _ hwithin, hreleases _ _⟩
  exact (hanswers _ hwithin (hends _)).2.1

/-- An instruction that is cast from itself. -/
def castOfItself : String :=
  "[[],[],[[\"f\",[],\"void\",[[\"s\",[\x7b\"id\":\"a\",\"op\":\"cast\",\"value\":\"a\"\x7d]]]]]]"

/-- Nothing keeps an instruction that is cast from itself from being loaded, and then its casts lead back
to it for ever. -/
theorem circular_castOfItself : ∃ p, Program.load castOfItself = .ok p ∧ p.Circular ⟨0⟩ ∧
    (∀ n o, ¬ p.EndsIn n (.inst ⟨0⟩) o) ∧ p.stripCasts (.inst ⟨0⟩) = .error (.endlessChain (.inst ⟨0⟩)) := by
  obtain ⟨p, hload, hp⟩ : ∃ p, Program.load castOfItself = .ok p ∧ p.toTables = {
      types := #[.void, .int 64]
      globals := #[]
      functions := #[⟨"f", [], ⟨0⟩, [⟨0⟩]⟩]
      blocks := #[⟨"s", ⟨0⟩, [⟨0⟩]⟩]
      insts := #[⟨.cast (.inst ⟨0⟩), ⟨0⟩, ⟨0⟩, none⟩] } :=
    Program.exists_load_of_chars rfl (by decide +kernel)
  -- one step leads from the instruction back to it
  have hcircular : p.Circular ⟨0⟩ := by
    rw [hp]
    exact ⟨0, .step rfl (.refl _)⟩
  refine ⟨p, hload, hcircular, endless_iff.mpr ⟨⟨0⟩, 0, .refl _, hcircular⟩, ?_⟩
  rw [hp]
  rfl

end Relock
