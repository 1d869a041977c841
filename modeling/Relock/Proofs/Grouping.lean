import Mathlib.Data.List.Induction
import Mathlib.Data.List.Sort
import Relock.Grouping
import Relock.Proofs.Faults

/-!
# Sorted lists and groups

What sorting and grouping do to the items of a list. Grouping loses no item and puts none into two
groups, if the order of the keys is a strict total order.

* `mem_of_lookup`, `lookup_of_mem`: association lists;
* `nodup_eraseDups`, `eraseDups_concat`: first occurrences;
* `sortBy_perm`, `sortBy_pairwise`: a sorted list has the same items;
* `StrictTotal`: what is asked of an order of keys;
* `mem_groupBy`, `lookup_groupBy`: the group of a key;
* `groupBy_perm`: all groups together;
* `filter_keyed`: the items of a key that is computed.
-/

namespace Relock

variable {κ α : Type}

/-! ## Association lists -/

theorem mem_of_lookup [BEq κ] [LawfulBEq κ] {xs : List (κ × α)} {k : κ} {a : α}
    (h : xs.lookup k = some a) : (k, a) ∈ xs := by
  obtain ⟨before, after, rfl, -⟩ := List.lookup_eq_some_iff.mp h
  exact List.mem_append_right _ (List.mem_cons_self ..)

theorem isSome_lookup [BEq κ] [LawfulBEq κ] {xs : List (κ × α)} {k : κ} :
    (xs.lookup k).isSome ↔ k ∈ xs.map Prod.fst := by
  rw [List.lookup_isSome_iff, List.mem_map]
  exact exists_congr fun x => and_congr_right fun _ => by rw [beq_iff_eq, eq_comm]

theorem lookup_map_snd {β : Type} [BEq κ] (xs : List (κ × α)) (f : α → β) (k : κ) :
    (xs.map fun e => (e.1, f e.2)).lookup k = (xs.lookup k).map f := by
  induction xs with
  | nil => rfl
  | cons e xs ih =>
    rw [List.map_cons, List.lookup_cons, List.lookup_cons, ih]
    cases k == e.1 <;> rfl

/-- With different keys, each entry is the one that is found. -/
theorem lookup_of_mem [BEq κ] [LawfulBEq κ] {xs : List (κ × α)} {k : κ} {a : α}
    (hkeys : (xs.map Prod.fst).Nodup) (h : (k, a) ∈ xs) : xs.lookup k = some a := by
  obtain ⟨before, after, rfl⟩ := List.append_of_mem h
  -- nothing before the entry has its key, as the keys are different
  refine List.lookup_eq_some_iff.mpr ⟨before, after, rfl, fun e he => ?_⟩
  rw [bne_iff_ne]
  rintro rfl
  rw [List.map_append, List.nodup_append] at hkeys
  exact hkeys.2.2 e.1 (List.mem_map_of_mem he) e.1 (by simp) rfl

/-! ## First occurrences -/

/-- The list of first occurrences has no item twice. -/
theorem nodup_eraseDups [BEq α] [LawfulBEq α] (l : List α) : l.eraseDups.Nodup := by
  cases l with
  | nil => simp
  | cons a l =>
    rw [List.eraseDups_cons, List.nodup_cons, List.mem_eraseDups]
    exact ⟨by simp, nodup_eraseDups _⟩
termination_by l.length
decreasing_by
  -- behind its head, the list of first occurrences is made from a filtered tail
  have := List.length_filter_le (fun b => !b == a) l
  simp only [List.length_cons]
  omega

/-- One more item is a new first occurrence or none. -/
theorem eraseDups_concat [BEq α] [LawfulBEq α] (l : List α) (a : α) :
    (l ++ [a]).eraseDups = if a ∈ l then l.eraseDups else l.eraseDups ++ [a] := by
  rw [List.eraseDups_append]
  by_cases ha : a ∈ l
  · simp [List.removeAll, ha]
  · simp [List.removeAll, ha, List.eraseDups_cons]

/-- A list without repetition is its own list of first occurrences. -/
theorem eraseDups_of_nodup [BEq α] [LawfulBEq α] {l : List α} (h : l.Nodup) : l.eraseDups = l := by
  induction l using List.reverseRecOn with
  | nil => simp
  | append_singleton l a ih =>
    obtain ⟨hl, -, ha⟩ := List.nodup_append.mp h
    have hnot : a ∉ l := fun hmem => ha a hmem a (by simp) rfl
    rw [eraseDups_concat, if_neg hnot, ih hl]

/-! ## Sorting -/

/-- Inserting is the library's ordered insertion, for the order in which `lt` does not go back. -/
theorem insertBy_eq_orderedInsert (lt : α → α → Bool) (a : α) (xs : List α) :
    insertBy lt a xs = xs.orderedInsert (fun a b => lt b a = false) a := by
  induction xs with
  | nil => rfl
  | cons b xs ih =>
    rw [insertBy, List.orderedInsert_cons, ih]
    cases lt b a <;> rfl

/-- Sorting is the insertion sort of the library. -/
theorem sortBy_eq_insertionSort (lt : α → α → Bool) (xs : List α) :
    sortBy lt xs = xs.insertionSort (fun a b => lt b a = false) := by
  induction xs with
  | nil => rfl
  | cons a xs ih =>
    rw [List.insertionSort_cons, ← ih, ← insertBy_eq_orderedInsert]
    rfl

/-- A sorted list has the items that it had before. -/
theorem sortBy_perm (lt : α → α → Bool) (xs : List α) : (sortBy lt xs).Perm xs := by
  rw [sortBy_eq_insertionSort]
  exact List.perm_insertionSort _ xs

/-- Sorted by a number, the numbers do not go back. -/
theorem sortBy_pairwise (key : α → Nat) (xs : List α) :
    (sortBy (fun a b => decide (key a < key b)) xs).Pairwise fun a b => key a ≤ key b := by
  rw [sortBy_eq_insertionSort]
  -- the relation that the sorted list is sorted by; on numbers it is `≤`
  let r (a b : α) : Prop := decide (key b < key a) = false
  have htotal : Std.Total r := ⟨fun a b => by simp only [r, decide_eq_false_iff_not]; omega⟩
  have htrans : IsTrans α r := ⟨fun a b c => by simp only [r, decide_eq_false_iff_not]; omega⟩
  refine (List.pairwise_insertionSort r xs).imp fun h => ?_
  simp only [r, decide_eq_false_iff_not] at h
  omega

/-! ## Keys -/

/-- A strict order in which any two keys are comparable. -/
structure StrictTotal (lt : κ → κ → Bool) : Prop where
  irrefl : ∀ a, lt a a = false
  trans : ∀ a b c, lt a b = true → lt b c = true → lt a c = true
  tri : ∀ a b, lt a b = false → lt b a = false → a = b

/-- Keys that are told apart by a number are ordered by it. -/
theorem strictTotal_of_injective {key : κ → Nat} (h : ∀ a b, key a = key b → a = b) :
    StrictTotal fun a b => decide (key a < key b) where
  irrefl a := by simp
  trans a b c := by simp only [decide_eq_true_eq]; omega
  tri a b hab hba := h a b (by simp only [decide_eq_false_iff_not] at hab hba; omega)

/-- Keys with two parts are ordered by the first one, and by the second one if the first ones agree. -/
theorem StrictTotal.lex {κ₁ κ₂ : Type} [BEq κ₁] [LawfulBEq κ₁] {lt₁ : κ₁ → κ₁ → Bool}
    {lt₂ : κ₂ → κ₂ → Bool} (h₁ : StrictTotal lt₁) (h₂ : StrictTotal lt₂) {fst : κ → κ₁} {snd : κ → κ₂}
    (hext : ∀ a b, fst a = fst b → snd a = snd b → a = b) :
    StrictTotal fun a b => lt₁ (fst a) (fst b) || (fst a == fst b && lt₂ (snd a) (snd b)) where
  irrefl a := by simp [h₁.irrefl, h₂.irrefl]
  trans a b c hab hbc := by
    simp only [Bool.or_eq_true, Bool.and_eq_true, beq_iff_eq] at hab hbc ⊢
    -- which of the two parts decides each comparison
    rcases hab with hab | ⟨heq, hab⟩
    · rcases hbc with hbc | ⟨heq, -⟩
      · exact .inl (h₁.trans _ _ _ hab hbc)
      · exact .inl (heq ▸ hab)
    · rcases hbc with hbc | ⟨heq', hbc⟩
      · exact .inl (heq ▸ hbc)
      · exact .inr ⟨heq.trans heq', h₂.trans _ _ _ hab hbc⟩
  tri a b hab hba := by
    simp only [Bool.or_eq_false_iff, Bool.and_eq_false_imp, beq_iff_eq] at hab hba
    have hfst := h₁.tri _ _ hab.1 hba.1
    exact hext a b hfst (h₂.tri _ _ (hab.2 hfst) (hba.2 hfst.symm))

variable {lt : κ → κ → Bool}

/-- A key that is inserted is added, or was there. -/
theorem mem_insertKey (hlt : StrictTotal lt) {k l : κ} {ks : List κ} :
    l ∈ insertKey lt k ks ↔ l = k ∨ l ∈ ks := by
  induction ks with
  | nil => simp [insertKey]
  | cons m ms ih =>
    rw [insertKey]
    split
    · simp
    · next hkm =>
      split
      · rw [List.mem_cons, ih, List.mem_cons]
        exact or_left_comm
      · next hmk =>
        -- neither comes before the other, so the key is there already
        obtain rfl := hlt.tri k m (by simpa using hkm) (by simpa using hmk)
        simp

/-- Inserting a key keeps the keys in order. -/
theorem insertKey_pairwise (hlt : StrictTotal lt) {k : κ} {ks : List κ}
    (hks : ks.Pairwise fun a b => lt a b = true) :
    (insertKey lt k ks).Pairwise fun a b => lt a b = true := by
  induction ks with
  | nil => exact List.pairwise_singleton _ _
  | cons m ms ih =>
    obtain ⟨hm, hms⟩ := List.pairwise_cons.mp hks
    rw [insertKey]
    -- before the first key, behind it, or equal to it
    split
    · next hkm =>
      refine List.pairwise_cons.mpr ⟨fun a ha => ?_, hks⟩
      rcases List.mem_cons.mp ha with rfl | ha
      · exact hkm
      · exact hlt.trans k m a hkm (hm a ha)
    · split
      · next hmk =>
        refine List.pairwise_cons.mpr ⟨fun a ha => ?_, ih hms⟩
        rcases (mem_insertKey hlt).mp ha with rfl | ha
        · exact hmk
        · exact hm a ha
      · exact hks

theorem mem_sortedKeys (hlt : StrictTotal lt) {k : κ} {ks : List κ} :
    k ∈ sortedKeys lt ks ↔ k ∈ ks := by
  induction ks with
  | nil => rfl
  | cons l ks ih =>
    show k ∈ insertKey lt l (sortedKeys lt ks) ↔ _
    rw [mem_insertKey hlt, ih, List.mem_cons]

theorem sortedKeys_nodup (hlt : StrictTotal lt) (ks : List κ) : (sortedKeys lt ks).Nodup := by
  have hsorted : (sortedKeys lt ks).Pairwise fun a b => lt a b = true := by
    induction ks with
    | nil => exact .nil
    | cons l ks ih => exact insertKey_pairwise hlt ih
  -- in a strict order a key does not come before itself
  refine hsorted.imp fun {a b} hab heq => ?_
  rw [heq, hlt.irrefl] at hab
  cases hab

/-! ## Groups -/

variable [BEq κ] [LawfulBEq κ]

omit [LawfulBEq κ] in
/-- The group of a key that occurs holds the items with that key, in their order. -/
theorem mem_groupBy (hlt : StrictTotal lt) {xs : List (κ × α)} {k : κ} {group : List α} :
    (k, group) ∈ groupBy lt xs ↔
      k ∈ xs.map Prod.fst ∧ group = (xs.filter fun x => x.1 == k).map Prod.snd := by
  rw [groupBy, List.mem_map]
  constructor
  · rintro ⟨l, hl, h⟩
    cases h
    exact ⟨(mem_sortedKeys hlt).mp hl, rfl⟩
  · rintro ⟨hk, rfl⟩
    exact ⟨k, (mem_sortedKeys hlt).mpr hk, rfl⟩

theorem groupBy_ne_nil (hlt : StrictTotal lt) {xs : List (κ × α)} {e : κ × List α} (he : e ∈ groupBy lt xs) :
    e.2 ≠ [] := by
  obtain ⟨hk, hgroup⟩ := (mem_groupBy hlt).mp he
  obtain ⟨x, hx, hkey⟩ := List.mem_map.mp hk
  rw [hgroup]
  exact List.ne_nil_of_mem (List.mem_map_of_mem (List.mem_filter.mpr ⟨hx, beq_iff_eq.mpr hkey⟩))

/-- Looking a key up gives its group, and nothing if the group would be empty. -/
theorem lookup_groupBy (hlt : StrictTotal lt) (xs : List (κ × α)) (k : κ) :
    (groupBy lt xs).lookup k =
      if ((xs.filter fun x => x.1 == k).map Prod.snd).isEmpty then none
      else some ((xs.filter fun x => x.1 == k).map Prod.snd) := by
  by_cases hk : k ∈ xs.map Prod.fst
  · -- each key is paired with its group, so the first entry of the key is the one
    rw [groupBy, List.lookup_graph _ ((mem_sortedKeys hlt).mpr hk), if_neg]
    obtain ⟨x, hx, rfl⟩ := List.mem_map.mp hk
    simpa using ⟨x.2, hx⟩
  · -- a key that does not occur has no entry, and no items
    have hnone : (groupBy lt xs).lookup k = none := by
      rw [List.lookup_eq_none_iff]
      rintro ⟨l, group⟩ hgroup
      rw [bne_iff_ne]
      rintro rfl
      exact hk ((mem_groupBy hlt).mp hgroup).1
    rw [hnone, if_pos]
    simp only [List.isEmpty_iff, List.map_eq_nil_iff, List.filter_eq_nil_iff, beq_iff_eq]
    rintro x hx rfl
    exact hk (List.mem_map_of_mem hx)

/-- The items of one key after the other are all items, if every key has its turn once. -/
theorem flatMap_filter_perm (key : α → κ) {ks : List κ} (hks : ks.Nodup) {xs : List α}
    (hxs : ∀ x ∈ xs, key x ∈ ks) : (ks.flatMap fun k => xs.filter fun x => key x == k).Perm xs := by
  -- one key at a time: its items first, then by induction the others
  induction ks generalizing xs with
  | nil =>
    obtain rfl : xs = [] := List.eq_nil_iff_forall_not_mem.mpr fun x hx => by cases hxs x hx
    exact .nil
  | cons k ks ih =>
    obtain ⟨hk, hks⟩ := List.nodup_cons.mp hks
    have hrest : ∀ x ∈ xs.filter (fun x => !(key x == k)), key x ∈ ks := by
      intro x hx
      obtain ⟨hx, hne⟩ := List.mem_filter.mp hx
      exact (List.mem_cons.mp (hxs x hx)).resolve_left (by simpa using hne)
    -- taking the items of `k` out changes no other key's items
    have hsame : (ks.flatMap fun l => (xs.filter fun x => !(key x == k)).filter fun x => key x == l) =
        ks.flatMap fun l => xs.filter fun x => key x == l := by
      apply List.flatMap_congr
      intro l hl
      rw [List.filter_filter]
      apply List.filter_congr
      intro x _
      by_cases hxl : key x = l
      · subst hxl
        have hxk : key x ≠ k := by
          rintro rfl
          exact hk hl
        simp [hxk]
      · simp [hxl]
    rw [List.flatMap_cons, ← hsame]
    exact ((ih hks hrest).append_left _).trans (List.filter_append_perm _ xs)

/-- No item is lost by grouping, and none gets into two groups. -/
theorem groupBy_perm (hlt : StrictTotal lt) (xs : List (κ × α)) :
    ((groupBy lt xs).flatMap Prod.snd).Perm (xs.map Prod.snd) := by
  have hall : ∀ x ∈ xs, x.1 ∈ sortedKeys lt (xs.map Prod.fst) := fun x hx =>
    (mem_sortedKeys hlt).mpr (List.mem_map_of_mem hx)
  -- the keys are different and each item has one of them
  have hperm := (flatMap_filter_perm Prod.fst (sortedKeys_nodup hlt _) hall).map Prod.snd
  rw [List.map_flatMap] at hperm
  rwa [groupBy, List.flatMap_map]

/-! ## Computed keys -/

section Keyed

variable {ε : Type} {key : α → Except ε κ} {xs : List α} {keyed : List (κ × α)}
  (h : (xs.mapM fun x => do return (← key x, x)) = .ok keyed)

include h

omit [BEq κ] [LawfulBEq κ] in
/-- Computing a key for each item keeps the items. -/
theorem map_snd_keyed : keyed.map Prod.snd = xs := by
  have hall := mapM_eq_ok.mp h
  clear h
  induction hall with
  | nil => rfl
  | cons hx _ ih =>
    obtain ⟨k, -, hk⟩ := bind_eq_ok.mp hx
    cases hk
    rw [List.map_cons, ih]

omit [LawfulBEq κ] in
/-- The items that a key was computed for. -/
theorem filter_keyed (k : κ) : (keyed.filter fun e => e.1 == k).map Prod.snd =
    xs.filter fun x => (key x).toOption == some k := by
  have hall := mapM_eq_ok.mp h
  clear h
  induction hall with
  | nil => rfl
  | @cons x e xs keyed hx _ ih =>
    obtain ⟨l, hl, he⟩ := bind_eq_ok.mp hx
    cases he
    have htest : ((key x).toOption == some k) = (l == k) := by
      rw [hl]
      rfl
    rw [List.filter_cons, List.filter_cons, htest, ← ih]
    cases l == k <;> rfl

end Keyed

end Relock
