import Mathlib.Data.List.Forall2
import Relock.Program.Lookup

/-!
# Computations that may fault

Most questions about a program look something up and may fault. The lemmas here take such a computation
apart into its steps, and give the shape in which the answers are stated:

* `bind_eq_ok`, `mapM_eq_ok`, `filterM_eq_ok`: what each step of a successful computation returned;
* `mapM_eq_map`, `mapM_filter_eq_ok`: traversals whose results are changed or left out;
* `Succeeds x`: `x` returns a result, and how the parts of a computation decide whether the whole does;
* `Lists x P`: `x` does not fault, and what it lists is exactly what satisfies `P`;
* `Lists.flatMapM`, `Lists.bind`, `Lists.append`: how the parts of a computation make up the whole;
* `Collects x R items`: `x` does not fault, and its result is put together from the parts of the items.
-/

namespace Relock

variable {ε α β : Type}

/-- A computation in two steps returns `b` exactly if its first step returns something from which the second one
returns `b`. -/
@[simp] theorem bind_eq_ok {x : Except ε α} {f : α → Except ε β} {b : β} :
    (x >>= f) = .ok b ↔ ∃ a, x = .ok a ∧ f a = .ok b := by
  cases x with
  | error e => simp [bind, Except.bind]
  | ok a => simp [bind, Except.bind]

@[simp] theorem pure_eq_ok {a b : α} : (pure a : Except ε α) = .ok b ↔ a = b := by
  show Except.ok a = .ok b ↔ a = b
  simp

@[simp] theorem map_eq_ok {x : Except ε α} {f : α → β} {b : β} :
    f <$> x = .ok b ↔ ∃ a, x = .ok a ∧ f a = b := by
  cases x with
  | error e => simp [Functor.map, Except.map]
  | ok a => simp [Functor.map, Except.map]

@[simp] theorem ok_bind (a : α) (f : α → Except ε β) : (Except.ok a >>= f) = f a := rfl

/-- A computation returns `a` exactly if `a` is left when its fault is forgotten. Closed computations are
evaluated in this form, since options have decidable equality. -/
theorem toOption_eq_some {x : Except ε α} {a : α} : x.toOption = some a ↔ x = .ok a := by
  cases x <;> simp [Except.toOption]

/-- A computation does not fault if its first step does not, whatever that step returns. -/
theorem exists_bind_ok {x : Except ε α} {f : α → Except ε β} (hx : ∃ a, x = .ok a)
    (hf : ∀ a, x = .ok a → ∃ b, f a = .ok b) : ∃ b, (x >>= f) = .ok b := by
  obtain ⟨a, ha⟩ := hx
  obtain ⟨b, hb⟩ := hf a ha
  exact ⟨b, bind_eq_ok.mpr ⟨a, ha, hb⟩⟩

/-- A look-up returns the entry that the table has there. -/
theorem lookUp_eq_ok {table : Table} {xs : Array α} {n : Nat} {x : α} :
    lookUp table xs n = .ok x ↔ xs[n]? = some x := by
  unfold lookUp
  cases xs[n]? with
  | none => simp
  | some y => simp

/-! ## Lists that match item by item -/

/-- Lists that match item by item agree on whatever matching items agree on. -/
theorem map_eq_map_of_forall₂ {γ : Type} {R : α → β → Prop} {f : α → γ} {g : β → γ} {as : List α} {bs : List β}
    (h : List.Forall₂ R as bs) (hfg : ∀ a b, R a b → f a = g b) : as.map f = bs.map g := by
  induction h with
  | nil => rfl
  | cons hab _ ih => rw [List.map_cons, List.map_cons, hfg _ _ hab, ih]

/-- Each item on the right has its match on the left. -/
theorem exists_of_forall₂ {R : α → β → Prop} {as : List α} {bs : List β} (h : List.Forall₂ R as bs) {b : β}
    (hb : b ∈ bs) : ∃ a ∈ as, R a b := by
  induction h with
  | nil => cases hb
  | cons hab _ ih =>
    rcases List.mem_cons.mp hb with rfl | hb
    · exact ⟨_, List.mem_cons_self .., hab⟩
    · obtain ⟨a, ha, hR⟩ := ih hb
      exact ⟨a, List.mem_cons_of_mem _ ha, hR⟩

/-- What matches two lists one after the other is made of what matches each. -/
theorem forall₂_append_left {R : α → β → Prop} {as as' : List α} {bs : List β}
    (h : List.Forall₂ R (as ++ as') bs) :
    ∃ cs cs', bs = cs ++ cs' ∧ List.Forall₂ R as cs ∧ List.Forall₂ R as' cs' := by
  induction as generalizing bs with
  | nil => exact ⟨[], bs, rfl, .nil, h⟩
  | cons a as ih =>
    obtain _ | ⟨hab, htail⟩ := h
    obtain ⟨cs, cs', rfl, hcs, hcs'⟩ := ih htail
    exact ⟨_ :: cs, cs', rfl, .cons hab hcs, hcs'⟩

/-! ## Lists of computations -/

/-- The results of a traversal stand in the order of the items they belong to. -/
theorem mapM_eq_ok {f : α → Except ε β} {xs : List α} {ys : List β} :
    xs.mapM f = .ok ys ↔ List.Forall₂ (fun x y => f x = .ok y) xs ys := by
  induction xs generalizing ys with
  | nil => cases ys <;> simp
  | cons x xs ih =>
    rw [List.mapM_cons, bind_eq_ok]
    constructor
    · rintro ⟨y, hy, h⟩
      obtain ⟨zs, hzs, h⟩ := bind_eq_ok.mp h
      obtain rfl := pure_eq_ok.mp h
      exact .cons hy (ih.mp hzs)
    · rintro (_ | ⟨hy, hys⟩)
      exact ⟨_, hy, bind_eq_ok.mpr ⟨_, ih.mpr hys, rfl⟩⟩

/-- A traversal returns what it returns for some item. -/
theorem mem_of_mapM {f : α → Except ε β} {xs : List α} {ys : List β} (h : xs.mapM f = .ok ys)
    {y : β} : y ∈ ys ↔ ∃ x ∈ xs, f x = .ok y := by
  have hall := mapM_eq_ok.mp h
  -- the hypothesis is used up: the induction is on how items and results match
  clear h
  induction hall with
  | nil => simp
  | @cons x z xs ys hxy _ ih =>
    constructor
    · intro hy
      rcases List.mem_cons.mp hy with rfl | hy
      · exact ⟨x, List.mem_cons_self .., hxy⟩
      · obtain ⟨w, hw, hwy⟩ := ih.mp hy
        exact ⟨w, List.mem_cons_of_mem _ hw, hwy⟩
    · rintro ⟨w, hw, hwy⟩
      rcases List.mem_cons.mp hw with rfl | hw
      · rw [hxy] at hwy
        cases hwy
        exact List.mem_cons_self ..
      · exact List.mem_cons_of_mem _ (ih.mpr ⟨w, hw, hwy⟩)

/-- What holds of all parts that a traversal returns holds of the whole. -/
theorem forall_mem_flatten_of_mapM {f : α → Except ε (List β)} {xs : List α} {yss : List (List β)}
    (h : xs.mapM f = .ok yss) {P : β → Prop} (hP : ∀ x ∈ xs, ∀ ys, f x = .ok ys → ∀ y ∈ ys, P y) :
    ∀ y ∈ yss.flatten, P y := by
  intro y hy
  obtain ⟨ys, hys, hy⟩ := List.mem_flatten.mp hy
  obtain ⟨x, hx, hfx⟩ := (mem_of_mapM h).mp hys
  exact hP x hx ys hfx y hy

/-- What holds between the items of a traversal carries over to their results. -/
theorem pairwise_of_mapM {f : α → Except ε β} {xs : List α} {ys : List β} {R : α → α → Prop}
    {S : β → β → Prop} (h : xs.mapM f = .ok ys) (hxs : xs.Pairwise R)
    (hRS : ∀ {x x' y y'}, f x = .ok y → f x' = .ok y' → R x x' → S y y') : ys.Pairwise S := by
  induction xs generalizing ys with
  | nil =>
    cases mapM_eq_ok.mp h
    exact .nil
  | cons x xs ih =>
    obtain ⟨hx, hxs⟩ := List.pairwise_cons.mp hxs
    obtain _ | ⟨hy, hall⟩ := mapM_eq_ok.mp h
    have hys := mapM_eq_ok.mpr hall
    -- the first result against each later one, which belongs to a later item
    refine List.pairwise_cons.mpr ⟨fun y' hy' => ?_, ih hys hxs⟩
    obtain ⟨x', hx', hfx'⟩ := (mem_of_mapM hys).mp hy'
    exact hRS hy hfx' (hx x' hx')

/-- Changing every result of a traversal changes its list of results, whether or not it faults. -/
theorem mapM_eq_map {γ : Type} {f : α → Except ε β} {g : α → Except ε γ} {change : β → γ} {xs : List α}
    (h : ∀ x ∈ xs, g x = change <$> f x) : xs.mapM g = List.map change <$> xs.mapM f := by
  induction xs with
  | nil => rfl
  | cons x xs ih =>
    rw [List.mapM_cons, List.mapM_cons, h x (List.mem_cons_self ..),
      ih fun z hz => h z (List.mem_cons_of_mem _ hz)]
    -- a fault of the first item hides the others on both sides
    cases f x with
    | error e => rfl
    | ok y => cases xs.mapM f <;> rfl

/-- A traversal does not fault if no step of it does. -/
theorem exists_mapM_ok {f : α → Except ε β} {xs : List α} (h : ∀ x ∈ xs, ∃ y, f x = .ok y) :
    ∃ ys, xs.mapM f = .ok ys := by
  induction xs with
  | nil => exact ⟨[], rfl⟩
  | cons x xs ih =>
    obtain ⟨y, hy⟩ := h x (List.mem_cons_self ..)
    obtain ⟨ys, hys⟩ := ih fun z hz => h z (List.mem_cons_of_mem _ hz)
    exact ⟨y :: ys, mapM_eq_ok.mpr (.cons hy (mapM_eq_ok.mp hys))⟩

/-- The accumulator of a filter holds, last one first, the items kept so far. -/
private theorem filterAuxM_eq_ok {f : α → Except ε Bool} {test : α → Bool} {xs : List α}
    (acc : List α) (h : ∀ x ∈ xs, f x = .ok (test x)) :
    xs.filterAuxM f acc = .ok ((xs.filter test).reverse ++ acc) := by
  induction xs generalizing acc with
  | nil => rfl
  | cons x xs ih =>
    unfold List.filterAuxM
    rw [h x (List.mem_cons_self ..), ok_bind, ih _ fun z hz => h z (List.mem_cons_of_mem _ hz),
      List.filter_cons]
    cases test x <;> simp

/-- A filter whose test never faults is a plain filter. -/
theorem filterM_eq_ok {f : α → Except ε Bool} {test : α → Bool} {xs : List α}
    (h : ∀ x ∈ xs, f x = .ok (test x)) : xs.filterM f = .ok (xs.filter test) := by
  unfold List.filterM
  rw [filterAuxM_eq_ok [] h, ok_bind, List.append_nil, List.reverse_reverse]
  rfl

/-- The accumulator of a filter grows by some of the items, in their order. -/
private theorem sublist_of_filterAuxM {f : α → Except ε Bool} {xs ys : List α} (acc : List α)
    (h : xs.filterAuxM f acc = .ok ys) : ∃ zs : List α, zs.Sublist xs ∧ ys = zs.reverse ++ acc := by
  induction xs generalizing acc with
  | nil =>
    cases h
    exact ⟨[], .slnil, rfl⟩
  | cons x xs ih =>
    obtain ⟨keep, -, h⟩ := bind_eq_ok.mp h
    obtain ⟨zs, hzs, rfl⟩ := ih _ h
    cases keep with
    | true => exact ⟨x :: zs, hzs.cons_cons x, by simp⟩
    | false => exact ⟨zs, hzs.cons x, rfl⟩

/-- What a filter keeps stands in the order in which it stood before. -/
theorem sublist_of_filterM {f : α → Except ε Bool} {xs ys : List α} (h : xs.filterM f = .ok ys) :
    ys.Sublist xs := by
  obtain ⟨kept, hkept, h⟩ := bind_eq_ok.mp h
  obtain ⟨zs, hzs, rfl⟩ := sublist_of_filterAuxM [] hkept
  cases h
  simpa using hzs

/-- What a filter has at its end was in its accumulator or is an item that passes the test. -/
private theorem mem_of_filterAuxM {f : α → Except ε Bool} {xs ys acc : List α}
    (h : xs.filterAuxM f acc = .ok ys) {x : α} : x ∈ ys ↔ x ∈ acc ∨ x ∈ xs ∧ f x = .ok true := by
  induction xs generalizing acc with
  | nil =>
    cases h
    simp
  | cons z xs ih =>
    obtain ⟨keep, hkeep, h⟩ := bind_eq_ok.mp h
    rw [ih h]
    -- the first item is in the accumulator from here on if it is kept
    cases keep with
    | true => grind
    | false => grind

/-- A filter keeps exactly the items that pass its test. -/
theorem mem_of_filterM {f : α → Except ε Bool} {xs ys : List α} (h : xs.filterM f = .ok ys) {x : α} :
    x ∈ ys ↔ x ∈ xs ∧ f x = .ok true := by
  obtain ⟨kept, hkept, h⟩ := bind_eq_ok.mp h
  cases h
  rw [List.mem_reverse, mem_of_filterAuxM hkept]
  simp

/-! ## Computations that succeed -/

/-- `x` returns a result. -/
def Succeeds (x : Except ε α) : Prop := ∃ a, x = .ok a

theorem succeeds_ok (a : α) : Succeeds (.ok a : Except ε α) := ⟨a, rfl⟩

theorem not_succeeds_error (e : ε) : ¬ Succeeds (.error e : Except ε α) := by
  rintro ⟨_, ⟨⟩⟩

/-- A computation succeeds if its first step does and the rest then does. What the rest asks for may be
stated without the result of the first step. -/
theorem succeeds_bind {x : Except ε α} {f : α → Except ε β} {P : Prop}
    (h : ∀ a, x = .ok a → (Succeeds (f a) ↔ P)) : Succeeds (x >>= f) ↔ Succeeds x ∧ P := by
  constructor
  · rintro ⟨b, hb⟩
    obtain ⟨a, ha, hb⟩ := bind_eq_ok.mp hb
    exact ⟨⟨a, ha⟩, (h a ha).mp ⟨b, hb⟩⟩
  · rintro ⟨⟨a, ha⟩, hP⟩
    -- the first step has one result only, so the one that `h` speaks of is the one at hand
    exact exists_bind_ok ⟨a, ha⟩ fun a' ha' => (h a' ha').mpr hP

/-- A last step that cannot fail does not matter. -/
theorem succeeds_bind_pure {x : Except ε α} {f : α → β} :
    Succeeds (do return f (← x) : Except ε β) ↔ Succeeds x := by
  refine (succeeds_bind fun a _ => ?_).trans (by rw [and_true])
  exact iff_of_true (succeeds_ok (f a)) trivial

/-- A traversal succeeds if each of its steps does. The steps are independent, so this is an equivalence. -/
theorem succeeds_mapM {f : α → Except ε β} {xs : List α} :
    Succeeds (xs.mapM f) ↔ ∀ x ∈ xs, Succeeds (f x) := by
  induction xs with
  | nil => exact iff_of_true (succeeds_ok []) (by simp)
  | cons x xs ih =>
    rw [List.mapM_cons, succeeds_bind fun _ _ => succeeds_bind_pure, ih, List.forall_mem_cons]

/-! ## Computations that list what they find -/

/-- `x` does not fault and lists exactly the items with `P`. -/
def Lists (x : Except ε (List α)) (P : α → Prop) : Prop :=
  ∃ xs, x = .ok xs ∧ ∀ a, a ∈ xs ↔ P a

namespace Lists

variable {x y : Except ε (List α)} {P Q : α → Prop}

/-- What a listing computation returned is a list of the items with `P`. -/
theorem mem_iff {xs : List α} (h : Lists x P) (hx : x = .ok xs) {a : α} : a ∈ xs ↔ P a := by
  obtain ⟨ys, hy, hmem⟩ := h
  rw [hx] at hy
  cases hy
  exact hmem a

/-- What is listed may be described in another way. -/
theorem congr (h : Lists x P) (hPQ : ∀ a, P a ↔ Q a) : Lists x Q := by
  obtain ⟨xs, hx, hmem⟩ := h
  exact ⟨xs, hx, fun a => (hmem a).trans (hPQ a)⟩

theorem ok (xs : List α) : Lists (.ok xs : Except ε (List α)) (· ∈ xs) :=
  ⟨xs, rfl, fun _ => Iff.rfl⟩

theorem append (hx : Lists x P) (hy : Lists y Q) :
    Lists (do return (← x) ++ (← y)) fun a => P a ∨ Q a := by
  obtain ⟨xs, rfl, hxs⟩ := hx
  obtain ⟨ys, rfl, hys⟩ := hy
  refine ⟨xs ++ ys, rfl, fun a => ?_⟩
  rw [List.mem_append, hxs, hys]

theorem map (hx : Lists x P) (f : α → β) :
    Lists (do return (← x).map f) fun b => ∃ a, P a ∧ f a = b := by
  obtain ⟨xs, rfl, hxs⟩ := hx
  refine ⟨xs.map f, rfl, fun b => ?_⟩
  simp only [List.mem_map, hxs]

/-- What is found at some item of a list is what is found at each, put together. -/
theorem flatMapM {xs : List α} {f : α → Except ε (List β)} {R : α → β → Prop}
    (h : ∀ a ∈ xs, Lists (f a) (R a)) :
    Lists (do return (← xs.mapM f).flatten) fun b => ∃ a ∈ xs, R a b := by
  -- first that nothing faults, then what is in the parts
  obtain ⟨yss, hyss⟩ : ∃ yss, xs.mapM f = .ok yss := exists_mapM_ok fun a ha => (h a ha).imp fun _ => And.left
  refine ⟨yss.flatten, bind_eq_ok.mpr ⟨yss, hyss, rfl⟩, fun b => ?_⟩
  rw [List.mem_flatten]
  constructor
  · rintro ⟨ys, hys, hb⟩
    obtain ⟨a, ha, hfa⟩ := (mem_of_mapM hyss).mp hys
    obtain ⟨zs, hzs, hmem⟩ := h a ha
    rw [hzs] at hfa
    cases hfa
    exact ⟨a, ha, (hmem b).mp hb⟩
  · rintro ⟨a, ha, hab⟩
    obtain ⟨zs, hzs, hmem⟩ := h a ha
    exact ⟨zs, (mem_of_mapM hyss).mpr ⟨a, ha, hzs⟩, (hmem b).mpr hab⟩

/-- What is found from the items that are listed, put together. -/
theorem bind {f : α → Except ε (List β)} {R : α → β → Prop} (hx : Lists x P)
    (h : ∀ a, P a → Lists (f a) (R a)) :
    Lists (do return (← (← x).mapM f).flatten) fun b => ∃ a, P a ∧ R a b := by
  obtain ⟨xs, rfl, hxs⟩ := hx
  apply (flatMapM fun a ha => h a ((hxs a).mp ha)).congr
  intro b
  simp only [hxs]

/-- A filter lists the items that pass, if its test faults on none of them. -/
theorem filterM {xs : List α} {f : α → Except ε Bool} (h : ∀ a ∈ xs, ∃ b, f a = .ok b) :
    Lists (xs.filterM f) fun a => a ∈ xs ∧ f a = .ok true := by
  -- a test that does not fault is one without faults
  have htest : ∀ a ∈ xs, f a = .ok (f a matches .ok true) := by
    intro a ha
    obtain ⟨b, hb⟩ := h a ha
    rw [hb]
    cases b <;> rfl
  refine ⟨_, filterM_eq_ok htest, fun a => ?_⟩
  rw [List.mem_filter]
  constructor
  · rintro ⟨ha, hta⟩
    exact ⟨ha, by rw [htest a ha, hta]⟩
  · rintro ⟨ha, hfa⟩
    exact ⟨ha, by rw [hfa]⟩

end Lists

/-! ## Computations that put parts together -/

/-- `x` does not fault, and its result is made of one part for each item, in order. -/
def Collects (x : Except ε (List β)) (R : α → List β → Prop) (items : List α) : Prop :=
  ∃ parts, x = .ok parts.flatten ∧ List.Forall₂ R items parts

namespace Collects

variable {γ : Type} {x y : Except ε (List β)} {R : α → List β → Prop} {items others : List α}

theorem single {a : α} {part : List β} (hx : x = .ok part) (hpart : R a part) : Collects x R [a] :=
  ⟨[part], by simpa using hx, .cons hpart .nil⟩

theorem append (hx : Collects x R items) (hy : Collects y R others) :
    Collects (do return (← x) ++ (← y)) R (items ++ others) := by
  obtain ⟨parts, rfl, hparts⟩ := hx
  obtain ⟨parts', rfl, hparts'⟩ := hy
  refine ⟨parts ++ parts', ?_, List.rel_append hparts hparts'⟩
  rw [List.flatten_append]
  rfl

/-- A collection over a list of lists of items. -/
theorem flatMapM {xs : List γ} {f : γ → Except ε (List β)} {itemsOf : γ → List α}
    (h : ∀ c ∈ xs, Collects (f c) R (itemsOf c)) :
    Collects (do return (← xs.mapM f).flatten) R (xs.flatMap itemsOf) := by
  induction xs with
  | nil => exact ⟨[], rfl, .nil⟩
  | cons c xs ih =>
    obtain ⟨parts, hc, hparts⟩ := h c (List.mem_cons_self ..)
    obtain ⟨parts', hxs, hparts'⟩ := ih fun c' hc' => h c' (List.mem_cons_of_mem _ hc')
    obtain ⟨yss, hyss, heq⟩ := bind_eq_ok.mp hxs
    refine ⟨parts ++ parts', ?_, List.rel_append hparts hparts'⟩
    rw [List.mapM_cons, hc, ok_bind, hyss, List.flatten_append, ← pure_eq_ok.mp heq]
    rfl

/-- The items may be looked up first. -/
theorem flatMapM_of_mapM {xs : List γ} {f : γ → Except ε (List β)} {itemsOf : γ → Except ε (List α)}
    {itemss : List (List α)} (hitems : xs.mapM itemsOf = .ok itemss)
    (h : ∀ c ∈ xs, ∀ items, itemsOf c = .ok items → Collects (f c) R items) :
    Collects (do return (← xs.mapM f).flatten) R itemss.flatten := by
  have hall := mapM_eq_ok.mp hitems
  -- the items that were looked up, as a function of where they belong
  have hmap : xs.map (fun c => (itemsOf c).toOption.getD []) = itemss := by
    rw [← itemss.map_id]
    exact map_eq_map_of_forall₂ hall fun c items hc => by rw [hc]; rfl
  rw [← hmap, ← List.flatMap_def]
  refine flatMapM fun c hc => ?_
  obtain ⟨items, -, hok⟩ := exists_of_forall₂ hall.flip hc
  rw [hok]
  exact h c hc items hok

/-- Parts with at most one entry. -/
theorem reduceOption {f : α → Except ε (Option β)}
    (h : ∀ a ∈ items, ∃ r, f a = .ok r ∧ R a r.toList) :
    Collects (do return (← items.mapM f).reduceOption) R items := by
  induction items with
  | nil => exact ⟨[], rfl, .nil⟩
  | cons a items ih =>
    obtain ⟨r, hr, hpart⟩ := h a (List.mem_cons_self ..)
    obtain ⟨parts, hitems, hparts⟩ := ih fun a' ha' => h a' (List.mem_cons_of_mem _ ha')
    obtain ⟨rs, hrs, heq⟩ := bind_eq_ok.mp hitems
    -- an empty part is left out, which does not change the whole
    refine ⟨r.toList :: parts, ?_, .cons hpart hparts⟩
    rw [List.mapM_cons, hr, ok_bind, hrs, List.flatten_cons, ← pure_eq_ok.mp heq]
    cases r <;> rfl

end Collects

end Relock
