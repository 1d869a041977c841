import Relock.Text.Pattern

/-!
# What patterns accept

* `literal_eq_true`: a literal accepts the texts that start with it and go on as the rest wants;
* `run_eq_true`, `somewhere_eq_true`: what is skipped before the rest;
* `Starts`: every text that a pattern accepts starts with one of the given ones;
* `Starts.disjoint`: two patterns have no text in common if none of their starts go together;
* `Heads`: a pattern wants one of the given texts and then another pattern.
-/

namespace Relock.Text.Pattern

variable {k : Pattern} {s : List Char}

/-- Characters are accepted one by one. -/
theorem chars_eq_true {w : List Char} : chars k w s = true ↔ ∃ r, s = w ++ r ∧ k r = true := by
  induction w generalizing s with
  | nil => simp [chars]
  | cons c w ih =>
    cases s with
    | nil => simp [chars]
    | cons d s =>
      simp only [chars, Bool.and_eq_true, beq_iff_eq, ih, List.cons_append, List.cons.injEq]
      constructor
      · rintro ⟨rfl, r, rfl, hr⟩
        exact ⟨r, ⟨rfl, rfl⟩, hr⟩
      · rintro ⟨r, ⟨rfl, rfl⟩, hr⟩
        exact ⟨rfl, r, rfl, hr⟩

/-- **A literal accepts the texts that start with it** and go on as the rest of the pattern wants. -/
theorem literal_eq_true {w : String} :
    literal w k s = true ↔ ∃ r, s = w.toList ++ r ∧ k r = true :=
  chars_eq_true

/-- A literal at the end of a pattern asks for a prefix. -/
theorem literal_anything {w : String} : literal w anything s = true ↔ w.toList <+: s := by
  rw [literal_eq_true]
  constructor
  · rintro ⟨r, rfl, -⟩
    exact List.prefix_append ..
  · rintro ⟨r, rfl⟩
    exact ⟨r, rfl, rfl⟩

theorem literal_append {v w : String} : literal (v ++ w) k s = true ↔ literal v (literal w k) s = true := by
  rw [literal_eq_true, literal_eq_true, String.toList_append]
  constructor
  · rintro ⟨r, rfl, hr⟩
    exact ⟨w.toList ++ r, List.append_assoc .., literal_eq_true.mpr ⟨r, rfl, hr⟩⟩
  · rintro ⟨q, rfl, hq⟩
    obtain ⟨r, rfl, hr⟩ := literal_eq_true.mp hq
    exact ⟨r, (List.append_assoc ..).symm, hr⟩

/-- What is optional may be there or not. -/
theorem optional_eq_true {w : String} :
    optional w k s = true ↔ literal w k s = true ∨ k s = true := by
  simp [optional]

/-- One of several literals is enough. -/
theorem oneOf_eq_true {ws : List String} : oneOf ws k s = true ↔ ∃ w ∈ ws, literal w k s = true := by
  simp [oneOf]

/-- A text whose last part is one of several. -/
theorem literal_oneOf {v w : String} {ws : List String} (hw : w ∈ ws) (h : literal (v ++ w) k s = true) :
    literal v (oneOf ws k) s = true := by
  obtain ⟨r, rfl, hr⟩ := literal_eq_true.mp (literal_append.mp h)
  exact literal_eq_true.mpr ⟨r, rfl, oneOf_eq_true.mpr ⟨w, hw, hr⟩⟩

/-- **A run skips any text on one line**, also none. Where it stops is left to what follows, so all ways to stop
count. -/
theorem run_eq_true : run k s = true ↔ ∃ w r, s = w ++ r ∧ '\n' ∉ w ∧ k r = true := by
  induction s with
  | nil =>
    constructor
    · intro hk
      exact ⟨[], [], rfl, List.not_mem_nil, hk⟩
    · rintro ⟨w, r, hs, -, hr⟩
      obtain ⟨rfl, rfl⟩ := List.append_eq_nil_iff.mp hs.symm
      exact hr
  | cons c s ih =>
    -- the rest is tried here first; to go on, `c` is skipped, which the end of a line is not
    rw [run, Bool.or_eq_true, Bool.and_eq_true, bne_iff_ne, ih]
    constructor
    · rintro (hk | ⟨hc, w, r, rfl, hw, hr⟩)
      · exact ⟨[], c :: s, rfl, List.not_mem_nil, hk⟩
      · exact ⟨c :: w, r, rfl, List.not_mem_cons_of_ne_of_not_mem hc.symm hw, hr⟩
    · rintro ⟨_ | ⟨d, w⟩, r, hs, hw, hr⟩
      · rw [List.nil_append] at hs
        exact .inl (hs ▸ hr)
      · cases hs
        rw [List.mem_cons, not_or] at hw
        exact .inr ⟨Ne.symm hw.1, w, r, rfl, hw.2, hr⟩

/-- A run that skips at least one character. -/
theorem run1_eq_true : run1 k s = true ↔ ∃ w r, s = w ++ r ∧ w ≠ [] ∧ '\n' ∉ w ∧ k r = true := by
  cases s with
  | nil => simp [run1]
  | cons c s =>
    -- `c` is skipped in any case, so what is skipped is not empty
    rw [run1, Bool.and_eq_true, bne_iff_ne, run_eq_true]
    constructor
    · rintro ⟨hc, w, r, rfl, hw, hr⟩
      exact ⟨c :: w, r, rfl, List.cons_ne_nil _ _, List.not_mem_cons_of_ne_of_not_mem hc.symm hw, hr⟩
    · rintro ⟨_ | ⟨d, w⟩, r, hs, hne, hw, hr⟩
      · exact absurd rfl hne
      · cases hs
        rw [List.mem_cons, not_or] at hw
        exact ⟨Ne.symm hw.1, w, r, rfl, hw.2, hr⟩

/-- A pattern without an anchor may start anywhere, on any line. -/
theorem somewhere_eq_true : somewhere k s = true ↔ ∃ w r, s = w ++ r ∧ k r = true := by
  induction s with
  | nil =>
    constructor
    · intro hk
      exact ⟨[], [], rfl, hk⟩
    · rintro ⟨w, r, hs, hr⟩
      obtain ⟨rfl, rfl⟩ := List.append_eq_nil_iff.mp hs.symm
      exact hr
  -- unlike in a run, any character is skipped
  | cons c s ih =>
    rw [somewhere, Bool.or_eq_true, ih]
    constructor
    · rintro (hk | ⟨w, r, rfl, hr⟩)
      · exact ⟨[], c :: s, rfl, hk⟩
      · exact ⟨c :: w, r, rfl, hr⟩
    · rintro ⟨_ | ⟨d, w⟩, r, hs, hr⟩
      · rw [List.nil_append] at hs
        exact .inl (hs ▸ hr)
      · cases hs
        exact .inr ⟨w, r, rfl, hr⟩

/-- A segment of a path ends at the end of the text or where the next one begins. -/
theorem segmentEnd_eq_true : segmentEnd s = true ↔ s = [] ∨ "::".toList <+: s := by
  rw [segmentEnd, Bool.or_eq_true, List.isEmpty_iff, literal_anything]

/-! ## How texts start -/

/-- Every text that `k` accepts starts with one of `ws`. -/
def Starts (k : Pattern) (ws : List (List Char)) : Prop :=
  ∀ s, k s = true → ∃ w ∈ ws, w <+: s

/-- What a literal accepts starts with it. -/
theorem starts_literal (w : String) (k : Pattern) : Starts (literal w k) [w.toList] := by
  intro s hs
  obtain ⟨r, rfl, -⟩ := literal_eq_true.mp hs
  exact ⟨w.toList, List.mem_cons_self .., List.prefix_append ..⟩

/-- An optional literal before another one gives two starts. -/
theorem starts_optional_literal (w v : String) (k : Pattern) :
    Starts (optional w (literal v k)) [w.toList ++ v.toList, v.toList] := by
  intro s hs
  rcases optional_eq_true.mp hs with hs | hs
  · obtain ⟨r, rfl, hr⟩ := literal_eq_true.mp hs
    obtain ⟨q, rfl, -⟩ := literal_eq_true.mp hr
    -- with the optional part both literals are there
    refine ⟨_, List.mem_cons_self .., ?_⟩
    rw [← List.append_assoc]
    exact List.prefix_append ..
  · obtain ⟨r, rfl, -⟩ := literal_eq_true.mp hs
    exact ⟨v.toList, by simp, List.prefix_append ..⟩

theorem Starts.or {l : Pattern} {ws vs : List (List Char)} (hk : Starts k ws) (hl : Starts l vs) :
    Starts (fun s => k s || l s) (ws ++ vs) := by
  intro s hs
  rcases Bool.or_eq_true _ _ ▸ hs with hs | hs
  · obtain ⟨w, hw, hstart⟩ := hk s hs
    exact ⟨w, List.mem_append_left _ hw, hstart⟩
  · obtain ⟨w, hw, hstart⟩ := hl s hs
    exact ⟨w, List.mem_append_right _ hw, hstart⟩

/-- Of two starts of one text the shorter one starts the longer one, so patterns none of whose starts go
together accept no common text. -/
theorem Starts.disjoint {l : Pattern} {ws vs : List (List Char)} (hk : Starts k ws) (hl : Starts l vs)
    (hapart : ∀ w ∈ ws, ∀ v ∈ vs, (w.isPrefixOf v || v.isPrefixOf w) = false) (hs : k s = true) :
    l s = false := by
  rw [← Bool.not_eq_true]
  intro hls
  obtain ⟨w, hw, hws⟩ := hk s hs
  obtain ⟨v, hv, hvs⟩ := hl s hls
  have hno := hapart w hw v hv
  rw [Bool.or_eq_false_iff] at hno
  -- both start the same text, so one of them starts the other
  rcases List.prefix_or_prefix_of_prefix hws hvs with h | h
  · rw [List.isPrefixOf_iff_prefix.mpr h] at hno
    exact Bool.noConfusion hno.1
  · rw [List.isPrefixOf_iff_prefix.mpr h] at hno
    exact Bool.noConfusion hno.2

/-- A pattern that wants one of `ws` and then `k`. -/
def Heads (l : Pattern) (ws : List (List Char)) (k : Pattern) : Prop :=
  ∀ s, l s = true ↔ ∃ w ∈ ws, ∃ r, s = w ++ r ∧ k r = true

theorem heads_literal (w : String) (k : Pattern) : Heads (literal w k) [w.toList] k := by
  intro s
  rw [literal_eq_true]
  simp

/-- A literal in front is put before each head. -/
theorem Heads.literal {l : Pattern} {ws : List (List Char)} (h : Heads l ws k) (v : String) :
    Heads (literal v l) (ws.map (v.toList ++ ·)) k := by
  intro s
  rw [literal_eq_true]
  constructor
  · rintro ⟨q, rfl, hq⟩
    obtain ⟨w, hw, r, rfl, hr⟩ := (h q).mp hq
    exact ⟨_, List.mem_map_of_mem hw, r, (List.append_assoc ..).symm, hr⟩
  · rintro ⟨_, hmem, r, rfl, hr⟩
    obtain ⟨w, hw, rfl⟩ := List.mem_map.mp hmem
    exact ⟨w ++ r, List.append_assoc .., (h _).mpr ⟨w, hw, r, rfl, hr⟩⟩

/-- An optional literal in front doubles the heads. -/
theorem Heads.optional {l : Pattern} {ws : List (List Char)} (h : Heads l ws k) (v : String) :
    Heads (optional v l) (ws.map (v.toList ++ ·) ++ ws) k := by
  intro s
  rw [optional_eq_true, h.literal v, h]
  simp only [List.mem_append, or_and_right, exists_or]

end Relock.Text.Pattern
