import Relock.Description.TypeText

/-!
# What the spelling of a type says

The reading of a type trims its text once and then passes over stars and blanks. Said without it: trim the
text, take off a star, trim what is left, and so on; what has no star in front is the base type.

* `Stripped`: taking the stars off a text;
* `stripped_countStars`, `Stripped.unique`: reading a text does that and nothing else;
* `Resolves`: the texts that spell a type when certain names are declared;
* `Spelling`: the type that a text spells.
-/

namespace Relock.Text

/-! ## Trimming -/

/-- A character stays if there is something to keep after it, or if it is no blank. -/
theorem trimRight_cons (c : Char) (s : List Char) :
    trimRight (c :: s) = if trimRight s = [] then trimRight [c] else c :: trimRight s := by
  simp only [trimRight, List.reverse_cons, List.dropWhile_append, List.isEmpty_iff, List.reverse_eq_nil_iff,
    List.reverse_nil, List.nil_append]
  split <;> simp

/-- A character that is no blank stays, and with it all in front of it. -/
theorem trimRight_cons_of_not_blank {c : Char} {s : List Char} (hc : isBlank c = false) :
    trimRight (c :: s) = c :: trimRight s := by
  rw [trimRight_cons]
  split
  · next hs =>
    rw [hs]
    simp [trimRight, hc]
  · rfl

/-- The two ends of a text can be trimmed in any order. -/
theorem trim_eq_dropWhile_trimRight (s : List Char) : trim s = (trimRight s).dropWhile isBlank := by
  induction s with
  | nil => rfl
  | cons c s ih =>
    cases hc : isBlank c with
    | false =>
      rw [trim, List.dropWhile_cons_of_neg (by simp [hc]), trimRight_cons_of_not_blank hc,
        List.dropWhile_cons_of_neg (by simp [hc])]
    | true =>
      -- a blank in front is dropped before the right end is looked at, or after; all blanks are dropped as one
      have htrim : trim (c :: s) = trim s := by rw [trim, List.dropWhile_cons_of_pos hc, trim]
      rw [htrim, ih, trimRight_cons]
      split
      · next hs =>
        rw [hs]
        simp [trimRight, hc]
      · rw [List.dropWhile_cons_of_pos hc]

/-- Trimming makes no text longer, which is what the induction on stars needs. -/
theorem length_trim_le (s : List Char) : (trim s).length ≤ s.length := by
  have hleft := (List.dropWhile_suffix isBlank (l := s)).length_le
  have hright := (List.dropWhile_suffix isBlank (l := (s.dropWhile isBlank).reverse)).length_le
  simp only [trim, trimRight, List.length_reverse] at hright ⊢
  omega

theorem trimRight_trimRight (s : List Char) : trimRight (trimRight s) = trimRight s := by
  induction s with
  | nil => rfl
  | cons c s ih =>
    cases hc : isBlank c with
    | false => rw [trimRight_cons_of_not_blank hc, trimRight_cons_of_not_blank hc, ih]
    | true =>
      rw [trimRight_cons]
      split
      · simp [trimRight, hc]
      · next hs => rw [trimRight_cons, ih, if_neg hs]

/-- What follows a character that is no blank is trimmed on its right as well. -/
theorem trimRight_of_trim_eq_cons {c : Char} {s rest : List Char} (hc : isBlank c = false)
    (h : trim s = c :: rest) : trimRight rest = rest := by
  have htwice : trimRight (trim s) = trim s := trimRight_trimRight _
  rw [h, trimRight_cons_of_not_blank hc] at htwice
  exact (List.cons.inj htwice).2

end Relock.Text

namespace Relock.Description

open Text

/-! ## Stars -/

/-- Trimmed, and trimmed again after each of `stars` stars that are taken off its front, the text is
`core`, which has no star in front. -/
inductive Stripped : Nat → List Char → List Char → Prop where
  | bare {s : List Char} (h : (trim s).head? ≠ some '*') : Stripped 0 s (trim s)
  | star {stars : Nat} {s rest core : List Char} (h : trim s = '*' :: rest)
      (hrest : Stripped stars rest core) : Stripped (stars + 1) s core

/-- **A text can be stripped in one way only**: the number of its stars and what is under them are determined. -/
theorem Stripped.unique {m n : Nat} {s core core' : List Char} (h : Stripped m s core)
    (h' : Stripped n s core') : m = n ∧ core = core' := by
  -- star by star; a text that has a star in front is not bare
  induction h generalizing n core' with
  | bare hs =>
    cases h' with
    | bare => exact ⟨rfl, rfl⟩
    | star hstar => simp [hstar] at hs
  | star hstar _ ih =>
    cases h' with
    | bare hs => simp [hstar] at hs
    | star hstar' hrest' =>
      rw [hstar] at hstar'
      cases hstar'
      obtain ⟨rfl, rfl⟩ := ih hrest'
      exact ⟨rfl, rfl⟩

/-- Blanks in front of a text are passed over. -/
theorem countStars_dropWhile (s : List Char) : countStars (s.dropWhile isBlank) = countStars s := by
  induction s with
  | nil => rfl
  | cons c s ih =>
    cases hc : isBlank c with
    | false => rw [List.dropWhile_cons_of_neg (by simp [hc])]
    | true =>
      have hstar : c ≠ '*' := by
        rintro rfl
        exact absurd hc (by decide)
      rw [List.dropWhile_cons_of_pos hc, ih, countStars]
      simp [hstar, hc]

/-- Whether the front is trimmed before the stars are counted does not matter. -/
theorem countStars_trimRight (s : List Char) : countStars (trimRight s) = countStars (trim s) := by
  rw [trim_eq_dropWhile_trimRight, countStars_dropWhile]

/-- Counting stars in a text that is trimmed once is taking them off one by one. -/
theorem stripped_countStars (s : List Char) :
    Stripped (countStars (trimRight s)).1 s (countStars (trimRight s)).2 := by
  rw [countStars_trimRight]
  -- each star leaves a shorter text
  induction hlength : s.length using Nat.strongRecOn generalizing s with
  | ind n ih =>
    have hle := length_trim_le s
    -- nothing is left, or what is left starts with a star, or with some other sign
    cases htrim : trim s with
    | nil =>
      have hbare : Stripped 0 s (trim s) := .bare (by simp [htrim])
      rwa [htrim] at hbare
    | cons c rest =>
      by_cases hc : c = '*'
      · subst hc
        have hrest : Stripped (countStars (trim rest)).1 rest (countStars (trim rest)).2 := by
          rw [htrim, List.length_cons] at hle
          exact ih rest.length (by omega) rest rfl
        have hstars : countStars ('*' :: rest) = ((countStars rest).1 + 1, (countStars rest).2) := by
          simp [countStars]
        -- the text after the star is trimmed already, but for the blanks in front of it
        rw [← countStars_trimRight, trimRight_of_trim_eq_cons (by decide) htrim] at hrest
        rw [hstars]
        exact .star htrim hrest
      · -- a trimmed text starts with no blank, so the count ends here
        have hblank : isBlank c = false := by
          have hhead : (trim s).head? = some c := by rw [htrim]; rfl
          rw [trim_eq_dropWhile_trimRight] at hhead
          have hnot := List.head?_dropWhile_not isBlank (trimRight s)
          rw [hhead] at hnot
          exact hnot
        have hbare : Stripped 0 s (trim s) := .bare (by simp [htrim, hc])
        simpa [countStars, hc, hblank, htrim] using hbare

/-! ## Base types -/

/-- The base type that a text without stars stands for. -/
inductive BaseOf : List Char → BaseType → Prop where
  | void : BaseOf "void".toList .void
  | int {digits : List Char} {bits : Nat} (h : readU32 digits = .ok bits) : BaseOf ('i' :: digits) (.int bits)
  | named {core : List Char} (hvoid : core ≠ "void".toList)
      (hint : ∀ digits bits, core = 'i' :: digits → readU32 digits ≠ .ok bits) :
      BaseOf core (.named (String.ofList core))

/-- Reading a base type finds the one that its text stands for. A text such as `i32x` is a name, since what
follows the `i` is no number. -/
theorem baseOf_ofText (core : List Char) : BaseOf core (BaseType.ofText core) := by
  unfold BaseType.ofText
  split
  · next hvoid =>
    rw [beq_iff_eq] at hvoid
    rw [hvoid]
    exact .void
  · next hvoid =>
    rw [beq_iff_eq] at hvoid
    split
    · next digits =>
      split
      · next bits hbits => exact .int hbits
      · -- an `i` with something else than a number after it
        next cause hcause =>
        refine .named hvoid ?_
        rintro digits' bits ⟨⟩ hbits
        rw [hcause] at hbits
        cases hbits
    · next hint =>
      refine .named hvoid ?_
      rintro digits bits rfl
      exact absurd rfl (hint digits)

/-! ## Texts that spell types -/

/-- The text `s` spells the type `t`. -/
def Spelling (s : String) (t : TypeText) : Prop :=
  ∃ core, Stripped t.stars s.toList core ∧ BaseOf core t.base

/-- **Reading a type is sound**: the text spells the type that is read from it. -/
theorem spelling_ofText (s : String) : Spelling s (TypeText.ofText s) :=
  ⟨_, stripped_countStars s.toList, baseOf_ofText _⟩

/-- With the types `names` declared the text `s` spells a type: under its stars stands `void`, `i` and a
number, or one of the names. -/
def Resolves (names : List String) (s : String) : Prop :=
  ∃ stars core, Stripped stars s.toList core ∧
    (core = "void".toList ∨ (∃ digits bits, core = 'i' :: digits ∧ readU32 digits = .ok bits) ∨
      String.ofList core ∈ names)

/-- Only a name can fail to resolve. -/
theorem resolves_iff {names : List String} {s : String} :
    Resolves names s ↔ ∀ name, (TypeText.ofText s).base = .named name → name ∈ names := by
  obtain ⟨core, hstripped, hbase⟩ := spelling_ofText s
  constructor
  · rintro ⟨stars, core', hstripped', hcore'⟩ name hname
    -- both are stripped from one text
    obtain ⟨-, rfl⟩ := hstripped'.unique hstripped
    rw [hname] at hbase
    cases hbase with
    | named hvoid hint =>
      rcases hcore' with hcore' | ⟨digits, bits, hcore', hbits⟩ | hcore'
      · exact absurd hcore' hvoid
      · exact absurd hbits (hint digits bits hcore')
      · exact hcore'
  · intro hnames
    refine ⟨_, core, hstripped, ?_⟩
    cases hb : (TypeText.ofText s).base with
    | void =>
      rw [hb] at hbase
      cases hbase
      exact .inl rfl
    | int bits =>
      rw [hb] at hbase
      cases hbase with
      | int h => exact .inr (.inl ⟨_, bits, rfl, h⟩)
    | named name =>
      rw [hb] at hbase
      cases hbase
      exact .inr (.inr (hnames _ hb))

end Relock.Description
