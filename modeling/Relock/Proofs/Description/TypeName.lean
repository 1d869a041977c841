import Relock.Proofs.Description.TypeTable
import Relock.Proofs.Description.Types

/-!
# Printed types are read back

A type can be spelled in many ways: with blanks around each star, with a sign or zeros in front of the bits of
an integer. It is printed in one of them. Reading what is printed gives the same type again, since what was
read as a name can be no star, no blank and no integer, and since a type that is in the table is found there.

* `readDigits_eq_ok`, `readU32_toString`: numbers;
* `TypeText.spell`, `ofText_spell`: a spelling that is read as what it spells;
* `Tables.Denotes.typeName_eq`: types are printed with this spelling;
* `resolveType_of_denotes`: a type that is in the table is resolved to itself;
* `resolveType_typeName`: what was resolved, printed and resolved again.
-/

namespace Relock.Text

/-! ## Numbers -/

theorem le_ofDigitChars (n : Nat) (s : List Char) : n ≤ Nat.ofDigitChars 10 s n := by
  induction s generalizing n with
  | nil => exact Nat.le_refl n
  | cons c s ih =>
    rw [Nat.ofDigitChars_cons]
    have hrest := ih (10 * n + (c.toNat - '0'.toNat))
    omega

/-- Reading stops at the first digit that makes the number too large. -/
theorem readDigits_cons (n : Nat) (c : Char) (s : List Char) : readDigits n (c :: s) =
    if c.isDigit then
      if 10 * n + (c.toNat - '0'.toNat) < UInt32.size then readDigits (10 * n + (c.toNat - '0'.toNat)) s
      else .error .tooLarge
    else .error .invalidDigit :=
  rfl

/-- Digits are read as the number that they denote, if it is small enough. No number on the way is larger. -/
theorem readDigits_eq_ok {n m : Nat} {s : List Char} (hn : n < UInt32.size) :
    readDigits n s = .ok m ↔ (∀ c ∈ s, c.isDigit) ∧ Nat.ofDigitChars 10 s n = m ∧ m < UInt32.size := by
  induction s generalizing n with
  | nil =>
    rw [Nat.ofDigitChars_nil]
    constructor
    · rintro ⟨⟩
      exact ⟨by simp, rfl, hn⟩
    · rintro ⟨-, rfl, -⟩
      rfl
  | cons c s ih =>
    rw [readDigits_cons, Nat.ofDigitChars_cons, List.forall_mem_cons]
    split
    · next hdigit =>
      rw [and_iff_right hdigit]
      split
      · next hlt => exact ih hlt
      · next hlt =>
        -- digits only add to a number, so one that is too large stays too large
        refine iff_of_false (by simp) ?_
        rintro ⟨-, rfl, hlt'⟩
        exact hlt (Nat.lt_of_le_of_lt (le_ofDigitChars _ s) hlt')
    · next hdigit => exact iff_of_false (by simp) fun h => hdigit h.1.1

theorem readU32_eq_readDigits {c : Char} {s : List Char} (hc : c ≠ '+') : readU32 (c :: s) = readDigits 0 (c :: s) := by
  unfold readU32
  split
  · next h => cases h
  · next h => exact absurd (List.cons.inj h).1 hc
  · next h => exact absurd (List.cons.inj h).1 hc
  · rfl

theorem lt_of_readU32 {s : List Char} {n : Nat} (h : readU32 s = .ok n) : n < UInt32.size := by
  have hdigits {s : List Char} (h : readDigits 0 s = .ok n) : n < UInt32.size :=
    ((readDigits_eq_ok (by decide)).mp h).2.2
  unfold readU32 at h
  split at h
  · cases h
  · cases h
  · exact hdigits h
  · exact hdigits h

/-- A number that was printed is read back. -/
theorem readU32_toString {n : Nat} (hn : n < UInt32.size) : readU32 (toString n).toList = .ok n := by
  rw [Nat.toString_eq_ofList_toDigits, String.toList_ofList]
  have hdigits : ∀ c ∈ Nat.toDigits 10 n, c.isDigit := fun c hc => Nat.isDigit_of_mem_toDigits (by decide) (by decide) hc
  have hread : readDigits 0 (Nat.toDigits 10 n) = .ok n :=
    (readDigits_eq_ok (by decide)).mpr ⟨hdigits, Nat.ofDigitChars_ten_toDigits, hn⟩
  cases hlist : Nat.toDigits 10 n with
  | nil => exact absurd hlist Nat.toDigits_ne_nil
  | cons c s =>
    rw [hlist] at hdigits hread
    -- a printed number starts with no sign
    have hc : c ≠ '+' := by
      rintro rfl
      exact absurd (hdigits '+' (List.mem_cons_self ..)) (by decide)
    rw [readU32_eq_readDigits hc, hread]

theorem isBlank_of_isDigit {c : Char} (h : c.isDigit) : isBlank c = false := by
  -- digits are in the range of the codes 48 to 57, and blanks are not
  have hrange : 48 ≤ c.toNat ∧ c.toNat ≤ 57 := by
    simpa [Char.isDigit, UInt32.le_iff_toNat_le] using h
  simp only [isBlank, Bool.or_eq_false_iff, Bool.and_eq_false_imp, decide_eq_true_eq, decide_eq_false_iff_not,
    beq_eq_false_iff_ne]
  omega

theorem trimRight_eq_self {s : List Char} (h : ∀ c ∈ s, isBlank c = false) : trimRight s = s := by
  induction s with
  | nil => rfl
  | cons c s ih =>
    obtain ⟨hc, hs⟩ := List.forall_mem_cons.mp h
    rw [trimRight_cons_of_not_blank hc, ih hs]

theorem trimRight_toString (n : Nat) : trimRight (toString n).toList = (toString n).toList := by
  rw [Nat.toString_eq_ofList_toDigits, String.toList_ofList]
  exact trimRight_eq_self fun c hc => isBlank_of_isDigit (Nat.isDigit_of_mem_toDigits (by decide) (by decide) hc)

end Relock.Text

namespace Relock.Description

open Text

/-! ## Spellings -/

/-- A text that is left when stars and blanks are taken off a type: it is trimmed and has no star in front. -/
structure IsCore (core : List Char) : Prop where
  right : trimRight core = core
  left : ∀ c, core.head? = some c → isBlank c = false ∧ c ≠ '*'

/-- What is left when stars and blanks are taken off has none around it. -/
theorem Stripped.isCore {stars : Nat} {s core : List Char} (h : Stripped stars s core) : IsCore core := by
  induction h with
  | star _ _ ih => exact ih
  | @bare s hs =>
    refine ⟨trimRight_trimRight _, fun c hc => ⟨?_, fun hstar => hs (hstar ▸ hc)⟩⟩
    rw [trim_eq_dropWhile_trimRight] at hc
    have hnot := List.head?_dropWhile_not isBlank (trimRight s)
    rw [hc] at hnot
    exact hnot

/-- Stars in front of a core are all that is taken off. -/
theorem IsCore.countStars_eq {core : List Char} (h : IsCore core) (stars : Nat) :
    countStars (trimRight (List.replicate stars '*' ++ core)) = (stars, core) := by
  -- neither a star nor a core ends in a blank
  have htrim : trimRight (List.replicate stars '*' ++ core) = List.replicate stars '*' ++ core := by
    induction stars with
    | zero => exact h.right
    | succ stars ih =>
      rw [List.replicate_succ, List.cons_append, trimRight_cons_of_not_blank (by decide), ih]
  rw [htrim]
  clear htrim
  induction stars with
  | zero =>
    cases core with
    | nil => rfl
    | cons c core =>
      obtain ⟨hblank, hstar⟩ := h.left c rfl
      simp [countStars, hblank, hstar]
  | succ stars ih => simp [List.replicate_succ, countStars, ih]

/-- How a base type is printed. -/
def BaseType.spell : BaseType → String
  | .void => "void"
  | .int bits => "i" ++ toString bits
  | .named name => name

/-- How a type is printed. -/
def TypeText.spell (t : TypeText) : String :=
  String.ofList (List.replicate t.stars '*') ++ t.base.spell

theorem TypeText.spell_succ (stars : Nat) (base : BaseType) :
    (TypeText.mk (stars + 1) base).spell = "*" ++ (TypeText.mk stars base).spell := by
  apply String.toList_injective
  simp [spell, List.replicate_succ]

/-- A text that stands for a base type is read as it. -/
theorem BaseOf.ofText_eq {core : List Char} {base : BaseType} (h : BaseOf core base) : BaseType.ofText core = base := by
  cases h with
  | void => rfl
  | int h =>
    unfold BaseType.ofText
    rw [if_neg (by simp)]
    simp only [h]
  | named hvoid hint =>
    unfold BaseType.ofText
    rw [if_neg (by simpa using hvoid)]
    split
    · -- a name that starts with an `i` is read as a name, since no number follows
      next digits =>
      split
      · next bits hbits => exact absurd hbits (hint digits bits rfl)
      · rfl
    · rfl

/-- What stands for a base type when it is printed is a core that stands for it. -/
theorem BaseOf.spell {core : List Char} {base : BaseType} (hcore : IsCore core) (h : BaseOf core base) :
    IsCore base.spell.toList ∧ BaseOf base.spell.toList base := by
  cases h with
  | void =>
    refine ⟨⟨by decide, ?_⟩, .void⟩
    rintro _ ⟨⟩
    decide
  | @int digits bits h =>
    -- a sign and zeros in front are not printed, so the digits may differ from those that were read
    have hread := readU32_toString (lt_of_readU32 h)
    have hlist : (BaseType.int bits).spell.toList = 'i' :: (toString bits).toList := by
      simp [BaseType.spell]
    rw [hlist]
    refine ⟨⟨?_, ?_⟩, .int hread⟩
    · rw [trimRight_cons_of_not_blank (by decide), trimRight_toString]
    · rintro _ ⟨⟩
      decide
  | named hvoid hint =>
    -- a name is printed as it was read
    rw [BaseType.spell, String.toList_ofList]
    exact ⟨hcore, .named hvoid hint⟩

/-- A type that was read, printed and read again is the same type. -/
theorem ofText_spell {s : String} {text : TypeText} (h : Spelling s text) : TypeText.ofText text.spell = text := by
  obtain ⟨core, hstripped, hbase⟩ := h
  obtain ⟨hspell, hbase⟩ := hbase.spell hstripped.isCore
  unfold TypeText.ofText
  rw [TypeText.spell, String.toList_append, String.toList_ofList, hspell.countStars_eq]
  simp only [hbase.ofText_eq]

end Relock.Description

namespace Relock

open Description

/-! ## Printing -/

namespace Tables

variable {t : Tables} {base : BaseType} {stars : Nat} {i : TypeId}

/-- A base type is printed as it is spelled. -/
theorem typeNameWithin_of_describes {k : TypeKind} (hi : t.type i = .ok k) (hk : base.Describes k) (fuel : Nat) :
    t.typeNameWithin (fuel + 1) i = .ok base.spell := by
  unfold typeNameWithin
  rw [hi, ok_bind]
  cases base with
  | void =>
    cases hk
    rfl
  | int bits =>
    cases hk
    rfl
  | named name =>
    cases k with
    | record name' fields =>
      cases hk
      rfl
    | bodyless name' =>
      cases hk
      rfl
    | _ => cases hk

/-- Stars are printed one by one, if there is fuel for all of them. -/
theorem Denotes.typeNameWithin_eq (h : t.Denotes base stars i) {fuel : Nat} (hfuel : stars < fuel) :
    t.typeNameWithin fuel i = .ok (TypeText.mk stars base).spell := by
  induction h generalizing fuel with
  | base hi hk =>
    obtain ⟨fuel, rfl⟩ := Nat.exists_eq_succ_of_ne_zero (Nat.ne_of_gt hfuel)
    rw [typeNameWithin_of_describes hi hk]
    simp [TypeText.spell]
  | @pointer stars i p hp _ ih =>
    obtain ⟨fuel, rfl⟩ := Nat.exists_eq_succ_of_ne_zero (Nat.ne_of_gt (Nat.zero_lt_of_lt hfuel))
    unfold typeNameWithin
    rw [hp, ok_bind]
    simp only [ih (Nat.lt_of_succ_lt_succ hfuel), ok_bind, TypeText.spell_succ]
    rfl

/-- Each star leads further back in the table. -/
theorem Denotes.le_index (h : t.Denotes base stars i) (ht : t.CanonicalTypes) : stars ≤ i.index := by
  induction h with
  | base => exact Nat.zero_le _
  | pointer hp _ ih =>
    have hback := ht.pointers _ _ hp
    omega

theorem Denotes.lt_size (h : t.Denotes base stars i) : i.index < t.types.size := by
  cases h with
  | base hi => exact lt_of_type hi
  | pointer hp => exact lt_of_type hp

/-- **Types are printed with the spelling that denotes them.** The fuel is the size of the table, which is enough
since pointers point back. -/
theorem Denotes.typeName_eq (h : t.Denotes base stars i) (ht : t.CanonicalTypes) :
    t.typeName i = .ok (TypeText.mk stars base).spell := by
  have hle := h.le_index ht
  have hlt := h.lt_size
  exact h.typeNameWithin_eq (by omega)

end Tables

namespace Description

open Builder

variable {b b' : Builder} {base : BaseType} {stars : Nat} {i : TypeId}

/-! ## Types that are in the table -/

/-- A type that is in the table is found there: nothing has to be made. -/
theorem resolveBase_of_describes (hb : b.Canonical) {k : TypeKind} (hi : b.tables.type i = .ok k)
    (hk : base.Describes k) : resolveBase b base = .ok (i, b) := by
  cases base with
  | void =>
    cases hk
    rw [hb.types.kinds i .void _ hi hb.void]
    rfl
  | int bits =>
    cases hk
    exact congrArg Except.ok (hb.intern_eq (by simp) hi)
  | named name =>
    simp only [resolveBase, hb.lookupNamed_eq hi hk]

/-- The base type and all its pointers are found, one by one. -/
theorem exists_base_of_denotes (hb : b.Canonical) (h : b.tables.Denotes base stars i) :
    ∃ j, resolveBase b base = .ok (j, b) ∧ pointers b j stars = (i, b) := by
  induction h with
  | base hi hk => exact ⟨_, resolveBase_of_describes hb hi hk, rfl⟩
  | @pointer stars i p hp _ ih =>
    obtain ⟨j, hj, hptrs⟩ := ih
    refine ⟨j, hj, ?_⟩
    rw [pointers, hptrs]
    exact hb.intern_eq (by simp) hp

/-- **A type that is in the table is resolved to itself**, and nothing is added. -/
theorem resolveType_of_denotes (hb : b.Canonical) {s : String} {text : TypeText} (hs : TypeText.ofText s = text)
    (h : b.tables.Denotes text.base text.stars i) : resolveType b s = .ok (i, b) := by
  subst hs
  obtain ⟨j, hj, hptrs⟩ := exists_base_of_denotes hb h
  exact bind_eq_ok.mpr ⟨(j, b), hj, pure_eq_ok.mpr hptrs⟩

/-- Types that are in the table are told apart by what is printed for them. -/
theorem eq_iff_spell_eq (hb : b.Canonical) {j : TypeId} {text text' : TypeText}
    (hread : TypeText.ofText text.spell = text) (hread' : TypeText.ofText text'.spell = text')
    (hi : b.tables.Denotes text.base text.stars i) (hj : b.tables.Denotes text'.base text'.stars j) :
    i = j ↔ text.spell = text'.spell := by
  constructor
  · rintro rfl
    -- one type has one printed form
    have hname := hi.typeName_eq hb.types
    rw [hj.typeName_eq hb.types] at hname
    exact (Except.ok.inj hname).symm
  · intro hname
    -- one printed form is resolved to one type
    have hresolved := resolveType_of_denotes hb hread hi
    rw [hname, resolveType_of_denotes hb hread' hj] at hresolved
    cases hresolved
    rfl

/-! ## Types stay what they are -/

/-- A type that is in the table stays there; only the fields of a record may change. -/
theorem TypeStep.type (h : TypeStep b b') {k : TypeKind} (hi : b.tables.type i = .ok k) :
    ∃ l, b'.tables.type i = .ok l ∧ l.name? = k.name? ∧ ((∀ name fields, k ≠ .record name fields) → l = k) := by
  -- a type that is made is added at the end, so `i` stays where it is
  have hintern (k' : TypeKind) : (b.intern k').2.tables.type i = .ok k := by
    unfold intern
    cases b.interned.lookup k' with
    | some j => exact hi
    | none => exact type_addType.mpr (.inl hi)
  cases h with
  | beside htypes _ =>
    refine ⟨k, ?_, rfl, fun _ => rfl⟩
    rwa [Tables.type_eq_ok, htypes, ← Tables.type_eq_ok]
  | int bits => exact ⟨k, hintern _, rfl, fun _ => rfl⟩
  | pointer _ => exact ⟨k, hintern _, rfl, fun _ => rfl⟩
  | fields _ h =>
    refine ⟨_, (type_setFields h).mpr ⟨k, hi, rfl⟩, ?_, fun hk => ?_⟩
    · split <;> simp
    · split
      · exact (TypeKind.withFields_eq hk).mpr rfl
      · rfl

/-- A text goes on to denote the type. -/
theorem TypeStep.denotes (h : TypeStep b b') (hi : b.tables.Denotes base stars i) :
    b'.tables.Denotes base stars i := by
  induction hi with
  | base hi hk =>
    obtain ⟨l, hl, hname, hother⟩ := h.type hi
    refine .base hl ?_
    cases base with
    | void =>
      cases hk
      exact hother (by simp)
    | int bits =>
      cases hk
      exact hother (by simp)
    | named name =>
      -- a record may have got its fields, but it is known by its name
      exact hname.trans hk
  -- pointers are no records, so they have not changed
  | pointer hp _ ih =>
    obtain ⟨l, hl, -, hother⟩ := h.type hp
    obtain rfl := hother (by simp)
    exact .pointer hl ih

/-- No step declares a name. -/
theorem TypeStep.knows {names : List String} (h : TypeStep b b') (hb : b.Knows names) : b'.Knows names := by
  cases h with
  | beside htypes hinterned => exact hb.of_eq htypes hinterned
  | int bits => exact (makes_int hb bits).knows
  | pointer _ => exact (makes_pointer hb _).knows
  | fields _ h => exact knows_setFields hb h

/-! ## Reading, printing and reading again -/

/-- What holds of the builders that an elaboration gets to. -/
structure Ready (b : Builder) : Prop where
  canonical : b.Canonical
  range : b.TypesInRange
  knows : ∃ names, b.Knows names

/-- **Step lemma** for all that is needed to print and to read types. -/
theorem TypeStep.ready (h : TypeStep b b') (hb : Ready b) : Ready b' := by
  obtain ⟨hcanonical, hrange, names, hknows⟩ := hb
  exact ⟨h.canonical hcanonical, h.typesInRange hrange, names, h.knows hknows⟩

/-- **Run lemma**, by `Continues.keeps`. -/
theorem Continues.ready (h : Continues b b') (hb : Ready b) : Ready b' :=
  h.keeps TypeStep.ready hb

/-- After the declarations, types can be printed and read. -/
theorem ready_of_declareTypes {ds : List TypeDesc} {records : List (TypeId × List String)}
    (h : declareTypes .empty ds = .ok (records, b)) : Ready b :=
  ⟨canonical_declareTypes canonical_empty h, (declareTypes_inRange typesInRange_empty h).1, _,
    (declareTypes_knows knows_empty h).1⟩

/-- What is resolved is printed with the spelling that is read as it. -/
theorem Ready.exists_spell (hb : Ready b) {s : String} (h : resolveType b s = .ok (i, b')) :
    ∃ text : TypeText, TypeText.ofText text.spell = text ∧ Continues b b' ∧
      b'.tables.Denotes text.base text.stars i := by
  obtain ⟨names, hknows⟩ := hb.knows
  obtain ⟨-, text, hspelling, hdenotes⟩ := resolveType_spells hknows h
  exact ⟨text, ofText_spell hspelling, continues_resolveType hb.range h, hdenotes⟩

/-- **Printing a type inverts reading it.** Take a description that is accepted, the builder after its types are
declared, and any builder that the elaboration may get to from there. A text that is resolved to a type in it
leaves a builder in which the type can be printed, and in which what is printed is resolved to the same type
with nothing added. Hence two texts that are resolved, one some time after the other, are resolved to one type
exactly if the types are printed alike. -/
theorem resolveType_typeName {d : ProgramDesc} {e : Builder} (hd : elaborateBuilder d = .ok e) :
    ∃ records b₀, declareTypes .empty d.types = .ok (records, b₀) ∧ Continues b₀ e ∧
      ∀ b s i b₁, Continues b₀ b → resolveType b s = .ok (i, b₁) →
        (∃ name, b₁.tables.typeName i = .ok name ∧ resolveType b₁ name = .ok (i, b₁)) ∧
        ∀ b₂ s' j b₃, Continues b₁ b₂ → resolveType b₂ s' = .ok (j, b₃) →
          ∃ name name', b₃.tables.typeName i = .ok name ∧ b₃.tables.typeName j = .ok name' ∧
            (i = j ↔ name = name') := by
  obtain ⟨records, b₀, hdeclare, -, hcontinues⟩ := continues_of_elaborateBuilder hd
  refine ⟨records, b₀, hdeclare, hcontinues, fun b s i b₁ hb hi => ?_⟩
  have hready : Ready b := hb.ready (ready_of_declareTypes hdeclare)
  obtain ⟨text, hread, hcontinues₁, hdenotes⟩ := hready.exists_spell hi
  have hready₁ := hcontinues₁.ready hready
  refine ⟨⟨text.spell, hdenotes.typeName_eq hready₁.canonical.types,
    resolveType_of_denotes hready₁.canonical hread hdenotes⟩, fun b₂ s' j b₃ hb₂ hj => ?_⟩
  have hready₂ := hb₂.ready hready₁
  obtain ⟨text', hread', hcontinues₃, hdenotes'⟩ := hready₂.exists_spell hj
  have hready₃ := hcontinues₃.ready hready₂
  -- the first type is still there and is printed as before
  have hstill : b₃.tables.Denotes text.base text.stars i :=
    (hb₂.trans hcontinues₃).keeps (fun h hi => h.denotes hi) hdenotes
  exact ⟨text.spell, text'.spell, hstill.typeName_eq hready₃.canonical.types,
    hdenotes'.typeName_eq hready₃.canonical.types, eq_iff_spell_eq hready₃.canonical hread hread' hstill hdenotes'⟩

/-- Names that start like integer types, have a blank inside or are empty, and spellings with blanks and signs. -/
def oddNames : ProgramDesc where
  types := [⟨"Node", some ["* Node", "i+7"]⟩, ⟨"i32", none⟩, ⟨"ivory tower", none⟩, ⟨"", some []⟩]
  globals := [⟨"g", " * ivory tower"⟩]
  functions := []

/-- What `oddNames` is elaborated to. -/
def oddBuilder : Builder where
  tables := {
    types := #[.void, .int 64, .record "Node" [⟨6⟩, ⟨7⟩], .bodyless "i32", .bodyless "ivory tower", .record "" [],
      .pointer ⟨2⟩, .int 7, .pointer ⟨4⟩, .pointer ⟨8⟩]
    globals := #[⟨"g", ⟨8⟩, ⟨9⟩⟩]
    functions := #[]
    blocks := #[]
    insts := #[] }
  interned := [(.pointer ⟨8⟩, ⟨9⟩), (.pointer ⟨4⟩, ⟨8⟩), (.int 7, ⟨7⟩), (.pointer ⟨2⟩, ⟨6⟩),
    (.bodyless "ivory tower", ⟨4⟩), (.bodyless "i32", ⟨3⟩), (.int 64, ⟨1⟩), (.void, ⟨0⟩)]

/-- Two spellings with blanks in odd places. Each is printed without them, and read back as the same type. -/
theorem resolveType_oddNames : elaborateBuilder oddNames = .ok oddBuilder ∧
    ∃ b₁, resolveType oddBuilder " *\t* Node" = .ok (⟨10⟩, b₁) ∧ b₁.tables.typeName ⟨10⟩ = .ok "**Node" ∧
      resolveType b₁ "**Node" = .ok (⟨10⟩, b₁) ∧ ∃ name, resolveType b₁ "* *ivory tower " = .ok (⟨9⟩, b₁) ∧
        b₁.tables.typeName ⟨9⟩ = .ok name ∧ name ≠ "**Node" := by
  have hbuilder : elaborateBuilder oddNames = .ok oddBuilder := toOption_eq_some.mp (by decide +kernel)
  -- the pointer to the pointer is new, the pointer itself is not
  have hfirst : resolveType oddBuilder " *\t* Node" = .ok (⟨10⟩, (oddBuilder.pointer ⟨6⟩).2) :=
    toOption_eq_some.mp (by decide +kernel)
  have hsecond : resolveType (oddBuilder.pointer ⟨6⟩).2 "* *ivory tower " = .ok (⟨9⟩, (oddBuilder.pointer ⟨6⟩).2) :=
    toOption_eq_some.mp (by decide +kernel)
  have hprinted : (oddBuilder.pointer ⟨6⟩).2.tables.typeName ⟨10⟩ = .ok "**Node" :=
    toOption_eq_some.mp (by decide +kernel)
  obtain ⟨records, b₀, -, hend, hresolved⟩ := resolveType_typeName hbuilder
  obtain ⟨⟨name, hname, hagain⟩, hothers⟩ := hresolved _ _ _ _ hend hfirst
  obtain ⟨name₁, name₂, hname₁, hname₂, hiff⟩ := hothers _ _ _ _ (.refl _) hsecond
  rw [hprinted] at hname hname₁
  cases hname
  cases hname₁
  refine ⟨hbuilder, _, hfirst, hprinted, hagain, name₂, hsecond, hname₂, fun heq => ?_⟩
  exact absurd (hiff.mpr heq.symm) (by decide)

end Description

end Relock
