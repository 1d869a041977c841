import Relock.Lock.Symbol
import Relock.Proofs.Text.Pattern

/-!
# Symbols that name two lock operations

A symbol is compared with the operations one after the other, and the first that accepts it wins. The
texts that the operations want first keep the types of locks apart, and the mangled symbols. Type arguments
are any text on one line, though, and nothing keeps that text from going beyond the bracket that closes
them. So a path of a reader-writer lock is accepted as a read and as a write if both methods stand somewhere
behind a closing bracket, and the order of the operations decides.

* `HasMethod`, `heads`, `accepts_eq_true`: the symbols of an operation, in plain words;
* `path_of_accepts`: two operations that accept one symbol read and write one type of lock;
* `ReadsAndWrites`: the paths with both methods;
* `order_matters_iff`: these are the symbols for which the order of the operations matters.
-/

namespace Relock.LockKind

open Text Pattern

/-! ## The symbols of an operation -/

/-- After type arguments on one line, `rest` goes on with `method` as the end of a segment. -/
def HasMethod (method : String) (rest : List Char) : Prop :=
  ∃ args tail, rest = args ++ (method.toList ++ tail) ∧ args ≠ [] ∧ '\n' ∉ args ∧
    (tail = [] ∨ "::".toList <+: tail)

/-- The tail of a symbol pattern, in plain words. -/
theorem methodOf_eq_true {method : String} {rest : List Char} :
    methodOf method rest = true ↔ HasMethod method rest := by
  rw [methodOf, run1_eq_true]
  constructor
  · rintro ⟨args, q, rfl, hne, hline, hq⟩
    obtain ⟨tail, rfl, htail⟩ := literal_eq_true.mp hq
    exact ⟨args, tail, rfl, hne, hline, segmentEnd_eq_true.mp htail⟩
  · rintro ⟨args, tail, rfl, hne, hline, htail⟩
    exact ⟨args, _, rfl, hne, hline, literal_eq_true.mpr ⟨tail, rfl, segmentEnd_eq_true.mpr htail⟩⟩

/-- The method of an operation, behind the bracket that closes the type arguments. -/
def method : LockKind → String
  | .stdMutexLock | .lockApiMutexLock => ">::lock"
  | .stdRwLockRead | .lockApiRwLockRead => ">::read"
  | .stdRwLockWrite | .lockApiRwLockWrite => ">::write"

/-- How the paths of a standard lock start. -/
def stdHeads (type : String) : List (List Char) :=
  ["<".toList ++ ("std::sync::".toList ++ ("poison::".toList ++ type.toList)),
    "<".toList ++ ("std::sync::".toList ++ type.toList),
    "std::sync::".toList ++ ("poison::".toList ++ type.toList), "std::sync::".toList ++ type.toList]

/-- How the paths of a lock of the library `lock_api` start. -/
def apiHeads (type : String) : List (List Char) := ["<".toList ++ type.toList, type.toList]

/-- How the paths of an operation start, up to the bracket that opens the type arguments. -/
def heads : LockKind → List (List Char)
  | .stdMutexLock => stdHeads "mutex::Mutex<"
  | .stdRwLockRead | .stdRwLockWrite => stdHeads "rwlock::RwLock<"
  | .lockApiMutexLock => apiHeads "lock_api::mutex::Mutex<"
  | .lockApiRwLockRead | .lockApiRwLockWrite => apiHeads "lock_api::rwlock::RwLock<"

/-- The written paths of an operation: one of its heads, then type arguments, then its method. -/
theorem heads_path (k : LockKind) : Heads (optional "<" k.path) k.heads (methodOf k.method) := by
  -- the two families of locks differ in what stands in front of the type
  have hstd (type : String) (m : Pattern) : Heads (optional "<" (stdPath type m)) (stdHeads type) m :=
    (((heads_literal type m).optional "poison::").literal "std::sync::").optional "<"
  have hapi (type : String) (m : Pattern) : Heads (optional "<" (literal type m)) (apiHeads type) m :=
    (heads_literal type m).optional "<"
  cases k with
  | stdMutexLock => exact hstd _ _
  | stdRwLockRead => exact hstd _ _
  | stdRwLockWrite => exact hstd _ _
  | lockApiMutexLock => exact hapi _ _
  | lockApiRwLockRead => exact hapi _ _
  | lockApiRwLockWrite => exact hapi _ _

/-- A symbol of an operation is a mangled one, or a path with the method behind its type arguments. -/
theorem accepts_eq_true {k : LockKind} {s : List Char} : k.accepts s = true ↔
    k.mangled.toList <+: s ∨ ∃ head ∈ k.heads, ∃ rest, s = head ++ rest ∧ HasMethod k.method rest := by
  rw [accepts, Bool.or_eq_true, literal_anything, heads_path k s]
  simp only [methodOf_eq_true]

/-- An operation that a symbol is taken for accepts the symbol. -/
theorem accepts_of_ofSymbol {name : String} {k : LockKind} (h : ofSymbol name = some k) :
    k.accepts name.toList = true := by
  unfold ofSymbol at h
  have haccepts := List.find?_some h
  exact haccepts

/-! ## Operations that share a symbol -/

/-- How the symbols of an operation start. -/
def starts (k : LockKind) : List (List Char) := k.mangled.toList :: k.heads

/-- The types of reader-writer locks, each by its two operations. -/
def rwLocks : List (LockKind × LockKind) :=
  [(stdRwLockRead, stdRwLockWrite), (lockApiRwLockRead, lockApiRwLockWrite)]

/-- The reader-writer locks, written out. -/
theorem mem_rwLocks {read write : LockKind} : (read, write) ∈ rwLocks ↔
    read = stdRwLockRead ∧ write = stdRwLockWrite ∨ read = lockApiRwLockRead ∧ write = lockApiRwLockWrite := by
  simp [rwLocks]

/-- Two operations are the read and the write of one type of lock, in one order or the other. -/
def IsRwPair (k k' : LockKind) : Prop := (k, k') ∈ rwLocks ∨ (k', k) ∈ rwLocks

instance (k k' : LockKind) : Decidable (IsRwPair k k') := inferInstanceAs (Decidable (_ ∨ _))

/-- The table of operations leaves none out. -/
theorem mem_all (k : LockKind) : k ∈ all := by
  cases k <;> decide

/-- No start of a symbol begins another one. Two operations share starts only if they are those of one type
of reader-writer lock, and then only those of paths. -/
theorem starts_apart : ∀ k ∈ all, ∀ k' ∈ all, ∀ w ∈ k.starts, ∀ w' ∈ k'.starts,
    w.isPrefixOf w' = true → w = w' ∧ (k = k' ∨ IsRwPair k k' ∧ w ≠ k.mangled.toList) := by
  decide +kernel

/-- A symbol has one start, whatever operation it is a symbol of. -/
theorem start_unique {k k' : LockKind} {s w w' : List Char} (hw : w ∈ k.starts) (hw' : w' ∈ k'.starts)
    (hs : w <+: s) (hs' : w' <+: s) : w = w' ∧ (k = k' ∨ IsRwPair k k' ∧ w ≠ k.mangled.toList) := by
  -- one of the two begins the other, and then they are equal
  rcases List.prefix_or_prefix_of_prefix hs hs' with h | h
  · exact starts_apart k (mem_all k) k' (mem_all k') w hw w' hw' (List.isPrefixOf_iff_prefix.mpr h)
  · obtain ⟨rfl, -⟩ := starts_apart k' (mem_all k') k (mem_all k) w' hw' w hw (List.isPrefixOf_iff_prefix.mpr h)
    exact starts_apart k (mem_all k) k' (mem_all k') _ hw _ hw' (List.isPrefixOf_iff_prefix.mpr (List.prefix_refl _))

/-- Symbols start like one of their operation. -/
theorem starts_accepts (k : LockKind) : Starts k.accepts k.starts := by
  intro s h
  rcases accepts_eq_true.mp h with hmangled | ⟨head, hhead, rest, rfl, -⟩
  · exact ⟨_, List.mem_cons_self .., hmangled⟩
  · exact ⟨head, List.mem_cons_of_mem _ hhead, List.prefix_append ..⟩

/-- A symbol of two operations is a path, and they are the read and the write of one type of lock. -/
theorem path_of_accepts {k k' : LockKind} {s : List Char} (hne : k ≠ k') (h : k.accepts s = true)
    (h' : k'.accepts s = true) :
    IsRwPair k k' ∧ ∃ head ∈ k.heads, ∃ rest, s = head ++ rest ∧ HasMethod k.method rest := by
  obtain ⟨w, hw, hs⟩ := starts_accepts k' s h'
  rcases accepts_eq_true.mp h with hmangled | ⟨head, hhead, rest, rfl, hmethod⟩
  · -- a mangled symbol has the method in its start
    obtain ⟨-, hpair⟩ := start_unique (List.mem_cons_self ..) hw hmangled hs
    exact absurd rfl (hpair.resolve_left hne).2
  · obtain ⟨-, hpair⟩ := start_unique (List.mem_cons_of_mem _ hhead) hw (List.prefix_append ..) hs
    exact ⟨(hpair.resolve_left hne).1, head, hhead, rest, rfl, hmethod⟩

/-- Both operations find their method behind the same start. -/
theorem hasMethod_of_accepts {k k' : LockKind} {s : List Char} (hne : k ≠ k') (h : k.accepts s = true)
    (h' : k'.accepts s = true) : IsRwPair k k' ∧ ∃ head ∈ k.heads, ∃ rest, s = head ++ rest ∧
      HasMethod k.method rest ∧ HasMethod k'.method rest := by
  obtain ⟨hpair, head, hhead, rest, rfl, hmethod⟩ := path_of_accepts hne h h'
  obtain ⟨-, head', hhead', rest', hs, hmethod'⟩ := path_of_accepts hne.symm h' h
  -- both heads start the symbol, so they are one
  have hstart : head' <+: head ++ rest := ⟨rest', hs.symm⟩
  obtain ⟨rfl, -⟩ := start_unique (List.mem_cons_of_mem _ hhead) (List.mem_cons_of_mem _ hhead')
    (List.prefix_append ..) hstart
  obtain rfl := List.append_cancel_left hs
  exact ⟨hpair, head, hhead, rest, rfl, hmethod, hmethod'⟩

/-! ## Paths with both methods -/

/-- A path of a reader-writer lock that has both methods behind its opening bracket, where one of them may be
part of the type arguments of the other. -/
def ReadsAndWrites (s : List Char) : Prop :=
  ∃ read write, (read, write) ∈ rwLocks ∧ ∃ head ∈ read.heads, ∃ rest, s = head ++ rest ∧
    HasMethod ">::read" rest ∧ HasMethod ">::write" rest

/-- A path with both methods is a symbol of the read and of the write. -/
theorem accepts_of_readsAndWrites {s : List Char} (h : ReadsAndWrites s) :
    ∃ read write, (read, write) ∈ rwLocks ∧ read.accepts s = true ∧ write.accepts s = true := by
  obtain ⟨read, write, hlock, head, hhead, rest, rfl, hread, hwrite⟩ := h
  refine ⟨read, write, hlock, ?_⟩
  -- read and write of one lock have the same heads
  obtain ⟨rfl, rfl⟩ | ⟨rfl, rfl⟩ := mem_rwLocks.mp hlock
  all_goals
    constructor
    · exact accepts_eq_true.mpr (.inr ⟨head, hhead, rest, rfl, hread⟩)
    · exact accepts_eq_true.mpr (.inr ⟨head, hhead, rest, rfl, hwrite⟩)

/-- No other symbol is one of two operations. -/
theorem readsAndWrites_of_accepts {k k' : LockKind} {s : List Char} (hne : k ≠ k') (h : k.accepts s = true)
    (h' : k'.accepts s = true) : ReadsAndWrites s := by
  obtain ⟨hpair, head, hhead, rest, rfl, hmethod, hmethod'⟩ := hasMethod_of_accepts hne h h'
  -- either of the two may be the read
  rcases hpair with hlock | hlock
  · refine ⟨k, k', hlock, head, ?_⟩
    obtain ⟨rfl, rfl⟩ | ⟨rfl, rfl⟩ := mem_rwLocks.mp hlock <;> exact ⟨hhead, rest, rfl, hmethod, hmethod'⟩
  · refine ⟨k', k, hlock, head, ?_⟩
    obtain ⟨rfl, rfl⟩ | ⟨rfl, rfl⟩ := mem_rwLocks.mp hlock <;> exact ⟨hhead, rest, rfl, hmethod', hmethod⟩

/-- **A symbol is one of at most one operation, unless it has both methods.** -/
theorem unique_iff {s : List Char} :
    (∀ k k' : LockKind, k.accepts s = true → k'.accepts s = true → k = k') ↔ ¬ ReadsAndWrites s := by
  constructor
  · intro hunique hboth
    obtain ⟨read, write, hlock, hread, hwrite⟩ := accepts_of_readsAndWrites hboth
    obtain rfl := hunique read write hread hwrite
    exact absurd hlock (by cases read <;> decide)
  · intro hnot k k' h h'
    exact Decidable.byContradiction fun hne => hnot (readsAndWrites_of_accepts hne h h')

/-! ## The order of the operations -/

/-- What is found first does not depend on the order of a list exactly if only one item passes. -/
theorem find?_perm_iff {α : Type} [DecidableEq α] {test : α → Bool} {xs : List α} :
    (∀ ys : List α, ys.Perm xs → ys.find? test = xs.find? test) ↔
      ∀ a ∈ xs, ∀ b ∈ xs, test a = true → test b = true → a = b := by
  constructor
  · intro horder a ha b hb hta htb
    -- each item that passes is found first if it is put in front
    have hfirst (c : α) (hc : c ∈ xs) (htc : test c = true) : xs.find? test = some c := by
      rw [← horder (c :: xs.erase c) (List.perm_cons_erase hc).symm, List.find?_cons_of_pos htc]
    exact Option.some.inj ((hfirst a ha hta).symm.trans (hfirst b hb htb))
  · intro hunique ys hperm
    cases hfound : ys.find? test with
    | none =>
      rw [List.find?_eq_none] at hfound
      exact (List.find?_eq_none.mpr fun a ha => hfound a (hperm.mem_iff.mpr ha)).symm
    -- what is found in one order passes in the other one too, and nothing else does
    | some a =>
      have ha := hperm.mem_iff.mp (List.mem_of_find?_eq_some hfound)
      have hta := List.find?_some hfound
      obtain ⟨b, hb⟩ := Option.isSome_iff_exists.mp (List.find?_isSome.mpr ⟨a, ha, hta⟩)
      rw [hb, hunique a ha b (List.mem_of_find?_eq_some hb) hta (List.find?_some hb)]

/-- A path with both methods is taken for a read. -/
theorem ofSymbol_of_readsAndWrites {name : String} (h : ReadsAndWrites name.toList) :
    ∃ read write, (read, write) ∈ rwLocks ∧ ofSymbol name = some read ∧ write.accepts name.toList = true := by
  obtain ⟨read, write, hlock, hread, hwrite⟩ := accepts_of_readsAndWrites h
  refine ⟨read, write, hlock, ?_, hwrite⟩
  -- of the operations before the read none accepts the path, as none is its write
  have hother (k : LockKind) (hne : read ≠ k) (hpair : ¬ IsRwPair read k) : k.accepts name.toList = false := by
    rw [← Bool.not_eq_true]
    exact fun hk => hpair (path_of_accepts hne hread hk).1
  unfold ofSymbol all
  obtain ⟨rfl, rfl⟩ | ⟨rfl, rfl⟩ := mem_rwLocks.mp hlock
  · have hmutex := hother stdMutexLock (by decide) (by decide)
    simp [hmutex, hread]
  · have hmutex := hother stdMutexLock (by decide) (by decide)
    have hstdRead := hother stdRwLockRead (by decide) (by decide)
    have hstdWrite := hother stdRwLockWrite (by decide) (by decide)
    have hapiMutex := hother lockApiMutexLock (by decide) (by decide)
    simp [hmutex, hstdRead, hstdWrite, hapiMutex, hread]

/-- **A symbol names more than one operation exactly if it is a path with both methods.** Whatever a symbol
is, the operations that accept it agree in flavor and layout, so the order in which they are tried can only
matter to reads and writes of one type of lock. It does for the paths with both methods: these are taken for
reads, and for writes if the order is another one. -/
theorem order_matters_iff (name : String) :
    (∀ k k' : LockKind, k.accepts name.toList = true → k'.accepts name.toList = true →
      k.flavor = k'.flavor ∧ k.layout = k'.layout) ∧
    ((∀ k k' : LockKind, k.accepts name.toList = true → k'.accepts name.toList = true → k = k') ↔
      ¬ ReadsAndWrites name.toList) ∧
    ((∀ table : List LockKind, table.Perm all → (table.find? fun k => k.accepts name.toList) = ofSymbol name) ↔
      ¬ ReadsAndWrites name.toList) ∧
    (ReadsAndWrites name.toList → ∃ (read write : LockKind) (table : List LockKind),
      ofSymbol name = some read ∧ read.access = .shared ∧ table.Perm all ∧
        (table.find? fun k => k.accepts name.toList) = some write ∧ write.access = .exclusive) := by
  refine ⟨fun k k' h h' => ?_, unique_iff, ?_, fun hboth => ?_⟩
  · by_cases hne : k = k'
    · rw [hne]
      exact ⟨rfl, rfl⟩
    · -- a read and a write of one lock take the same arguments in the same layout
      have hlayout : ∀ k ∈ all, ∀ k' ∈ all, IsRwPair k k' → k.flavor = k'.flavor ∧ k.layout = k'.layout := by
        decide
      exact hlayout k (mem_all k) k' (mem_all k') (path_of_accepts hne h h').1
  · rw [← unique_iff]
    exact find?_perm_iff.trans ⟨fun h k k' => h k (mem_all k) k' (mem_all k'), fun h k _ k' _ => h k k'⟩
  · -- the write is found first if it is put in front of the others
    obtain ⟨read, write, hlock, hread, hwrite⟩ := ofSymbol_of_readsAndWrites hboth
    refine ⟨read, write, write :: all.erase write, hread, ?_, (List.perm_cons_erase (mem_all write)).symm,
      List.find?_cons_of_pos hwrite, ?_⟩
    · obtain ⟨rfl, -⟩ | ⟨rfl, -⟩ := mem_rwLocks.mp hlock <;> rfl
    · obtain ⟨-, rfl⟩ | ⟨-, rfl⟩ := mem_rwLocks.mp hlock <;> rfl

/-- The write of a lock on a closure, which was made in a method `read`. -/
def writeOfReadClosure : String :=
  "std::sync::rwlock::RwLock<<app::Config as app::Source>::read::\x7b\x7bclosure\x7d\x7d>::write"

/-- The write is accepted as a read as well. It is taken for a read, which nests with itself, and for a write
if the operations are tried in the opposite order. -/
theorem writeOfReadClosure_read :
    stdRwLockRead.accepts writeOfReadClosure.toList = true ∧ stdRwLockWrite.accepts writeOfReadClosure.toList = true ∧
      ofSymbol writeOfReadClosure = some stdRwLockRead ∧ nestsWith stdRwLockRead stdRwLockRead = true ∧
        (all.reverse.find? fun k => k.accepts writeOfReadClosure.toList) = some stdRwLockWrite ∧
          nestsWith stdRwLockWrite stdRwLockWrite = false := by
  decide +kernel

end Relock.LockKind
