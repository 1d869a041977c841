/-!
# Sorting and grouping

Lists are sorted by insertion, so items with equal keys keep their order.

* `sortBy`: a sorted list;
* `sortedKeys`: the keys that occur in a list, each once, in order;
* `groupBy`: the items of each key.
-/

namespace Relock

/-- Insert an item before the first one that does not come before it. -/
def insertBy {α : Type} (lt : α → α → Bool) (a : α) : List α → List α
  | [] => [a]
  | b :: bs => if lt b a then b :: insertBy lt a bs else a :: b :: bs

/-- A list in order. -/
def sortBy {α : Type} (lt : α → α → Bool) (xs : List α) : List α :=
  xs.foldr (insertBy lt) []

/-- Insert a key in an ordered list that does not have it yet. -/
def insertKey {κ : Type} (lt : κ → κ → Bool) (k : κ) : List κ → List κ
  | [] => [k]
  | l :: ls => if lt k l then k :: l :: ls else if lt l k then l :: insertKey lt k ls else l :: ls

/-- The keys in a list, each once, in order. -/
def sortedKeys {κ : Type} (lt : κ → κ → Bool) (ks : List κ) : List κ :=
  ks.foldr (insertKey lt) []

/-- The items of each key, in the order of the keys. -/
def groupBy {κ α : Type} [BEq κ] (lt : κ → κ → Bool) (xs : List (κ × α)) : List (κ × List α) :=
  (sortedKeys lt (xs.map Prod.fst)).map fun k => (k, (xs.filter fun x => x.1 == k).map Prod.snd)

end Relock
