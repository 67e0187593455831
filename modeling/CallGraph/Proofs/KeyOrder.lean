import CallGraph.Proofs.Stores

/-!
# The order of keys on disk

Keys are ordered by their owners and, where these are the same, by their methods; a half that is
absent comes before every number, zero included.  A store on disk keeps its entries in the order of
their bytes, which are compared from the first one on, so the bytes of keys have to be in the order
of the keys.  Keys in a graph and keys in records have the same two halves and are compared alike,
so what is said here of `Key` holds of both.

Main results:

- Theorem `Key.compare_eq_lt_iff` says that comparing keys decides their order.
- Theorem `Store.compare_eq_lt_iff_lt` says that comparing bytes decides the lexicographic order.
- Theorem `Store.ordersAlike_indexKey` says that keys and their bytes are in the same order.
-/

namespace CallGraph

/-! ## The order of keys -/

/-- One half of a key comes before another: an absent one before every number, and a number before
every greater one. -/
inductive HalfBefore : Option UInt64 → Option UInt64 → Prop
  | absent (n : UInt64) : HalfBefore none (some n)
  | number {m n : UInt64} (less : m < n) : HalfBefore (some m) (some n)

/-- A key comes before another by its owner, or by its method if they have the same owner. -/
inductive Key.Before (k k' : Key) : Prop
  | owner (before : HalfBefore (k.owner.map TypeId.val) (k'.owner.map TypeId.val))
  | method (same : k.owner = k'.owner)
      (before : HalfBefore (k.method.map MethodId.val) (k'.method.map MethodId.val))

/-- One half comes before another exactly if the derived order says so. -/
theorem halfBefore_iff {m n : Option UInt64} : HalfBefore m n ↔ compare m n = .lt := by
  constructor
  · intro h
    cases h with
    | absent n => rfl
    | @number m n hless =>
      have hlt : compare m n = .lt := Std.compare_eq_lt.mpr hless
      exact hlt
  · intro h
    cases m with
    | none =>
      cases n with
      | none => cases h
      | some n => exact .absent n
    | some m =>
      cases n with
      | none => cases h
      | some n => exact .number (Std.compare_eq_lt.mp h)

namespace Key

/-- Comparing keys decides which of them comes first. -/
theorem compare_eq_lt_iff (k k' : Key) : compare k k' = .lt ↔ k.Before k' := by
  rw [compare_def, Ordering.then_eq_lt, ← compare_owner, ← compare_method, ← halfBefore_iff,
    ← halfBefore_iff, compare_owner, Std.LawfulEqCmp.compare_eq_iff_eq]
  constructor
  · rintro (howner | ⟨hsame, hmethod⟩)
    · exact .owner howner
    · exact .method hsame hmethod
  · rintro (howner | ⟨hsame, hmethod⟩)
    · exact Or.inl howner
    · exact Or.inr ⟨hsame, hmethod⟩

/-- The derived order has a key after another exactly if the other comes before it. -/
theorem compare_eq_gt_iff (k k' : Key) : compare k k' = .gt ↔ k'.Before k := by
  rw [← compare_eq_lt_iff, Std.OrientedCmp.gt_iff_lt]

end Key

namespace Store

/-! ## The order of bytes -/

/-- Comparing bytes decides their lexicographic order. -/
theorem compare_eq_lt_iff_lt (as bs : Bytes) : compare as bs = .lt ↔ as < bs := by
  induction as generalizing bs with
  | nil => cases bs <;> simp
  | cons a as ih =>
    cases bs with
    | nil => simp
    | cons b bs =>
      rw [List.compare_cons_cons, Ordering.then_eq_lt, ih, List.cons_lt_cons_iff,
        Std.compare_eq_lt, Std.LawfulEqCmp.compare_eq_iff_eq]

/-- Two keys and their bytes are in the same order. -/
structure OrdersAlike (k k' : Key) : Prop where
  /-- The bytes are compared lexicographically, and less, equal or greater as the keys are. -/
  bytes : compare (indexKey k) (indexKey k') = compare k k'
  lexicographic : indexKey k < indexKey k' ↔ k.Before k'
  less : compare k k' = .lt ↔ k.Before k'
  equal : compare k k' = .eq ↔ k = k'
  greater : compare k k' = .gt ↔ k'.Before k
  /-- Different keys have different bytes. -/
  apart : indexKey k = indexKey k' → k = k'

/-- The bytes of keys are in the order of the keys, over the whole range of identities and whether
their halves are there or absent. -/
theorem ordersAlike_indexKey (k k' : Key) : OrdersAlike k k' where
  bytes := compare_indexKey k k'
  lexicographic := by rw [← compare_eq_lt_iff_lt, compare_indexKey, Key.compare_eq_lt_iff]
  less := Key.compare_eq_lt_iff k k'
  equal := Key.compare_eq_iff k k'
  greater := Key.compare_eq_gt_iff k k'
  apart := indexKey_injective

/-- An absent owner comes before the owner of identity zero. -/
example : indexKey ⟨none, some ⟨18446744073709551615⟩⟩ < indexKey ⟨some ⟨0⟩, none⟩ := by decide

end Store

end CallGraph
