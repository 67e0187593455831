import CallGraph.Proofs.Refinement
import CallGraph.Store.Disk
import CallGraph.Store.Memory

/-!
# What stores give back

Records of different methods that are put into an empty store are all given back, in the order of
their keys instead of the order in which they were put.

Main results:

- Theorem `compare_indexKey` says that the bytes of keys compare as the keys do, and theorem
  `indexKey_injective` that different keys have different bytes.
- Theorems `Memory.perm_all_filled` and `Disk.perm_all_filled` say that both kinds of stores give
  back what was put.
-/

namespace CallGraph

namespace Table

variable {κ α : Type} [DecidableEq κ]

/-- A new key is put after the others. -/
theorem put_of_not_mem {k : κ} {v : α} {entries : List (κ × α)}
    (h : k ∉ entries.map Prod.fst) : put k v entries = entries ++ [(k, v)] := by
  induction entries with
  | nil => rfl
  | cons e rest ih =>
    rw [List.map_cons, List.mem_cons, not_or] at h
    rw [put, if_neg (Ne.symm h.1), ih h.2, List.cons_append]

/-- Writing under different new keys appends what is written. -/
theorem entries_foldl_insert {β : Type} (key : β → κ) (value : β → α) {t : Table κ α}
    {bs : List β} (hbs : (bs.map key).Nodup) (hnew : ∀ b ∈ bs, key b ∉ t.keys) :
    (bs.foldl (fun t b => t.insert (key b) (value b)) t).entries =
      t.entries ++ bs.map fun b => (key b, value b) := by
  induction bs generalizing t with
  | nil => simp
  | cons b rest ih =>
    rw [List.map_cons, List.nodup_cons] at hbs
    have hb := hnew b List.mem_cons_self
    have hinsert : (t.insert (key b) (value b)).entries = t.entries ++ [(key b, value b)] :=
      put_of_not_mem hb
    have hrest : ∀ b' ∈ rest, key b' ∉ (t.insert (key b) (value b)).keys := by
      intro b' hb'
      rw [keys_insert, if_neg hb, List.mem_append, List.mem_singleton]
      rintro (hmem | heq)
      · exact hnew b' (List.mem_cons_of_mem b hb') hmem
      · exact hbs.1 (List.mem_map.mpr ⟨b', hb', heq⟩)
    rw [List.foldl_cons, ih hbs.2 hrest, hinsert, List.append_assoc]
    rfl

end Table

namespace Key

/-- Owners are compared by their numbers. -/
theorem compare_owner (k k' : Key) :
    compare (k.owner.map TypeId.val) (k'.owner.map TypeId.val) = compare k.owner k'.owner := by
  cases k.owner <;> cases k'.owner <;> rfl

/-- Methods are compared by their numbers. -/
theorem compare_method (k k' : Key) : compare (k.method.map MethodId.val)
    (k'.method.map MethodId.val) = compare k.method k'.method := by
  cases k.method <;> cases k'.method <;> rfl

end Key

namespace Store

/-! ## In memory -/

/-- Records of different methods that are put into an empty store are given back. -/
theorem Memory.perm_all_filled {rs : List Record} (hrs : (rs.map Record.key).Nodup) :
    (Memory.backend.filled rs).all.Perm rs := by
  have hfold : (Memory.backend.filled rs).records =
      rs.foldl (fun t r => t.insert r.key (id r)) Table.empty :=
    (List.foldl_hom Memory.records fun _ _ => rfl).symm
  have hentries := Table.entries_foldl_insert Record.key id (t := .empty) hrs (by simp)
  have hvalues : (Memory.backend.filled rs).records.values = rs := by
    rw [Table.values, hfold, hentries]
    simp [Table.empty, Function.comp_def]
  rw [Memory.all, hvalues]
  exact List.mergeSort_perm rs _

/-! ## The order of keys -/

/-- Bytes of equal length are compared before what follows them. -/
theorem compare_append {as bs : Bytes} (h : as.length = bs.length) (cs ds : Bytes) :
    compare (as ++ cs) (bs ++ ds) = (compare as bs).then (compare cs ds) := by
  induction as generalizing bs with
  | nil =>
    have hbs : bs = [] := List.length_eq_zero_iff.mp h.symm
    simp [hbs]
  | cons a as ih =>
    cases bs with
    | nil => simp at h
    | cons b bs =>
      rw [List.cons_append, List.cons_append, List.compare_cons_cons, List.compare_cons_cons,
        ih (Nat.succ.inj h), Ordering.then_assoc]

/-- The big-endian form of a number ends with its lowest byte. -/
theorem big_succ (width n : Nat) :
    big (width + 1) n = big width (n / 256) ++ [UInt8.ofNat (n % 256)] := by
  simp [big, little]

/-- Numbers are compared by their quotients first and by their remainders then. -/
theorem compare_div_mod (m n : Nat) :
    (compare (m / 256) (n / 256)).then (compare (m % 256) (n % 256)) = compare m n := by
  rcases Nat.lt_trichotomy (m / 256) (n / 256) with h | h | h
  · have hlt : m < n := by omega
    rw [Nat.compare_eq_lt.mpr h, Nat.compare_eq_lt.mpr hlt]
    rfl
  · rw [Nat.compare_eq_eq.mpr h, Ordering.eq_then]
    rcases Nat.lt_trichotomy (m % 256) (n % 256) with h' | h' | h'
    · have hlt : m < n := by omega
      rw [Nat.compare_eq_lt.mpr h', Nat.compare_eq_lt.mpr hlt]
    · have heq : m = n := by omega
      rw [Nat.compare_eq_eq.mpr h', Nat.compare_eq_eq.mpr heq]
    · have hgt : n < m := by omega
      rw [Nat.compare_eq_gt.mpr h', Nat.compare_eq_gt.mpr hgt]
  · have hgt : n < m := by omega
    rw [Nat.compare_eq_gt.mpr h, Nat.compare_eq_gt.mpr hgt]
    rfl

/-- Bytes are ordered as the numbers that they hold. -/
theorem compare_byte (m n : Nat) :
    compare [UInt8.ofNat (m % 256)] [UInt8.ofNat (n % 256)] = compare (m % 256) (n % 256) := by
  have hm : (UInt8.ofNat (m % 256)).toNat = m % 256 := by simp [UInt8.toNat_ofNat']
  have hn : (UInt8.ofNat (n % 256)).toNat = n % 256 := by simp [UInt8.toNat_ofNat']
  rw [List.compare_cons_cons, List.compare_nil_nil, Ordering.then_eq]
  simp only [compare, compareOfLessAndEq, UInt8.lt_iff_toNat_lt, ← UInt8.toNat_inj, hm, hn]

/-- Numbers that fit their width compare as their bytes, the most significant first. -/
theorem compare_big {width m n : Nat} (hm : m < Nat.pow 256 width) (hn : n < Nat.pow 256 width) :
    compare (big width m) (big width n) = compare m n := by
  induction width generalizing m n with
  | zero =>
    have hm' : m = 0 := Nat.lt_one_iff.mp hm
    have hn' : n = 0 := Nat.lt_one_iff.mp hn
    simp [hm', hn']
  | succ w ih =>
    have hquotient : ∀ {i : Nat}, i < Nat.pow 256 (w + 1) → i / 256 < Nat.pow 256 w := by
      intro i hi
      apply Nat.div_lt_of_lt_mul
      rw [Nat.mul_comm]
      exact hi
    rw [big_succ, big_succ, compare_append (by simp), ih (hquotient hm) (hquotient hn),
      compare_byte, compare_div_mod]

/-- The halves of index keys are ordered as what they were made of. -/
theorem compare_indexHalf (m n : Option UInt64) :
    compare (indexHalf m) (indexHalf n) = compare m n := by
  cases m with
  | none =>
    cases n with
    | none => simp
    | some n =>
      rw [indexHalf, indexHalf, List.compare_cons_cons]
      rfl
  | some m =>
    cases n with
    | none =>
      rw [indexHalf, indexHalf, List.compare_cons_cons]
      rfl
    | some n =>
      have hword : compare m n = compare m.toNat n.toNat := by
        simp only [compare, compareOfLessAndEq, UInt64.lt_iff_toNat_lt, ← UInt64.toNat_inj]
      have hself : compare (1 : UInt8) 1 = .eq := rfl
      have hsome : compare (some m) (some n) = compare m n := rfl
      rw [indexHalf, indexHalf, List.compare_cons_cons, hself, Ordering.eq_then,
        compare_big m.toNat_lt n.toNat_lt, hsome, hword]

/-- The bytes of keys compare as the keys do. -/
theorem compare_indexKey (k k' : Key) : compare (indexKey k) (indexKey k') = compare k k' := by
  rw [indexKey, indexKey, compare_append (by simp), compare_indexHalf, compare_indexHalf,
    Key.compare_owner, Key.compare_method, Key.compare_def]

/-- Different keys have different bytes. -/
theorem indexKey_injective {k k' : Key} (h : indexKey k = indexKey k') : k = k' := by
  apply (Key.compare_eq_iff k k').mp
  rw [← compare_indexKey, h]
  exact Std.ReflCmp.compare_self

/-! ## On disk -/

/-- A record whose lengths fit is read back from its bytes. -/
theorem decodeRecord_encodeRecord {r : Record} (h : Fits r) :
    decodeRecord (encodeRecord r) = .ok r := by
  have hread := readRecord_encodeRecord h []
  rw [List.append_nil] at hread
  rw [decodeRecord, hread]
  rfl

/-- Records of different methods that are put into an empty store are given back, if their lengths
fit. -/
theorem Disk.perm_all_filled {rs : List Record} (hrs : (rs.map Record.key).Nodup)
    (hfits : ∀ r ∈ rs, Fits r) : ∃ rs', (Disk.backend.filled rs).all = .ok rs' ∧ rs'.Perm rs := by
  have hfold : (Disk.backend.filled rs).table =
      rs.foldl (fun t r => t.insert (indexKey r.key) (encodeRecord r)) Table.empty :=
    (List.foldl_hom Disk.table fun _ _ => rfl).symm
  have hkeys : (rs.map fun r => indexKey r.key).Nodup := by
    have hmap := hrs.map (f := indexKey) fun _ _ => indexKey_injective
    rwa [List.map_map] at hmap
  have hentries := Table.entries_foldl_insert (fun r => indexKey r.key) encodeRecord (t := .empty)
    hkeys (by simp)
  have hperm : (Disk.backend.filled rs).entries.Perm
      (rs.map fun r => (indexKey r.key, encodeRecord r)) := by
    rw [Disk.entries, hfold, hentries]
    exact List.mergeSort_perm _ _
  -- What is under each key is a record, so reading it never fails.
  have hread : ∀ e ∈ (Disk.backend.filled rs).entries,
      decodeRecord e.2 = .ok ((decodeRecord e.2).toOption.getD default) := by
    intro e he
    rcases List.mem_map.mp (hperm.mem_iff.mp he) with ⟨r, hr, rfl⟩
    rw [decodeRecord_encodeRecord (hfits r hr)]
    rfl
  refine ⟨_, Graph.mapM_eq_ok hread, (hperm.map _).trans ?_⟩
  rw [List.map_map]
  have hself : rs.map ((fun e => (decodeRecord e.2).toOption.getD default) ∘
      fun r => (indexKey r.key, encodeRecord r)) = rs.map id := by
    apply List.map_congr_left
    intro r hr
    simp [decodeRecord_encodeRecord (hfits r hr), Except.toOption]
  rw [hself, List.map_id]

end Store

end CallGraph
