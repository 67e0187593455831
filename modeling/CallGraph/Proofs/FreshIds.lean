import CallGraph.Proofs.PrintedNames
import CallGraph.Proofs.Stores

/-!
# Fresh identities

The types and the methods of a table draw their identities from one sequence, which a table of
entries and later registrations push forward.  As long as the sequence has not used up the 64-bit
numbers, it is ahead of every identity that the table holds, so a new type or a new name never takes
the place of an old one, and a name keeps the identity that it was given.

Main results:

- Theorem `bounded_editAll` says that no table holds an identity beyond its largest one.
- Theorem `lookup_editAll` says that methods keep their names.
- Theorem `nodup_values_editAll` says that different methods keep different names.
- Theorem `handsOut_editAll` says which identities a table hands out.
-/

namespace CallGraph

namespace Table

variable {κ α : Type} [DecidableEq κ]

/-- A new key leaves what the others answer. -/
theorem lookup_insert_of_not_mem {t : Table κ α} {k k' : κ} {v w : α} (hk : k ∉ t.keys)
    (h : t.lookup k' = some w) : (t.insert k v).lookup k' = some w := by
  have hne : k ≠ k' := by
    rintro rfl
    exact hk (mem_keys_iff_lookup.mpr ⟨w, h⟩)
  rw [lookup_insert, if_neg hne, h]

/-- The value of a new key comes after the others. -/
theorem values_insert_of_not_mem {t : Table κ α} {k : κ} {v : α} (hk : k ∉ t.keys) :
    (t.insert k v).values = t.values ++ [v] := by
  have hentries : (t.insert k v).entries = t.entries ++ [(k, v)] := put_of_not_mem hk
  rw [values, hentries, List.map_append]
  rfl

/-- If no value is there twice, it leads back to its key. -/
theorem eq_of_nodup_values {t : Table κ α} (h : t.values.Nodup) {k k' : κ} {v : α}
    (hk : t.lookup k = some v) (hk' : t.lookup k' = some v) : k = k' := by
  rw [lookup_eq_some_iff] at hk hk'
  exact congrArg Prod.fst (List.inj_on_of_nodup_map h hk hk' rfl)

end Table

namespace TypeTable

/-! ## Edits of a table -/

/-- What is done to a table after it was made. -/
inductive Edit where
  /-- Register a type under a given identity. -/
  | declare (id : TypeId) (shape : Shape)
  /-- Register a class, a module, a singleton, a proxy or any other type under a fresh identity. -/
  | add (shape : Shape)
  /-- Ask for the identity of a method name, which gets one if it has none. -/
  | intern (name : String)
  deriving DecidableEq, Repr

/-- The table after an edit. -/
def edit (t : TypeTable) : Edit → TypeTable
  | .declare id shape => t.declare id shape
  | .add shape => (t.add shape).1
  | .intern name => (t.intern name).1

/-- The table after edits that are made one after the other. -/
def editAll (t : TypeTable) (edits : List Edit) : TypeTable := edits.foldl edit t

/-- A number is left beyond the largest identity. -/
def HasRoom (t : TypeTable) : Prop := t.lastId.toNat + 1 < UInt64.size

/-- A number is left before every edit and after the last one. -/
def KeepsRoom : TypeTable → List Edit → Prop
  | t, [] => t.HasRoom
  | t, e :: rest => t.HasRoom ∧ KeepsRoom (t.edit e) rest

instance (t : TypeTable) : Decidable t.HasRoom := inferInstanceAs (Decidable (_ < _))

instance decidableKeepsRoom : (t : TypeTable) → (edits : List Edit) → Decidable (t.KeepsRoom edits)
  | t, [] => inferInstanceAs (Decidable t.HasRoom)
  | t, e :: rest =>
    have := decidableKeepsRoom (t.edit e) rest
    inferInstanceAs (Decidable (_ ∧ _))

variable {t : TypeTable}

/-- Edits that follow others act on what those left. -/
theorem editAll_append (t : TypeTable) (before after : List Edit) :
    t.editAll (before ++ after) = (t.editAll before).editAll after :=
  List.foldl_append

/-- Room that is kept is there at the start. -/
theorem KeepsRoom.hasRoom {edits : List Edit} (h : t.KeepsRoom edits) : t.HasRoom := by
  cases edits with
  | nil => exact h
  | cons e rest => exact h.1

/-- Room that is kept by edits is kept by the later ones of them. -/
theorem KeepsRoom.later {before after : List Edit} (h : t.KeepsRoom (before ++ after)) :
    (t.editAll before).KeepsRoom after := by
  induction before generalizing t with
  | nil => exact h
  | cons e rest ih => exact ih h.2

/-- Room that is kept by edits is kept by the earlier ones of them. -/
theorem KeepsRoom.earlier {before after : List Edit} (h : t.KeepsRoom (before ++ after)) :
    t.KeepsRoom before := by
  induction before generalizing t with
  | nil => exact KeepsRoom.hasRoom h
  | cons e rest ih => exact ⟨h.1, ih h.2⟩

/-! ## The largest identity -/

/-- A number is the identity of a type or of a method. -/
def Holds (t : TypeTable) (n : UInt64) : Prop :=
  (⟨n⟩ : TypeId) ∈ t.types.keys ∨ (⟨n⟩ : MethodId) ∈ t.methods.keys

/-- No identity is beyond the largest one. -/
def Bounded (t : TypeTable) : Prop := ∀ n, t.Holds n → n ≤ t.lastId

/-- Neither of two numbers is beyond the larger one. -/
theorem le_max (m n : UInt64) : m ≤ max m n ∧ n ≤ max m n := by
  change (m ≤ if m ≤ n then n else m) ∧ n ≤ if m ≤ n then n else m
  split
  · next h => exact ⟨h, UInt64.le_refl n⟩
  · next h => exact ⟨UInt64.le_refl m, UInt64.le_of_lt (UInt64.not_le.mp h)⟩

/-- With room left, the next identity is the successor of the largest one, without wrapping
around. -/
theorem HasRoom.toNat_freshId (h : t.HasRoom) : t.freshId.toNat = t.lastId.toNat + 1 := by
  rw [freshId, UInt64.toNat_add]
  exact Nat.mod_eq_of_lt h

/-- With room left, the next identity is not below the largest one. -/
theorem HasRoom.lastId_le (h : t.HasRoom) : t.lastId ≤ t.freshId := by
  rw [UInt64.le_iff_toNat_le, h.toNat_freshId]
  exact Nat.le_succ _

/-- The next identity of the sequence is beyond every one that is there. -/
theorem Bounded.lt_freshId (ht : t.Bounded) (h : t.HasRoom) {n : UInt64} (hn : t.Holds n) :
    n < t.freshId := by
  have hle := UInt64.le_iff_toNat_le.mp (ht n hn)
  rw [UInt64.lt_iff_toNat_lt, h.toNat_freshId]
  exact Nat.lt_succ_of_le hle

/-- The next identity is that of no type. -/
theorem Bounded.freshId_not_mem_types (ht : t.Bounded) (h : t.HasRoom) :
    (⟨t.freshId⟩ : TypeId) ∉ t.types.keys :=
  fun hmem => UInt64.lt_irrefl _ (ht.lt_freshId h (Or.inl hmem))

/-- The next identity is that of no method. -/
theorem Bounded.freshId_not_mem_methods (ht : t.Bounded) (h : t.HasRoom) :
    (⟨t.freshId⟩ : MethodId) ∉ t.methods.keys :=
  fun hmem => UInt64.lt_irrefl _ (ht.lt_freshId h (Or.inr hmem))

/-- The empty table is bounded. -/
theorem bounded_empty : empty.Bounded := by
  rintro n (h | h) <;> simp [empty] at h

/-- A type that is registered under an identity pushes the largest one forward. -/
theorem Bounded.declare (ht : t.Bounded) (id : TypeId) (shape : Shape) :
    (t.declare id shape).Bounded := by
  rintro n (h | h)
  · rcases Table.mem_keys_insert.mp h with rfl | h
    · exact (le_max t.lastId n).2
    · exact UInt64.le_trans (ht n (Or.inl h)) (le_max t.lastId id.val).1
  · exact UInt64.le_trans (ht n (Or.inr h)) (le_max t.lastId id.val).1

/-- So does a method. -/
theorem Bounded.declareMethod (ht : t.Bounded) (id : MethodId) (name : String) :
    (t.declareMethod id name).Bounded := by
  rintro n (h | h)
  · exact UInt64.le_trans (ht n (Or.inl h)) (le_max t.lastId id.val).1
  · rcases Table.mem_keys_insert.mp h with rfl | h
    · exact (le_max t.lastId n).2
    · exact UInt64.le_trans (ht n (Or.inr h)) (le_max t.lastId id.val).1

/-- A type that gets the next identity moves the largest one on to it. -/
theorem Bounded.add (ht : t.Bounded) (h : t.HasRoom) (shape : Shape) : (t.add shape).1.Bounded := by
  rintro n (hn | hn)
  · rcases Table.mem_keys_insert.mp hn with heq | hn
    · cases heq
      exact UInt64.le_refl _
    · exact UInt64.le_trans (ht n (Or.inl hn)) h.lastId_le
  · exact UInt64.le_trans (ht n (Or.inr hn)) h.lastId_le

/-- A table of entries is bounded, whatever their order and their repetitions. -/
theorem bounded_ofEntries (types : List (TypeId × Shape)) (methods : List (MethodId × String)) :
    (ofEntries types methods).Bounded := by
  have htypes : (types.foldl (fun t e => t.declare e.1 e.2) empty).Bounded := by
    refine List.foldlRecOn types _ bounded_empty ?_
    intro t ht e _
    exact ht.declare e.1 e.2
  refine List.foldlRecOn methods _ htypes ?_
  intro t ht e _
  exact ht.declareMethod e.1 e.2

/-! ## Interning a name -/

/-- No identity is found for a name exactly if no method has it. -/
theorem findMethod_eq_none_iff {name : String} :
    t.findMethod name = none ↔ name ∉ t.methods.values := by
  rw [findMethod, Option.map_eq_none_iff, List.find?_eq_none, Table.values, List.mem_map]
  simp only [decide_eq_true_eq, not_exists, not_and]

/-- What interning does: a name that has an identity keeps it, and any other gets the next one. -/
theorem intern_cases (t : TypeTable) (name : String) :
    (∃ id, t.methods.lookup id = some name ∧ t.intern name = (t, id)) ∨
      (name ∉ t.methods.values ∧ t.intern name =
        ({ t with methods := t.methods.insert ⟨t.freshId⟩ name, lastId := t.freshId },
          ⟨t.freshId⟩)) := by
  cases hfind : t.findMethod name with
  | some id => exact Or.inl ⟨id, lookup_of_findMethod hfind, intern_of_findMethod hfind⟩
  | none => exact Or.inr ⟨findMethod_eq_none_iff.mp hfind, by simp [intern, hfind]⟩

/-- Interning a name leaves the types alone. -/
theorem types_intern (t : TypeTable) (name : String) : (t.intern name).1.types = t.types := by
  rcases t.intern_cases name with ⟨id, -, heq⟩ | ⟨-, heq⟩ <;> rw [heq]

/-- The identity that is given to a name is registered under it. -/
theorem lookup_intern_self (t : TypeTable) (name : String) :
    (t.intern name).1.methods.lookup (t.intern name).2 = some name := by
  rcases t.intern_cases name with ⟨id, hid, heq⟩ | ⟨-, heq⟩
  · rw [heq]
    exact hid
  · rw [heq]
    exact Table.lookup_insert_self _ _ _

/-- Interning leaves the names of the other methods. -/
theorem Bounded.lookup_intern (ht : t.Bounded) (h : t.HasRoom) (name : String) {m : MethodId}
    {other : String} (hm : t.methods.lookup m = some other) :
    (t.intern name).1.methods.lookup m = some other := by
  rcases t.intern_cases name with ⟨id, -, heq⟩ | ⟨-, heq⟩
  · rw [heq]
    exact hm
  · rw [heq]
    exact Table.lookup_insert_of_not_mem (ht.freshId_not_mem_methods h) hm

/-- A name that gets the next identity moves the largest one on to it. -/
theorem Bounded.intern (ht : t.Bounded) (h : t.HasRoom) (name : String) :
    (t.intern name).1.Bounded := by
  rcases t.intern_cases name with ⟨id, -, heq⟩ | ⟨-, heq⟩
  · rw [heq]
    exact ht
  · rw [heq]
    rintro n (hn | hn)
    · exact UInt64.le_trans (ht n (Or.inl hn)) h.lastId_le
    · rcases Table.mem_keys_insert.mp hn with heq | hn
      · cases heq
        exact UInt64.le_refl _
      · exact UInt64.le_trans (ht n (Or.inr hn)) h.lastId_le

/-- Interning gives no second identity to a name. -/
theorem Bounded.nodup_values_intern (ht : t.Bounded) (h : t.HasRoom) (name : String)
    (hnames : t.methods.values.Nodup) : (t.intern name).1.methods.values.Nodup := by
  rcases t.intern_cases name with ⟨id, -, heq⟩ | ⟨hnew, heq⟩
  · rw [heq]
    exact hnames
  · rw [heq, Table.values_insert_of_not_mem (ht.freshId_not_mem_methods h)]
    exact List.nodup_append.mpr ⟨hnames, List.nodup_singleton name, by grind⟩

/-! ## Any sequence of edits -/

/-- An edit that has room keeps a table bounded. -/
theorem Bounded.edit (ht : t.Bounded) (h : t.HasRoom) (e : Edit) : (t.edit e).Bounded := by
  cases e with
  | declare id shape => exact ht.declare id shape
  | add shape => exact ht.add h shape
  | intern name => exact ht.intern h name

/-- No table holds an identity beyond its largest one. -/
theorem bounded_editAll (ht : t.Bounded) {edits : List Edit} (h : t.KeepsRoom edits) :
    (t.editAll edits).Bounded ∧ (t.editAll edits).HasRoom := by
  induction edits generalizing t with
  | nil => exact ⟨ht, h⟩
  | cons e rest ih => exact ih (ht.edit h.1 e) h.2

/-- Methods keep their names. -/
theorem lookup_editAll (ht : t.Bounded) {edits : List Edit} (h : t.KeepsRoom edits) {m : MethodId}
    {name : String} (hm : t.methods.lookup m = some name) :
    (t.editAll edits).methods.lookup m = some name := by
  induction edits generalizing t with
  | nil => exact hm
  | cons e rest ih =>
    refine ih (ht.edit h.1 e) h.2 ?_
    cases e with
    | declare id shape => exact hm
    | add shape => exact hm
    | intern other => exact ht.lookup_intern h.1 other hm

/-- Different methods keep different names. -/
theorem nodup_values_editAll (ht : t.Bounded) {edits : List Edit} (h : t.KeepsRoom edits)
    (hnames : t.methods.values.Nodup) : (t.editAll edits).methods.values.Nodup := by
  induction edits generalizing t with
  | nil => exact hnames
  | cons e rest ih =>
    refine ih (ht.edit h.1 e) h.2 ?_
    cases e with
    | declare id shape => exact hnames
    | add shape => exact hnames
    | intern name => exact ht.nodup_values_intern h.1 name hnames

/-- The identity that was given to a name stands for it after any later edits. -/
theorem lookup_interned {before after : List Edit} {name : String} (ht : t.Bounded)
    (h : t.KeepsRoom (before ++ .intern name :: after)) :
    (t.editAll (before ++ .intern name :: after)).methods.lookup
      ((t.editAll before).intern name).2 = some name := by
  have hbefore := bounded_editAll ht h.earlier
  have hlater := h.later
  rw [editAll_append]
  exact lookup_editAll (hbefore.1.intern hbefore.2 name) hlater.2 (lookup_intern_self _ name)

/-! ## What a table hands out -/

/-- What is registered in a table stays registered in another one. -/
structure Keeps (t t' : TypeTable) : Prop where
  types : ∀ ty shape, t.types.lookup ty = some shape → t'.types.lookup ty = some shape
  methods : ∀ m name, t.methods.lookup m = some name → t'.methods.lookup m = some name

/-- Names and identities correspond in a table that was edited. -/
structure Corresponds (start : TypeTable) (edits : List Edit) : Prop where
  /-- No two methods have one name. -/
  distinct : (start.editAll edits).methods.values.Nodup
  /-- Names that are interned one after the other, now or later, get the same identity exactly if
  they are equal. -/
  agrees : ∀ before name after other, edits = before ++ .intern name :: after →
    (((start.editAll before).intern name).2 = ((start.editAll edits).intern other).2 ↔
      name = other)

/-- Which identities a table hands out after it was edited. -/
structure HandsOut (start : TypeTable) (edits : List Edit) : Prop where
  /-- A new type gets an identity beyond those of all types and methods. -/
  added : ∀ shape n, (start.editAll edits).Holds n → n < ((start.editAll edits).add shape).2.val
  /-- So does a new name. -/
  interned : ∀ name, name ∉ (start.editAll edits).methods.values →
    ∀ n, (start.editAll edits).Holds n → n < ((start.editAll edits).intern name).2.val
  keepsAdd : ∀ shape, (start.editAll edits).Keeps ((start.editAll edits).add shape).1
  keepsIntern : ∀ name, (start.editAll edits).Keeps ((start.editAll edits).intern name).1
  /-- An identity that was given to a name stands for it ever after. -/
  named : ∀ before name after, edits = before ++ .intern name :: after →
    (start.editAll edits).host.methodName ((start.editAll before).intern name).2 = name
  corresponds : start.methods.values.Nodup → start.Corresponds edits

/-- A new type takes the place of nothing that is registered. -/
theorem Bounded.keeps_add (ht : t.Bounded) (h : t.HasRoom) (shape : Shape) :
    t.Keeps (t.add shape).1 where
  types _ _ hty := Table.lookup_insert_of_not_mem (ht.freshId_not_mem_types h) hty
  methods _ _ hm := hm

/-- A new name takes the place of nothing that is registered. -/
theorem Bounded.keeps_intern (ht : t.Bounded) (h : t.HasRoom) (name : String) :
    t.Keeps (t.intern name).1 where
  types _ _ hty := by rwa [types_intern]
  methods _ _ hm := ht.lookup_intern h name hm

/-- Names and identities correspond, since no edit changes or repeats a name. -/
theorem Bounded.corresponds {edits : List Edit} (ht : t.Bounded) (h : t.KeepsRoom edits)
    (hnames : t.methods.values.Nodup) : t.Corresponds edits where
  distinct := nodup_values_editAll ht h hnames
  agrees before name after other heq := by
    obtain ⟨hbound, hroom⟩ := bounded_editAll ht h
    subst heq
    -- Both identities are registered after the second name was interned.
    have hname := hbound.lookup_intern hroom other (lookup_interned ht h)
    have hother := lookup_intern_self (t.editAll (before ++ .intern name :: after)) other
    constructor
    · intro hsame
      rw [hsame, hother, Option.some.injEq] at hname
      exact hname.symm
    · rintro rfl
      exact Table.eq_of_nodup_values
        (hbound.nodup_values_intern hroom name (nodup_values_editAll ht h hnames)) hname hother

/-- A table that was made of entries and edited hands out identities beyond all that it holds, as
long as numbers are left.  So what is registered stays as it is, and if no two methods had one name
at the start, names and their identities correspond for ever. -/
theorem handsOut_editAll (types : List (TypeId × Shape)) (methods : List (MethodId × String))
    {edits : List Edit} (h : (ofEntries types methods).KeepsRoom edits) :
    (ofEntries types methods).HandsOut edits := by
  have hstart := bounded_ofEntries types methods
  obtain ⟨hbound, hroom⟩ := bounded_editAll hstart h
  exact
    { added := fun shape n hn => hbound.lt_freshId hroom hn
      interned := by
        intro name hname n hn
        rcases intern_cases _ name with ⟨id, hid, -⟩ | ⟨-, heq⟩
        · exact absurd (Table.mem_values_iff.mpr ⟨id, hid⟩) hname
        · rw [heq]
          exact hbound.lt_freshId hroom hn
      keepsAdd := hbound.keeps_add hroom
      keepsIntern := hbound.keeps_intern hroom
      named := by
        rintro before name after rfl
        exact methodLabel_of_lookup (lookup_interned hstart h)
      corresponds := hstart.corresponds h }

/-- Entries that are out of order, and one of which replaces another one. -/
def scatteredTypes : List (TypeId × Shape) :=
  [(⟨50⟩, .cls "App" none), (⟨3⟩, .mdl "Kernel"), (⟨50⟩, .cls "Main" none)]

/-- Edits that skip a part of the sequence, replace a type and repeat a name. -/
def scatteredEdits : List Edit :=
  [.intern "stop", .declare ⟨200⟩ (.other "#<Odd>"), .add (.proxy ⟨3⟩ none),
    .declare ⟨3⟩ (.mdl "Comparable"), .intern "each", .intern "stop"]

/-- The scattered table hands out 121 to the name `stop`, which keeps it. -/
theorem handsOut_scatteredEdits :
    let start := ofEntries scatteredTypes [(⟨120⟩, "run"), (⟨7⟩, "puts"), (⟨120⟩, "each")]
    start.KeepsRoom scatteredEdits ∧ start.methods.values.Nodup ∧
      start.HandsOut scatteredEdits ∧ (start.intern "stop").2 = ⟨121⟩ ∧
      ((start.editAll scatteredEdits).intern "stop").2 = ⟨121⟩ ∧
      ((start.editAll scatteredEdits).add (.mdl "Util")).2 = ⟨202⟩ := by
  intro start
  have hroom : start.KeepsRoom scatteredEdits := by decide +kernel
  exact ⟨hroom, by decide +kernel, handsOut_editAll _ _ hroom, by decide +kernel,
    by decide +kernel, by decide +kernel⟩

end TypeTable

end CallGraph
