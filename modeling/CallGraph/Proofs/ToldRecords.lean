import CallGraph.Proofs.Members

/-!
# The record that an object tells

A record is found in an object member by member: of each name the last member counts, what may be
left out is absent or `null` or decodes, and what must be there decodes.  A decoder that puts the
members in their places one after the other finds the same, and the written form of a record tells
this record.

Main results:

- Theorem `record_obj_iff` says which record a decoder finds in an object.
- Theorem `told_toJson` says that the written form of a record tells it.
- Theorem `record_toJson` says that the written form of a record decodes to it.
-/

namespace CallGraph

open Json (Doc)

namespace Json

/-! ## Sorted forms of what is written -/

@[simp] theorem sorted_ofUInt64 (n : UInt64) : (ofUInt64 n).sorted = ofUInt64 n := sorted_int _

/-- The sorted form of an optional value has the value sorted. -/
@[simp] theorem sorted_ofOption {α : Type} (write : α → Json) (a : Option α) :
    (ofOption write a).sorted = ofOption (fun a => (write a).sorted) a := by
  cases a with
  | none => exact sorted_null
  | some a => rfl

/-- The sorted form of an array has its items sorted. -/
@[simp] theorem sorted_arr_map {α : Type} (write : α → Json) (as : List α) :
    (arr (as.map write)).sorted = arr (as.map fun a => (write a).sorted) := by
  have hitems : sortedItems (as.map write) = as.map fun a => (write a).sorted := by
    induction as with
    | nil => rfl
    | cons a rest ih => rw [List.map_cons, sortedItems, ih, List.map_cons]
  rw [sorted, hitems]

end Json

/-! ## What an object tells -/

namespace Decode

section Member

variable {α : Type} (name : String) (read : Doc → Result α) (ms : List (String × Json))

/-- The last member of a name is there and decodes to `a`. -/
def Gives (a : α) : Prop := ∃ v, Json.lastMember? name ms = some v ∧ read (Doc.ofJson v) = .ok a

/-- What the last member of a name tells that may be left out or be `null`. -/
inductive MayGive : Option α → Prop
  | absent (last : Json.lastMember? name ms = none) : MayGive none
  | null (last : Json.lastMember? name ms = some .null) : MayGive none
  | given {v : Json} {a : α} (last : Json.lastMember? name ms = some v) (present : v ≠ .null)
      (decodes : read (Doc.ofJson v) = .ok a) : MayGive (some a)

end Member

end Decode

/-- The members of an object tell a record. -/
structure Record.Told (ms : List (String × Json)) (r : Record) : Prop where
  owner : Decode.MayGive "owner" Decode.typeId ms r.key.owner
  method : Decode.MayGive "method" Decode.methodId ms r.key.method
  recursive : Decode.Gives "recursive" Decode.bool ms r.recursive
  file : Decode.MayGive "source_file" Decode.string ms r.file
  line : Decode.Gives "line" Decode.uint32 ms r.line
  callers : Decode.Gives "callers" (Decode.list (Decode.call .value)) ms r.callers
  callees : Decode.Gives "callees" (Decode.list (Decode.call .value)) ms r.callees

namespace Decode

/-! ## What a decoder finds -/

section Place

variable {α : Type} {name : String} {read : Doc → Result α} {ms : List (String × Json)}

/-- In a sorted object a place is filled by the last member of its name. -/
theorem fill_sorted (place : Option α) :
    fill place name read (Json.sortedMembers ms []) =
      match Json.lastMember? name ms with
      | none => .ok place
      | some v => once place name read (Doc.ofJson v) := by
  cases h : Json.lastMember? name ms <;> simp [fill, Json.member?_sorted, h]

/-- A place that must be taken is taken by what the object gives. -/
theorem fill_eq_some_iff {a : α} :
    fill none name read (Json.sortedMembers ms []) = .ok (some a) ↔ Gives name read ms a := by
  rw [fill_sorted, Gives]
  cases Json.lastMember? name ms with
  | none => simp
  | some v => simp [once, Graph.map_eq_ok_iff]

/-- A document that is not `null` is read where a value may be absent. -/
theorem optional_of_ne_null {v : Json} (h : v ≠ .null) :
    optional read (Doc.ofJson v) = some <$> read (Doc.ofJson v) := by
  cases v with
  | null => exact absurd rfl h
  | bool | int | float | str | arr | obj => simp only [Doc.ofJson, optional]

/-- A place that may stay empty holds what the object tells. -/
theorem exists_fill_iff {a : Option α} :
    (∃ place, fill none name (optional read) (Json.sortedMembers ms []) = .ok place ∧
      place.join = a) ↔ MayGive name read ms a := by
  rw [fill_sorted]
  constructor
  · rintro ⟨place, hfill, rfl⟩
    cases hm : Json.lastMember? name ms with
    | none =>
      simp only [hm, Except.ok.injEq] at hfill
      subst hfill
      exact .absent hm
    | some v =>
      simp only [hm, once, Graph.map_eq_ok_iff] at hfill
      obtain ⟨b, hb, rfl⟩ := hfill
      by_cases hv : v = .null
      · subst hv
        simp only [optional_null, Except.ok.injEq] at hb
        subst hb
        exact .null hm
      · rw [optional_of_ne_null hv, Graph.map_eq_ok_iff] at hb
        obtain ⟨a, ha, rfl⟩ := hb
        exact .given hm hv ha
  · intro h
    cases h with
    | absent hm => exact ⟨none, by simp [hm], rfl⟩
    | null hm => exact ⟨some none, by simp [hm, once, Functor.map, Except.map], rfl⟩
    | @given v a hm hv ha =>
      refine ⟨some (some a), ?_, rfl⟩
      simp [hm, once, optional_of_ne_null hv, ha, Functor.map, Except.map]

end Place

/-- What must be there is there if its place is taken. -/
theorem require_eq_ok_iff {α : Type} {name : String} {place : Option α} {a : α} :
    require name place = .ok a ↔ place = some a := by
  cases place <;> simp [require]

/-- The record of its parts. -/
theorem finish_eq_ok_iff {p : RecordParts} {r : Record} :
    p.finish = .ok r ↔
      (p.recursive = some r.recursive ∧ p.line = some r.line ∧ p.callers = some r.callers ∧
        p.callees = some r.callees) ∧
      p.owner.join = r.key.owner ∧ p.method.join = r.key.method ∧ p.file.join = r.file := by
  obtain ⟨⟨owner, method⟩, recursive, file, line, callers, callees⟩ := r
  simp only [RecordParts.finish, Graph.bind_eq_ok_iff, require_eq_ok_iff, pure, Except.pure,
    Except.ok.injEq, Record.mk.injEq, Key.mk.injEq]
  grind

/-- A decoder finds in an object the record that its members tell. -/
theorem record_obj_iff {ms : List (String × Json)} {r : Record} :
    fromJson record (.obj ms) = .ok r ↔ Record.Told ms r := by
  have hread : fromJson record (.obj ms) =
      members (RecordParts.read .value) {} (Doc.ofMembers (Json.sortedMembers ms [])) >>=
        RecordParts.finish := by
    rw [fromJson, Json.sorted]
    rfl
  simp only [hread, Graph.bind_eq_ok_iff, members_read_iff (Json.nodup_sortedMembers ms),
    finish_eq_ok_iff]
  constructor
  · rintro ⟨p, hp, ⟨hrecursive, hline, hcallers, hcallees⟩, howner, hmethod, hfile⟩
    exact
      { owner := exists_fill_iff.mp ⟨_, hp.owner, howner⟩
        method := exists_fill_iff.mp ⟨_, hp.method, hmethod⟩
        recursive := fill_eq_some_iff.mp (hrecursive ▸ hp.recursive)
        file := exists_fill_iff.mp ⟨_, hp.file, hfile⟩
        line := fill_eq_some_iff.mp (hline ▸ hp.line)
        callers := fill_eq_some_iff.mp (hcallers ▸ hp.callers)
        callees := fill_eq_some_iff.mp (hcallees ▸ hp.callees) }
  · intro h
    obtain ⟨owner, howner, howner'⟩ := exists_fill_iff.mpr h.owner
    obtain ⟨method, hmethod, hmethod'⟩ := exists_fill_iff.mpr h.method
    obtain ⟨file, hfile, hfile'⟩ := exists_fill_iff.mpr h.file
    refine ⟨⟨owner, method, some r.recursive, file, some r.line, some r.callers, some r.callees⟩,
      ⟨howner, hmethod, ?_, hfile, ?_, ?_, ?_⟩, ⟨rfl, rfl, rfl, rfl⟩, howner', hmethod', hfile'⟩
    · exact fill_eq_some_iff.mpr h.recursive
    · exact fill_eq_some_iff.mpr h.line
    · exact fill_eq_some_iff.mpr h.callers
    · exact fill_eq_some_iff.mpr h.callees

/-! ## Written records -/

/-- A written 64-bit number is read as itself. -/
theorem uint64_ofUInt64 (n : UInt64) : uint64 (Doc.ofJson (.ofUInt64 n)) = .ok n := by
  rw [uint64, Json.ofUInt64, natural_ofJson n.toNat_lt]
  exact congrArg Except.ok UInt64.ofNat_toNat

/-- A written 32-bit number is read as itself. -/
theorem uint32_ofJson (n : UInt32) : uint32 (Doc.ofJson (.int n.toNat)) = .ok n := by
  rw [uint32, natural_ofJson n.toNat_lt]
  exact congrArg Except.ok UInt32.ofNat_toNat

/-- The written identity of a type is read as itself. -/
theorem typeId_ofUInt64 (ty : TypeId) : typeId (Doc.ofJson (.ofUInt64 ty.val)) = .ok ty := by
  rw [typeId, uint64_ofUInt64]
  rfl

/-- The written identity of a method is read as itself. -/
theorem methodId_ofUInt64 (m : MethodId) : methodId (Doc.ofJson (.ofUInt64 m.val)) = .ok m := by
  rw [methodId, uint64_ofUInt64]
  rfl

/-- A written text is read as itself. -/
theorem string_ofJson (s : String) : string (Doc.ofJson (.str s)) = .ok s := rfl

section Written

variable {α : Type} {read : Doc → Result α} {write : α → Json}

/-- Written items are read one by one. -/
theorem each_ofItems (h : ∀ a, read (Doc.ofJson (write a)) = .ok a) (as : List α) :
    each read (Doc.ofItems (as.map write)) = .ok as := by
  induction as with
  | nil => rfl
  | cons a rest ih =>
    rw [List.map_cons, Doc.ofItems, each, h, ih]
    rfl

/-- The written form of a list is read item by item. -/
theorem list_ofJson (h : ∀ a, read (Doc.ofJson (write a)) = .ok a) (as : List α) :
    list read (Doc.ofJson (.arr (as.map write))) = .ok as := by
  rw [Doc.ofJson, list, each_ofItems h]
  rfl

/-- The written form of a value that may be absent. -/
theorem optional_ofOption (h : ∀ a, read (Doc.ofJson (write a)) = .ok a)
    (hnull : ∀ a, write a ≠ .null) (a : Option α) :
    optional read (Doc.ofJson (.ofOption write a)) = .ok a := by
  cases a with
  | none => rw [Json.ofOption, optional_null]
  | some a =>
    rw [Json.ofOption, optional_of_ne_null (hnull a), h]
    rfl

/-- A written value that may be absent tells itself. -/
theorem mayGive_ofOption {name : String} {ms : List (String × Json)}
    (h : ∀ a, read (Doc.ofJson (write a)) = .ok a) (hnull : ∀ a, write a ≠ .null) {a : Option α}
    (hlast : Json.lastMember? name ms = some (.ofOption write a)) : MayGive name read ms a := by
  cases a with
  | none => exact .null hlast
  | some a => exact .given hlast (hnull a) (h a)

end Written

/-- A written key is read as itself, though its members were sorted. -/
theorem key_toJson (k : Key) : key .value (Doc.ofJson k.toJson.sorted) = .ok k := by
  have hsorted : k.toJson.sorted = .obj
      [("method", .ofOption (fun m : MethodId => .ofUInt64 m.val) k.method),
        ("owner", .ofOption (fun ty : TypeId => .ofUInt64 ty.val) k.owner)] := by
    have hlt : "method" < "owner" := by decide
    simp [Key.toJson, Key.members, Json.sorted, Json.sortedMembers, Json.insertMember, hlt]
  have hmethod := optional_ofOption methodId_ofUInt64 (by simp [Json.ofUInt64]) k.method
  have howner := optional_ofOption typeId_ofUInt64 (by simp [Json.ofUInt64]) k.owner
  rw [hsorted, Doc.ofJson, Doc.ofMembers, Doc.ofMembers, Doc.ofMembers, key, structured]
  simp only [members, lift, bind, Except.bind, KeyParts.read, once, hmethod, howner, Functor.map,
    Except.map, pure, Except.pure, Json.finish]
  rfl

/-- A written call is read as itself, though its members were sorted. -/
theorem call_toJson (c : CallRecord) : call .value (Doc.ofJson c.toJson.sorted) = .ok c := by
  have hsorted : c.toJson.sorted = .obj [("callee", c.callee.toJson.sorted),
      ("caller", .ofOption (fun k => k.toJson.sorted) c.caller)] := by
    have hlt : "callee" < "caller" := by decide
    simp [CallRecord.toJson, Json.sorted, Json.sortedMembers, Json.insertMember, hlt]
  have hcaller := optional_ofOption key_toJson (by simp [Key.toJson, Json.sorted]) c.caller
  rw [hsorted, Doc.ofJson, Doc.ofMembers, Doc.ofMembers, Doc.ofMembers, call, structured]
  simp only [members, lift, bind, Except.bind, CallParts.read, once, key_toJson, hcaller,
    Functor.map, Except.map, pure, Except.pure, Json.finish, require]
  rfl

/-- The written form of a record tells this record. -/
theorem told_toJson (r : Record) : ∃ ms, r.toJson = .obj ms ∧ Record.Told ms r := by
  refine ⟨_, rfl, ?_⟩
  exact
    { owner := mayGive_ofOption typeId_ofUInt64 (by simp [Json.ofUInt64])
        (by simp [Json.lastMember?, Key.members, Json.member?])
      method := mayGive_ofOption methodId_ofUInt64 (by simp [Json.ofUInt64])
        (by simp [Json.lastMember?, Key.members, Json.member?])
      recursive := ⟨.bool r.recursive, by simp [Json.lastMember?, Key.members, Json.member?], rfl⟩
      file := mayGive_ofOption string_ofJson (by simp)
        (by simp [Json.lastMember?, Key.members, Json.member?])
      line := ⟨.int r.line.toNat, by simp [Json.lastMember?, Key.members, Json.member?],
        uint32_ofJson r.line⟩
      callers := ⟨.arr (r.callers.map fun c => c.toJson.sorted),
        by simp [Json.lastMember?, Key.members, Json.member?], list_ofJson call_toJson r.callers⟩
      callees := ⟨.arr (r.callees.map fun c => c.toJson.sorted),
        by simp [Json.lastMember?, Key.members, Json.member?], list_ofJson call_toJson r.callees⟩ }

/-- The written form of a record decodes to it. -/
theorem record_toJson (r : Record) : fromJson record r.toJson = .ok r := by
  obtain ⟨ms, hobj, htold⟩ := told_toJson r
  rw [hobj]
  exact record_obj_iff.mpr htold

end Decode

end CallGraph
