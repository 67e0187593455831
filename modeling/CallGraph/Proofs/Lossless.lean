import CallGraph.Proofs.Isolation
import CallGraph.Proofs.PrintedValues
import CallGraph.Proofs.ToldRecords
import CallGraph.Report

/-!
# The records of a printed report

A report in JSON is an array with one object for each record.  Its identities and lines are whole
numbers of at most 64 bits, it has no floating-point numbers, and its containers are nested five
deep whatever the records hold, so that the text is read back as the value that was printed.  The
records are then found in its items, whether these are first taken whole or decoded on the way.

Main results:

- Theorem `Record.plain_toJson` says that the written form of a record is read back from its text.
- Theorem `Decode.record_ofJson` says that records are decoded in the order in which they are
  written.
- Theorem `Report.tells_recordsText` says that a text of records tells exactly these.
- Theorem `Graph.printsRecords_applyAll` says that a report of a graph tells its records.
-/

namespace CallGraph

open Json (Doc Plain)

/-! ## What is printed -/

namespace Json

/-- An optional value is written plainly if its value is. -/
theorem plain_ofOption {α : Type} {write : α → Json} {room : Nat} (h : ∀ a, Plain room (write a))
    (a : Option α) : Plain room (ofOption write a) := by
  cases a with
  | none => exact .null room
  | some a => exact h a

/-- A number is written plainly. -/
theorem plain_ofUInt64 (room : Nat) (n : UInt64) : Plain room (ofUInt64 n) := by
  have hlt := n.toNat_lt
  exact .int room (by omega) (by exact_mod_cast hlt)

/-- Values that are written plainly make a plain array, one level deeper. -/
theorem plain_arr_map {α : Type} {write : α → Json} {room : Nat} (h : ∀ a, Plain room (write a))
    (as : List α) : Plain (room + 1) (.arr (as.map write)) := by
  apply Plain.arr
  intro v hv
  obtain ⟨a, -, rfl⟩ := List.mem_map.mp hv
  exact h a

end Json

/-- The members of a key are written plainly. -/
theorem Key.plain_of_mem_members {room : Nat} {k : Key} {m : String × Json} (h : m ∈ k.members) :
    Plain room m.2 := by
  simp only [members, List.mem_cons, List.not_mem_nil, or_false] at h
  rcases h with rfl | rfl
  · exact Json.plain_ofOption (fun ty => Json.plain_ofUInt64 room ty.val) k.owner
  · exact Json.plain_ofOption (fun m => Json.plain_ofUInt64 room m.val) k.method

/-- A key is written plainly, one level deep. -/
theorem Key.plain_toJson (room : Nat) (k : Key) : Plain (room + 1) k.toJson :=
  .obj fun _ hm => plain_of_mem_members hm

/-- A call is written plainly, two levels deep. -/
theorem CallRecord.plain_toJson (room : Nat) (c : CallRecord) : Plain (room + 2) c.toJson := by
  apply Plain.obj
  intro m hm
  simp only [List.mem_cons, List.not_mem_nil, or_false] at hm
  rcases hm with rfl | rfl
  · exact Json.plain_ofOption (Key.plain_toJson room) c.caller
  · exact Key.plain_toJson room c.callee

/-- The written form of a record has no floating-point numbers and is nested four deep. -/
theorem Record.plain_toJson (room : Nat) (r : Record) : Plain (room + 4) r.toJson := by
  apply Plain.obj
  intro m hm
  rcases List.mem_append.mp hm with hkey | hm
  · exact Key.plain_of_mem_members hkey
  · simp only [List.mem_cons, List.not_mem_nil, or_false] at hm
    rcases hm with rfl | rfl | rfl | rfl | rfl
    · exact .bool _ _
    · exact Json.plain_ofOption (Plain.str _) r.file
    · have hlt := r.line.toNat_lt
      have hsize : UInt64.size = 2 ^ 64 := rfl
      exact .int _ (by omega) (by omega)
    · exact Json.plain_arr_map (CallRecord.plain_toJson room) r.callers
    · exact Json.plain_arr_map (CallRecord.plain_toJson room) r.callees

/-! ## What is decoded on the way -/

namespace Decode

/-- The written form of a key, in its own order. -/
theorem key_ofJson (medium : Medium) (k : Key) : key medium (Doc.ofJson k.toJson) = .ok k := by
  have hmethod := optional_ofOption methodId_ofUInt64 (by simp [Json.ofUInt64]) k.method
  have howner := optional_ofOption typeId_ofUInt64 (by simp [Json.ofUInt64]) k.owner
  rw [Key.toJson, Key.members, Doc.ofJson, Doc.ofMembers, Doc.ofMembers, Doc.ofMembers, key,
    structured]
  simp only [members, lift, bind, Except.bind, KeyParts.read, once, hmethod, howner, Functor.map,
    Except.map, pure, Except.pure, Json.finish]
  rfl

/-- The written form of a call, in its own order. -/
theorem call_ofJson (medium : Medium) (c : CallRecord) :
    call medium (Doc.ofJson c.toJson) = .ok c := by
  have hcaller := optional_ofOption (key_ofJson medium) (by simp [Key.toJson]) c.caller
  rw [CallRecord.toJson, Doc.ofJson, Doc.ofMembers, Doc.ofMembers, Doc.ofMembers, call, structured]
  simp only [members, lift, bind, Except.bind, CallParts.read, once, key_ofJson, hcaller,
    Functor.map, Except.map, pure, Except.pure, Json.finish, require]
  rfl

/-- A member that is read right fills its place. -/
theorem fill_of_member? {α : Type} {name : String} {read : Doc → Result α}
    {ms : List (String × Json)} {v : Json} {a : α} (hmember : Json.member? name ms = some v)
    (hread : read (Doc.ofJson v) = .ok a) : fill none name read ms = .ok (some a) := by
  rw [fill, hmember]
  dsimp only
  rw [once, hread]
  rfl

/-- The written form of a record, in its own order. -/
theorem record_ofJson (medium : Medium) (r : Record) :
    record medium (Doc.ofJson r.toJson) = .ok r := by
  obtain ⟨ms, hms⟩ : ∃ ms, r.toJson = .obj ms := ⟨_, rfl⟩
  have hmembers := Json.obj.inj hms.symm
  have hnodup : (ms.map Prod.fst).Nodup := by simp [hmembers, Key.members]
  have hfilled : RecordParts.Filled medium {} ms
      ⟨some r.key.owner, some r.key.method, some r.recursive, some r.file, some r.line,
        some r.callers, some r.callees⟩ :=
    { owner := fill_of_member? (by simp [hmembers, Key.members, Json.member?])
        (optional_ofOption typeId_ofUInt64 (by simp [Json.ofUInt64]) r.key.owner)
      method := fill_of_member? (by simp [hmembers, Key.members, Json.member?])
        (optional_ofOption methodId_ofUInt64 (by simp [Json.ofUInt64]) r.key.method)
      recursive := fill_of_member? (v := .bool r.recursive)
        (by simp [hmembers, Key.members, Json.member?]) rfl
      file := fill_of_member? (by simp [hmembers, Key.members, Json.member?])
        (optional_ofOption string_ofJson (by simp) r.file)
      line := fill_of_member? (by simp [hmembers, Key.members, Json.member?])
        (uint32_ofJson r.line)
      callers := fill_of_member? (by simp [hmembers, Key.members, Json.member?])
        (list_ofJson (call_ofJson medium) r.callers)
      callees := fill_of_member? (by simp [hmembers, Key.members, Json.member?])
        (list_ofJson (call_ofJson medium) r.callees) }
  rw [hms, Doc.ofJson, record, structured, (members_read_iff hnodup).mpr hfilled]
  rfl

end Decode

/-! ## Reports -/

namespace Report

/-- A text tells some records, one after the other. -/
structure Tells (text : String) (records : List Record) : Prop where
  /-- The text is an array whose items decode to the records, one by one. -/
  items : ∃ items, Json.parse text = .ok (.arr items) ∧
    items.mapM (Decode.fromJson Decode.record) = .ok records
  /-- A reader that decodes the items while it goes through the text finds the records too. -/
  streamed : Decode.list (Decode.record .text) (Doc.ofString text).1 = .ok records
  /-- Nothing stands behind the array. -/
  ended : (Doc.ofString text).2 = false

/-- A text of records tells exactly these. -/
theorem tells_recordsText (records : List Record) : Tells (recordsText records) records := by
  have hplain : Plain 127 (.arr (records.map Record.toJson)) :=
    Json.plain_arr_map (Record.plain_toJson 122) records
  exact
    { items := by
        refine ⟨_, hplain.parse_renderPretty, ?_⟩
        have hread : ∀ r ∈ records, (Decode.fromJson Decode.record ∘ Record.toJson) r = .ok r :=
          fun r _ => Decode.record_toJson r
        rw [List.mapM_map, Graph.mapM_eq_ok hread, List.map_id']
      streamed := by
        rw [recordsText, hplain.ofString_renderPretty]
        exact Decode.list_ofJson (Decode.record_ofJson .text) records
      ended := by rw [recordsText, hplain.ofString_renderPretty] }

end Report

namespace Graph

/-- The report of a graph in JSON tells exactly the records of the graph, in their order. -/
def PrintsRecords (g : Graph) (host : Host) (label : String) : Prop :=
  ∃ records text, g.dumpAll = .ok records ∧
    Report.render g host label .json = .ok (g, text) ∧ Report.Tells text records

/-- Every graph with a history prints its records without loss. -/
theorem printsRecords_applyAll (actions : List Action) (host : Host) (label : String) :
    (empty.applyAll actions).PrintsRecords host label := by
  obtain ⟨records, hdump⟩ := Reachable.exists_dumpAll ⟨actions, rfl⟩
  refine ⟨records, Report.recordsText records, hdump, ?_, Report.tells_recordsText records⟩
  rw [Report.render, hdump]
  rfl

end Graph

end CallGraph
