import CallGraph.Proofs.Acceptance
import CallGraph.Proofs.ToldRecords

/-!
# Loosely typed records

A loose value is read field by field, where a decoder of records would go through the members of
the object and put each in its place.  Both find the same records in an object.  They differ in what
they say of any other object, since fields are checked in a fixed order and the first faulty one is
named, and in what they say of a value that is no object, which is no loose record whatever it
holds.

Main results:

- Theorem `recordOfJson_obj_iff` says that reading field by field finds what the members tell.
- Theorem `failsFirst_recordOfJson` says which field is named when an object is no record.
- Theorem `reads_loadValue` compares loading a loose value with loading the record it decodes to.
-/

namespace CallGraph

open Json (Doc)

/-! ## Faulty fields -/

/-- A field of a loose record: whether it must be there, and what is wrong with a value. -/
structure Field where
  name : String
  required : Bool
  fault : Json → Option Fault

namespace Field

/-- The fault that a value is read with. -/
def faultOf {α : Type} (read : Doc → Decode.Result α) (v : Json) : Option Fault :=
  match read (Doc.ofJson v) with
  | .ok _ => none
  | .error fault => some fault

/-- The fault of a value is what reading it fails with. -/
theorem faultOf_eq_some_iff {α : Type} {read : Doc → Decode.Result α} {v : Json} {e : Fault} :
    faultOf read v = some e ↔ read (Doc.ofJson v) = .error e := by
  unfold faultOf
  cases read (Doc.ofJson v) <;> simp

/-- A field that is faulty, and its problem. -/
inductive Faulty (ms : List (String × Json)) (f : Field) : RecordProblem → Prop
  | absent (required : f.required = true) (last : Json.lastMember? f.name ms = none) :
      Faulty ms f (.absent f.name)
  | undecodable {v : Json} {e : Fault} (last : Json.lastMember? f.name ms = some v)
      (present : f.required = false → v ≠ .null) (fault : f.fault v = some e) :
      Faulty ms f (.undecodable f.name e)

/-- The first faulty field among some, and its problem. -/
inductive FirstFaulty (ms : List (String × Json)) : List Field → Field → RecordProblem → Prop
  | here {f : Field} {rest : List Field} {p : RecordProblem} (faulty : f.Faulty ms p) :
      FirstFaulty ms (f :: rest) f p
  | later {f g : Field} {rest : List Field} {p : RecordProblem} (sound : ∀ p, ¬ f.Faulty ms p)
      (first : FirstFaulty ms rest g p) : FirstFaulty ms (f :: rest) g p

/-- The problem of a faulty field names this field. -/
theorem Faulty.field_eq {ms : List (String × Json)} {f : Field} {p : RecordProblem}
    (h : f.Faulty ms p) : p.field = f.name := by
  cases h <;> rfl

/-- The first faulty one of some fields is one of them and is faulty. -/
theorem FirstFaulty.faulty {ms : List (String × Json)} {fields : List Field} {f : Field}
    {p : RecordProblem} (h : FirstFaulty ms fields f p) : f ∈ fields ∧ f.Faulty ms p := by
  induction h with
  | here faulty => exact ⟨List.mem_cons_self, faulty⟩
  | later _ _ ih => exact ⟨List.mem_cons_of_mem _ ih.1, ih.2⟩

/-- Where a field is faulty there is a first one. -/
theorem exists_firstFaulty {ms : List (String × Json)} {fields : List Field}
    (h : ∃ f ∈ fields, ∃ p, f.Faulty ms p) : ∃ f p, FirstFaulty ms fields f p := by
  induction fields with
  | nil => simp at h
  | cons f rest ih =>
    by_cases hf : ∃ p, f.Faulty ms p
    · obtain ⟨p, hp⟩ := hf
      exact ⟨f, p, .here hp⟩
    · obtain ⟨g, hg, hfaulty⟩ := h
      rcases List.mem_cons.mp hg with rfl | hg
      · exact absurd hfaulty hf
      · obtain ⟨g, p, hfirst⟩ := ih ⟨g, hg, hfaulty⟩
        exact ⟨g, p, .later (not_exists.mp hf) hfirst⟩

end Field

/-- The fields of a record in the order in which they are checked. -/
def Record.fields : List Field :=
  [⟨"owner", false, Field.faultOf Decode.typeId⟩,
    ⟨"method", false, Field.faultOf Decode.methodId⟩,
    ⟨"recursive", true, Field.faultOf Decode.bool⟩,
    ⟨"source_file", false, Field.faultOf Decode.string⟩,
    ⟨"line", true, Field.faultOf Decode.uint32⟩,
    ⟨"callers", true, Field.faultOf (Decode.list (Decode.call .value))⟩,
    ⟨"callees", true, Field.faultOf (Decode.list (Decode.call .value))⟩]

example : Record.fields.map Field.name =
    ["owner", "method", "recursive", "source_file", "line", "callers", "callees"] := rfl

example : (Record.fields.filter Field.required).map Field.name =
    ["recursive", "line", "callers", "callees"] := rfl

namespace Graph

/-! ## What reading field by field finds -/

section Fields

variable {α β : Type} {name : String} {read : Doc → Decode.Result α} {ms : List (String × Json)}

/-- A required field gives what it reads, exactly if it is there. -/
theorem requiredField_eq_ok_iff {a : α} :
    requiredField (Json.sortedMembers ms []) name read = .ok a ↔ Decode.Gives name read ms a := by
  rw [requiredField, Json.member?_sorted, Decode.Gives]
  cases Json.lastMember? name ms with
  | none => simp
  | some v => cases h : read (Doc.ofJson v) <;> simp [h]

/-- An optional field gives what it reads, and nothing if it is not there. -/
theorem optionalField_eq_ok_iff {a : Option α} :
    optionalField (Json.sortedMembers ms []) name read = .ok a ↔
      Decode.MayGive name read ms a := by
  rw [optionalField, Json.member?_sorted]
  constructor
  · intro h
    split at h
    next hm =>
      cases h
      exact .absent hm
    next hm =>
      cases h
      exact .null hm
    next v hv hm =>
      split at h
      next a ha =>
        cases h
        exact .given hm hv ha
      next => cases h
  · rintro (hm | hm | ⟨hm, hv, ha⟩)
    · rw [hm]
    · rw [hm]
    · rw [hm]
      split
      next heq => cases heq
      next heq =>
        cases heq
        exact absurd rfl hv
      next heq =>
        cases heq
        rw [ha]

/-- A required field fails exactly with its own problem. -/
theorem requiredField_eq_error_iff (e : GraphError) :
    requiredField (Json.sortedMembers ms []) name read = .error e ↔
      ∃ p, Field.Faulty ms ⟨name, true, Field.faultOf read⟩ p ∧ e = .malformedRecord p := by
  rw [requiredField, Json.member?_sorted]
  constructor
  · intro h
    split at h
    next hm =>
      cases h
      exact ⟨_, .absent rfl hm, rfl⟩
    next v hm =>
      split at h
      next => cases h
      next fault hv =>
        cases h
        exact ⟨_, .undecodable hm (by simp) (Field.faultOf_eq_some_iff.mpr hv), rfl⟩
  · rintro ⟨p, ⟨_, hm⟩ | ⟨hm, _, hv⟩, rfl⟩
    · rw [hm]
    · rw [hm]
      simp only [Field.faultOf_eq_some_iff.mp hv]

/-- An optional field fails exactly with its own problem. -/
theorem optionalField_eq_error_iff (e : GraphError) :
    optionalField (Json.sortedMembers ms []) name read = .error e ↔
      ∃ p, Field.Faulty ms ⟨name, false, Field.faultOf read⟩ p ∧ e = .malformedRecord p := by
  rw [optionalField, Json.member?_sorted]
  constructor
  · intro h
    split at h
    next => cases h
    next => cases h
    next v hnull hm =>
      split at h
      next => cases h
      next fault hv =>
        cases h
        exact ⟨_, .undecodable hm (fun _ => hnull) (Field.faultOf_eq_some_iff.mpr hv), rfl⟩
  · rintro ⟨p, ⟨hrequired, _⟩ | ⟨hm, hnull, hv⟩, rfl⟩
    · cases hrequired
    · rw [hm]
      split
      next heq => cases heq
      next heq =>
        cases heq
        exact absurd rfl (hnull rfl)
      next heq =>
        cases heq
        rw [Field.faultOf_eq_some_iff.mp hv]

/-- Reading goes through these fields in their order and fails at the first faulty one. -/
def FailsFirst (ms : List (String × Json)) (fields : List Field) (x : Except GraphError α) : Prop :=
  ∀ e, x = .error e ↔ ∃ f p, Field.FirstFaulty ms fields f p ∧ e = .malformedRecord p

/-- A step that reads no field cannot fail. -/
theorem failsFirst_pure (a : α) : FailsFirst ms [] (pure a) := by
  intro e
  constructor
  · intro h
    cases h
  · rintro ⟨f, p, hp, -⟩
    cases hp

/-- A field that is sound hands on to the fields that come after it. -/
theorem FailsFirst.bind {x : Except GraphError α} {k : α → Except GraphError β} {f : Field}
    {fields : List Field}
    (hx : ∀ e, x = .error e ↔ ∃ p, f.Faulty ms p ∧ e = .malformedRecord p)
    (hk : ∀ a, FailsFirst ms fields (k a)) : FailsFirst ms (f :: fields) (x >>= k) := by
  intro e
  cases x with
  | error e' =>
    obtain ⟨p', hp', rfl⟩ := (hx e').mp rfl
    constructor
    · intro h
      cases h
      exact ⟨f, p', .here hp', rfl⟩
    · rintro ⟨f', p, ⟨hp⟩ | ⟨hsound, _⟩, rfl⟩
      · have heq := (hx _).mpr ⟨p, hp, rfl⟩
        cases heq
        rfl
      · exact absurd hp' (hsound p')
  | ok a =>
    have hsound : ∀ p, ¬ f.Faulty ms p := fun p hp => nomatch (hx _).mpr ⟨p, hp, rfl⟩
    constructor
    · intro h
      obtain ⟨f', p, hp, rfl⟩ := (hk a e).mp h
      exact ⟨f', p, .later hsound hp, rfl⟩
    · rintro ⟨f', p, ⟨hp⟩ | ⟨_, hp⟩, rfl⟩
      · exact absurd hp (hsound p)
      · exact (hk a _).mpr ⟨f', p, hp, rfl⟩

end Fields

/-- Reading an object field by field finds the record that its members tell. -/
theorem recordOfJson_obj_iff {ms : List (String × Json)} {r : Record} :
    recordOfJson (.obj ms) = .ok r ↔ Record.Told ms r := by
  obtain ⟨⟨owner, method⟩, recursive, file, line, callers, callees⟩ := r
  simp only [recordOfJson, Json.sorted, bind_eq_ok_iff, optionalField_eq_ok_iff,
    requiredField_eq_ok_iff, pure, Except.pure, Except.ok.injEq, Record.mk.injEq, Key.mk.injEq]
  constructor
  · rintro ⟨_, howner, _, hmethod, _, hrecursive, _, hfile, _, hline, _, hcallers, _, hcallees,
      ⟨rfl, rfl⟩, rfl, rfl, rfl, rfl, rfl⟩
    exact ⟨howner, hmethod, hrecursive, hfile, hline, hcallers, hcallees⟩
  · rintro ⟨howner, hmethod, hrecursive, hfile, hline, hcallers, hcallees⟩
    exact ⟨_, howner, _, hmethod, _, hrecursive, _, hfile, _, hline, _, hcallers, _, hcallees,
      ⟨rfl, rfl⟩, rfl, rfl, rfl, rfl, rfl⟩

/-- An object that is no record is refused for its first faulty field. -/
theorem failsFirst_recordOfJson (ms : List (String × Json)) :
    FailsFirst ms Record.fields (recordOfJson (.obj ms)) := by
  rw [recordOfJson, Json.sorted]
  refine .bind optionalField_eq_error_iff fun owner => ?_
  refine .bind optionalField_eq_error_iff fun method => ?_
  refine .bind requiredField_eq_error_iff fun recursive => ?_
  refine .bind optionalField_eq_error_iff fun file => ?_
  refine .bind requiredField_eq_error_iff fun line => ?_
  refine .bind requiredField_eq_error_iff fun callers => ?_
  exact .bind requiredField_eq_error_iff fun callees => failsFirst_pure _

/-- A value that is no object is no loose record. -/
theorem recordOfJson_of_not_obj {v : Json} (h : ∀ ms, v ≠ .obj ms) :
    recordOfJson v = .error (.malformedRecord .notAnObject) := by
  cases v with
  | obj ms => exact absurd rfl (h ms)
  | null | bool | int | float | str | arr => simp only [recordOfJson, Json.sorted]

/-! ## Loading loose values -/

/-- Load a loose value in place. -/
def loadValueInPlace (host : Host) (v : Json) : InPlace NodeId := do
  let r ← ExceptT.mk (pure (recordOfJson v))
  loadInPlace host r

/-- Loading a loose value in place does what loading it does, and nothing if that fails. -/
theorem run_loadValueInPlace (host : Host) (v : Json) (g : Graph) :
    (loadValueInPlace host v).run g =
      match g.loadValue host v with
      | .ok (g', id) => (.ok id, g')
      | .error e => (.error e, g) := by
  have hread : InPlace.run (ExceptT.mk (pure (recordOfJson v))) g = (recordOfJson v, g) := rfl
  rw [loadValueInPlace, InPlace.run_bind, hread, loadValue]
  cases recordOfJson v with
  | error e => rfl
  | ok r => exact run_loadInPlace host r g

/-- What a graph does with a loose value that is an object. -/
structure ReadsObject (g : Graph) (host : Host) (ms : List (String × Json)) : Prop where
  /-- It is loaded exactly if it decodes to a record that is loaded, with the same result. -/
  loads : ∀ out, g.loadValue host (.obj ms) = .ok out ↔
    ∃ r, Decode.fromJson Decode.record (.obj ms) = .ok r ∧ g.load host r = .ok out
  /-- A record that it decodes to meets the same fate, whatever that is. -/
  agrees : ∀ r, Decode.fromJson Decode.record (.obj ms) = .ok r →
    g.loadValue host (.obj ms) = g.load host r
  /-- It decodes to the record that its members tell. -/
  decodes : ∀ r, Decode.fromJson Decode.record (.obj ms) = .ok r ↔ Record.Told ms r
  /-- It decodes unless one of its fields is faulty. -/
  faulty : (∀ r, Decode.fromJson Decode.record (.obj ms) ≠ .ok r) ↔
    ∃ f ∈ Record.fields, ∃ p, f.Faulty ms p
  /-- A faulty field makes it fail, and the first of them is named. -/
  refuses : (∃ f ∈ Record.fields, ∃ p, f.Faulty ms p) →
    ∃ f p, Field.FirstFaulty ms Record.fields f p ∧ p.field = f.name ∧
      g.loadValue host (.obj ms) = .error (.malformedRecord p)

/-- What a graph does with a loose value. -/
structure Reads (g : Graph) (host : Host) (v : Json) : Prop where
  object : ∀ ms, v = .obj ms → g.ReadsObject host ms
  /-- The written form of a record is loaded as the record. -/
  written : ∀ r : Record, v = r.toJson → g.loadValue host v = g.load host r
  /-- A value that is no object is refused as a whole. -/
  other : (∀ ms, v ≠ .obj ms) → ∃ p : RecordProblem, p.field = "<record>" ∧
    g.loadValue host v = .error (.malformedRecord p)
  /-- Done in place, a load that fails has changed nothing. -/
  inPlace : (loadValueInPlace host v).run g =
    match g.loadValue host v with
    | .ok (g', id) => (.ok id, g')
    | .error e => (.error e, g)

/-- A value that is read as a record is loaded as that record. -/
theorem loadValue_of_ok {g : Graph} {host : Host} {v : Json} {r : Record}
    (h : recordOfJson v = .ok r) : g.loadValue host v = g.load host r := by
  rw [loadValue, h]
  rfl

/-- A value that is not read as a record fails with the error of reading it. -/
theorem loadValue_of_error {g : Graph} {host : Host} {v : Json} {e : GraphError}
    (h : recordOfJson v = .error e) : g.loadValue host v = .error e := by
  rw [loadValue, h]
  rfl

/-- The two readers find the same record in an object. -/
theorem fromJson_obj_iff {ms : List (String × Json)} {r : Record} :
    Decode.fromJson Decode.record (.obj ms) = .ok r ↔ recordOfJson (.obj ms) = .ok r :=
  Decode.record_obj_iff.trans recordOfJson_obj_iff.symm

/-- An object decodes to no record exactly if reading it field by field fails. -/
theorem fromJson_ne_ok_iff {ms : List (String × Json)} :
    (∀ r, Decode.fromJson Decode.record (.obj ms) ≠ .ok r) ↔
      ∃ e, recordOfJson (.obj ms) = .error e := by
  simp only [ne_eq, fromJson_obj_iff]
  cases recordOfJson (.obj ms) <;> simp

/-- An object is loaded as the record that its members tell, or is refused for its first faulty
field. -/
theorem readsObject (g : Graph) (host : Host) (ms : List (String × Json)) :
    g.ReadsObject host ms where
  loads out := by
    rw [loadValue, bind_eq_ok_iff]
    simp only [fromJson_obj_iff]
  agrees r hr := loadValue_of_ok (fromJson_obj_iff.mp hr)
  decodes r := Decode.record_obj_iff
  faulty := by
    rw [fromJson_ne_ok_iff]
    constructor
    · rintro ⟨e, he⟩
      obtain ⟨f, p, hfirst, -⟩ := (failsFirst_recordOfJson ms e).mp he
      exact ⟨f, hfirst.faulty.1, p, hfirst.faulty.2⟩
    · intro h
      obtain ⟨f, p, hfirst⟩ := Field.exists_firstFaulty h
      exact ⟨_, (failsFirst_recordOfJson ms _).mpr ⟨f, p, hfirst, rfl⟩⟩
  refuses h := by
    obtain ⟨f, p, hfirst⟩ := Field.exists_firstFaulty h
    refine ⟨f, p, hfirst, hfirst.faulty.2.field_eq, ?_⟩
    exact loadValue_of_error ((failsFirst_recordOfJson ms _).mpr ⟨f, p, hfirst, rfl⟩)

/-- A loose value is loaded as the record it decodes to.  An object that does not decode is refused
for its first faulty field and any other value as a whole, before anything has changed. -/
theorem reads_loadValue (g : Graph) (host : Host) (v : Json) : g.Reads host v where
  object ms hv := by
    subst hv
    exact readsObject g host ms
  written r hv := by
    subst hv
    obtain ⟨ms, hobj, htold⟩ := Decode.told_toJson r
    rw [hobj]
    exact loadValue_of_ok (recordOfJson_obj_iff.mpr htold)
  other hv := ⟨.notAnObject, rfl, loadValue_of_error (recordOfJson_of_not_obj hv)⟩
  inPlace := run_loadValueInPlace host v g

/-- Of a line that is too large and calls that are absent, the line is told. -/
example :
    empty.loadValue kernelHost (.obj [("line", .int 4294967296), ("recursive", .bool true)]) =
      .error (.malformedRecord (.undecodable "line" (.notAllowed (.int 4294967296) "u32"))) := by
  rfl

end Graph

end CallGraph
