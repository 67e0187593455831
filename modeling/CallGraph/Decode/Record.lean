import CallGraph.Decode.Basic
import CallGraph.Record

/-!
# Reading method records

Keys, calls and records are read from objects or from arrays of their fields.  Identities and the
source file may be absent; everything else must be there.
-/

namespace CallGraph.Decode

open Json (Doc Stop Token)

/-! ## Keys -/

/-- What has been read of a key. -/
structure KeyParts where
  owner : Option (Option TypeId) := none
  method : Option (Option MethodId) := none

/-- Read one member of a key. -/
def KeyParts.read (p : KeyParts) (name : String) (d : Doc) : Result KeyParts :=
  match name with
  | "owner" => do return { p with owner := ← once p.owner name (optional typeId) d }
  | "method" => do return { p with method := ← once p.method name (optional methodId) d }
  | _ => pass p d

/-- A key. -/
def key (medium : Medium) : Doc → Result Key :=
  structured "struct KeyRecord"
    (fun ms stop => do
      let p ← members KeyParts.read {} ms
      lift (Json.finish stop ())
      return ⟨p.owner.join, p.method.join⟩)
    (fun c => do
      let expected := "struct KeyRecord with 2 elements"
      let (owner, c) ← c.next expected (optional typeId)
      let (method, c) ← c.next expected (optional methodId)
      c.close medium
      return ⟨owner, method⟩)

/-! ## Calls -/

/-- What has been read of a call. -/
structure CallParts where
  caller : Option (Option Key) := none
  callee : Option Key := none

/-- Read one member of a call. -/
def CallParts.read (medium : Medium) (p : CallParts) (name : String) (d : Doc) :
    Result CallParts :=
  match name with
  | "caller" => do return { p with caller := ← once p.caller name (optional (key medium)) d }
  | "callee" => do return { p with callee := ← once p.callee name (key medium) d }
  | _ => pass p d

/-- A call. -/
def call (medium : Medium) : Doc → Result CallRecord :=
  structured "struct EdgeRecord"
    (fun ms stop => do
      let p ← members (CallParts.read medium) {} ms
      lift (Json.finish stop ())
      return ⟨p.caller.join, ← require "callee" p.callee⟩)
    (fun c => do
      let expected := "struct EdgeRecord with 2 elements"
      let (caller, c) ← c.next expected (optional (key medium))
      let (callee, c) ← c.next expected (key medium)
      c.close medium
      return ⟨caller, callee⟩)

/-! ## Records -/

/-- What has been read of a record. -/
structure RecordParts where
  owner : Option (Option TypeId) := none
  method : Option (Option MethodId) := none
  recursive : Option Bool := none
  file : Option (Option String) := none
  line : Option UInt32 := none
  callers : Option (List CallRecord) := none
  callees : Option (List CallRecord) := none

/-- Read one member of a record. -/
def RecordParts.read (medium : Medium) (p : RecordParts) (name : String) (d : Doc) :
    Result RecordParts :=
  match name with
  | "owner" => do return { p with owner := ← once p.owner name (optional typeId) d }
  | "method" => do return { p with method := ← once p.method name (optional methodId) d }
  | "recursive" => do return { p with recursive := ← once p.recursive name bool d }
  | "source_file" => do return { p with file := ← once p.file name (optional string) d }
  | "line" => do return { p with line := ← once p.line name uint32 d }
  | "callers" => do return { p with callers := ← once p.callers name (list (call medium)) d }
  | "callees" => do return { p with callees := ← once p.callees name (list (call medium)) d }
  | _ => pass p d

/-- The record of its parts, once all members have been read. -/
def RecordParts.finish (p : RecordParts) : Result Record := do
  let recursive ← require "recursive" p.recursive
  let line ← require "line" p.line
  let callers ← require "callers" p.callers
  let callees ← require "callees" p.callees
  return ⟨⟨p.owner.join, p.method.join⟩, recursive, p.file.join, line, callers, callees⟩

/-- A record. -/
def record (medium : Medium) : Doc → Result Record :=
  structured "struct MethodRecord"
    (fun ms stop => do
      let p ← members (RecordParts.read medium) {} ms
      lift (Json.finish stop ())
      p.finish)
    (fun c => do
      let expected := "struct MethodRecord with 7 elements"
      let (owner, c) ← c.next expected (optional typeId)
      let (method, c) ← c.next expected (optional methodId)
      let (recursive, c) ← c.next expected bool
      let (file, c) ← c.next expected (optional string)
      let (line, c) ← c.next expected uint32
      let (callers, c) ← c.next expected (list (call medium))
      let (callees, c) ← c.next expected (list (call medium))
      c.close medium
      return ⟨⟨owner, method⟩, recursive, file, line, callers, callees⟩)

/-! ## From finished values -/

/-- Read a finished value, whose members count in the order of their names. -/
def fromJson {α : Type} (read : Medium → Doc → Result α) (v : Json) : Result α :=
  read .value (Doc.ofJson v.sorted)

end CallGraph.Decode
