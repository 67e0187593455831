import CallGraph.Record
import CallGraph.Store.Bytes

/-!
# Keys and records as bytes

A store on disk keeps every record under the bytes of its key.  The bytes of a key have a fixed
width and compare as the keys do: each half is a byte that tells whether it is there, and its eight
bytes, the most significant first.  Records are written field after field.

Main results:

- Theorem `length_indexKey` says how many bytes a key has.
- Theorems `readKey_encodeKey`, `readCall_encodeCall` and `readRecord_encodeRecord` say that keys,
  calls and records are read back, whatever follows them.
-/

namespace CallGraph.Store

/-! ## The key of an entry -/

/-- One half of the bytes of a key: eighteen bytes hold both. -/
def indexHalf (n : Option UInt64) : Bytes :=
  match n with
  | none => 0 :: big 8 0
  | some n => 1 :: big 8 n.toNat

/-- The bytes under which the record of a key is kept. -/
def indexKey (k : Key) : Bytes :=
  indexHalf (k.owner.map TypeId.val) ++ indexHalf (k.method.map MethodId.val)

@[simp] theorem length_indexHalf (n : Option UInt64) : (indexHalf n).length = 9 := by
  cases n <;> simp [indexHalf]

/-- The bytes of a key are always eighteen. -/
@[simp] theorem length_indexKey (k : Key) : (indexKey k).length = 18 := by simp [indexKey]

/-! ## Keys, calls and records -/

/-- A key inside a record. -/
def encodeKey (k : Key) : Bytes :=
  optional (fun ty : TypeId => word ty.val) k.owner ++
    optional (fun m : MethodId => word m.val) k.method

/-- Read the identity of a type. -/
def readTypeId : Reader TypeId := fun bytes => do
  let (n, rest) ← readWord bytes
  return (⟨n⟩, rest)

/-- Read the identity of a method. -/
def readMethodId : Reader MethodId := fun bytes => do
  let (n, rest) ← readWord bytes
  return (⟨n⟩, rest)

/-- Read a key. -/
def readKey : Reader Key := fun bytes => do
  let (owner, rest) ← readOptional readTypeId bytes
  let (method, rest) ← readOptional readMethodId rest
  return (⟨owner, method⟩, rest)

/-- A call. -/
def encodeCall (c : CallRecord) : Bytes := optional encodeKey c.caller ++ encodeKey c.callee

/-- Read a call. -/
def readCall : Reader CallRecord := fun bytes => do
  let (caller, rest) ← readOptional readKey bytes
  let (callee, rest) ← readKey rest
  return (⟨caller, callee⟩, rest)

/-- A record. -/
def encodeRecord (r : Record) : Bytes :=
  encodeKey r.key ++ flag r.recursive ++ optional text r.file ++ little 4 r.line.toNat ++
    many encodeCall r.callers ++ many encodeCall r.callees

/-- Read a record. -/
def readRecord : Reader Record := fun bytes => do
  let (key, rest) ← readKey bytes
  let (recursive, rest) ← readFlag rest
  let (file, rest) ← readOptional readText rest
  let (line, rest) ← readLittle 4 rest
  let (callers, rest) ← readMany readCall rest
  let (callees, rest) ← readMany readCall rest
  return (⟨key, recursive, file, UInt32.ofNat line, callers, callees⟩, rest)

/-- The record at the front of bytes, whatever follows it. -/
def decodeRecord (bytes : Bytes) : Except ByteFault Record := Prod.fst <$> readRecord bytes

/-- A key is read back. -/
@[simp] theorem readKey_encodeKey (k : Key) (rest : Bytes) :
    readKey (encodeKey k ++ rest) = .ok (k, rest) := by
  have ho : ∀ x, k.owner = some x → ∀ rest,
      readTypeId (word x.val ++ rest) = .ok (x, rest) := fun x _ rest => by
    simp [readTypeId, bind, Except.bind, pure, Except.pure]
  have hm : ∀ x, k.method = some x → ∀ rest,
      readMethodId (word x.val ++ rest) = .ok (x, rest) := fun x _ rest => by
    simp [readMethodId, bind, Except.bind, pure, Except.pure]
  simp [readKey, encodeKey, List.append_assoc, readOptional_optional ho, readOptional_optional hm,
    bind, Except.bind, pure, Except.pure]

/-- A call is read back. -/
@[simp] theorem readCall_encodeCall (c : CallRecord) (rest : Bytes) :
    readCall (encodeCall c ++ rest) = .ok (c, rest) := by
  have hc : ∀ x, c.caller = some x → ∀ rest,
      readKey (encodeKey x ++ rest) = .ok (x, rest) := fun x _ rest => readKey_encodeKey x rest
  simp [readCall, encodeCall, List.append_assoc, readOptional_optional hc, bind, Except.bind, pure,
    Except.pure]

/-- Whether the lengths of a record fit the width in which they are written. -/
def Fits (r : Record) : Prop :=
  (∀ file, r.file = some file → (Text.Utf8.encode file).length < UInt64.size) ∧
    r.callers.length < UInt64.size ∧ r.callees.length < UInt64.size

/-- A record whose lengths fit is read back. -/
theorem readRecord_encodeRecord {r : Record} (h : Fits r) (rest : Bytes) :
    readRecord (encodeRecord r ++ rest) = .ok (r, rest) := by
  obtain ⟨hfile, hcallers, hcallees⟩ := h
  have hf : ∀ x, r.file = some x → ∀ rest, readText (text x ++ rest) = .ok (x, rest) :=
    fun x hx rest => readText_text (hfile x hx) rest
  have hl : r.line.toNat < Nat.pow 256 4 := r.line.toNat_lt
  have hc : ∀ (calls : List CallRecord), ∀ x ∈ calls, ∀ rest,
      readCall (encodeCall x ++ rest) = .ok (x, rest) :=
    fun _ x _ rest => readCall_encodeCall x rest
  simp [readRecord, encodeRecord, List.append_assoc, readOptional_optional hf,
    readLittle_little hl, readMany_many hcallers (hc r.callers),
    readMany_many hcallees (hc r.callees), bind, Except.bind, pure, Except.pure]

end CallGraph.Store
