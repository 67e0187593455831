import CallGraph.Host
import CallGraph.Table

/-!
# Type tables

A type table describes a host as data: the shape of each registered type, the name of each
registered method, and the largest identity handed out so far.  Types and methods draw fresh
identities from one sequence.

Main results:

- Theorems `lookup_declare` and `lookup_declareMethod` say what a table holds after an entry.
- Theorem `intern_of_findMethod` says that a name that has an identity keeps it.
- Theorems `id_of_add` and `types_of_add` say which identity a new type gets and what is stored.
-/

namespace CallGraph

/-- The shape of a type of the host. -/
inductive Shape where
  | cls (name : String) (superclass : Option TypeId)
  | mdl (name : String)
  | singleton (wrapped : Wrapped) (superclass : Option TypeId)
  | proxy (target : TypeId) (superclass : Option TypeId)
  | other (description : String)
  deriving DecidableEq, Repr, Inhabited

/-- A host described as data. -/
structure TypeTable where
  types : Table TypeId Shape := .empty
  methods : Table MethodId String := .empty
  /-- The largest identity seen or handed out. -/
  lastId : UInt64 := 0
  deriving DecidableEq, Inhabited

namespace TypeTable

/-! ## Building a table -/

/-- The table that knows nothing. -/
def empty : TypeTable := {}

/-- Register a type under a given identity, replacing the one that is there. -/
def declare (t : TypeTable) (id : TypeId) (shape : Shape) : TypeTable :=
  { t with types := t.types.insert id shape, lastId := max t.lastId id.val }

/-- Register a method under a given identity, replacing the one that is there. -/
def declareMethod (t : TypeTable) (id : MethodId) (name : String) : TypeTable :=
  { t with methods := t.methods.insert id name, lastId := max t.lastId id.val }

/-- The table of a list of types followed by a list of methods. -/
def ofEntries (types : List (TypeId × Shape)) (methods : List (MethodId × String)) : TypeTable :=
  methods.foldl (fun t e => t.declareMethod e.1 e.2)
    (types.foldl (fun t e => t.declare e.1 e.2) empty)

/-- The next identity of the sequence. -/
def freshId (t : TypeTable) : UInt64 := t.lastId + 1

/-- Register a type under a fresh identity. -/
def add (t : TypeTable) (shape : Shape) : TypeTable × TypeId :=
  ({ t with types := t.types.insert ⟨t.freshId⟩ shape, lastId := t.freshId }, ⟨t.freshId⟩)

/-- The first method registered under a name. -/
def findMethod (t : TypeTable) (name : String) : Option MethodId :=
  (t.methods.entries.find? fun e => e.2 = name).map Prod.fst

/-- The identity of a method name, registering the name under a fresh one if it has none. -/
def intern (t : TypeTable) (name : String) : TypeTable × MethodId :=
  match t.findMethod name with
  | some id => (t, id)
  | none =>
    ({ t with methods := t.methods.insert ⟨t.freshId⟩ name, lastId := t.freshId }, ⟨t.freshId⟩)

/-- The first class or module registered under a namespaced name. -/
def findType (t : TypeTable) (name : String) : Option TypeId :=
  (t.types.entries.find? fun e =>
    match e.2 with
    | .cls n _ | .mdl n => n = name
    | _ => false).map Prod.fst

/-- A type that is declared has the shape that was declared last, and every other one keeps its
own. -/
@[simp] theorem lookup_declare (t : TypeTable) (id id' : TypeId) (shape : Shape) :
    (t.declare id shape).types.lookup id' = if id = id' then some shape else t.types.lookup id' :=
  Table.lookup_insert t.types id id' shape

@[simp] theorem methods_declare (t : TypeTable) (id : TypeId) (shape : Shape) :
    (t.declare id shape).methods = t.methods := rfl

/-- A method that is declared has the name that was declared last, and every other one keeps its
own. -/
@[simp] theorem lookup_declareMethod (t : TypeTable) (id id' : MethodId) (name : String) :
    (t.declareMethod id name).methods.lookup id' =
      if id = id' then some name else t.methods.lookup id' :=
  Table.lookup_insert t.methods id id' name

@[simp] theorem types_declareMethod (t : TypeTable) (id : MethodId) (name : String) :
    (t.declareMethod id name).types = t.types := rfl

@[simp] theorem id_of_add (t : TypeTable) (shape : Shape) : (t.add shape).2 = ⟨t.freshId⟩ := rfl

@[simp] theorem types_of_add (t : TypeTable) (shape : Shape) :
    (t.add shape).1.types = t.types.insert ⟨t.freshId⟩ shape := rfl

@[simp] theorem methods_of_add (t : TypeTable) (shape : Shape) :
    (t.add shape).1.methods = t.methods := rfl

/-- A name that has an identity keeps it. -/
theorem intern_of_findMethod {t : TypeTable} {name : String} {id : MethodId}
    (h : t.findMethod name = some id) : t.intern name = (t, id) := by
  simp [intern, h]

/-! ## The questions a table answers -/

/-- The text of a type without a better name: its description, or its identity in hexadecimal. -/
def inspect (t : TypeTable) (ty : TypeId) : String :=
  match t.types.lookup ty with
  | some (.other description) => description
  | _ => "#<Type:0x" ++ String.ofList (Nat.toDigits 16 ty.val.toNat) ++ ">"

/-- The supertype of a class, a singleton or a proxy; modules and other types have none. -/
def supertype (t : TypeTable) (ty : TypeId) : Option TypeId :=
  match t.types.lookup ty with
  | some (.cls _ superclass) | some (.singleton _ superclass) | some (.proxy _ superclass) =>
    superclass
  | _ => none

/-- The name of a class or a module, and the text of any other type. -/
def namespacedName (t : TypeTable) (ty : TypeId) : String :=
  match t.types.lookup ty with
  | some (.cls name _) | some (.mdl name) => name
  | _ => t.inspect ty

/-- What a singleton wraps; a type that is no singleton wraps nothing known. -/
def wrapped (t : TypeTable) (ty : TypeId) : Wrapped :=
  match t.types.lookup ty with
  | some (.singleton w _) => w
  | _ => .other

/-- The module of a proxy; any other type stands for itself. -/
def target (t : TypeTable) (ty : TypeId) : TypeId :=
  match t.types.lookup ty with
  | some (.proxy mdl _) => mdl
  | _ => ty

/-- The name of a method, made from its identity if it is not registered. -/
def methodName (t : TypeTable) (id : MethodId) : String :=
  (t.methods.lookup id).getD ("method_" ++ toString id.val.toNat)

/-- The host that a table describes. -/
def host (t : TypeTable) : Host where
  isSingleton ty := match t.types.lookup ty with | some (.singleton ..) => true | _ => false
  wrapped := t.wrapped
  isProxy ty := match t.types.lookup ty with | some (.proxy ..) => true | _ => false
  target := t.target
  supertype := t.supertype
  namespacedName := t.namespacedName
  isModule ty := match t.types.lookup ty with | some (.mdl ..) => true | _ => false
  isClass ty := match t.types.lookup ty with | some (.cls ..) => true | _ => false
  inspect := t.inspect
  methodName := t.methodName
  typeCount := t.types.size

end TypeTable

end CallGraph
