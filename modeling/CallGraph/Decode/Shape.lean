import CallGraph.Decode.Record
import CallGraph.TypeTable

/-!
# Reading the description of a host

The entry of a type carries a tag that decides what else it holds, so its members are set aside
until all of them have been seen; only its identity is read at once.  A tag is the name of one of
the variants; one that was set aside may also be the number of a variant.

Main results:

- Theorem `variant_of_find` says which names are tags.
- Theorem `tag_ofJson_int` says that the number of a variant is a tag that was set aside.
- Theorem `wrapped_missing_kind` says that what a singleton wraps must have a kind.
-/

namespace CallGraph.Decode

open Json (Doc Stop Token)

/-! ## Tags -/

/-- The first value listed under a name. -/
def variant {α : Type} (variants : List (String × α)) (name : String) : Result α :=
  match variants.find? fun v => v.1 = name with
  | some v => .ok v.2
  | none => .error (.unknownVariant name (variants.map Prod.fst))

/-- A name that is listed is a tag. -/
theorem variant_of_find {α : Type} {variants : List (String × α)} {name : String} {v : String × α}
    (h : variants.find? (fun v => v.1 = name) = some v) : variant variants name = .ok v.2 := by
  simp [variant, h]

/-- A tag: the name of one of the variants, or, where it was set aside, the number of one. -/
def tag {α : Type} (medium : Medium) (variants : List (String × α)) : Doc → Result α
  | .str t => do variant variants (← lift t.read)
  | .num t => do
    match ← lift t.read with
    | .int n =>
      if medium = .aside ∧ 0 ≤ n then
        match variants[n.toNat]? with
        | some v => return v.2
        | none =>
          .error (.notAllowed (.int n)
            ("variant index 0 <= i < " ++ toString variants.length))
      else .error (.wrongKind (.int n) "variant identifier")
    | .float x => .error (.wrongKind (.float x) "variant identifier")
  | d => wrongKind "variant identifier" d

/-- The number of a variant is a tag where the tag was set aside. -/
theorem tag_ofJson_int {α : Type} {variants : List (String × α)} {n : Nat} {v : String × α}
    (h : variants[n]? = some v) : tag .aside variants (Doc.ofJson (.int n)) = .ok v.2 := by
  simp [Doc.ofJson, tag, lift, bind, Except.bind, h, pure, Except.pure]

/-- How deep the values of a member of an entry or an event may be nested in a text: they stand
inside the trace, its list and the entry. -/
def memberRoom : Nat := Json.maxRoom - 3

/-! ## What singletons wrap -/

/-- The kinds of entities that a singleton wraps. -/
inductive WrappedKind where
  | cls
  | mdl
  | object
  | other
  deriving DecidableEq, Repr

/-- The names of the kinds. -/
def wrappedKinds : List (String × WrappedKind) :=
  [("class", .cls), ("module", .mdl), ("object", .object), ("other", .other)]

/-- The words for what is asked for where a singleton tells what it wraps. -/
def wrappedExpected : String := "adjacently tagged enum Attached"

/-- The value `null`, or nothing at all in a part set aside, in place of a unit. -/
def unitValue (medium : Medium) : Doc → Result Unit
  | .null => .ok ()
  | .obj [] none =>
    if medium = .value then .error (.wrongKind .mapping "unit") else .ok ()
  | d => wrongKind "unit" d

/-- The kind of what a singleton wraps, as a member of an object: its name, or an object with the
name as only member. -/
def wrappedKind (medium : Medium) : Doc → Result WrappedKind
  | .str t => do variant wrappedKinds (← lift t.read)
  | .obj [m] stop => do
    let kind ← variant wrappedKinds (← lift m.1.read)
    unitValue medium m.2
    lift (Json.finish stop ())
    return kind
  | .obj _ _ => .error (.notAllowed .mapping "map with a single key")
  | d => wrongKind "string or map" d

/-- The identity that belongs to a kind; objects have none, or `null`. -/
def wrappedId (kind : WrappedKind) (d : Doc) : Result Wrapped :=
  match kind with
  | .cls => Wrapped.cls <$> typeId d
  | .mdl => Wrapped.mdl <$> typeId d
  | .object =>
    match d with
    | .null => .ok .object
    | d => wrongKind "unit variant Attached::Object" d
  | .other =>
    match d with
    | .null => .ok .other
    | d => wrongKind "unit variant Attached::Other" d

/-- What a kind without identity wraps. -/
def wrappedAlone : WrappedKind → Result Wrapped
  | .object => .ok .object
  | .other => .ok .other
  | _ => .error (.missing "id")

/-- How far the members of what a singleton wraps have been read. -/
inductive WrappedParts where
  | none
  | kind (k : WrappedKind)
  | id (d : Doc)
  | both (w : Wrapped)

/-- Read one member of what a singleton wraps.  An identity that comes before its kind waits. -/
def WrappedParts.read (medium : Medium) (p : WrappedParts) (name : String) (d : Doc) :
    Result WrappedParts :=
  match p, name with
  | .none, "kind" => WrappedParts.kind <$> wrappedKind medium d
  | .none, "id" => .ok (.id d)
  | .kind k, "id" => WrappedParts.both <$> wrappedId k d
  | .id i, "kind" => do
    let k ← wrappedKind medium d
    WrappedParts.both <$> wrappedId k i
  | p, name => if name = "kind" ∨ name = "id" then .error (.duplicate name) else pass p d

/-- What a singleton wraps, once all members have been read. -/
def WrappedParts.finish : WrappedParts → Result Wrapped
  | .none | .id _ => .error (.missing "kind")
  | .kind k => wrappedAlone k
  | .both w => .ok w

/-- What a singleton wraps. -/
def wrapped (medium : Medium) : Doc → Result Wrapped :=
  structured wrappedExpected
    (fun ms stop => do
      let p ← members (WrappedParts.read medium) .none ms
      lift (Json.finish stop ())
      p.finish)
    (fun c => do
      let (kind, c) ← c.next wrappedExpected (tag medium wrappedKinds)
      let (w, c) ← c.next wrappedExpected (wrappedId kind)
      c.close medium
      return w)

/-- What a singleton wraps must have a kind. -/
theorem wrapped_missing_kind (medium : Medium) :
    wrapped medium (.obj [] none) = .error (.missing "kind") := rfl

/-! ## Shapes of types -/

/-- The kinds of shapes. -/
inductive ShapeKind where
  | cls
  | mdl
  | singleton
  | proxy
  | other
  deriving DecidableEq, Repr

/-- The names of the kinds. -/
def shapeKinds : List (String × ShapeKind) :=
  [("class", .cls), ("module", .mdl), ("singleton", .singleton), ("include_proxy", .proxy),
    ("other", .other)]

/-- What has been read of a shape. -/
structure ShapeParts where
  name : Option String := none
  description : Option String := none
  wrapped : Option Wrapped := none
  target : Option TypeId := none
  superclass : Option (Option TypeId) := none

/-- Read one member of a shape of a given kind. -/
def ShapeParts.read (kind : ShapeKind) (p : ShapeParts) (name : String) (d : Doc) :
    Result ShapeParts :=
  let superclass : Result ShapeParts := do
    return { p with superclass := ← once p.superclass name (optional typeId) d }
  match kind, name with
  | .cls, "name" | .mdl, "name" => do return { p with name := ← once p.name name string d }
  | .singleton, "attached" => do
    return { p with wrapped := ← once p.wrapped name (Decode.wrapped .aside) d }
  | .proxy, "module" => do return { p with target := ← once p.target name typeId d }
  | .other, "description" => do
    return { p with description := ← once p.description name string d }
  | .cls, "superclass" | .singleton, "superclass" | .proxy, "superclass" => superclass
  | _, _ => .ok p

/-- The shape of its parts, once all members have been read. -/
def ShapeParts.finish (p : ShapeParts) : ShapeKind → Result Shape
  | .cls => do return .cls (← require "name" p.name) p.superclass.join
  | .mdl => do return .mdl (← require "name" p.name)
  | .singleton => do return .singleton (← require "attached" p.wrapped) p.superclass.join
  | .proxy => do return .proxy (← require "module" p.target) p.superclass.join
  | .other => do return .other (← require "description" p.description)

/-- The members of a tagged value: the tag, once it has been met, and the others, last first. -/
structure Tagged (α : Type) where
  tag : Option α := none
  rest : List (String × Json) := []

/-- Sort one member that was set aside into the tag and the others. -/
def Tagged.add {α : Type} (readTag : Json → Result α) (name : String) (t : Tagged α)
    (m : String × Json) : Result (Tagged α) :=
  if m.1 = name then
    match t.tag with
    | some _ => .error (.duplicate name)
    | none => do return { t with tag := some (← readTag m.2) }
  else .ok { t with rest := m :: t.rest }

/-- The shape of members that were set aside. -/
def shapeOfMembers (readTag : Json → Result ShapeKind) (ms : List (String × Json)) :
    Result Shape := do
  let t ← ms.foldlM (Tagged.add readTag "kind") {}
  let kind ← require "kind" t.tag
  let p ← t.rest.reverse.foldlM (fun p m => ShapeParts.read kind p m.1 (Doc.ofJson m.2)) {}
  p.finish kind

/-- The shape of fields in their fixed order, which were set aside. -/
def shapeOfItems (kind : ShapeKind) (items : List Json) : Result Shape := do
  let c := Cursor.start (items.map Doc.ofJson) none
  match kind with
  | .cls =>
    let (name, c) ← c.next "struct variant TypeShape::Class with 2 elements" string
    let (superclass, c) ← c.nextOr none (optional typeId)
    c.close .aside
    return .cls name superclass
  | .mdl =>
    let (name, c) ← c.next "struct variant TypeShape::Module with 1 element" string
    c.close .aside
    return .mdl name
  | .singleton =>
    let (w, c) ← c.next "struct variant TypeShape::Singleton with 2 elements" (wrapped .aside)
    let (superclass, c) ← c.nextOr none (optional typeId)
    c.close .aside
    return .singleton w superclass
  | .proxy =>
    let (target, c) ← c.next "struct variant TypeShape::IncludeProxy with 2 elements" typeId
    let (superclass, c) ← c.nextOr none (optional typeId)
    c.close .aside
    return .proxy target superclass
  | .other =>
    let (description, c) ← c.next "struct variant TypeShape::Other with 1 element" string
    c.close .aside
    return .other description

/-- The shape of a finished value, with its tag among its members or in front of its fields. -/
def shape (v : Json) : Result Shape :=
  let readTag v := tag .value shapeKinds (Doc.ofJson v)
  match v.sorted with
  | .obj ms => shapeOfMembers readTag ms
  | .arr [] => .error (.missing "kind")
  | .arr (v :: items) => do shapeOfItems (← readTag v) items
  | v => wrongKind "internally tagged enum TypeShape" (Doc.ofJson v)

/-! ## Entries -/

/-- What has been read of the entry of a type: its identity, and the members set aside, last
first. -/
structure TypeParts where
  id : Option TypeId := none
  rest : List (String × Json) := []

/-- Read one member of the entry of a type. -/
def TypeParts.read (p : TypeParts) (name : String) (d : Doc) : Result TypeParts :=
  if name = "id" then do return { p with id := ← once p.id name typeId d }
  else do return { p with rest := (name, ← lift (d.buffer memberRoom)) :: p.rest }

/-- The entry of a type. -/
def typeEntry : Doc → Result (TypeId × Shape)
  | .obj ms stop => do
    let p ← members TypeParts.read {} ms
    lift (Json.finish stop ())
    let id ← require "id" p.id
    let shape ← shapeOfMembers (tag .aside shapeKinds ∘ Doc.ofJson) p.rest.reverse
    return (id, shape)
  | d => wrongKind "struct TypeEntry" d

/-- What has been read of the entry of a method. -/
structure MethodParts where
  id : Option MethodId := none
  name : Option String := none

/-- Read one member of the entry of a method. -/
def MethodParts.read (p : MethodParts) (name : String) (d : Doc) : Result MethodParts :=
  match name with
  | "id" => do return { p with id := ← once p.id name methodId d }
  | "name" => do return { p with name := ← once p.name name string d }
  | _ => pass p d

/-- The entry of a method. -/
def methodEntry (medium : Medium) : Doc → Result (MethodId × String) :=
  structured "struct MethodEntry"
    (fun ms stop => do
      let p ← members MethodParts.read {} ms
      lift (Json.finish stop ())
      return (← require "id" p.id, ← require "name" p.name))
    (fun c => do
      let expected := "struct MethodEntry with 2 elements"
      let (id, c) ← c.next expected methodId
      let (name, c) ← c.next expected string
      c.close medium
      return (id, name))

end CallGraph.Decode
