import CallGraph.Key
import CallGraph.Resolution
import CallGraph.Text.Split
import CallGraph.TypeTable

/-!
# Names of methods

Three names are shown for a method: the name of its owner, its full name `Owner#method`, and its
call-tree name, which is built from the canonical owner and is safe as a path.  A full name can be
read back into the methods that carry it.

Main results:

- Theorem `parseFullName_of_no_mark` says that a text without `#` names no method.
- Theorem `method_of_mem_parseFullName` says that all methods read from one text have one name.
-/

namespace CallGraph

namespace Host

/-- The display name of a singleton, after what it wraps. -/
def singletonName (host : Host) (ty : TypeId) : String :=
  match host.wrapped ty with
  | .cls id => "<Class::" ++ host.namespacedName id ++ ">"
  | .mdl id => "<Module::" ++ host.namespacedName id ++ ">"
  | .object =>
    match host.supertype ty with
    | some super => "<Object::" ++ host.namespacedName super ++ ">"
    | none => host.inspect ty
  | .other => host.inspect ty

/-- The display name of an owner as it is, without resolving it. -/
def ownerName (host : Host) : Option TypeId → String
  | none => "[global]"
  | some ty =>
    if host.isModule ty then host.namespacedName ty
    else if host.isSingleton ty then host.singletonName ty
    else if host.isClass ty then host.namespacedName ty
    else host.inspect ty

/-- The display name of a method. -/
def methodLabel (host : Host) : Option MethodId → String
  | none => "[no method]"
  | some id => host.methodName id

/-- The full name `Owner#method`. -/
def fullName (host : Host) (k : Key) : String :=
  host.ownerName k.owner ++ "#" ++ host.methodLabel k.method

/-- The marks of a call-tree name: `*` for the singleton of an object, then `^` for the singleton
of a class or a module. -/
def marks (r : Relation) : String :=
  (if r.objectSingleton then "*" else "") ++ (if r.moduleSingleton then "^" else "")

/-- The call-tree name of a method with a resolved owner, such as `Outer/Inner::^run`. -/
def callTreeName (host : Host) (r : Resolution) (method : Option MethodId) : String :=
  let owner := match r.owner with
    | some ty => host.namespacedName ty
    | none => "[global]"
  String.ofList (Text.slashed owner.toList) ++ "::" ++ marks r.relation ++ host.methodLabel method

@[simp] theorem ownerName_none (host : Host) : host.ownerName none = "[global]" := rfl

@[simp] theorem methodLabel_none (host : Host) : host.methodLabel none = "[no method]" := rfl

end Host

namespace TypeTable

/-! ## Reading a full name -/

/-- The method that a text names, with `none` inside for the absent method. -/
def parseMethodLabel (t : TypeTable) (name : String) : Option (Option MethodId) :=
  if name = "[no method]" then some none else (t.findMethod name).map some

/-- The registered types shown under a name, in ascending order. -/
def ownersNamed (t : TypeTable) (name : String) : List TypeId :=
  (t.types.keys.filter fun ty => t.host.ownerName (some ty) = name).mergeSort
    fun a b => (compare a b).isLE

/-- Every method whose full name is the text, which is cut at its last `#`.  The owner part
`[global]` is the absent owner, whatever a type may be called. -/
def parseFullName (t : TypeTable) (text : String) : List Key :=
  match Text.splitLast '#' text.toList with
  | none => []
  | some (owner, method) =>
    match t.parseMethodLabel (String.ofList method) with
    | none => []
    | some m =>
      if String.ofList owner = "[global]" then [⟨none, m⟩]
      else (t.ownersNamed (String.ofList owner)).map fun ty => ⟨some ty, m⟩

/-- The methods of a list of full names, in the order of the list. -/
def parseFullNames (t : TypeTable) (names : List String) : List Key :=
  names.flatMap t.parseFullName

/-- A text without `#` names no method. -/
theorem parseFullName_of_no_mark (t : TypeTable) {text : String} (h : '#' ∉ text.toList) :
    t.parseFullName text = [] := by
  simp [parseFullName, (Text.splitLast_eq_none_iff '#' text.toList).2 h]

/-- All methods read from one text have one name. -/
theorem method_of_mem_parseFullName {t : TypeTable} {text : String} {k k' : Key}
    (h : k ∈ t.parseFullName text) (h' : k' ∈ t.parseFullName text) : k.method = k'.method := by
  unfold parseFullName at h h'
  split at h
  · simp at h
  · split at h
    · simp at h
    · split at h <;> simp_all
      obtain ⟨_, _, rfl⟩ := h
      obtain ⟨_, _, rfl⟩ := h'
      rfl

end TypeTable

end CallGraph
