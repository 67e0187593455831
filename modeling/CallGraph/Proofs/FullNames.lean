import CallGraph.Proofs.Dump
import CallGraph.Proofs.PrintedNames

/-!
# Reading full names back

A full name is cut at its last `#`, so it is read as it was printed if the name of the method has
none; owners may have as many as they like.  Several types may be shown alike, among them the
singletons of several objects of one class, and then the name leads to the methods of all of them.

Main results:

- Theorem `fullName_inj` says which methods share a full name.
- Theorem `pairwise_parseFullName` says in which order methods are read from a text.
- Theorem `readsBack` says that reading inverts printing.
-/

namespace CallGraph

/-- Methods whose names have no `#` share a full name exactly if they share both parts. -/
theorem Host.fullName_inj {host : Host} {k k' : Key}
    (h : '#' ∉ (host.methodLabel k.method).toList)
    (h' : '#' ∉ (host.methodLabel k'.method).toList) :
    host.fullName k = host.fullName k' ↔
      host.ownerName k.owner = host.ownerName k'.owner ∧
        host.methodLabel k.method = host.methodLabel k'.method := by
  constructor
  · intro heq
    have hsplit := TypeTable.splitLast_fullName h
    rw [heq, TypeTable.splitLast_fullName h', Option.some.injEq, Prod.mk.injEq, String.toList_inj,
      String.toList_inj] at hsplit
    exact ⟨hsplit.1.symm, hsplit.2.symm⟩
  · rintro ⟨howner, hlabel⟩
    rw [fullName, fullName, howner, hlabel]

namespace TypeTable

/-- A method that its name tells from all others: it is absent, or no other method is registered
under its name, which has no `#` and is not that of the absent method. -/
def Distinguishes (t : TypeTable) : Option MethodId → Prop
  | none => True
  | some m => ∃ name, t.methods.lookup m = some name ∧
      (∀ m', t.methods.lookup m' = some name → m' = m) ∧ '#' ∉ name.toList ∧ name ≠ "[no method]"

variable {t : TypeTable}

/-- The label of a method that its name tells from all others has no `#`. -/
theorem Distinguishes.no_mark {m : Option MethodId} (h : t.Distinguishes m) :
    '#' ∉ (t.host.methodLabel m).toList := by
  cases m with
  | none =>
    rw [Host.methodLabel_none]
    decide
  | some m =>
    obtain ⟨name, hname, -, hmark, -⟩ := h
    rwa [methodLabel_of_lookup hname]

/-- A method that its name tells from all others is read back from it. -/
theorem Distinguishes.parseMethodLabel_eq {m : Option MethodId} (h : t.Distinguishes m) :
    t.parseMethodLabel (t.host.methodLabel m) = some m := by
  cases m with
  | none => simp [parseMethodLabel]
  | some m =>
    obtain ⟨name, hname, hunique, -, hne⟩ := h
    rw [methodLabel_of_lookup hname, parseMethodLabel, if_neg hne,
      findMethod_of_lookup hname hunique, Option.map_some]

/-- The owners of a name are found in ascending order. -/
theorem pairwise_ownersNamed (t : TypeTable) (name : String) :
    (t.ownersNamed name).Pairwise fun a b => compare a b = .lt := by
  apply pairwise_lt_mergeSort (f := id)
  rw [List.map_id]
  exact t.types.keys_nodup.filter _

/-- The methods that are read from a text are in strictly ascending order of their owners. -/
theorem pairwise_parseFullName (t : TypeTable) (text : String) :
    (t.parseFullName text).Pairwise fun a b => compare a.owner b.owner = .lt := by
  unfold parseFullName
  split
  · exact .nil
  · split
    · exact .nil
    · split
      · exact List.pairwise_singleton _ _
      · rw [List.pairwise_map]
        exact t.pairwise_ownersNamed _

/-- A printed name is read as all methods of the same method name whose owners are shown alike. -/
theorem mem_parseFullName_fullName_iff {k k' : Key} (hmethod : t.Distinguishes k.method) :
    k' ∈ t.parseFullName (t.host.fullName k) ↔
      k'.method = k.method ∧ t.KnowsOwner k'.owner ∧
        t.host.ownerName k'.owner = t.host.ownerName k.owner := by
  rw [mem_parseFullName_iff]
  constructor
  · rintro ⟨hname, hmark, howner, hparse⟩
    obtain ⟨hshown, hlabel⟩ := (Host.fullName_inj hmark hmethod.no_mark).mp hname
    rw [hlabel, hmethod.parseMethodLabel_eq, Option.some.injEq] at hparse
    exact ⟨hparse.symm, howner, hshown⟩
  · rintro ⟨hsame, howner, hshown⟩
    have hlabel : t.host.methodLabel k'.method = t.host.methodLabel k.method := by rw [hsame]
    rw [Host.fullName, Host.fullName, hshown, hlabel, hsame]
    exact ⟨rfl, hmethod.no_mark, howner, hmethod.parseMethodLabel_eq⟩

/-- How a table reads full names. -/
structure ReadsBack (t : TypeTable) : Prop where
  /-- Every method that is read from a text has it as its full name. -/
  sound : ∀ text, ∀ k ∈ t.parseFullName text, t.host.fullName k = text
  /-- The methods are in strictly ascending order of their owners. -/
  ascending : ∀ text, (t.parseFullName text).Pairwise fun a b => compare a.owner b.owner = .lt
  /-- From the full name of a method that its name tells from all others, exactly the methods of
  this name are read whose owners are known and shown alike. -/
  complete : ∀ k, t.Distinguishes k.method → ∀ k', k' ∈ t.parseFullName (t.host.fullName k) ↔
    k'.method = k.method ∧ t.KnowsOwner k'.owner ∧
      t.host.ownerName k'.owner = t.host.ownerName k.owner

/-- Every table reads the full names that it shows as the methods of which it shows them. -/
theorem readsBack (t : TypeTable) : t.ReadsBack where
  sound _ _ hk := (mem_parseFullName_iff.mp hk).1
  ascending := t.pairwise_parseFullName
  complete _ hmethod _ := mem_parseFullName_fullName_iff hmethod

/-- A class, its metaclass, the singletons of two objects of it, and a type that is shown by a text
with a `#`. -/
def shopTable : TypeTable :=
  ofEntries [(⟨1⟩, .cls "Shop::Order" none), (⟨2⟩, .singleton (.cls ⟨1⟩) none),
    (⟨7⟩, .singleton .object (some ⟨1⟩)), (⟨4⟩, .singleton .object (some ⟨1⟩)),
    (⟨5⟩, .other "#<Odd:0x1>")] [(⟨10⟩, "create")]

/-- The name of a method of one object leads to that of the other one too. -/
theorem readsBack_shopTable :
    shopTable.Distinguishes (some ⟨10⟩) ∧
      shopTable.host.fullName ⟨some ⟨7⟩, some ⟨10⟩⟩ = "<Object::Shop::Order>#create" ∧
      (⟨some ⟨4⟩, some ⟨10⟩⟩ : Key) ∈ shopTable.parseFullName "<Object::Shop::Order>#create" ∧
      shopTable.parseFullName "#<Odd:0x1>#create" = [⟨some ⟨5⟩, some ⟨10⟩⟩] := by
  have hmethod : shopTable.Distinguishes (some ⟨10⟩) := by
    refine ⟨"create", by decide, ?_, by decide, by decide⟩
    intro m' hm'
    rw [Table.lookup_eq_some_iff] at hm'
    exact congrArg Prod.fst (List.mem_singleton.mp hm')
  have hname : shopTable.host.fullName ⟨some ⟨7⟩, some ⟨10⟩⟩ = "<Object::Shop::Order>#create" := by
    decide +kernel
  refine ⟨hmethod, hname, ?_, by decide +kernel⟩
  rw [← hname, shopTable.readsBack.complete ⟨some ⟨7⟩, some ⟨10⟩⟩ hmethod]
  decide +kernel

end TypeTable

end CallGraph
