import CallGraph.Proofs.Exclusion

/-!
# Printed names as exclusions

The full names that a report prints are meant to be read back as exclusions.  A name is read by the
tables of the host: it leads back to a method whose owner and name are known to them, and `[global]`
and `[no method]` always stand for the absent ones.

Main results:

- Theorem `mem_parseFullName_iff` says which methods are read from a text.
- Theorem `parseMethodLabel_methodLabel_iff` says which names of methods are read back.
- Theorem `names_exclude_name` says which lines are missing after one more name is excluded.
- Theorem `names_strangers` says that names of methods that the tables do not know exclude nothing.
-/

namespace CallGraph

namespace Table

variable {κ α : Type} [DecidableEq κ]

/-- The keys of a table are those that it answers for. -/
theorem mem_keys_iff_lookup {t : Table κ α} {k : κ} : k ∈ t.keys ↔ ∃ v, t.lookup k = some v := by
  rw [← Option.isSome_iff_exists, ← Option.ne_none_iff_isSome, ne_eq, lookup_eq_none_iff,
    not_not]

/-- What a table holds after a list of pairs was written is one of them or was there before. -/
theorem mem_of_lookup_foldl_insert {t : Table κ α} {pairs : List (κ × α)} {k : κ} {v : α}
    (h : (pairs.foldl (fun t p => t.insert p.1 p.2) t).lookup k = some v) :
    (k, v) ∈ pairs ∨ t.lookup k = some v := by
  induction pairs generalizing t with
  | nil => exact Or.inr h
  | cons p rest ih =>
    rcases ih h with hrest | hinsert
    · exact Or.inl (List.mem_cons_of_mem p hrest)
    · rw [lookup_insert] at hinsert
      by_cases hk : p.1 = k
      · rw [if_pos hk, Option.some.injEq] at hinsert
        rw [← hk, ← hinsert]
        exact Or.inl List.mem_cons_self
      · rw [if_neg hk] at hinsert
        exact Or.inr hinsert

end Table

namespace TypeTable

/-! ## Names of methods -/

/-- The methods of a table of entries are those that the entries put into the table of methods. -/
theorem methods_foldl_declareMethod (t : TypeTable) (methods : List (MethodId × String)) :
    (methods.foldl (fun t e => t.declareMethod e.1 e.2) t).methods =
      methods.foldl (fun m e => m.insert e.1 e.2) t.methods :=
  (List.foldl_hom TypeTable.methods fun _ _ => rfl).symm

/-- Entries of types leave the methods alone. -/
theorem methods_foldl_declare (t : TypeTable) (types : List (TypeId × Shape)) :
    (types.foldl (fun t e => t.declare e.1 e.2) t).methods = t.methods := by
  have hdeclare (t : TypeTable) (e : TypeId × Shape) :
      (t.declare e.1 e.2).methods = t.methods := rfl
  exact foldl_leaves methods hdeclare t types

/-- Every method of a table of entries is one of the entries. -/
theorem mem_of_lookup_ofEntries {types : List (TypeId × Shape)}
    {methods : List (MethodId × String)} {m : MethodId} {name : String}
    (h : (ofEntries types methods).methods.lookup m = some name) : (m, name) ∈ methods := by
  rw [ofEntries, methods_foldl_declareMethod, methods_foldl_declare] at h
  rcases Table.mem_of_lookup_foldl_insert h with hmem | hempty
  · exact hmem
  · simp [empty] at hempty

/-- A registered method is shown under its name. -/
theorem methodLabel_of_lookup {t : TypeTable} {m : MethodId} {name : String}
    (h : t.methods.lookup m = some name) : t.host.methodLabel (some m) = name := by
  simp [Host.methodLabel, host, methodName, h]

/-- The method that is found for a name is registered under it. -/
theorem lookup_of_findMethod {t : TypeTable} {name : String} {m : MethodId}
    (h : t.findMethod name = some m) : t.methods.lookup m = some name := by
  obtain ⟨e, he, rfl⟩ := Option.map_eq_some_iff.mp h
  have hname : e.2 = name := by simpa using List.find?_some he
  rw [Table.lookup_eq_some_iff, ← hname]
  exact List.mem_of_find?_eq_some he

/-- A name that one method has is read as this method. -/
theorem findMethod_of_lookup {t : TypeTable} {m : MethodId} {name : String}
    (h : t.methods.lookup m = some name)
    (hunique : ∀ m', t.methods.lookup m' = some name → m' = m) : t.findMethod name = some m := by
  cases hfind : t.findMethod name with
  | none =>
    have hnone := List.find?_eq_none.mp (Option.map_eq_none_iff.mp hfind)
    simpa using hnone (m, name) ((Table.lookup_eq_some_iff _ _ _).mp h)
  | some id => rw [hunique id (lookup_of_findMethod hfind)]

/-- What is read from the name of a method is shown under this name. -/
theorem methodLabel_of_parseMethodLabel {t : TypeTable} {name : String} {m : Option MethodId}
    (h : t.parseMethodLabel name = some m) : t.host.methodLabel m = name := by
  unfold parseMethodLabel at h
  by_cases hname : name = "[no method]"
  · rw [if_pos hname, Option.some.injEq] at h
    rw [← h, hname, Host.methodLabel_none]
  · rw [if_neg hname] at h
    obtain ⟨id, hid, rfl⟩ := Option.map_eq_some_iff.mp h
    exact methodLabel_of_lookup (lookup_of_findMethod hid)

/-! ## What the tables know -/

/-- An owner that is absent, or registered and not shown like the absent one. -/
def KnowsOwner (t : TypeTable) : Option TypeId → Prop
  | none => True
  | some ty => ty ∈ t.types.keys ∧ t.host.ownerName (some ty) ≠ "[global]"

/-- A method that is absent, or registered and not named like the absent one. -/
def KnowsMethod (t : TypeTable) : Option MethodId → Prop
  | none => True
  | some m => m ∈ t.methods.keys ∧ t.host.methodLabel (some m) ≠ "[no method]"

/-- A method of which the tables know the owner and the name. -/
def Knows (t : TypeTable) (k : Key) : Prop := t.KnowsOwner k.owner ∧ t.KnowsMethod k.method

instance (t : TypeTable) : DecidablePred t.KnowsOwner
  | none => inferInstanceAs (Decidable True)
  | some _ => inferInstanceAs (Decidable (_ ∧ _))

instance (t : TypeTable) : DecidablePred t.KnowsMethod
  | none => inferInstanceAs (Decidable True)
  | some _ => inferInstanceAs (Decidable (_ ∧ _))

instance (t : TypeTable) : DecidablePred t.Knows :=
  fun _ => inferInstanceAs (Decidable (_ ∧ _))

/-- If no two methods share a name, the names that are read back are those of known methods. -/
theorem parseMethodLabel_methodLabel_iff {t : TypeTable}
    (hnames : ∀ m m' name, t.methods.lookup m = some name → t.methods.lookup m' = some name →
      m = m') {m : Option MethodId} :
    t.parseMethodLabel (t.host.methodLabel m) = some m ↔ t.KnowsMethod m := by
  cases m with
  | none => simp [parseMethodLabel, KnowsMethod]
  | some m =>
    unfold parseMethodLabel KnowsMethod
    by_cases hlabel : t.host.methodLabel (some m) = "[no method]"
    · simp [hlabel]
    · rw [if_neg hlabel]
      simp only [ne_eq, hlabel, not_false_eq_true, and_true, Table.mem_keys_iff_lookup]
      constructor
      · intro h
        obtain ⟨id, hid, hm⟩ := Option.map_eq_some_iff.mp h
        rw [← Option.some.inj hm]
        exact ⟨_, lookup_of_findMethod hid⟩
      · intro h
        obtain ⟨name, hname⟩ := h
        rw [methodLabel_of_lookup hname,
          findMethod_of_lookup hname fun m' hm' => hnames m' m name hm' hname, Option.map_some]

/-! ## What is read from a text -/

/-- The owners of a name are the registered types that are shown under it. -/
theorem mem_ownersNamed {t : TypeTable} {name : String} {ty : TypeId} :
    ty ∈ t.ownersNamed name ↔ ty ∈ t.types.keys ∧ t.host.ownerName (some ty) = name := by
  rw [ownersNamed, (List.mergeSort_perm _ _).mem_iff, List.mem_filter, decide_eq_true_eq]

/-- A full name is cut between its owner and a method whose name has no `#`. -/
theorem splitLast_fullName {host : Host} {k : Key} (h : '#' ∉ (host.methodLabel k.method).toList) :
    Text.splitLast '#' (host.fullName k).toList =
      some ((host.ownerName k.owner).toList, (host.methodLabel k.method).toList) := by
  rw [Text.splitLast_eq_some_iff]
  exact ⟨by simp [Host.fullName], h⟩

/-- The methods that are read from a text: those with this full name whose owner is known and whose
name is read back. -/
theorem mem_parseFullName_iff {t : TypeTable} {text : String} {k : Key} :
    k ∈ t.parseFullName text ↔
      t.host.fullName k = text ∧ '#' ∉ (t.host.methodLabel k.method).toList ∧
        t.KnowsOwner k.owner ∧
        t.parseMethodLabel (t.host.methodLabel k.method) = some k.method := by
  constructor
  · intro hk
    cases hsplit : Text.splitLast '#' text.toList with
    | none => simp [parseFullName, hsplit] at hk
    | some parts =>
      obtain ⟨owner, method⟩ := parts
      obtain ⟨htext, hmark⟩ := Text.splitLast_eq_some_iff.mp hsplit
      cases hparse : t.parseMethodLabel (String.ofList method) with
      | none => simp [parseFullName, hsplit, hparse] at hk
      | some m =>
        have hlabel := methodLabel_of_parseMethodLabel hparse
        simp only [parseFullName, hsplit, hparse] at hk
        -- The name of the absent owner leads to the methods without one, and to no type of that
        -- name.
        have hparts : t.host.ownerName k.owner = String.ofList owner ∧ k.method = m ∧
            t.KnowsOwner k.owner := by
          by_cases hglobal : String.ofList owner = "[global]"
          · rw [if_pos hglobal, List.mem_singleton] at hk
            rw [hk, hglobal]
            exact ⟨rfl, rfl, trivial⟩
          · rw [if_neg hglobal] at hk
            obtain ⟨ty, hty, rfl⟩ := List.mem_map.mp hk
            obtain ⟨hmem, hname⟩ := mem_ownersNamed.mp hty
            exact ⟨hname, rfl, hmem, hname ▸ hglobal⟩
        obtain ⟨howner, rfl, hknown⟩ := hparts
        refine ⟨?_, ?_, hknown, hlabel ▸ hparse⟩
        · rw [Host.fullName, howner, hlabel, ← String.toList_inj, htext]
          simp
        · rw [hlabel, String.toList_ofList]
          exact hmark
  · intro h
    obtain ⟨rfl, hmark, hknown, hparse⟩ := h
    obtain ⟨owner, method⟩ := k
    simp only [parseFullName, splitLast_fullName hmark, String.ofList_toList, hparse]
    cases owner with
    | none => simp
    | some ty =>
      rw [if_neg hknown.2]
      exact List.mem_map.mpr ⟨ty, mem_ownersNamed.mpr ⟨hknown.1, rfl⟩, rfl⟩

end TypeTable

/-- No two methods of a trace share a name if no two of its entries do. -/
theorem Trace.method_unique {t : Trace} (h : (t.methods.map Prod.snd).Nodup) (m m' : MethodId)
    (name : String) (hm : t.table.methods.lookup m = some name)
    (hm' : t.table.methods.lookup m' = some name) : m = m' := by
  have hmem := TypeTable.mem_of_lookup_ofEntries hm
  have hmem' := TypeTable.mem_of_lookup_ofEntries hm'
  exact congrArg Prod.fst (List.inj_on_of_nodup_map h hmem hmem' rfl)

namespace Replay

/-! ## One more name in the list of exclusions -/

/-- The methods that a list of full names hides. -/
def hiddenBy (t : Trace) (exclude : List String) : List Key :=
  (t.table.parseFullNames exclude).map (Key.canonical t.table.host)

/-- A replay with exclusions hides the methods that the names lead to. -/
theorem veils_ofTrace (t : Trace) (exclude : List String) :
    Veils (hiddenBy t exclude) (run t.table.host {} t.events) (ofTrace t exclude) := by
  have hrec := Graph.records_fresh 0
  have hl : ({} : State).graph.ledger.Consistent := by
    rw [hrec.ledger_eq]
    exact Ledger.consistent_empty
  have hshown : ∀ k, ({} : State).graph.ledger.hides k = false := fun _ => rfl
  exact (veils_excludeAll hrec.sound hl hshown t.table.host _).run t.table.host t.events

/-- A session that only records a trace and exclusions asks for no canonical owner. -/
theorem remembered_ofTrace (t : Trace) (exclude : List String) :
    (ofTrace t exclude).graph.remembered = fun _ => none := by
  rw [ofTrace, remembered_run, remembered_excludeAll]
  rfl

/-- A session that hides some methods more prints of the others what the one before prints. -/
theorem Veils.map_methods_of_hidden {hidden hidden' extra : List Key} {s s₁ s₂ : State}
    (h₁ : Veils hidden s s₁) (h₂ : Veils hidden' s s₂)
    (hs : s.graph.remembered = fun _ => none) (hs₁ : s₁.graph.remembered = fun _ => none)
    (hs₂ : s₂.graph.remembered = fun _ => none)
    (hextra : ∀ k, k ∈ hidden' ↔ k ∈ hidden ∨ k ∈ extra) {α : Type} {F : Node → α}
    (hF : ∀ n, n.resolution = none → F n = F (nodeOf n.profile)) :
    s₂.graph.methods.map (fun p => F p.2) =
      (s₁.graph.methods.filter fun p => p.2.key ∉ extra).map fun p => F p.2 := by
  -- With its key beside it, what is printed of a method can be filtered.
  have hkeyed := h₁.map_methods hs hs₁ (F := fun n => (n.key, F n))
    fun n hn => congrArg (Prod.mk n.key) (hF n hn)
  have hfilter : (s.graph.methods.filter fun p => p.2.key ∉ hidden') =
      (s.graph.methods.filter fun p => p.2.key ∉ hidden).filter fun p => p.2.key ∉ extra := by
    rw [List.filter_filter]
    apply List.filter_congr
    intro p _
    simp only [hextra, not_or, Bool.decide_and, Bool.and_comm]
  have hlines := congrArg (fun qs : List (Key × α) =>
    (qs.filter fun q => q.1 ∉ extra).map Prod.snd) hkeyed
  simp only [List.filter_map, List.map_map] at hlines
  rw [h₂.map_methods hs hs₂ hF, hfilter]
  exact hlines.symm

/-- What one more full name hides, if none of the methods that it leads to is one of a proxy. -/
theorem mem_hiddenBy_iff {t : Trace} {first second : List String} {s : String}
    (hproxy : ∀ k ∈ t.table.parseFullName s, k.canonical t.table.host = k) (k : Key) :
    k ∈ hiddenBy t (first ++ s :: second) ↔
      k ∈ hiddenBy t (first ++ second) ∨ k ∈ t.table.parseFullName s := by
  have hself : (t.table.parseFullName s).map (Key.canonical t.table.host) =
      t.table.parseFullName s := by
    calc (t.table.parseFullName s).map (Key.canonical t.table.host)
        = (t.table.parseFullName s).map id := List.map_congr_left hproxy
      _ = t.table.parseFullName s := List.map_id _
  simp only [hiddenBy, TypeTable.parseFullNames, List.flatMap_append, List.flatMap_cons,
    List.map_append, List.mem_append, hself]
  tauto

/-- One more excluded name takes away exactly the lines of the methods with this full name of which
the tables know the owner and the name.  Left open are names with a second `#` and those of
inclusion proxies. -/
theorem names_exclude_name {t : Trace} (hnames : (t.methods.map Prod.snd).Nodup)
    (first second : List String) {s : String} (label : String)
    (hmark : ∀ p ∈ (ofTrace t (first ++ second)).graph.methods,
      t.table.host.fullName p.2.key = s →
        '#' ∉ (t.table.host.methodLabel p.2.key.method).toList)
    (hproxy : ∀ k ∈ t.table.parseFullName s, k.canonical t.table.host = k) :
    Report.names (ofTrace t (first ++ s :: second)).graph t.table.host label =
      String.join (((ofTrace t (first ++ second)).graph.methods.filter fun p =>
        ¬ (t.table.host.fullName p.2.key = s ∧ t.table.Knows p.2.key)).map fun p =>
          Report.nameLine t.table.host label p.2) := by
  have hlines := (veils_ofTrace t (first ++ second)).map_methods_of_hidden
    (veils_ofTrace t (first ++ s :: second)) (remembered_run t.table.host {} t.events)
    (remembered_ofTrace t _) (remembered_ofTrace t _) (mem_hiddenBy_iff hproxy)
    (F := Report.nameLine t.table.host label) fun _ _ => rfl
  unfold Report.names
  rw [hlines]
  congr 2
  apply List.filter_congr
  intro p hp
  have hread : p.2.key ∈ t.table.parseFullName s ↔
      t.table.host.fullName p.2.key = s ∧ t.table.Knows p.2.key := by
    rw [TypeTable.mem_parseFullName_iff,
      TypeTable.parseMethodLabel_methodLabel_iff (t.method_unique hnames)]
    exact ⟨fun h => ⟨h.1, h.2.2⟩, fun h => ⟨h.1, hmark p hp h.1, h.2⟩⟩
  simp only [hread]

/-- A trace with a call through the proxy by which a class includes a module. -/
def kernelTrace : Trace where
  types := [(⟨1⟩, .cls "App" none), (⟨4⟩, .mdl "Kernel"), (⟨5⟩, .proxy ⟨4⟩ none)]
  methods := [(⟨10⟩, "run"), (⟨13⟩, "puts"), (⟨14⟩, "gets")]
  events := [.call { owner := some ⟨1⟩, method := some ⟨10⟩ },
    .call { owner := some ⟨5⟩, method := some ⟨13⟩ }, .leave,
    .call { owner := some ⟨4⟩, method := some ⟨14⟩ }]

/-- Of the lines that are left without the class, one more name takes away its own. -/
theorem names_exclude_name_kernelTrace :
    let t := kernelTrace
    let host := t.table.host
    (t.methods.map Prod.snd).Nodup ∧
      Report.names (ofTrace t ["App#run"]).graph host "ruby" =
        "Kernel#puts\truby:0\nKernel#gets\truby:0\n" ∧
      Report.names (ofTrace t ["Kernel#puts", "App#run"]).graph host "ruby" =
        String.join (((ofTrace t ["App#run"]).graph.methods.filter fun p =>
          ¬ (host.fullName p.2.key = "Kernel#puts" ∧ t.table.Knows p.2.key)).map fun p =>
            Report.nameLine host "ruby" p.2) ∧
      Report.names (ofTrace t ["Kernel#puts", "App#run"]).graph host "ruby" =
        "Kernel#gets\truby:0\n" := by
  intro t host
  have hnodup : (t.methods.map Prod.snd).Nodup := by decide
  have hmark : ∀ p ∈ (ofTrace t ["App#run"]).graph.methods, host.fullName p.2.key = "Kernel#puts" →
      '#' ∉ (host.methodLabel p.2.key.method).toList := by decide +kernel
  have hproxy : ∀ k ∈ t.table.parseFullName "Kernel#puts", k.canonical host = k := by
    decide +kernel
  have hlines := names_exclude_name hnodup [] ["App#run"] "ruby" hmark hproxy
  exact ⟨hnodup, by decide +kernel, hlines, by decide +kernel⟩

/-! ## Names that lead nowhere -/

/-- A trace with a method of a type that is not registered, one without a registered name, one of a
class that is named like the absent owner, and one that is named like the absent method. -/
def strangeTrace : Trace where
  types := [(⟨1⟩, .cls "App" none), (⟨2⟩, .cls "[global]" none)]
  methods := [(⟨10⟩, "run"), (⟨11⟩, "[no method]")]
  events := [.call { owner := some ⟨99⟩, method := some ⟨10⟩ },
    .call { owner := some ⟨1⟩, method := some ⟨7⟩ },
    .call { owner := some ⟨2⟩, method := some ⟨10⟩ },
    .call { owner := some ⟨1⟩, method := some ⟨11⟩ }]

/-- The full names of its methods. -/
def strangers : List String :=
  ["#<Type:0x63>#run", "App#method_7", "[global]#run", "App#[no method]"]

/-- Excluding any of these names leaves all lines, although one of them is that of the name. -/
theorem names_strangers :
    let t := strangeTrace
    let host := t.table.host
    (t.methods.map Prod.snd).Nodup ∧
      (ofTrace t []).graph.methods.map (fun p => host.fullName p.2.key) = strangers ∧
      ∀ s ∈ strangers,
        Report.names (ofTrace t [s]).graph host "ruby" =
            Report.names (ofTrace t []).graph host "ruby" ∧
          Report.names (ofTrace t [s]).graph host "ruby" ≠
            String.join (((ofTrace t []).graph.methods.filter fun p =>
              host.fullName p.2.key ≠ s).map fun p => Report.nameLine host "ruby" p.2) := by
  intro t host
  exact ⟨by decide, by decide +kernel, by decide +kernel⟩

end Replay

end CallGraph
