import CallGraph.Proofs.Restore

/-!
# Canonical records

The record of a node lists the calls of its method in strictly ascending order, so it does not show
in which order the tables of the node happen to list their entries.  A call between two methods is
in the records of both, and a record that was told is loaded under every host.

Main results:

- Theorem `ascending_sort` says that different calls are sorted into strictly ascending order, and
  `Ascending.ext` that such a list is known by its members.
- Theorems `Reorders.sound` and `Reorders.ledger_eq` say that the order in which tables list their
  entries is not recorded.
- Theorem `Records.describes` says what the record of a node says of it.
- Theorems `Records.tells` and `tells_applyAll` say that after every history all records are
  canonical and agree with each other.
-/

namespace CallGraph

/-! ## Ascending calls -/

namespace CallRecord

/-- Each call comes before all that follow it. -/
def Ascending (calls : List CallRecord) : Prop := calls.Pairwise fun a b => compare a b = .lt

instance (calls : List CallRecord) : Decidable (Ascending calls) :=
  inferInstanceAs (Decidable (calls.Pairwise _))

/-- Different calls are sorted into strictly ascending order. -/
theorem ascending_sort {calls : List CallRecord} (h : calls.Nodup) : Ascending (sort calls) :=
  pairwise_lt_mergeSort (f := id) (by simpa using h)

/-- Calls in strictly ascending order are all different. -/
theorem Ascending.nodup {calls : List CallRecord} (h : Ascending calls) : calls.Nodup := by
  refine h.imp ?_
  rintro a b hab rfl
  rw [(compare_calls_eq_iff a a).mpr rfl] at hab
  simp at hab

/-- Calls in ascending order are known by their members. -/
theorem Ascending.ext {as bs : List CallRecord} (has : Ascending as) (hbs : Ascending bs)
    (h : ∀ c, c ∈ as ↔ c ∈ bs) : as = bs := by
  have hperm : as.Perm bs := (List.perm_ext_iff_of_nodup has.nodup hbs.nodup).mpr h
  refine hperm.eq_of_pairwise ?_ has hbs
  intro a b _ _ hab hba
  exact absurd hba (Std.OrientedCmp.not_lt_of_lt hab)

/-- Among the calls of one callee none comes before one from outside. -/
theorem caller_ne_none_of_lt {a b : CallRecord} (h : compare a b = .lt)
    (hcallee : a.callee = b.callee) : b.caller ≠ none := by
  intro hnone
  have hself : compare b.callee b.callee = .eq := Std.ReflCmp.compare_self
  rw [compare_def, hcallee, hnone, hself] at h
  cases hcaller : a.caller with
  | none => simp [hcaller] at h
  | some k => simp [hcaller] at h

/-- Among the calls of one callee in ascending order, the one from outside is the first. -/
theorem Ascending.index_eq_zero {calls : List CallRecord} (h : Ascending calls) {k : Key}
    (hcallee : ∀ c ∈ calls, c.callee = k) {i : Nat} {c : CallRecord} (hc : calls[i]? = some c)
    (hnone : c.caller = none) : i = 0 := by
  by_contra hi
  obtain ⟨hlt, rfl⟩ := List.getElem?_eq_some_iff.mp hc
  have hfirst : 0 < calls.length := by omega
  have hbefore := List.pairwise_iff_getElem.mp h 0 i hfirst hlt (Nat.pos_of_ne_zero hi)
  refine caller_ne_none_of_lt hbefore ?_ hnone
  rw [hcallee _ (List.getElem_mem hfirst), hcallee _ (List.getElem_mem hlt)]

end CallRecord

/-! ## Tables that list their entries in another order -/

namespace Table

variable {κ α : Type} [DecidableEq κ] {t t' : Table κ α}

/-- What a key answers does not depend on the order of the entries. -/
theorem lookup_eq_of_perm (h : t.entries.Perm t'.entries) (k : κ) : t'.lookup k = t.lookup k := by
  apply Option.ext
  intro v
  rw [lookup_eq_some_iff, lookup_eq_some_iff, h.mem_iff]

end Table

/-- The node `n'` is `n` with its tables listed in whatever order. -/
structure Node.Reorders (n n' : Node) : Prop where
  profile : n'.profile = n.profile
  resolution : n'.resolution = n.resolution
  rootEdge : n'.rootEdge = n.rootEdge
  callers : n.callers.entries.Perm n'.callers.entries
  callees : n.callees.entries.Perm n'.callees.entries

namespace Graph

/-- The graph `g'` is `g` with all its tables listed in whatever order. -/
structure Reorders (g g' : Graph) : Prop where
  generation : g'.generation = g.generation
  registry : g.registry.entries.Perm g'.registry.entries
  size : g'.nodes.size = g.nodes.size
  nodes : ∀ (i : Nat) (n n' : Node), g.nodes[i]? = some n → g'.nodes[i]? = some n' → n.Reorders n'
  edges : g'.edges = g.edges
  stack : g'.stack = g.stack

namespace Reorders

variable {g g' : Graph} (h : g.Reorders g')

include h

/-- Each node is still there. -/
theorem exists_node {i : Nat} {n' : Node} (hn' : g'.nodes[i]? = some n') :
    ∃ n, g.nodes[i]? = some n ∧ n.Reorders n' := by
  obtain ⟨hi, -⟩ := Array.getElem?_eq_some_iff.mp hn'
  have hn := Array.getElem?_eq_getElem (h.size ▸ hi : i < g.nodes.size)
  exact ⟨_, hn, h.nodes i _ n' hn hn'⟩

/-- The node at an index says the same whatever the order of its tables. -/
theorem getElem?_nodes (i : Nat) :
    g'.nodes[i]?.map Node.profile = g.nodes[i]?.map Node.profile := by
  cases hn' : g'.nodes[i]? with
  | none =>
    have hn : g.nodes[i]? = none := by
      rw [Array.getElem?_eq_none_iff] at hn' ⊢
      rw [← h.size]
      exact hn'
    rw [hn]
  | some n' =>
    obtain ⟨n, hn, hsame⟩ := h.exists_node hn'
    rw [hn, Option.map_some, Option.map_some, hsame.profile]

/-- All nodes say the same whatever the order of their tables. -/
theorem map_profile_nodes :
    g'.nodes.toList.map Node.profile = g.nodes.toList.map Node.profile := by
  apply List.ext_getElem?
  intro i
  simpa using h.getElem?_nodes i

/-- The methods are the same whatever the order of the tables. -/
theorem keys_eq : g'.keys = g.keys := by
  have hkeys := congrArg (List.map Profile.key) h.map_profile_nodes
  simpa [keys, Node.profile, Function.comp_def] using hkeys

/-- A graph extends the same graph with its tables listed in another order. -/
theorem extends_left : g.Extends g' :=
  ⟨h.generation, fun i k hk => by rw [h.keys_eq]; exact hk, fun i e he => by rw [h.edges]; exact he⟩

/-- A sound graph stays sound whatever order its tables have. -/
theorem sound (hg : g.Sound) : g'.Sound := by
  refine hg.of_same h.extends_left h.keys_eq h.edges (Table.lookup_eq_of_perm h.registry) ?_ ?_
  · intro i n' hn'
    obtain ⟨n, hn, hsame⟩ := h.exists_node hn'
    exact ⟨n, hn, Table.lookup_eq_of_perm hsame.callers, Table.lookup_eq_of_perm hsame.callees,
      hsame.rootEdge⟩
  · rw [h.stack]
    exact hg.path.mono h.extends_left

/-- The order of the tables is not recorded. -/
theorem ledger_eq : g'.ledger = g.ledger := by
  have hcall : g'.callAt = g.callAt := by
    funext e
    have hkey : g'.keyAt = g.keyAt := by
      funext id
      rw [keyAt, keyAt, h.keys_eq]
    rw [callAt, callAt, hkey]
  rw [ledger, ledger, h.map_profile_nodes, h.edges, h.stack, hcall]

/-- A handle is alive exactly if it was, and its node says the same. -/
theorem map_profile_node (id : NodeId) :
    Node.profile <$> g'.node id = Node.profile <$> g.node id := by
  have hnode := h.getElem?_nodes id.index
  unfold node
  rw [h.generation]
  split
  · rfl
  · cases hn : g.nodes[id.index]? <;> cases hn' : g'.nodes[id.index]? <;>
      simp_all [Functor.map, Except.map]

/-- The record of a node is the same in whatever order its tables are listed. -/
theorem dump_eq {l : Ledger} (hg : g.Records l) (hl : l.Consistent) (id : NodeId) :
    g'.dump id = g.dump id := by
  have hg' : g'.Records l := ⟨h.sound hg.sound, h.ledger_eq.trans hg.ledger_eq⟩
  have hmap := h.map_profile_node id
  cases hn : g.node id with
  | ok n =>
    have hok : Node.profile <$> g'.node id = .ok n.profile := by rw [hmap, hn]; rfl
    obtain ⟨n', hn', hprofile⟩ := map_eq_ok_iff.mp hok
    rw [hg'.dump hl hn', hg.dump hl hn, hprofile]
  | error e =>
    cases hn' : g'.node id with
    | ok n' => simp [hn, hn', Functor.map, Except.map] at hmap
    | error e' =>
      have he : e' = e := by simpa [hn, hn', Functor.map, Except.map] using hmap
      simp [dump, hn, hn', he, bind, Except.bind]

end Reorders

/-! ## What records say -/

/-- The record `r` says of a node of a graph what there is to say, in canonical form. -/
structure Describes (g : Graph) (n : Node) (r : Record) : Prop where
  key : r.key = n.key
  recursive : r.recursive = n.recursive
  file : r.file = n.source.map Source.file
  line : r.line = n.line
  /-- Without a file there is no line either. -/
  no_line : r.file = none → r.line = 0
  callers_ascending : CallRecord.Ascending r.callers
  callees_ascending : CallRecord.Ascending r.callees
  /-- The incoming calls are those of the edges to the method. -/
  callers : ∀ c, c ∈ r.callers ↔ c.callee = n.key ∧ ∃ e, g.callRecord e = .ok c
  /-- The outgoing calls are those of the edges from the method. -/
  callees : ∀ c, c ∈ r.callees ↔ c.caller = some n.key ∧ ∃ e, g.callRecord e = .ok c
  /-- There is a call from outside exactly if the node has an edge from outside. -/
  outside : (∃ c ∈ r.callers, c.caller = none) ↔ n.rootEdge.isSome = true
  /-- A call from outside is the first one. -/
  outside_first : ∀ (i : Nat) (c : CallRecord), r.callers[i]? = some c → c.caller = none → i = 0

/-- The records of a graph are canonical and agree with each other. -/
structure Tells (g : Graph) : Prop where
  /-- Every node has a record, which is in canonical form. -/
  describes : ∀ id n, g.node id = .ok n → ∃ r, g.dump id = .ok r ∧ g.Describes n r
  /-- The order in which tables list their entries does not show. -/
  reorders : ∀ g', g.Reorders g' → ∀ id, g'.dump id = g.dump id
  /-- A call between two methods is in the records of both or of neither. -/
  agrees : ∀ a b m n r s, g.node a = .ok m → g.node b = .ok n → g.dump a = .ok r →
    g.dump b = .ok s → (⟨some m.key, n.key⟩ ∈ r.callees ↔ ⟨some m.key, n.key⟩ ∈ s.callers)
  /-- Every record is loaded, under every host and by every graph. -/
  loads : ∀ id r, g.dump id = .ok r → ∀ host (g' : Graph), ∃ out, g'.load host r = .ok out

section Records

variable {g : Graph} {l : Ledger} (h : g.Records l) (hl : l.Consistent)

include h hl

/-- A record has a call from outside exactly if its node has an edge from outside. -/
theorem Records.outside_iff {id : NodeId} {n : Node} (hn : g.node id = .ok n) :
    (∃ c ∈ (l.record n.profile).callers, c.caller = none) ↔ n.rootEdge.isSome = true := by
  have hp : n.profile ∈ l.profiles := (h.mem_profiles_iff_node hl).mpr ⟨id, n, hn, rfl⟩
  have hany := Ledger.any_callers_record hl hp
  rw [← h.root_iff hl hn]
  have hroot : n.root = n.profile.root := rfl
  rw [hroot, ← hany, List.any_eq_true]
  simp only [Option.isNone_iff_eq_none]

/-- The record of a node says what there is to say, in canonical form. -/
theorem Records.describes {id : NodeId} {n : Node} (hn : g.node id = .ok n) :
    g.Describes n (l.record n.profile) := by
  have hcallers : CallRecord.Ascending (l.record n.profile).callers :=
    CallRecord.ascending_sort (hl.calls_nodup.filter _)
  have hcallees : CallRecord.Ascending (l.record n.profile).callees :=
    CallRecord.ascending_sort (hl.calls_nodup.filter _)
  refine ⟨rfl, rfl, rfl, rfl, ?_, hcallers, hcallees, ?_, ?_, h.outside_iff hl hn, ?_⟩
  · intro hfile
    have hsource : n.source = none := Option.map_eq_none_iff.mp hfile
    simp [Ledger.record, Node.profile, hsource]
  · intro c
    rw [Ledger.mem_callers_record, h.mem_calls_iff_callRecord, and_comm]
    rfl
  · intro c
    rw [Ledger.mem_callees_record, h.mem_calls_iff_callRecord, and_comm]
    rfl
  · intro i c hc hnone
    exact hcallers.index_eq_zero (fun c hc => (Ledger.mem_callers_record.mp hc).2) hc hnone

/-- The records of a graph whose ledger is consistent are canonical and agree with each other. -/
theorem Records.tells : g.Tells where
  describes id n hn := ⟨_, h.dump hl hn, h.describes hl hn⟩
  reorders g' hsame id := hsame.dump_eq h hl id
  agrees a b m n r s hm hn hr hs := by
    rw [h.dump hl hm, Except.ok.injEq] at hr
    rw [h.dump hl hn, Except.ok.injEq] at hs
    subst hr hs
    rw [(h.describes hl hm).callees, (h.describes hl hn).callers]
    simp
  loads id r hr host g' := by
    obtain ⟨n, hn, -⟩ := bind_eq_ok_iff.mp hr
    rw [h.dump hl hn, Except.ok.injEq] at hr
    subst hr
    exact ⟨_, load_of_problem_none (Ledger.recordProblem_record l n.profile host)⟩

end Records

/-- After every history of a new graph its records are canonical and agree with each other. -/
theorem tells_applyAll (actions : List Action) : (empty.applyAll actions).Tells :=
  (records_applyAll actions).tells (Ledger.consistent_empty.applyAll actions)

end Graph

end CallGraph
