import CallGraph.Proofs.EdgeIndex

/-!
# The records of a ledger

The record of a method can be read off a ledger: the calls to the method and the calls from it,
both in ascending order.  Since the order separates different calls, it does not matter in which
order a graph lists its edges, and the records of a graph are those of its ledger.

Main results:

- Theorem `sort_eq_of_perm` says that sorting forgets the order in which calls came.
- Theorem `Records.dump` says that the record of a node is that of its method in the ledger.
- Theorem `Records.dumpAll` says that all records of a graph are those of its ledger.
-/

namespace CallGraph

/-- A list that was sorted by something is in its order. -/
theorem pairwise_mergeSort_compare {α β : Type} [Ord β] [Std.TransOrd β] (f : α → β)
    (as : List α) : (as.mergeSort fun a b => (compare (f a) (f b)).isLE).Pairwise
      fun a b => (compare (f a) (f b)).isLE = true := by
  apply List.pairwise_mergeSort
  · intro a b c hab hbc
    exact Std.TransCmp.isLE_trans hab hbc
  · intro a b
    have hswap : compare (f b) (f a) = (compare (f a) (f b)).swap := Std.OrientedCmp.eq_swap
    rw [Bool.or_eq_true, hswap]
    cases compare (f a) (f b) <;> simp

/-- A list sorted by something in which no two of its members agree is in its strict order. -/
theorem pairwise_lt_mergeSort {α β : Type} [Ord β] [Std.TransOrd β] [Std.LawfulEqOrd β] {f : α → β}
    {as : List α} (h : (as.map f).Nodup) :
    (as.mergeSort fun a b => (compare (f a) (f b)).isLE).Pairwise
      fun a b => compare (f a) (f b) = .lt := by
  have hperm := (List.mergeSort_perm as fun a b => (compare (f a) (f b)).isLE).map f
  have hdistinct := List.pairwise_map.mp (hperm.nodup_iff.mpr h)
  refine ((pairwise_mergeSort_compare f as).and hdistinct).imp ?_
  rintro a b ⟨hle, hne⟩
  cases hcompare : compare (f a) (f b) with
  | lt => rfl
  | eq => exact absurd (Std.LawfulEqOrd.eq_of_compare hcompare) hne
  | gt => simp [hcompare] at hle

namespace CallRecord

/-- Sorting only reorders the calls. -/
theorem perm_sort (calls : List CallRecord) : (sort calls).Perm calls :=
  List.mergeSort_perm calls _

/-- Sorting neither adds nor drops a call. -/
@[simp] theorem mem_sort {calls : List CallRecord} {c : CallRecord} :
    c ∈ sort calls ↔ c ∈ calls :=
  (perm_sort calls).mem_iff

/-- Sorted calls stand in ascending order. -/
theorem pairwise_sort (calls : List CallRecord) :
    (sort calls).Pairwise fun a b => (compare a b).isLE = true :=
  pairwise_mergeSort_compare id calls

/-- Sorting forgets the order in which calls came. -/
theorem sort_eq_of_perm {as bs : List CallRecord} (h : as.Perm bs) : sort as = sort bs := by
  refine List.Perm.eq_of_pairwise ?_ (pairwise_sort as) (pairwise_sort bs) ?_
  · intro a b _ _ hab hba
    exact Std.LawfulEqCmp.eq_of_compare (Std.OrientedCmp.isLE_antisymm hab hba)
  · exact ((perm_sort as).trans h).trans (perm_sort bs).symm

end CallRecord

namespace Ledger

/-- The calls to a method. -/
def callersOf (l : Ledger) (k : Key) : List CallRecord := l.calls.filter fun c => c.callee = k

/-- The calls from a method. -/
def calleesOf (l : Ledger) (k : Key) : List CallRecord := l.calls.filter fun c => c.caller = some k

/-- The record of a method, given what is recorded of it apart from its calls. -/
def record (l : Ledger) (p : Profile) : Record where
  key := p.key
  recursive := p.recursive
  file := p.source.map Source.file
  line := (p.source.map Source.line).getD 0
  callers := CallRecord.sort (l.callersOf p.key)
  callees := CallRecord.sort (l.calleesOf p.key)

/-- The methods that are not excluded. -/
def visible (l : Ledger) : List Profile := l.profiles.filter fun p => !p.excluded

/-- The records of the methods that are not excluded. -/
def records (l : Ledger) : List Record := l.visible.map l.record

/-- The visible methods of a ledger are those that are not excluded. -/
theorem mem_visible {l : Ledger} {p : Profile} :
    p ∈ l.visible ↔ p ∈ l.profiles ∧ p.excluded = false := by
  simp [visible]

/-- No method has two records. -/
theorem nodup_keys_records {l : Ledger} (hl : l.Consistent) :
    (l.records.map Record.key).Nodup := by
  rw [records, List.map_map]
  exact hl.keys_nodup.sublist (List.filter_sublist.map Profile.key)

/-- A record depends on the calls of its method only. -/
theorem record_congr {l l' : Ledger} (hl : l.Consistent) (hl' : l'.Consistent) {p : Profile}
    (h : ∀ c, c.callee = p.key ∨ c.caller = some p.key → (c ∈ l'.calls ↔ c ∈ l.calls)) :
    l'.record p = l.record p := by
  have hcallers : (l'.callersOf p.key).Perm (l.callersOf p.key) := by
    apply (List.perm_ext_iff_of_nodup (hl'.calls_nodup.filter _) (hl.calls_nodup.filter _)).mpr
    intro c
    simp only [List.mem_filter, decide_eq_true_eq]
    exact and_congr_left fun hc => h c (Or.inl hc)
  have hcallees : (l'.calleesOf p.key).Perm (l.calleesOf p.key) := by
    apply (List.perm_ext_iff_of_nodup (hl'.calls_nodup.filter _) (hl.calls_nodup.filter _)).mpr
    intro c
    simp only [List.mem_filter, decide_eq_true_eq]
    exact and_congr_left fun hc => h c (Or.inr hc)
  unfold record
  rw [CallRecord.sort_eq_of_perm hcallers, CallRecord.sort_eq_of_perm hcallees]

end Ledger

namespace Graph

/-! ## The calls of a list of edges -/

/-- An edge that can be told by keys joins vertices of these keys. -/
theorem Sound.vertices_of_callRecord {g : Graph} (hg : g.Sound) {id : EdgeId} {c : CallRecord}
    (h : g.callRecord id = .ok c) :
    ∃ caller callee, g.Joins id ⟨caller.map Vertex.id, callee.id⟩ ∧
      (∀ v, caller = some v → g.Has v) ∧ g.Has callee ∧
        c = ⟨caller.map Vertex.key, callee.key⟩ := by
  cases he : g.edge id with
  | error err => simp [callRecord, he, bind, Except.bind] at h
  | ok e =>
    have hjoin := joins_iff_edge.mpr he
    rcases hg.vertices hjoin with ⟨caller, callee, rfl, hcaller, hcallee⟩
    rw [hg.callRecord_of_joins hjoin, callAt_eq hcaller hcallee, Except.ok.injEq] at h
    exact ⟨caller, callee, hjoin, hcaller, hcallee, h.symm⟩

/-- Different edges stand for different calls. -/
theorem Sound.callRecord_inj {g : Graph} (hg : g.Sound) (hcalls : g.ledger.calls.Nodup)
    {e e' : EdgeId} {c : CallRecord} (he : g.callRecord e = .ok c)
    (he' : g.callRecord e' = .ok c) : e = e' := by
  rcases e with ⟨gen, i⟩
  rcases e' with ⟨gen', i'⟩
  rcases hg.callRecord_eq_ok_iff.mp he with ⟨hgen, hi⟩
  rcases hg.callRecord_eq_ok_iff.mp he' with ⟨hgen', hi'⟩
  have hindex : i = i' :=
    (List.getElem?_inj (List.getElem?_eq_some_iff.mp hi).1 hcalls).mp (hi.trans hi'.symm)
  rw [EdgeId.mk.injEq]
  exact ⟨hgen.trans hgen'.symm, hindex⟩

/-- A list of edges that holds exactly those of some calls is told by these calls. -/
theorem Sound.mapM_callRecord_perm {g : Graph} (hg : g.Sound) (hcalls : g.ledger.calls.Nodup)
    {es : List EdgeId} (hes : es.Nodup) {p : CallRecord → Bool}
    (hmem : ∀ e, e ∈ es ↔ ∃ c, g.callRecord e = .ok c ∧ p c = true) :
    ∃ cs, es.mapM g.callRecord = .ok cs ∧ cs.Perm (g.ledger.calls.filter p) := by
  have hcall : ∀ e ∈ es, g.callRecord e = .ok (g.ledger.calls.getD e.index default) := by
    intro e he
    rcases (hmem e).mp he with ⟨c, hc, -⟩
    rw [hc, List.getD_eq_getElem?_getD, (hg.callRecord_eq_ok_iff.mp hc).2, Option.getD_some]
  refine ⟨_, mapM_eq_ok hcall, ?_⟩
  rw [List.perm_ext_iff_of_nodup]
  · intro c
    rw [List.mem_map, List.mem_filter]
    constructor
    · rintro ⟨e, he, rfl⟩
      rcases (hmem e).mp he with ⟨c, hc, hp⟩
      rw [hcall e he, Except.ok.injEq] at hc
      rw [hc]
      exact ⟨List.mem_of_getElem? (hg.callRecord_eq_ok_iff.mp ((hcall e he).trans
        (congrArg Except.ok hc))).2, hp⟩
    · rintro ⟨hc, hp⟩
      rcases List.getElem?_of_mem hc with ⟨i, hi⟩
      have hrecord := hg.callRecord_eq_ok_iff.mpr
        (show (⟨g.generation, i⟩ : EdgeId).generation = g.generation ∧
          g.ledger.calls[i]? = some c from ⟨rfl, hi⟩)
      refine ⟨⟨g.generation, i⟩, (hmem _).mpr ⟨c, hrecord, hp⟩, ?_⟩
      simp [hi]
  · refine hes.map_on ?_
    intro e he e' he' heq
    have hc := hcall e he
    rw [heq] at hc
    exact hg.callRecord_inj hcalls hc (hcall e' he')
  · exact hcalls.filter _

/-! ## The record of a node -/

section Dump

variable {g : Graph} (hg : g.Sound) {id : NodeId} {n : Node} (hn : g.node id = .ok n)

include hg hn

/-- The incoming edges of a node are those of the calls to its method. -/
theorem Sound.mem_incoming_iff {e : EdgeId} :
    e ∈ n.incoming ↔ ∃ c, g.callRecord e = .ok c ∧ c.callee = n.key := by
  rw [hg.mem_incoming hn]
  constructor
  · rintro ⟨caller, hjoin⟩
    exact ⟨_, hg.callRecord_of_joins hjoin, (has_of_node hn).keyAt_eq⟩
  · rintro ⟨c, hc, hkey⟩
    rcases hg.vertices_of_callRecord hc with ⟨caller, callee, hjoin, -, hcallee, rfl⟩
    have hid : callee.id = id := by
      apply hg.id_unique hcallee
      rw [show callee.key = n.key from hkey]
      exact has_of_node hn
    rw [hid] at hjoin
    exact ⟨_, hjoin⟩

/-- The outgoing edges of a node are those of the calls from its method. -/
theorem Sound.mem_outgoing_iff {e : EdgeId} :
    e ∈ n.outgoing ↔ ∃ c, g.callRecord e = .ok c ∧ c.caller = some n.key := by
  rw [hg.mem_outgoing hn]
  constructor
  · rintro ⟨callee, hjoin⟩
    refine ⟨_, hg.callRecord_of_joins hjoin, ?_⟩
    simp [callAt, (has_of_node hn).keyAt_eq]
  · rintro ⟨c, hc, hkey⟩
    rcases hg.vertices_of_callRecord hc with ⟨caller, callee, hjoin, hcaller, -, rfl⟩
    rcases Option.map_eq_some_iff.mp hkey with ⟨v, rfl, hv⟩
    have hid : v.id = id := by
      apply hg.id_unique (hcaller v rfl)
      rw [hv]
      exact has_of_node hn
    rw [Option.map_some, hid] at hjoin
    exact ⟨_, hjoin⟩

/-- The record of a node is that of its method. -/
theorem Sound.dump (hcalls : g.ledger.calls.Nodup) :
    g.dump id = .ok (g.ledger.record n.profile) := by
  rcases hg.mapM_callRecord_perm hcalls (hg.nodup_incoming hn)
    (p := fun c => decide (c.callee = n.key)) (by simpa using fun e => hg.mem_incoming_iff hn) with
    ⟨callers, hcallers, hpermIn⟩
  rcases hg.mapM_callRecord_perm hcalls (hg.nodup_outgoing hn)
    (p := fun c => decide (c.caller = some n.key))
    (by simpa using fun e => hg.mem_outgoing_iff hn) with
    ⟨callees, hcallees, hpermOut⟩
  have hin : CallRecord.sort callers = CallRecord.sort (g.ledger.callersOf n.key) :=
    CallRecord.sort_eq_of_perm hpermIn
  have hout : CallRecord.sort callees = CallRecord.sort (g.ledger.calleesOf n.key) :=
    CallRecord.sort_eq_of_perm hpermOut
  simp [Graph.dump, hn, hcallers, hcallees, hin, hout, bind, Except.bind, pure, Except.pure,
    Ledger.record, Node.profile, Node.line]

end Dump

/-! ## All records -/

/-- Every method that a graph reports is the node of its handle. -/
theorem node_of_mem_methods {g : Graph} {id : NodeId} {n : Node} (h : (id, n) ∈ g.methods) :
    g.node id = .ok n := by
  rcases List.mem_map.mp h with ⟨⟨n', i⟩, hmem, heq⟩
  rcases Prod.mk.inj heq with ⟨rfl, rfl⟩
  have hi := List.mem_zipIdx_iff_getElem?.mp (List.mem_filter.mp hmem).1
  rw [node_eq_ok_iff]
  exact ⟨rfl, by simpa using hi⟩

/-- The nodes that are listed are those that are not excluded. -/
theorem map_snd_methods (g : Graph) :
    g.methods.map Prod.snd = g.nodes.toList.filter fun n => !n.excluded := by
  have hfst : g.methods.map Prod.snd =
      (g.nodes.toList.zipIdx.filter ((fun n => !n.excluded) ∘ Prod.fst)).map Prod.fst := by
    simp [methods, Function.comp_def]
  rw [hfst, ← List.filter_map, List.zipIdx_map_fst]

/-- The methods that a graph reports are the visible ones of its ledger, in the same order. -/
theorem map_profile_methods (g : Graph) :
    (g.methods.map fun p => p.2.profile) = g.ledger.visible := by
  have hsnd : (g.methods.map fun p => p.2.profile) = (g.methods.map Prod.snd).map Node.profile := by
    simp
  rw [hsnd, map_snd_methods]
  simp only [Ledger.visible, ledger, List.filter_map]
  rfl

section Records

variable {g : Graph} {l : Ledger} (h : g.Records l) (hl : l.Consistent)

include h hl

/-- The record of a node is that of its method in the ledger. -/
theorem Records.dump {id : NodeId} {n : Node} (hn : g.node id = .ok n) :
    g.dump id = .ok (l.record n.profile) := by
  have hcalls := hl.calls_nodup
  rw [← h.ledger_eq] at hcalls ⊢
  exact h.sound.dump hn hcalls

/-- The records of a graph are those of its ledger. -/
theorem Records.dumpAll : g.dumpAll = .ok l.records := by
  have hdump : ∀ p ∈ g.methods, g.dump p.1 = .ok (l.record p.2.profile) := by
    rintro ⟨id, n⟩ hmem
    exact h.dump hl (node_of_mem_methods hmem)
  rw [Graph.dumpAll, mapM_eq_ok hdump, Ledger.records, ← h.ledger_eq, ← map_profile_methods,
    List.map_map]
  rfl

end Records

/-! ## Ledgers seen from their graphs -/

section Reading

variable {g : Graph} {l : Ledger} (h : g.Records l)

include h

/-- A ledger knows a method exactly if the graph has a node for it. -/
theorem Records.mem_keys_iff_node {k : Key} :
    k ∈ l.keys ↔ ∃ id n, g.node id = .ok n ∧ n.key = k := by
  rw [h.mem_keys_iff]
  constructor
  · intro hk
    rcases exists_has_of_mem hk with ⟨id, hid⟩
    rcases has_iff_node.mp hid with ⟨n, hn, hkey⟩
    exact ⟨id, n, hn, hkey⟩
  · rintro ⟨id, n, hn, rfl⟩
    exact (has_of_node hn).mem_keys

/-- A ledger knows a call exactly if it is the record of an edge of the graph. -/
theorem Records.mem_calls_iff_callRecord {c : CallRecord} :
    c ∈ l.calls ↔ ∃ e, g.callRecord e = .ok c := by
  simp only [h.sound.callRecord_eq_ok_iff, h.ledger_eq]
  constructor
  · intro hc
    rcases List.getElem?_of_mem hc with ⟨i, hi⟩
    exact ⟨⟨g.generation, i⟩, rfl, hi⟩
  · rintro ⟨e, -, he⟩
    exact List.mem_of_getElem? he

/-- The ledger knows of its methods what their nodes say. -/
theorem Records.mem_profiles_iff_node (hl : l.Consistent) {p : Profile} :
    p ∈ l.profiles ↔ ∃ id n, g.node id = .ok n ∧ n.profile = p := by
  rw [Ledger.mem_profiles_iff hl.keys_nodup, h.mem_keys_iff_node]
  constructor
  · rintro ⟨⟨id, n, hn, hk⟩, hp⟩
    refine ⟨id, n, hn, ?_⟩
    rw [← h.profile_eq hl hn, hk, hp]
  · rintro ⟨id, n, hn, rfl⟩
    exact ⟨⟨id, n, hn, rfl⟩, h.profile_eq hl hn⟩

/-- The visible methods of the ledger are those of the nodes that are not excluded. -/
theorem Records.mem_visible_iff_node (hl : l.Consistent) {p : Profile} :
    p ∈ l.visible ↔ ∃ id n, g.node id = .ok n ∧ n.excluded = false ∧ n.profile = p := by
  rw [Ledger.mem_visible, h.mem_profiles_iff_node hl]
  constructor
  · rintro ⟨⟨id, n, hn, rfl⟩, hexcluded⟩
    exact ⟨id, n, hn, hexcluded, rfl⟩
  · rintro ⟨id, n, hn, hexcluded, rfl⟩
    exact ⟨⟨id, n, hn, rfl⟩, hexcluded⟩

/-- A graph has one node for every method of its ledger. -/
theorem Records.size_nodes : g.nodes.size = l.keys.length := by
  rw [← h.ledger_eq, keys_ledger, length_keys]

/-- A graph has one edge for every call of its ledger. -/
theorem Records.size_edges : g.edges.size = l.calls.length := by
  rw [← h.ledger_eq]
  simp [ledger]

end Reading

end Graph

end CallGraph
