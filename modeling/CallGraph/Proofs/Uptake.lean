import CallGraph.Proofs.Reloading

/-!
# What a record adds to a graph

A record that is loaded brings what is missing of its method, of the peers of its calls and of the
calls themselves.  It has the last word on the source of its method and may set flags of it.  It
says nothing of any other method, and the calls that are open stay open.

Main results:

- Theorem `Records.known_eq` says that a graph knows of each method what is recorded of it.
- Theorems `Records.becomes`, `Records.kept` and `Records.untouched` say what a record that is
  loaded makes of its own method, of one that was there before, and of one that comes with it.
- Theorem `takes_load` says after every history what a record adds to a graph.
-/

namespace CallGraph

/-! ## What a record tells of -/

namespace Record

/-- The methods at the other ends of the calls of a record. -/
def Peer (host : Host) (r : Record) (k : Key) : Prop :=
  (∃ c ∈ r.callers, c.caller.map (Key.canonical host) = some k) ∨
    ∃ c ∈ r.callees, c.callee.canonical host = k

/-- The calls of a record: from each caller, or from outside, to its method, and from its method to
each callee. -/
def Mentions (host : Host) (r : Record) (c : CallRecord) : Prop :=
  (∃ c' ∈ r.callers, c = ⟨c'.caller.map (Key.canonical host), r.key.canonical host⟩) ∨
    ∃ c' ∈ r.callees, c = ⟨some (r.key.canonical host), c'.callee.canonical host⟩

end Record

namespace Graph

/-! ## What a graph knows of a method -/

/-- What a graph knows of a method; of one without a node it knows nothing. -/
def known (g : Graph) (k : Key) : Profile :=
  match (g.lookup k).map g.node with
  | some (.ok n) => n.profile
  | _ => { key := k }

section Known

variable {g : Graph} {l : Ledger} (h : g.Records l) (hl : l.Consistent)

include h

/-- What a graph knows of a method is what its node says. -/
theorem Records.known_of_node {id : NodeId} {n : Node} (hn : g.node id = .ok n) :
    g.known n.key = n.profile := by
  rw [known, h.sound.lookup_eq_some_iff.mpr (has_of_node hn), Option.map_some, hn]

include hl

/-- A graph knows of each method what is recorded of it. -/
theorem Records.known_eq (k : Key) : g.known k = l.profile k := by
  by_cases hk : k ∈ l.keys
  · obtain ⟨id, n, hn, rfl⟩ := h.mem_keys_iff_node.mp hk
    rw [h.known_of_node hn, h.profile_eq hl hn]
  · have hnone : g.lookup k = none :=
      h.sound.registry_eq_none_iff.mpr fun hmem => hk (h.mem_keys_iff.mpr hmem)
    rw [known, hnone, Ledger.profile_of_not_mem hk, Option.map_none]

end Known

/-! ## What becomes of each method -/

/-- The node that the method of a record has after the record was loaded. -/
structure Becomes (g : Graph) (host : Host) (r : Record) (n : Node) : Prop where
  key : n.key = r.key.canonical host
  /-- The record has the last word on the source. -/
  file : n.source.map Source.file = r.file
  /-- Without a file there is no line either. -/
  line : n.line = if r.file.isSome then r.line else 0
  recursive : n.recursive = ((g.known (r.key.canonical host)).recursive || r.recursive)
  /-- A call from outside makes the method a root. -/
  root : n.root = ((g.known (r.key.canonical host)).root || r.callers.any fun c => c.caller.isNone)
  excluded : n.excluded = (g.known (r.key.canonical host)).excluded

/-- What a graph that has loaded a record is, and the handle that it has given out. -/
structure Takes (g : Graph) (host : Host) (r : Record) (g' : Graph) (id : NodeId) : Prop where
  /-- The methods are those before, that of the record, and the peers of its calls. -/
  keys : ∀ k, (∃ a n, g'.node a = .ok n ∧ n.key = k) ↔
    (∃ a n, g.node a = .ok n ∧ n.key = k) ∨ k = r.key.canonical host ∨ r.Peer host k
  /-- The calls are those before and those of the record. -/
  calls : ∀ c, (∃ e, g'.callRecord e = .ok c) ↔
    (∃ e, g.callRecord e = .ok c) ∨ r.Mentions host c
  /-- Each call has one edge. -/
  once : ∀ e e' c, g'.callRecord e = .ok c → g'.callRecord e' = .ok c → e = e'
  /-- The handle is that of the method of the record. -/
  handle : g'.lookup (r.key.canonical host) = some id
  own : ∃ n, g'.node id = .ok n ∧ g.Becomes host r n
  /-- Any other method that was there keeps its handle and what was known of it. -/
  kept : ∀ a n, g.node a = .ok n → n.key ≠ r.key.canonical host →
    ∃ n', g'.node a = .ok n' ∧ n'.profile = n.profile
  /-- Of any other method that came with the record nothing is known but its key. -/
  untouched : ∀ a n', g'.node a = .ok n' → (∀ b n, g.node b = .ok n → n.key ≠ n'.key) →
    n'.key ≠ r.key.canonical host → n'.profile = { key := n'.key }
  stack : g'.stack = g.stack

section Takes

variable {g g' : Graph} {l : Ledger} {host : Host} {r : Record} {id : NodeId}
  (h : g.Records l) (hl : l.Consistent) (hload : g.load host r = .ok (g', id))

include h hload

/-- A graph that has loaded a record records what its ledger says. -/
theorem Records.records_load : g'.Records (l.absorb host r) ∧
    g'.Has ⟨id, r.key.canonical host⟩ := by
  have habsorb := h.absorb host r
  rwa [(load_eq_ok_iff.mp hload).2] at habsorb

include hl

/-- A node of the graph that has loaded a record says what the record leaves in the ledger. -/
theorem Records.profile_load {a : NodeId} {n : Node} (hn : g'.node a = .ok n) :
    n.profile = (l.absorb host r).profile n.key :=
  ((h.records_load hload).1.profile_eq (hl.absorb host r) hn).symm

/-- What becomes of the method of a record. -/
theorem Records.becomes {n : Node} (hn : g'.node id = .ok n) : g.Becomes host r n := by
  have hkey : n.key = r.key.canonical host :=
    (has_of_node hn).key_unique (h.records_load hload).2
  have hprofile := h.profile_load hl hload hn
  rw [hkey, Ledger.profile_absorb, if_pos rfl, ← h.known_eq hl] at hprofile
  have hsource : n.source = sourceOf r := congrArg Profile.source hprofile
  have hroot : n.root = _ := congrArg Profile.root hprofile
  have hrecursive : n.recursive = _ := congrArg Profile.recursive hprofile
  have hexcluded : n.excluded = _ := congrArg Profile.excluded hprofile
  refine ⟨hkey, ?_, ?_, ?_, hroot, hexcluded⟩
  · rw [hsource, sourceOf]
    cases r.file <;> rfl
  · rw [Node.line, hsource, sourceOf]
    cases r.file <;> rfl
  · rw [hrecursive]
    exact Bool.or_false _

/-- What becomes of any other method that was there. -/
theorem Records.kept {a : NodeId} {n : Node} (hn : g.node a = .ok n)
    (hne : n.key ≠ r.key.canonical host) : ∃ n', g'.node a = .ok n' ∧ n'.profile = n.profile := by
  have hgrows := grows_of_load hload
  obtain ⟨n', hn', hkey⟩ := hgrows.extends_base.exists_node hn
  refine ⟨n', hn', ?_⟩
  rw [h.profile_load hl hload hn', hkey, Ledger.profile_absorb, if_neg (Ne.symm hne),
    h.profile_eq hl hn]

/-- What is known of any other method that came with a record. -/
theorem Records.untouched {a : NodeId} {n' : Node} (hn' : g'.node a = .ok n')
    (hnew : ∀ b n, g.node b = .ok n → n.key ≠ n'.key) (hne : n'.key ≠ r.key.canonical host) :
    n'.profile = { key := n'.key } := by
  have hnot : n'.key ∉ l.keys := by
    rw [h.mem_keys_iff_node]
    rintro ⟨b, n, hn, hkey⟩
    exact hnew b n hn hkey
  rw [h.profile_load hl hload hn', Ledger.profile_absorb, if_neg (Ne.symm hne),
    Ledger.profile_of_not_mem hnot]

/-- A graph that records a consistent ledger takes in the record that it loads. -/
theorem Records.takes : g.Takes host r g' id := by
  obtain ⟨h', hid⟩ := h.records_load hload
  have hl' := hl.absorb host r
  obtain ⟨n, hn, -⟩ := has_iff_node.mp hid
  refine ⟨?_, ?_, ?_, h'.sound.lookup_eq_some_iff.mpr hid, ⟨n, hn, h.becomes hl hload hn⟩,
    fun a n hn => h.kept hl hload hn, fun a n hn => h.untouched hl hload hn, ?_⟩
  · intro k
    rw [← h'.mem_keys_iff_node, ← h.mem_keys_iff_node]
    exact Ledger.mem_keys_absorb
  · intro c
    rw [← h'.mem_calls_iff_callRecord, ← h.mem_calls_iff_callRecord]
    exact Ledger.mem_calls_absorb
  · intro e e' c he he'
    have hcalls := hl'.calls_nodup
    rw [← h'.ledger_eq] at hcalls
    exact h'.sound.callRecord_inj hcalls he he'
  · exact (grows_of_load hload).stack

end Takes

/-- After every history of a new graph, a record that is loaded adds what is missing, sets what it
tells of its own method, and leaves the rest alone. -/
theorem takes_load (actions : List Action) {host : Host} {r : Record} {g' : Graph} {id : NodeId}
    (h : (empty.applyAll actions).load host r = .ok (g', id)) :
    (empty.applyAll actions).Takes host r g' id :=
  (records_applyAll actions).takes (Ledger.consistent_empty.applyAll actions) h

/-- A record of the method that is open, on top of a small session: it brings one call, and the
method at the other end of it, which it tells of through a proxy. -/
theorem takes_load_appRecord :
    let base := empty.applyAll kernelActions
    ∃ g' id, base.load kernelHost appRecord = .ok (g', id) ∧
      base.Takes kernelHost appRecord g' id ∧ g'.lookup ⟨some ⟨4⟩, some ⟨14⟩⟩ = some ⟨0, 3⟩ ∧
      (base.nodes.size, base.edges.size, base.depth) = (3, 2, 1) ∧
      (g'.nodes.size, g'.edges.size, g'.depth) = (4, 3, 1) := by
  intro base
  have hload : base.load kernelHost appRecord = .ok (base.absorb kernelHost appRecord) :=
    load_of_problem_none (by decide)
  exact ⟨_, _, hload, takes_load kernelActions hload, by decide⟩

end Graph

end CallGraph
