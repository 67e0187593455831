import CallGraph.Proofs.Restore
import CallGraph.Proofs.Stores
import CallGraph.TypeTable

/-!
# Round trips of a session

All records of a graph, loaded by a new graph in any order, make a graph that holds the same of
every method that was not excluded.

Main results:

- Theorem `restores_loadAll` says that the records of any graph with a history rebuild it, in any
  order and also through a store.
-/

namespace CallGraph

namespace Ledger

/-- The lengths of records fit if there are not too many calls and no file name is too long. -/
theorem fits_of_mem_records {l : Ledger} (hcalls : l.calls.length < UInt64.size)
    (hfiles : ∀ p ∈ l.profiles, ∀ s, p.source = some s →
      (Text.Utf8.encode s.file).length < UInt64.size) {r : Record} (hr : r ∈ l.records) :
    Store.Fits r := by
  rcases List.mem_map.mp hr with ⟨p, hp, rfl⟩
  refine ⟨?_, ?_, ?_⟩
  · intro file hfile
    rcases Option.map_eq_some_iff.mp hfile with ⟨s, hs, rfl⟩
    exact hfiles p (mem_visible.mp hp).1 s hs
  · have hle : (l.callersOf p.key).length ≤ l.calls.length := List.length_filter_le _ _
    have hlen : (l.record p).callers.length = (l.callersOf p.key).length :=
      List.length_mergeSort _
    omega
  · have hle : (l.calleesOf p.key).length ≤ l.calls.length := List.length_filter_le _ _
    have hlen : (l.record p).callees.length = (l.calleesOf p.key).length :=
      List.length_mergeSort _
    omega

end Ledger

namespace Graph

/-! ## The round trip -/

/-- The graph `g'` holds of every method of `g` that is not excluded what `g` holds of it, and
nothing else. -/
structure Restores (g g' : Graph) : Prop where
  /-- Its methods are those that are not excluded and the peers of their calls. -/
  keys : ∀ k, (∃ id n, g'.node id = .ok n ∧ n.key = k) ↔
    ∃ id n, g.node id = .ok n ∧ n.excluded = false ∧ (k = n.key ∨
      ∃ e c, g.callRecord e = .ok c ∧
        ((c.callee = n.key ∧ c.caller = some k) ∨ (c.caller = some n.key ∧ c.callee = k)))
  /-- Its edges are those with an end that is not excluded. -/
  edges : ∀ c, (∃ e, g'.callRecord e = .ok c) ↔
    (∃ e, g.callRecord e = .ok c) ∧ ∃ id n, g.node id = .ok n ∧ n.excluded = false ∧
      (c.callee = n.key ∨ c.caller = some n.key)
  /-- A method that is not excluded is a root if it was one and has the record that it had. -/
  nodes : ∀ id n, g.node id = .ok n → n.excluded = false → ∃ id' n' r, g'.node id' = .ok n' ∧
    n'.key = n.key ∧ n'.root = n.root ∧ g.dump id = .ok r ∧ g'.dump id' = .ok r
  /-- If no method is excluded, neither a node nor an edge is missing. -/
  sizes : (∀ id n, g.node id = .ok n → n.excluded = false) →
    g'.nodes.size = g.nodes.size ∧ g'.edges.size = g.edges.size

/-- A graph whose ledger took in the records of another graph has restored that graph. -/
theorem restores_of_restored {g g' : Graph} {l l' : Ledger} (h : g.Records l) (hl : l.Consistent)
    (h' : g'.Records l') (hrestored : Ledger.Restored l {} l') : g.Restores g' := by
  have hblank : ∀ k, (({} : Ledger).profile k) = { key := k } := fun _ => rfl
  refine ⟨?_, ?_, ?_, ?_⟩
  · intro k
    rw [← h'.mem_keys_iff_node, hrestored.keys]
    constructor
    · rintro (hk | ⟨p, hp, hk⟩)
      · simp [Ledger.keys] at hk
      · rcases (h.mem_visible_iff_node hl).mp hp with ⟨id, n, hn, hexcluded, rfl⟩
        refine ⟨id, n, hn, hexcluded, hk.imp_right ?_⟩
        rintro ⟨c, hc, hends⟩
        rcases h.mem_calls_iff_callRecord.mp hc with ⟨e, he⟩
        exact ⟨e, c, he, hends⟩
    · rintro ⟨id, n, hn, hexcluded, hk⟩
      refine Or.inr ⟨n.profile, (h.mem_visible_iff_node hl).mpr ⟨id, n, hn, hexcluded, rfl⟩,
        hk.imp_right ?_⟩
      rintro ⟨e, c, he, hends⟩
      exact ⟨c, h.mem_calls_iff_callRecord.mpr ⟨e, he⟩, hends⟩
  · intro c
    rw [← h'.mem_calls_iff_callRecord, ← h.mem_calls_iff_callRecord, hrestored.calls]
    constructor
    · rintro (hc | ⟨hc, p, hp, hends⟩)
      · simp at hc
      · rcases (h.mem_visible_iff_node hl).mp hp with ⟨id, n, hn, hexcluded, rfl⟩
        exact ⟨hc, id, n, hn, hexcluded, hends⟩
    · rintro ⟨hc, id, n, hn, hexcluded, hends⟩
      exact Or.inr ⟨hc, n.profile, (h.mem_visible_iff_node hl).mpr ⟨id, n, hn, hexcluded, rfl⟩,
        hends⟩
  · intro id n hn hexcluded
    have hp := (h.mem_visible_iff_node hl).mpr ⟨id, n, hn, hexcluded, rfl⟩
    have hk : n.key ∈ l'.keys := (hrestored.keys _).mpr (Or.inr ⟨n.profile, hp, Or.inl rfl⟩)
    rcases h'.mem_keys_iff_node.mp hk with ⟨id', n', hn', hkey⟩
    -- Nothing was known before the records came, so their method is as they say.
    have hprofile : n'.profile = n.profile := by
      rw [← h'.profile_eq hrestored.consistent hn', hkey]
      exact hrestored.profile_eq hp (hblank _)
    refine ⟨id', n', l.record n.profile, hn', hkey, congrArg Profile.root hprofile,
      h.dump hl hn, ?_⟩
    rw [h'.dump hrestored.consistent hn', hprofile, hrestored.record_eq hp hl (by simp)]
  · intro hall
    have hprofiles : ∀ p ∈ l.profiles, p.excluded = false := by
      intro p hp
      rcases h.mem_profiles_iff_node hl |>.mp hp with ⟨id, n, hn, rfl⟩
      exact hall id n hn
    rw [h'.size_nodes, h.size_nodes, h'.size_edges, h.size_edges]
    exact ⟨(hrestored.perm_keys hl hprofiles).length_eq,
      (hrestored.perm_calls hl hprofiles).length_eq⟩

/-- The records of a graph rebuild it, in any order.  The two kinds of stores are two such orders;
one on disk needs file names whose lengths can be written down. -/
theorem restores_loadAll (actions : List Action) {host : Host}
    (hhost : ∀ id n, (empty.applyAll actions).node id = .ok n → n.key.canonical host = n.key) :
    ∃ rs, (empty.applyAll actions).dumpAll = .ok rs ∧
      (∀ rs', rs'.Perm rs → ∃ g', empty.loadAll host rs' = .ok g' ∧
        (empty.applyAll actions).Restores g') ∧
      (∃ g', empty.loadAll host (Store.Memory.backend.filled rs).all = .ok g' ∧
        (empty.applyAll actions).Restores g') ∧
      ((empty.applyAll actions).edges.size < UInt32.size →
        (∀ id n s, (empty.applyAll actions).node id = .ok n → n.source = some s →
          (Text.Utf8.encode s.file).length < UInt64.size) →
        ∃ rs' g', (Store.Disk.backend.filled rs).all = .ok rs' ∧
          empty.loadAll host rs' = .ok g' ∧ (empty.applyAll actions).Restores g') := by
  have h := records_applyAll actions
  have hl := Ledger.consistent_empty.applyAll actions
  have hkeys : ∀ k ∈ (Ledger.applyAll {} actions).keys, k.canonical host = k := by
    intro k hk
    rcases h.mem_keys_iff_node.mp hk with ⟨id, n, hn, rfl⟩
    exact hhost id n hn
  have hany : ∀ rs', rs'.Perm (Ledger.applyAll {} actions).records →
      ∃ g', empty.loadAll host rs' = .ok g' ∧ (empty.applyAll actions).Restores g' := by
    intro rs' hperm
    rcases (records_fresh 0).loadAll_records Ledger.consistent_empty hl hkeys hperm with
      ⟨g', l', hg', h', hrestored⟩
    exact ⟨g', hg', restores_of_restored h hl h' hrestored⟩
  refine ⟨_, h.dumpAll hl, hany,
    hany _ (Store.Memory.perm_all_filled (Ledger.nodup_keys_records hl)), ?_⟩
  intro hedges hfiles
  have hcalls : (Ledger.applyAll {} actions).calls.length < UInt64.size := by
    rw [← h.size_edges]
    exact Nat.lt_trans hedges (by decide)
  have hfits : ∀ r ∈ (Ledger.applyAll {} actions).records, Store.Fits r := by
    intro r hr
    refine Ledger.fits_of_mem_records hcalls ?_ hr
    intro p hp s hs
    rcases (h.mem_profiles_iff_node hl).mp hp with ⟨id, n, hn, rfl⟩
    exact hfiles id n s hn hs
  rcases Store.Disk.perm_all_filled (Ledger.nodup_keys_records hl) hfits with ⟨rs', hall, hperm⟩
  rcases hany rs' hperm with ⟨g', hg', hrestores⟩
  exact ⟨rs', g', hall, hg', hrestores⟩

/-- A host with a class, a module and the proxy by which the class includes the module. -/
def kernelHost : Host :=
  (TypeTable.ofEntries
    [(⟨1⟩, .cls "App" none), (⟨4⟩, .mdl "Kernel"), (⟨5⟩, .proxy ⟨4⟩ none)] []).host

/-- A call from outside, a call of a native method through the proxy, a return, an exclusion. -/
def kernelActions : List Action :=
  [.enter kernelHost ⟨some ⟨1⟩, some ⟨10⟩, some "app.rb", 1, false⟩,
    .enter kernelHost ⟨some ⟨5⟩, some ⟨13⟩, none, 0, true⟩, .leave,
    .exclude kernelHost ⟨some ⟨5⟩, some ⟨12⟩⟩]

/-- The records of a small session rebuild it, from memory as well as from disk. -/
theorem restores_loadAll_kernelActions :
    ∃ rs, (empty.applyAll kernelActions).dumpAll = .ok rs ∧
      (∀ rs', rs'.Perm rs → ∃ g', empty.loadAll kernelHost rs' = .ok g' ∧
        (empty.applyAll kernelActions).Restores g') ∧
      (∃ g', empty.loadAll kernelHost (Store.Memory.backend.filled rs).all = .ok g' ∧
        (empty.applyAll kernelActions).Restores g') ∧
      ∃ rs' g', (Store.Disk.backend.filled rs).all = .ok rs' ∧
        empty.loadAll kernelHost rs' = .ok g' ∧ (empty.applyAll kernelActions).Restores g' := by
  have hmem : ∀ {id : NodeId} {n : Node}, (empty.applyAll kernelActions).node id = .ok n →
      n ∈ (empty.applyAll kernelActions).nodes.toList := by
    intro id n hn
    exact Array.mem_toList_iff.mpr (Array.mem_of_getElem? (node_eq_ok_iff.mp hn).2)
  have hcanonical : ∀ n ∈ (empty.applyAll kernelActions).nodes.toList,
      n.key.canonical kernelHost = n.key := by decide
  have hfiles : ∀ n ∈ (empty.applyAll kernelActions).nodes.toList, ∀ s, n.source = some s →
      (Text.Utf8.encode s.file).length < UInt64.size := by decide +kernel
  rcases restores_loadAll kernelActions fun _ n hn => hcanonical n (hmem hn) with
    ⟨rs, hdump, hany, hmemory, hdisk⟩
  exact ⟨rs, hdump, hany, hmemory, hdisk (by decide) fun _ n s hn => hfiles n (hmem hn) s⟩

end Graph

end CallGraph
