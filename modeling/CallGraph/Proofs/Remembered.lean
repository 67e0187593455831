import CallGraph.Proofs.EdgeIndex
import CallGraph.Proofs.Growth

/-!
# What nodes remember

A node remembers its canonical owner from the first time that it is asked for.  Nothing else touches
what is remembered: calls, returns, exclusions and loads leave it alone, and the nodes that they
make remember nothing yet.

Main results:

- Theorem `remembered_apply` says that no action but a question for an owner or a release changes
  what is remembered.
- Theorem `remembered_resolve` says what a question for an owner makes a node remember.
-/

namespace CallGraph

namespace Graph

/-- What the node at an index remembers of its canonical owner. -/
def remembered (g : Graph) (i : Nat) : Option Resolution := g.nodes[i]?.bind Node.resolution

/-! ## The operations -/

/-- A change of nodes that leaves what they remember alone changes nothing that is remembered. -/
theorem remembered_adjust {f : Node → Node} (hf : ∀ n, (f n).resolution = n.resolution) (g : Graph)
    (id : NodeId) : (g.adjust id f).remembered = g.remembered := by
  funext i
  simp only [remembered, adjust, Array.getElem?_modify]
  split
  · cases g.nodes[i]? <;> simp [hf]
  · rfl

/-- A node that remembers nothing adds nothing to what is remembered. -/
theorem remembered_addNode (g : Graph) {node : Node} (h : node.resolution = none) :
    (g.addNode node).1.remembered = g.remembered := by
  funext i
  rw [remembered, nodes_addNode, Array.getElem?_push]
  split
  · rename_i hi
    simp [remembered, hi, h]
  · rfl

/-- Interning changes nothing that is remembered. -/
theorem remembered_intern (g : Graph) (k : Key) (source : Option Source) :
    (g.intern k source).1.remembered = g.remembered := by
  unfold intern
  split
  · rfl
  · exact remembered_addNode g rfl

/-- A new edge leaves what a node remembers alone. -/
@[simp] theorem resolution_attach (id : EdgeId) (caller : Option Vertex) (callee : Vertex) (i : Nat)
    (n : Node) : (attach id caller callee i n).resolution = n.resolution := by
  unfold attach
  cases caller <;> grind

/-- An edge changes nothing that is remembered, whether it is there or new. -/
theorem remembered_link (g : Graph) (caller : Option Vertex) (callee : Vertex) :
    (g.link caller callee).1.remembered = g.remembered := by
  unfold link
  split
  · rfl
  · funext i
    rw [remembered, getElem?_nodes_addEdge]
    cases hn : g.nodes[i]? <;> simp [remembered, hn]

/-! ## The actions -/

/-- A call changes nothing that is remembered. -/
theorem remembered_enter (g : Graph) (host : Host) (o : Observation) :
    (g.enter host o).1.remembered = g.remembered := by
  have hmark : ((g.intern (o.key host) o.source).1.mark
      (g.intern (o.key host) o.source).2).remembered = g.remembered := by
    rw [mark, remembered_adjust, remembered_intern]
    exact fun _ => rfl
  exact (remembered_link _ _ _).trans hmark

/-- Neither does a return. -/
theorem remembered_leave (g : Graph) : g.leave.1.remembered = g.remembered := by
  unfold leave
  split <;> rfl

/-- Neither does an exclusion. -/
theorem remembered_exclude (g : Graph) (host : Host) (k : Key) :
    (g.exclude host k).1.remembered = g.remembered := by
  simp only [exclude_fst]
  rw [remembered_adjust, remembered_intern]
  exact fun _ => rfl

/-- A caller that is read from a record changes nothing that is remembered. -/
theorem remembered_absorbCaller (host : Host) (v : Vertex) (g : Graph) (c : CallRecord) :
    (absorbCaller host v g c).remembered = g.remembered := by
  unfold absorbCaller
  split
  · rw [remembered_link, remembered_intern]
  · rw [remembered_link, remembered_adjust]
    exact fun _ => rfl

/-- Neither does a callee. -/
theorem remembered_absorbCallee (host : Host) (v : Vertex) (g : Graph) (c : CallRecord) :
    (absorbCallee host v g c).remembered = g.remembered := by
  rw [absorbCallee, remembered_link, remembered_intern]

/-- Neither does a whole record. -/
theorem remembered_absorb (g : Graph) (host : Host) (r : Record) :
    (g.absorb host r).1.remembered = g.remembered := by
  rw [absorb, foldl_leaves remembered (remembered_absorbCallee host _),
    foldl_leaves remembered (remembered_absorbCaller host _), remembered_adjust,
    remembered_intern]
  exact fun _ => rfl

/-- Neither does a load, whether it is accepted or not. -/
theorem remembered_load (g : Graph) (host : Host) (r : Record) :
    (g.apply (.load host r)).remembered = g.remembered := by
  rw [apply_load]
  split
  · exact remembered_absorb g host r
  · rfl

/-- No action but a question for an owner or a release changes what is remembered. -/
theorem remembered_apply (g : Graph) {a : Action} (hrelease : a ≠ .release)
    (hresolve : ∀ host id, a ≠ .resolve host id) : (g.apply a).remembered = g.remembered := by
  cases a with
  | enter host o => exact remembered_enter g host o
  | leave => exact remembered_leave g
  | exclude host k => exact remembered_exclude g host k
  | load host r => exact remembered_load g host r
  | loadValue host v =>
    rw [apply_loadValue]
    cases recordOfJson v with
    | ok r => exact remembered_load g host r
    | error e => rfl
  | resolve host id => exact (hresolve host id rfl).elim
  | release => exact (hrelease rfl).elim

/-! ## Questions for owners -/

/-- The canonical owner of the node at an index as a host gives it now. -/
def resolvedAt (g : Graph) (host : Host) (i : Nat) : Option Resolution :=
  g.keys[i]?.map fun k => host.resolve k.owner

/-- A node that is asked remembers what the host gives, unless it remembers something already. -/
theorem remembered_adjust_remember (g : Graph) (host : Host) (id : NodeId) (i : Nat) :
    (g.adjust id fun n => n.remember host).remembered i =
      (g.remembered i).or (if id.index = i then g.resolvedAt host i else none) := by
  simp only [remembered, resolvedAt, adjust, getElem?_keys, Array.getElem?_modify]
  split
  · cases g.nodes[i]? with
    | none => rfl
    | some n => cases hn : n.resolution <;> simp [Node.remember, Node.resolve, hn]
  · simp

/-- Of nodes that are asked one after the other, each remembers what the host gives, unless it
remembers something already. -/
theorem remembered_foldl_remember (g : Graph) (host : Host) (ids : List NodeId) (i : Nat) :
    (ids.foldl (fun g id => g.adjust id fun n => n.remember host) g).remembered i =
      (g.remembered i).or
        (if i ∈ ids.map NodeId.index then g.resolvedAt host i else none) := by
  induction ids generalizing g with
  | nil => simp
  | cons id rest ih =>
    have hkeys : (g.adjust id fun n => n.remember host).resolvedAt host i =
        g.resolvedAt host i := by
      rw [resolvedAt, keys_adjust (keepsLinks_remember host), ← resolvedAt]
    have hmem : i ∈ (id :: rest).map NodeId.index ↔ id.index = i ∨ i ∈ rest.map NodeId.index := by
      rw [List.map_cons, List.mem_cons, eq_comm]
    rw [List.foldl_cons, ih, hkeys, remembered_adjust_remember, Option.or_assoc]
    -- Being asked twice is being asked once.
    by_cases hid : id.index = i <;> by_cases hrest : i ∈ rest.map NodeId.index <;>
      simp only [hmem, hid, hrest, or_true, or_false, if_true, if_false, Option.or_self,
        Option.or_none, Option.none_or]

/-- A question for an owner makes the node of its handle remember, if the handle is accepted. -/
theorem remembered_resolve (g : Graph) (host : Host) (id : NodeId) (i : Nat) :
    (g.apply (.resolve host id)).remembered i =
      (g.remembered i).or (if id = ⟨g.generation, i⟩ then g.resolvedAt host i else none) := by
  cases hnode : g.node id with
  | ok n =>
    have hindex : id = ⟨g.generation, i⟩ ↔ id.index = i :=
      ((has_of_node hnode).index_eq_iff (i := i)).symm
    simp only [apply_resolve_of_node hnode, remembered_adjust_remember, hindex]
  | error e =>
    have hnone : id = ⟨g.generation, i⟩ → g.resolvedAt host i = none := by
      rintro rfl
      cases hn : g.nodes[i]? with
      | none => simp [resolvedAt, getElem?_keys, hn]
      | some n =>
        rw [node_eq_ok_iff.mpr ⟨rfl, hn⟩] at hnode
        exact nomatch hnode
    rw [apply_resolve_of_error hnode]
    split
    · rw [hnone ‹_›, Option.or_none]
    · rw [Option.or_none]

end Graph

end CallGraph
