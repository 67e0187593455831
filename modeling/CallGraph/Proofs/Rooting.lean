import CallGraph.Proofs.FirstSource
import Mathlib.Data.List.DropRight
import Mathlib.Logic.Relation

/-!
# Where calls come from

The open calls form a path of the graph: the outermost one came by the edge from outside, and every
other one by the edge from the call below it.  A method that is called is therefore reached from a
root by edges that stay in the graph when the call returns.  A call of a method that is open closes
a cycle through the path, so the mark of a recursive method tells of a cycle, unless a record
brought it along.

Main results:

- Theorems `Ledger.chain_apply` and `Ledger.recursive_apply` say what an action does to the path of
  open calls and to the marks of recursive methods.
- Theorem `Ledger.anchored_applyAll` says where the calls of a history come from, told by keys.
- Theorem `rooted_applyAll` says the same of the graph after every history.
-/

namespace CallGraph

namespace Action

/-! ## Histories since the last release -/

/-- The actions since the last release. -/
def current (actions : List Action) : List Action := actions.rtakeWhile fun a => !a.isRelease

/-- An action after a history is one since the last release, unless it is a release itself. -/
theorem current_concat (actions : List Action) (a : Action) :
    current (actions ++ [a]) = if a.isRelease then [] else current actions ++ [a] := by
  cases h : a.isRelease <;> simp [current, h]

/-- Whether an action takes in a record that is marked as recursive. -/
def TakesRecursive : Action → Prop
  | .load host r => Graph.recordProblem host r = none ∧ r.recursive = true
  | .loadValue host v =>
    ∃ r, Graph.recordOfJson v = .ok r ∧ Graph.recordProblem host r = none ∧ r.recursive = true
  | _ => False

end Action

namespace Ledger

/-! ## Paths of recorded calls -/

/-- There is a call from one method to another. -/
def Leads (l : Ledger) (a b : Key) : Prop := ⟨some a, b⟩ ∈ l.calls

/-- Calls lead to a method from one that was called from outside. -/
def FromOutside (l : Ledger) (k : Key) : Prop :=
  ∃ r, ⟨none, r⟩ ∈ l.calls ∧ Relation.ReflTransGen l.Leads r k

/-- Methods of which each was called by the next one, and the last one from outside. -/
def Chain (l : Ledger) : List Key → Prop
  | [] => True
  | k :: below => ⟨below.head?, k⟩ ∈ l.calls ∧ l.Chain below

section Mono

variable {l l' : Ledger} (h : l.calls ⊆ l'.calls)

include h

/-- What leads on among some calls leads on among more. -/
theorem leads_le : l.Leads ≤ l'.Leads := fun _ _ hab => h hab

/-- What calls lead to from outside is led to by more of them. -/
theorem FromOutside.mono {k : Key} (hk : l.FromOutside k) : l'.FromOutside k := by
  obtain ⟨r, hr, hpath⟩ := hk
  exact ⟨r, h hr, Relation.ReflTransGen.mono (leads_le h) r k hpath⟩

/-- A chain of some calls is one of more. -/
theorem Chain.mono {ks : List Key} (hks : l.Chain ks) : l'.Chain ks := by
  induction ks with
  | nil => trivial
  | cons k below ih => exact ⟨h hks.1, ih hks.2⟩

end Mono

/-- What stands on a chain was reached from outside. -/
theorem Chain.fromOutside {l : Ledger} {ks : List Key} (h : l.Chain ks) {k : Key} (hk : k ∈ ks) :
    l.FromOutside k := by
  induction ks generalizing k with
  | nil => cases hk
  | cons k' below ih =>
    rcases List.mem_cons.mp hk with rfl | hk
    · cases below with
      | nil => exact ⟨k, h.1, .refl⟩
      | cons b rest =>
        obtain ⟨r, hr, hpath⟩ := ih h.2 List.mem_cons_self
        exact ⟨r, hr, hpath.tail h.1⟩
    · exact ih h.2 hk

/-- What stands on a chain leads to its head. -/
theorem Chain.leads_head {l : Ledger} {head k : Key} {below : List Key}
    (h : l.Chain (head :: below)) (hk : k ∈ head :: below) :
    Relation.ReflTransGen l.Leads k head := by
  induction below generalizing head with
  | nil =>
    rw [List.mem_singleton.mp hk]
  | cons b rest ih =>
    rcases List.mem_cons.mp hk with rfl | hk
    · exact .refl
    · exact (ih h.2 hk).tail h.1

/-! ## One action -/

section Step

variable {l : Ledger} {a : Action} (ha : a.isRelease = false)

/-- A load drops no call. -/
theorem calls_subset_load (l : Ledger) (host : Host) (r : Record) :
    l.calls ⊆ (l.load host r).calls := by
  intro c hc
  unfold load
  split
  · exact mem_calls_absorb.mpr (Or.inl hc)
  · exact hc

/-- A load leaves the open calls alone, whether it is accepted or not. -/
@[simp] theorem stack_load (l : Ledger) (host : Host) (r : Record) :
    (l.load host r).stack = l.stack := by
  unfold load
  split
  · exact stack_absorb l host r
  · rfl

include ha

/-- An action that is no release drops no call. -/
theorem calls_subset_apply : l.calls ⊆ (l.apply a).calls := by
  cases a with
  | enter host o => exact fun c hc => mem_calls_enter.mpr (Or.inl hc)
  | leave => exact List.Subset.refl _
  | exclude host k => simp [apply]
  | load host r => exact calls_subset_load l host r
  | loadValue host v =>
    simp only [apply]
    split
    · exact calls_subset_load l host _
    · exact List.Subset.refl _
  | resolve host id => exact List.Subset.refl _
  | release => simp [Action.isRelease] at ha

/-- The open calls stay a chain: a call goes on from the innermost one, and a return takes the
innermost one away. -/
theorem chain_apply (h : l.Chain l.stack) : (l.apply a).Chain (l.apply a).stack := by
  have hmono : (l.apply a).Chain l.stack := h.mono (calls_subset_apply ha)
  cases a with
  | enter host o =>
    simp only [apply, stack_enter]
    exact ⟨mem_calls_enter.mpr (Or.inr rfl), hmono⟩
  | leave =>
    simp only [apply, leave] at hmono ⊢
    cases hstack : l.stack with
    | nil => trivial
    | cons k below =>
      rw [hstack] at hmono
      exact hmono.2
  | exclude host k =>
    simp only [apply, stack_exclude]
    exact hmono
  | load host r =>
    simp only [apply, stack_load]
    exact hmono
  | loadValue host v =>
    have hstack : (l.apply (.loadValue host v)).stack = l.stack := by
      simp only [apply]
      split <;> simp
    rw [hstack]
    exact hmono
  | resolve host id => exact hmono
  | release => simp [Action.isRelease] at ha

omit ha in
/-- A load sets no mark of recursion, unless its record has one. -/
theorem recursive_load {host : Host} {r : Record} {k : Key}
    (hrecord : ¬ (Graph.recordProblem host r = none ∧ r.recursive = true))
    (h : ((l.load host r).profile k).recursive = true) : (l.profile k).recursive = true := by
  unfold load at h
  split at h
  · rename_i hproblem
    have hfalse : r.recursive = false := by
      rw [Bool.eq_false_iff]
      exact fun hr => hrecord ⟨hproblem, hr⟩
    rw [profile_absorb] at h
    split at h
    · simpa [Profile.called, Profile.told, hfalse] using h
    · exact h
  · exact h

/-- A method becomes recursive when it is called while it is open, or by a record that says so. -/
theorem recursive_apply {k : Key} (hrecord : ¬ a.TakesRecursive)
    (h : ((l.apply a).profile k).recursive = true) :
    (l.profile k).recursive = true ∨ a.Calls k ∧ k ∈ l.stack := by
  cases a with
  | enter host o =>
    simp only [apply, profile_enter] at h
    split at h
    · rename_i hkey
      split at h
      · simp only [Profile.called, Bool.or_eq_true, decide_eq_true_eq] at h
        exact h.imp_right fun hopen => ⟨hkey, hopen⟩
      · simp only [Profile.called, Bool.false_or, decide_eq_true_eq] at h
        exact Or.inr ⟨hkey, h⟩
    · exact Or.inl h
  | leave => exact Or.inl h
  | exclude host k' =>
    simp only [apply, profile_exclude] at h
    split at h <;> exact Or.inl h
  | load host r => exact Or.inl (recursive_load hrecord h)
  | loadValue host v =>
    simp only [apply] at h
    split at h
    · rename_i r hr
      exact Or.inl (recursive_load (fun hr' => hrecord ⟨r, hr, hr'⟩) h)
    · exact Or.inl h
  | resolve host id => exact Or.inl h
  | release => simp [Action.isRelease] at ha

end Step

/-! ## Histories -/

/-- What a ledger tells of where the calls of some actions came from. -/
structure Anchored (l : Ledger) (actions : List Action) : Prop where
  chain : l.Chain l.stack
  called : ∀ a ∈ actions, ∀ k, a.Calls k → l.FromOutside k
  recursive : (∀ a ∈ actions, ¬ a.TakesRecursive) → ∀ k, (l.profile k).recursive = true →
    Relation.TransGen l.Leads k k

/-- A call of a method that is open closes a cycle. -/
theorem Chain.cycle {l : Ledger} (h : l.Chain l.stack) {host : Host} {o : Observation}
    (hopen : o.key host ∈ l.stack) :
    Relation.TransGen (l.enter host o).Leads (o.key host) (o.key host) := by
  cases hstack : l.stack with
  | nil =>
    rw [hstack] at hopen
    cases hopen
  | cons head below =>
    rw [hstack] at h hopen
    have hpath : Relation.ReflTransGen (l.enter host o).Leads (o.key host) head :=
      Relation.ReflTransGen.mono (leads_le fun c hc => mem_calls_enter.mpr (Or.inl hc)) _ _
        (h.leads_head hopen)
    refine .tail' hpath (mem_calls_enter.mpr (Or.inr ?_))
    rw [hstack]
    rfl

/-- An action that is no release goes on from what is told of where the calls before it came
from. -/
theorem Anchored.apply {l : Ledger} {actions : List Action} (h : l.Anchored actions) {a : Action}
    (ha : a.isRelease = false) : (l.apply a).Anchored (actions ++ [a]) := by
  have hmono := calls_subset_apply (l := l) ha
  have hchain := chain_apply ha h.chain
  refine ⟨hchain, ?_, ?_⟩
  · intro b hb k hk
    rcases List.mem_append.mp hb with hb | hb
    · exact (h.called b hb k hk).mono hmono
    · rw [List.mem_singleton.mp hb] at hk
      cases a with
      | enter host o =>
        have heq : o.key host = k := hk
        subst heq
        exact hchain.fromOutside (by simp [Ledger.apply])
      | leave | exclude | load | loadValue | resolve | release => exact hk.elim
  · intro hrecords k hk
    have hrecord := hrecords a (List.mem_append_right _ List.mem_cons_self)
    -- Either the mark was there, with its cycle, or the action is a call that closes one.
    rcases recursive_apply ha hrecord hk with hk | ⟨hcalls, hopen⟩
    · have hcycle := h.recursive (fun b hb => hrecords b (List.mem_append_left _ hb)) k hk
      exact Relation.TransGen.mono (leads_le hmono) k k hcycle
    · cases a with
      | enter host o =>
        have heq : o.key host = k := hcalls
        subst heq
        exact h.chain.cycle hopen
      | leave | exclude | load | loadValue | resolve | release => exact hcalls.elim

/-- After every history the open calls are a chain, and what was called since the last release was
reached from outside. -/
theorem anchored_applyAll (actions : List Action) :
    (applyAll {} actions).Anchored (Action.current actions) := by
  have hfresh : Anchored {} [] := ⟨trivial, by simp, by simp [profile]⟩
  induction actions using List.reverseRecOn with
  | nil => exact hfresh
  | append_singleton before a ih =>
    rw [applyAll_concat, Action.current_concat]
    cases ha : a.isRelease with
    | false => exact ih.apply ha
    | true =>
      rw [Action.isRelease_iff.mp ha]
      exact hfresh

end Ledger

namespace Graph

/-! ## The path of open calls -/

/-- The outermost call of a path came from outside. -/
theorem Path.bottom {g : Graph} {frames : List Frame} (h : g.Path frames) {f : Frame}
    (hf : frames.getLast? = some f) : g.Has f.vertex ∧ g.Joins f.edge ⟨none, f.vertex.id⟩ := by
  induction h with
  | nil => cases hf
  | @cons f' rest vertex edge below ih =>
    cases rest with
    | nil =>
      simp only [List.getLast?_singleton, Option.some.injEq] at hf
      subst hf
      exact ⟨vertex, edge⟩
    | cons f'' rest =>
      rw [List.getLast?_cons_cons] at hf
      exact ih hf

/-- Every other call of a path came from the one below it. -/
theorem Path.above {g : Graph} {frames : List Frame} (h : g.Path frames) {i : Nat}
    {f below : Frame} (hf : frames[i]? = some f) (hbelow : frames[i + 1]? = some below) :
    g.Joins f.edge ⟨some below.vertex.id, f.vertex.id⟩ := by
  induction h generalizing i with
  | nil => simp at hf
  | @cons f' rest vertex edge _ ih =>
    cases i with
    | zero =>
      simp only [List.getElem?_cons_zero, Option.some.injEq] at hf
      subst hf
      rw [List.getElem?_cons_succ, ← List.head?_eq_getElem?] at hbelow
      rw [hbelow] at edge
      exact edge
    | succ i =>
      rw [List.getElem?_cons_succ] at hf hbelow
      exact ih hf hbelow

/-! ## Edges between nodes -/

/-- There is an edge from one node to another. -/
def Leads (g : Graph) (a b : NodeId) : Prop := ∃ e, g.edge e = .ok ⟨some a, b⟩

/-- The handle of a method, and any handle of one without a node. -/
def handleOf (g : Graph) (k : Key) : NodeId := (g.lookup k).getD default

section Handles

variable {g : Graph} {l : Ledger} (h : g.Records l)

include h

/-- The handle of a vertex is that of its key. -/
theorem Records.handleOf_of_has {v : Vertex} (hv : g.Has v) : g.handleOf v.key = v.id := by
  rw [handleOf, h.sound.lookup_eq_some_iff.mpr hv, Option.getD_some]

/-- A recorded call is an edge. -/
theorem Records.leads {a b : Key} (hab : l.Leads a b) : g.Leads (g.handleOf a) (g.handleOf b) := by
  obtain ⟨e, he⟩ := h.mem_calls_iff_callRecord.mp hab
  obtain ⟨caller, callee, hjoin, hcaller, hcallee, heq⟩ := h.sound.vertices_of_callRecord he
  simp only [CallRecord.mk.injEq] at heq
  obtain ⟨ha, rfl⟩ := heq
  obtain ⟨v, hv, rfl⟩ := Option.map_eq_some_iff.mp ha.symm
  subst hv
  rw [h.handleOf_of_has (hcaller v rfl), h.handleOf_of_has hcallee]
  exact ⟨e, joins_iff_edge.mp hjoin⟩

/-- A method that calls lead to from outside has a node that edges lead to from a root. -/
theorem Records.exists_root (hl : l.Consistent) {k : Key} (hk : l.FromOutside k) :
    ∃ r n, g.node r = .ok n ∧ n.root = true ∧ Relation.ReflTransGen g.Leads r (g.handleOf k) := by
  obtain ⟨k', hout, hpath⟩ := hk
  have hmem : k' ∈ l.keys := hl.callee _ hout
  obtain ⟨r, n, hn, rfl⟩ := h.mem_keys_iff_node.mp hmem
  have hroot : n.root = true := by
    have hprofile := (hl.root n.key).mpr hout
    rw [h.profile_eq hl hn] at hprofile
    exact hprofile
  have hpath' : Relation.ReflTransGen g.Leads (g.handleOf n.key) (g.handleOf k) :=
    hpath.lift g.handleOf fun _ _ => h.leads
  rw [h.handleOf_of_has (has_of_node hn)] at hpath'
  exact ⟨r, n, hn, hroot, hpath'⟩

end Handles

/-- Where the open calls and the called methods of a graph come from. -/
structure Rooted (g : Graph) (actions : List Action) : Prop where
  /-- The outermost open call came by the edge of its node from outside. -/
  bottom : ∀ f, g.stack.getLast? = some f → g.edge f.edge = .ok ⟨none, f.vertex.id⟩ ∧
    ∃ n, g.node f.vertex.id = .ok n ∧ n.rootEdge = some f.edge
  /-- Every other one came by the edge from the node of the call below it. -/
  above : ∀ i f below, g.stack[i]? = some f → g.stack[i + 1]? = some below →
    g.edge f.edge = .ok ⟨some below.vertex.id, f.vertex.id⟩
  /-- A method that was called is reached from a root. -/
  called : ∀ host o, .enter host o ∈ Action.current actions → ∃ id,
    g.lookup (o.key host) = some id ∧
      ∃ r n, g.node r = .ok n ∧ n.root = true ∧ Relation.ReflTransGen g.Leads r id
  /-- A recursive method lies on a cycle, unless a record has brought in the mark. -/
  recursive : (∀ a ∈ Action.current actions, ¬ a.TakesRecursive) → ∀ id n, g.node id = .ok n →
    n.recursive = true → Relation.TransGen g.Leads id id

/-- After every history the open calls are a path from outside, what was called since the last
release is reached from a root, and what is recursive lies on a cycle. -/
theorem rooted_applyAll (actions : List Action) :
    (empty.applyAll actions).Rooted actions := by
  have hrec := records_applyAll actions
  have hl := Ledger.consistent_empty.applyAll actions
  have hanchored := Ledger.anchored_applyAll actions
  refine ⟨?_, ?_, ?_, ?_⟩
  · intro f hf
    obtain ⟨hvertex, hjoin⟩ := hrec.sound.path.bottom hf
    obtain ⟨n, hn, -⟩ := has_iff_node.mp hvertex
    exact ⟨joins_iff_edge.mp hjoin, n, hn,
      ((hrec.sound.indexes_of_node hn).rootEdge f.edge).mpr hjoin⟩
  · intro i f below hf hbelow
    exact joins_iff_edge.mp (hrec.sound.path.above hf hbelow)
  · intro host o hmem
    have hout := hanchored.called _ hmem (o.key host) rfl
    have hkey : o.key host ∈ (Ledger.applyAll {} actions).keys := by
      obtain ⟨k', hk', hpath⟩ := hout
      cases hpath with
      | refl => exact hl.callee _ hk'
      | tail _ hlast => exact hl.callee _ hlast
    obtain ⟨id, n, hn, heq⟩ := hrec.mem_keys_iff_node.mp hkey
    -- A path of calls between keys is a path of edges between their handles.
    obtain ⟨r, nr, hr, hroot, hpath⟩ := hrec.exists_root hl hout
    rw [← heq, hrec.handleOf_of_has (has_of_node hn)] at hpath
    rw [← heq]
    exact ⟨id, hrec.sound.lookup_eq_some_iff.mpr (has_of_node hn), r, nr, hr, hroot, hpath⟩
  · intro hrecords id n hn hrecursive
    have hprofile : ((Ledger.applyAll {} actions).profile n.key).recursive = true := by
      rw [hrec.profile_eq hl hn]
      exact hrecursive
    have hcycle : Relation.TransGen (empty.applyAll actions).Leads
        ((empty.applyAll actions).handleOf n.key) ((empty.applyAll actions).handleOf n.key) :=
      (hanchored.recursive hrecords n.key hprofile).lift (empty.applyAll actions).handleOf
        fun _ _ => hrec.leads
    rw [hrec.handleOf_of_has (has_of_node hn)] at hcycle
    exact hcycle

end Graph

end CallGraph
