import CallGraph.Proofs.EdgeIndex
import CallGraph.Proofs.Growth
import CallGraph.Proofs.RoundTrip
import CallGraph.Proofs.Uptake

/-!
# What a graph keeps until it is released

Until it is released a graph loses nothing.  Its handles denote what they denoted, flags that are
set stay set, and no table lets go of an entry.  The one thing that may change is the source of a
method: a load that succeeds has the last word on it.

Main results:

- Theorem `loads_iff_tells` says which actions tell the source of a method.
- Theorem `Ledger.mem_keys_apply_iff` says which actions make the node of a method.
- Theorems `Ledger.keeps_apply` and `Ledger.source_apply` say what one action leaves of a method.
- Theorem `retains_applyAll` says what a history without a release leaves of everything.
-/

namespace CallGraph

/-! ## Actions that name a method -/

/-- The source that a record tells of a method, if it is one of this method and has no problem. -/
def Record.tells (r : Record) (host : Host) (k : Key) : Option (Option Source) :=
  if Graph.recordProblem host r = none ∧ r.key.canonical host = k then some (Graph.sourceOf r)
  else none

/-- The source that an action tells of a method.  Only loads tell one. -/
def Action.tells (k : Key) : Action → Option (Option Source)
  | .load host r => r.tells host k
  | .loadValue host v =>
    match Graph.recordOfJson v with
    | .ok r => r.tells host k
    | .error _ => none
  | _ => none

/-- Whether an action is a call of a method. -/
def Action.Calls (k : Key) : Action → Prop
  | .enter host o => o.key host = k
  | _ => False

/-- Whether an action makes room for a method without telling anything of it: an exclusion, or a
record without a problem in which the method is a peer. -/
def Action.Reserves (k : Key) : Action → Prop
  | .exclude host k' => k'.canonical host = k
  | .load host r => Graph.recordProblem host r = none ∧ r.Peer host k
  | .loadValue host v =>
    ∃ r, Graph.recordOfJson v = .ok r ∧ Graph.recordProblem host r = none ∧ r.Peer host k
  | _ => False

/-- The last source that a history tells of a method. -/
def Action.lastTold (k : Key) (actions : List Action) : Option (Option Source) :=
  (actions.filterMap (tells k)).getLast?

/-- A record tells a source if it has no problem, is one of the method, and has this source. -/
theorem Record.tells_eq_some_iff {r : Record} {host : Host} {k : Key} {s : Option Source} :
    r.tells host k = some s ↔
      Graph.recordProblem host r = none ∧ r.key.canonical host = k ∧ Graph.sourceOf r = s := by
  unfold tells
  split <;> simp_all

/-- What is told last is told by some action. -/
theorem Action.exists_of_lastTold {k : Key} {actions : List Action} {s : Option Source}
    (h : lastTold k actions = some s) : ∃ a ∈ actions, a.tells k = some s :=
  List.mem_filterMap.mp (List.mem_of_getLast? h)

/-- The first action of a history has its say if no later one has. -/
theorem Action.getD_lastTold_cons (k : Key) (a : Action) (rest : List Action)
    (s : Option Source) :
    (lastTold k (a :: rest)).getD s = (lastTold k rest).getD ((a.tells k).getD s) := by
  unfold lastTold
  rw [List.filterMap_cons]
  cases a.tells k with
  | none => rfl
  | some told => rw [List.getLast?_cons, Option.getD_some, Option.getD_some]

namespace Graph

/-- A load of a record of a method that succeeds, with the source that the record tells. -/
inductive Loads (g : Graph) (k : Key) (s : Option Source) : Action → Prop
  | load {host : Host} {r : Record} {out : Graph × NodeId} (ok : g.load host r = .ok out)
      (key : r.key.canonical host = k) (source : sourceOf r = s) : Loads g k s (.load host r)
  | loadValue {host : Host} {v : Json} {r : Record} {out : Graph × NodeId}
      (record : recordOfJson v = .ok r) (ok : g.loadValue host v = .ok out)
      (key : r.key.canonical host = k) (source : sourceOf r = s) : Loads g k s (.loadValue host v)

/-- The actions that tell the source of a method are the loads of its records that succeed,
whatever the graph. -/
theorem loads_iff_tells {g : Graph} {k : Key} {s : Option Source} {a : Action} :
    g.Loads k s a ↔ a.tells k = some s := by
  constructor
  · intro h
    cases h with
    | load ok key source =>
      exact Record.tells_eq_some_iff.mpr ⟨(load_eq_ok_iff.mp ok).1, key, source⟩
    | loadValue record ok key source =>
      simp only [loadValue, record] at ok
      simp only [Action.tells, record]
      exact Record.tells_eq_some_iff.mpr ⟨(load_eq_ok_iff.mp ok).1, key, source⟩
  · intro h
    cases a with
    | load host r =>
      obtain ⟨hproblem, key, source⟩ := Record.tells_eq_some_iff.mp h
      exact .load (load_of_problem_none hproblem) key source
    | loadValue host v =>
      simp only [Action.tells] at h
      cases hv : recordOfJson v with
      | error e => simp [hv] at h
      | ok r =>
        rw [hv] at h
        obtain ⟨hproblem, key, source⟩ := Record.tells_eq_some_iff.mp h
        have hload : g.loadValue host v = .ok (g.absorb host r) := by
          rw [loadValue, hv]
          exact load_of_problem_none hproblem
        exact .loadValue hv hload key source
    | enter | leave | exclude | resolve | release => simp [Action.tells] at h

end Graph

/-! ## One action on the ledger -/

/-- The flags of a method that are set stay set. -/
structure Profile.Kept (p p' : Profile) : Prop where
  root : p.root = true → p'.root = true
  recursive : p.recursive = true → p'.recursive = true
  excluded : p.excluded = true → p'.excluded = true

namespace Profile

/-- What stays as it is keeps its flags. -/
theorem Kept.refl (p : Profile) : p.Kept p := ⟨id, id, id⟩

/-- What is kept over two steps is kept over both together. -/
theorem Kept.trans {p p' p'' : Profile} (h : p.Kept p') (h' : p'.Kept p'') : p.Kept p'' :=
  ⟨h'.root ∘ h.root, h'.recursive ∘ h.recursive, h'.excluded ∘ h.excluded⟩

/-- A call keeps the flags of a method. -/
theorem kept_called (p : Profile) (outermost again : Bool) : p.Kept (p.called outermost again) :=
  ⟨fun h => by simp [called, h], fun h => by simp [called, h], id⟩

/-- A record keeps the flags of its method. -/
theorem kept_told (p : Profile) (r : Record) : p.Kept (p.told r) :=
  ⟨id, fun h => by simp [told, h], id⟩

/-- An exclusion keeps the flags of a method. -/
theorem kept_hidden (p : Profile) : p.Kept p.hidden := ⟨id, id, fun _ => rfl⟩

end Profile

namespace Ledger

/-- A load keeps the flags of every method, whether it is accepted or not. -/
theorem keeps_load (l : Ledger) (host : Host) (r : Record) (k : Key) :
    (l.profile k).Kept ((l.load host r).profile k) := by
  unfold load
  split
  · rw [profile_absorb]
    split
    · exact (Profile.kept_told _ r).trans (Profile.kept_called _ _ _)
    · exact .refl _
  · exact .refl _

/-- A load leaves the source of a method, unless it tells another one. -/
theorem source_load (l : Ledger) (host : Host) (r : Record) (k : Key) :
    ((l.load host r).profile k).source = (r.tells host k).getD (l.profile k).source := by
  unfold load Record.tells
  by_cases hproblem : Graph.recordProblem host r = none
  · rw [if_pos hproblem, profile_absorb]
    by_cases hkey : r.key.canonical host = k
    · simp [hproblem, hkey, Profile.called, Profile.told]
    · simp [hkey]
  · simp [hproblem]

/-- A method has a node after a record is taken in if it had one before, or if the record is one of
the method or has it as a peer. -/
theorem mem_keys_load {l : Ledger} {host : Host} {r : Record} {k : Key} :
    k ∈ (l.load host r).keys ↔
      k ∈ l.keys ∨ (r.tells host k).isSome ∨
        (Graph.recordProblem host r = none ∧ r.Peer host k) := by
  unfold load Record.tells
  by_cases h : Graph.recordProblem host r = none
  · rw [if_pos h, mem_keys_absorb]
    by_cases hk : r.key.canonical host = k
    · simp [h, hk]
    · simp [h, hk, Ne.symm hk, Record.Peer]
  · simp [h]

/-- A method has a node after an action if it had one before, or if the action calls it, tells of it
or reserves a node for it. -/
theorem mem_keys_apply_iff {l : Ledger} {a : Action} (ha : a.isRelease = false) {k : Key} :
    k ∈ (l.apply a).keys ↔ k ∈ l.keys ∨ a.Calls k ∨ (a.tells k).isSome ∨ a.Reserves k := by
  cases a with
  | enter host o =>
    simp [apply, mem_keys_enter, Action.Calls, Action.tells, Action.Reserves, eq_comm]
  | leave => simp [apply, leave, keys, Action.Calls, Action.tells, Action.Reserves]
  | exclude host k' =>
    simp [apply, mem_keys_exclude, Action.Calls, Action.tells, Action.Reserves, eq_comm]
  | load host r => simp [apply, mem_keys_load, Action.Calls, Action.tells, Action.Reserves]
  | loadValue host v =>
    simp only [apply, Action.Calls, Action.tells, Action.Reserves]
    cases Graph.recordOfJson v with
    | ok r => simp [mem_keys_load]
    | error e => simp
  | resolve host id => simp [apply, Action.Calls, Action.tells, Action.Reserves]
  | release => simp [Action.isRelease] at ha

variable {l : Ledger} {a : Action} (ha : a.isRelease = false) {k : Key}

include ha

/-- An action leaves the source of a method, unless it tells another one or is the call that makes
the node of the method. -/
theorem source_apply (hk : k ∈ l.keys ∨ ¬ a.Calls k) :
    ((l.apply a).profile k).source = (a.tells k).getD (l.profile k).source := by
  cases a with
  | enter host o =>
    rw [apply, profile_enter]
    by_cases hcall : o.key host = k
    · rw [if_pos hcall, if_pos (hk.resolve_right (not_not_intro hcall))]
      rfl
    · rw [if_neg hcall]
      rfl
  | leave => rfl
  | exclude host k' =>
    simp only [apply, profile_exclude]
    split <;> rfl
  | load host r => exact source_load l host r k
  | loadValue host v =>
    simp only [apply, Action.tells]
    cases Graph.recordOfJson v with
    | ok r => exact source_load l host r k
    | error e => rfl
  | resolve host id => rfl
  | release => simp [Action.isRelease] at ha

variable (hk : k ∈ l.keys)

include hk

/-- An action leaves the flags of a method that are set. -/
theorem keeps_apply : (l.profile k).Kept ((l.apply a).profile k) := by
  cases a with
  | enter host o =>
    simp only [apply, profile_enter, if_pos hk]
    split
    · exact Profile.kept_called _ _ _
    · exact .refl _
  | leave => exact .refl _
  | exclude host k' =>
    simp only [apply, profile_exclude]
    split
    · exact Profile.kept_hidden _
    · exact .refl _
  | load host r => exact keeps_load l host r k
  | loadValue host v =>
    simp only [apply]
    split
    · exact keeps_load l host _ k
    · exact .refl _
  | resolve host id => exact .refl _
  | release => simp [Action.isRelease] at ha

omit ha in
/-- A history without a release leaves the flags of a method that are set, and the source that it
told last. -/
theorem keeps_applyAll {actions : List Action} (hactions : .release ∉ actions) :
    (l.profile k).Kept ((l.applyAll actions).profile k) ∧
      ((l.applyAll actions).profile k).source =
        (Action.lastTold k actions).getD (l.profile k).source := by
  induction actions generalizing l with
  | nil => exact ⟨.refl _, rfl⟩
  | cons a rest ih =>
    have ha := Action.isRelease_of_not_mem hactions List.mem_cons_self
    have hrest : .release ∉ rest := fun hmem => hactions (List.mem_cons_of_mem a hmem)
    obtain ⟨hkept, hsource⟩ := ih ((mem_keys_apply_iff ha).mpr (Or.inl hk)) hrest
    refine ⟨(keeps_apply ha hk).trans hkept, ?_⟩
    rw [Action.getD_lastTold_cons, ← source_apply ha (Or.inl hk)]
    exact hsource

end Ledger

namespace Graph

/-! ## Histories of a graph -/

/-- What is left of a node: its key, the flags that are set, and every entry of its tables. -/
structure NodeKept (n n' : Node) : Prop where
  key : n'.key = n.key
  root : n.root = true → n'.root = true
  recursive : n.recursive = true → n'.recursive = true
  excluded : n.excluded = true → n'.excluded = true
  callers : ∀ k e, n.callers.lookup k = some e → n'.callers.lookup k = some e
  callees : ∀ k e, n.callees.lookup k = some e → n'.callees.lookup k = some e
  rootEdge : ∀ e, n.rootEdge = some e → n'.rootEdge = some e

/-- What a graph keeps while it goes through some actions. -/
structure Retains (g : Graph) (actions : List Action) : Prop where
  /-- A node handle denotes the node that it denoted. -/
  node : ∀ id n, g.node id = .ok n → ∃ n', (g.applyAll actions).node id = .ok n' ∧ NodeKept n n'
  /-- An edge handle denotes an edge with the ends that it had. -/
  edge : ∀ id e, g.edge id = .ok e → (g.applyAll actions).edge id = .ok e
  /-- A method that has a node keeps it. -/
  registry : ∀ k id, g.lookup k = some id → (g.applyAll actions).lookup k = some id
  /-- A method has the source that was told last, or the one that it had. -/
  source : ∀ id n n', g.node id = .ok n → (g.applyAll actions).node id = .ok n' →
    n'.source = (Action.lastTold n.key actions).getD n.source
  /-- A source that has changed was told by a load of a record of the method that succeeded. -/
  loaded : ∀ id n n', g.node id = .ok n → (g.applyAll actions).node id = .ok n' →
    n'.source ≠ n.source → ∃ first a rest, actions = first ++ a :: rest ∧
      (g.applyAll first).Loads n.key n'.source a

/-- Tables that hold exactly the edges of a sound graph keep what they hold while it grows. -/
theorem Indexes.mono {g g' : Graph} {id : NodeId} {n n' : Node} (h : g.Indexes id n)
    (h' : g'.Indexes id n') (hext : g.Extends g') :
    (∀ k e, n.callers.lookup k = some e → n'.callers.lookup k = some e) ∧
      (∀ k e, n.callees.lookup k = some e → n'.callees.lookup k = some e) ∧
        ∀ e, n.rootEdge = some e → n'.rootEdge = some e := by
  refine ⟨?_, ?_, ?_⟩
  · intro k e he
    obtain ⟨c, hc, hjoin⟩ := (h.callers k e).mp he
    exact (h'.callers k e).mpr ⟨c, hc.mono hext, hjoin.mono hext⟩
  · intro k e he
    obtain ⟨b, hb, hjoin⟩ := (h.callees k e).mp he
    exact (h'.callees k e).mpr ⟨b, hb.mono hext, hjoin.mono hext⟩
  · intro e he
    exact (h'.rootEdge e).mpr (((h.rootEdge e).mp he).mono hext)

/-- Nothing that a graph has recorded is lost before it is released, and no source changes but by a
load of a record of its method that succeeds. -/
theorem retains_applyAll (before : List Action) {later : List Action} (h : .release ∉ later) :
    (empty.applyAll before).Retains later := by
  have hrec := records_applyAll before
  have hl := Ledger.consistent_empty.applyAll before
  have hrec' := hrec.applyAll later
  have hl' := hl.applyAll later
  have hext := extends_applyAll (empty.applyAll before) h
  generalize empty.applyAll before = g at *
  generalize Ledger.applyAll {} before = l at *
  have hkey : ∀ {id n n'}, g.node id = .ok n → (g.applyAll later).node id = .ok n' →
      n'.key = n.key :=
    fun hn hn' => (has_of_node hn').key_unique ((has_of_node hn).mono hext)
  -- The ledger says what becomes of a method, and the node of the method says the same.
  have hkept : ∀ {id n n'}, g.node id = .ok n → (g.applyAll later).node id = .ok n' →
      n.profile.Kept n'.profile ∧
        n'.source = (Action.lastTold n.key later).getD n.source := by
    intro id n n' hn hn'
    have hmem : n.key ∈ l.keys := hrec.mem_keys_iff.mpr (has_of_node hn).mem_keys
    have hrun := Ledger.keeps_applyAll hmem h
    have hprofile' : (l.applyAll later).profile n.key = n'.profile := by
      rw [← hkey hn hn']
      exact hrec'.profile_eq hl' hn'
    rw [hrec.profile_eq hl hn, hprofile'] at hrun
    exact hrun
  refine ⟨?_, ?_, ?_, fun id n n' hn hn' => (hkept hn hn').2, ?_⟩
  · intro id n hn
    obtain ⟨n', hn', -⟩ := has_iff_node.mp ((has_of_node hn).mono hext)
    obtain ⟨hflags, -⟩ := hkept hn hn'
    obtain ⟨hcallers, hcallees, hroot⟩ :=
      (hrec.sound.indexes_of_node hn).mono (hrec'.sound.indexes_of_node hn') hext
    exact ⟨n', hn', hkey hn hn', hflags.root, hflags.recursive, hflags.excluded, hcallers, hcallees,
      hroot⟩
  · intro id e he
    exact joins_iff_edge.mp ((joins_iff_edge.mpr he).mono hext)
  · intro k id hid
    exact (hrec'.sound.registry k id).mpr (((hrec.sound.registry k id).mp hid).mono hext)
  · intro id n n' hn hn' hne
    have hsource := (hkept hn hn').2
    cases htold : Action.lastTold n.key later with
    | none =>
      rw [htold] at hsource
      exact absurd hsource hne
    | some s =>
      rw [htold, Option.getD_some] at hsource
      -- What tells a source last is a load, and it succeeds whatever the graph is by then.
      obtain ⟨a, ha, htells⟩ := Action.exists_of_lastTold htold
      obtain ⟨first, rest, hsplit⟩ := List.append_of_mem ha
      rw [hsource]
      exact ⟨first, a, rest, hsplit, loads_iff_tells.mpr htells⟩

/-- A return, a load of a record with another source, and a load that fails. -/
def kernelLater : List Action :=
  [.leave, .load kernelHost ⟨⟨some ⟨1⟩, some ⟨10⟩⟩, false, some "main.rb", 7, [], []⟩,
    .loadValue kernelHost .null]

/-- The method that was called from outside has another source after the load. -/
theorem retains_applyAll_kernelLater :
    .release ∉ kernelLater ∧ (empty.applyAll kernelActions).Retains kernelLater ∧
      ((empty.applyAll kernelActions).nodes[0]?.map Node.source) = some (some ⟨"app.rb", 1⟩) ∧
      (((empty.applyAll kernelActions).applyAll kernelLater).nodes[0]?.map Node.source) =
        some (some ⟨"main.rb", 7⟩) := by
  have h : .release ∉ kernelLater := by simp [kernelLater]
  exact ⟨h, retains_applyAll kernelActions h, by decide, by decide⟩

end Graph

end CallGraph
