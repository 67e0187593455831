import CallGraph.Proofs.Growth
import CallGraph.Proofs.Transitions

/-!
# Replays as aggregations

What a replay of a fresh graph leaves behind can be told from the trace alone: its methods and
edges, their flags and sources, and how often each edge was entered and left.

Main results:

- Theorem `counted_run` says what a replay has counted for each edge.
- Theorem `aggregates_run` says that a replay of a fresh graph yields the aggregation of its trace.
-/

namespace CallGraph

namespace Replay

/-! ## Counting by first appearance -/

/-- The counts of the transition that was the `i`-th to appear among those entered. -/
def countsAt (entered ended : List CallRecord) (i : Nat) : Counts :=
  (entered.eraseDups[i]?).elim {} fun c => ⟨entered.count c, ended.count c⟩

/-- The counts of a call are the numbers of times that it was entered and ended. -/
theorem countsAt_of_getElem? {entered ended : List CallRecord} {i : Nat} {c : CallRecord}
    (h : entered.eraseDups[i]? = some c) :
    countsAt entered ended i = ⟨entered.count c, ended.count c⟩ := by
  simp [countsAt, h]

/-- A list without its later duplicates has no duplicates. -/
theorem nodup_eraseDups {α : Type} [DecidableEq α] (as : List α) : as.eraseDups.Nodup := by
  induction as using List.reverseRecOn with
  | nil => exact List.nodup_nil
  | append_singleton as a ih =>
    rw [eraseDups_concat]
    split
    · exact ih
    · rename_i h
      rw [← List.concat_eq_append]
      exact ih.concat fun ha => h (List.mem_eraseDups.mp ha)

/-- An entry stands at one place only. -/
theorem ne_of_getElem?_eraseDups {α : Type} [DecidableEq α] {as : List α} {i j : Nat} {a b : α}
    (hi : as.eraseDups[i]? = some a) (hj : as.eraseDups[j]? = some b) (hij : i ≠ j) : a ≠ b := by
  rintro rfl
  have hlt := (List.getElem?_eq_some_iff.mp hi).1
  exact hij ((List.getElem?_inj hlt (nodup_eraseDups as)).mp (hi.trans hj.symm))

/-- One more transition counts once more at its own place. -/
theorem countsAt_concat_entered {T P : List CallRecord} {c : CallRecord} {j : Nat}
    (hsub : ∀ t ∈ P, t ∈ T) (hj : (T ++ [c]).eraseDups[j]? = some c) (i : Nat) :
    countsAt (T ++ [c]) P i =
      if j = i then { countsAt T P j with calls := (countsAt T P j).calls + 1 }
      else countsAt T P i := by
  split
  · rename_i hji
    subst hji
    rw [countsAt_of_getElem? hj]
    by_cases hc : c ∈ T
    · rw [eraseDups_concat, if_pos hc] at hj
      simp [countsAt_of_getElem? hj]
    · -- The place of a transition that appears for the first time was empty.
      have hP : c ∉ P := fun h => hc (hsub c h)
      have hnone : T.eraseDups[j]? = none := by
        cases hold : T.eraseDups[j]? with
        | none => rfl
        | some c' =>
          rw [eraseDups_concat, if_neg hc, List.getElem?_append_left
            (List.getElem?_eq_some_iff.mp hold).1] at hj
          exact (hc (List.mem_eraseDups.mp (List.mem_of_getElem? hj))).elim
      simp [countsAt, hnone, List.count_eq_zero_of_not_mem hc,
        List.count_eq_zero_of_not_mem hP]
  · rename_i hji
    -- A transition that is new stands at the end, so the other places stay what they were.
    have hsame : (T ++ [c]).eraseDups[i]? = T.eraseDups[i]? := by
      by_cases hc : c ∈ T
      · rw [eraseDups_concat, if_pos hc]
      · have hlen : j = T.eraseDups.length := by
          have hlast : (T ++ [c]).eraseDups[T.eraseDups.length]? = some c := by
            rw [eraseDups_concat, if_neg hc]
            simp
          by_contra hne
          exact ne_of_getElem?_eraseDups hj hlast hne rfl
        rw [eraseDups_concat, if_neg hc, List.getElem?_append]
        split
        · rfl
        · rw [List.getElem?_eq_none (by simp; omega), List.getElem?_eq_none (by omega)]
    cases hi : T.eraseDups[i]? with
    | none => simp [countsAt, hsame, hi]
    | some c' =>
      have hne : c ≠ c' := ne_of_getElem?_eraseDups hj (hsame.trans hi) hji
      rw [countsAt_of_getElem? (hsame.trans hi), countsAt_of_getElem? hi]
      simp [List.count_append, hne]

/-- One more transition that ends counts once more at its own place. -/
theorem countsAt_concat_ended {T P : List CallRecord} {c : CallRecord} {j : Nat}
    (hj : T.eraseDups[j]? = some c) (i : Nat) :
    countsAt T (P ++ [c]) i =
      if j = i then { countsAt T P j with returns := (countsAt T P j).returns + 1 }
      else countsAt T P i := by
  split
  · rename_i hji
    subst hji
    rw [countsAt_of_getElem? hj, countsAt_of_getElem? hj]
    simp
  · rename_i hji
    cases hi : T.eraseDups[i]? with
    | none => simp [countsAt, hi]
    | some c' =>
      have hne : c ≠ c' := ne_of_getElem?_eraseDups hj hi hji
      rw [countsAt_of_getElem? hi, countsAt_of_getElem? hi]
      simp [List.count_append, hne]

/-! ## The open transitions -/

/-- Every transition of a stack leads from the method below it. -/
def Linked : List CallRecord → Prop
  | [] => True
  | t :: rest => t.caller = rest.head?.map CallRecord.callee ∧ Linked rest

/-- The calls that are open are linked, each to the one below it. -/
theorem linked_opened (host : Host) (events : List Event) : Linked (opened host [] events) := by
  induction events using List.reverseRecOn with
  | nil => trivial
  | append_singleton events e ih =>
    rw [opened_concat]
    cases e with
    | call o => exact ⟨rfl, ih⟩
    | leave =>
      cases hstack : opened host [] events with
      | nil => trivial
      | cons t rest =>
        rw [hstack] at ih
        exact ih.2

/-- The transitions of the open calls are the edges of the frames. -/
theorem call_of_frame {g : Graph} {host : Host} {events : List Event}
    (h : g.Records (aggregate host events)) {f : Frame} {below : List Frame}
    (hf : g.stack = f :: below) {t : CallRecord} {rest : List CallRecord}
    (ht : opened host [] events = t :: rest) :
    f.edge.generation = g.generation ∧
      (transitions host events).eraseDups[f.edge.index]? = some t := by
  have hlinked := linked_opened host events
  rw [ht] at hlinked
  rcases h.call_of_head hf with ⟨hgen, k, keys, hstack, hcall⟩
  simp only [aggregate, ht, List.map_cons, List.cons.injEq] at hstack
  rcases hstack with ⟨rfl, rfl⟩
  refine ⟨hgen, ?_⟩
  rw [List.head?_map, ← hlinked.1] at hcall
  exact hcall

/-! ## What a replay counts -/

/-- No event of a replay releases the graph. -/
@[simp] theorem generation_step (host : Host) (s : State) (e : Event) :
    (step host s e).graph.generation = s.graph.generation := by
  rw [graph_step]
  cases e with
  | call o => exact (Graph.extends_enter s.graph host o).generation
  | leave => exact (Graph.extends_leave s.graph).generation

/-- Each edge has the counts of its transition. -/
def Counted (host : Host) (events : List Event) (s : State) : Prop :=
  ∀ i, s.counter.counts ⟨s.graph.generation, i⟩ =
    countsAt (transitions host events) (returned host events) i

section Counting

variable {host : Host} {s : State} {events : List Event}
  (h : s.graph.Records (aggregate host events)) (hcounted : Counted host events s)

include h hcounted

/-- A call is counted for its edge and for no other. -/
theorem counted_call (o : Observation) :
    Counted host (events ++ [.call o]) (step host s (.call o)) := by
  have hnext := h.apply (action host (.call o))
  rw [← aggregate_concat] at hnext
  rcases Graph.stack_enter s.graph host o with ⟨f, hf, -, hedge⟩
  have hopened : opened host [] (events ++ [.call o]) =
      ⟨(opened host [] events).head?.map CallRecord.callee, o.key host⟩ ::
        opened host [] events := by
    rw [opened_concat]
    rfl
  -- The new frame came by the edge that stands at the place of the new transition.
  rcases call_of_frame hnext hf hopened with ⟨hgen, hplace⟩
  have hid : f.edge = ⟨s.graph.generation, f.edge.index⟩ := by
    rw [← hgen.trans (Graph.extends_enter s.graph host o).generation]
  have hcounter : (step host s (.call o)).counter = s.counter.entered f.edge := by
    rw [hedge]
    rfl
  have htransitions : transitions host (events ++ [.call o]) = transitions host events ++
      [⟨(opened host [] events).head?.map CallRecord.callee, o.key host⟩] :=
    transitions_concat events (.call o)
  have hreturned : returned host (events ++ [.call o]) = returned host events := by
    simp [returned_concat, ended]
  rw [htransitions] at hplace
  intro i
  rw [generation_step, hcounter, Counter.counts_entered, htransitions, hreturned,
    countsAt_concat_entered (returned_subset events) hplace, hid, hcounted, hcounted]
  simp

/-- A return is counted for the edge of the innermost call, or is unbalanced. -/
theorem counted_leave : Counted host (events ++ [.leave]) (step host s .leave) := by
  have htransitions : transitions host (events ++ [.leave]) = transitions host events := by
    simp [transitions_concat, entered]
  have hstack := congrArg Ledger.stack h.ledger_eq
  rw [Graph.stack_ledger] at hstack
  intro i
  rw [generation_step, htransitions]
  cases hf : s.graph.stack with
  | nil =>
    have hopened : opened host [] events = [] := by
      rw [hf] at hstack
      exact List.map_eq_nil_iff.mp hstack.symm
    have hreturned : returned host (events ++ [.leave]) = returned host events := by
      simp [returned_concat, ended, hopened]
    have hcounter : (step host s .leave).counter = s.counter := by
      simp [step, Graph.leave, hf]
    rw [hcounter, hcounted, hreturned]
  | cons f below =>
    cases hopened : opened host [] events with
    | nil => simp [aggregate, hf, hopened] at hstack
    | cons t rest =>
      rcases call_of_frame h hf hopened with ⟨hgen, hplace⟩
      have hid : f.edge = ⟨s.graph.generation, f.edge.index⟩ := by rw [← hgen]
      have hreturned : returned host (events ++ [.leave]) = returned host events ++ [t] := by
        simp [returned_concat, ended, hopened]
      have hcounter : (step host s .leave).counter = s.counter.left f.edge := by
        simp [step, Graph.leave, hf]
      rw [hcounter, Counter.counts_left, hreturned, countsAt_concat_ended hplace, hid, hcounted,
        hcounted]
      simp

end Counting

/-- A replay of a fresh graph has counted for each edge how often its transition was made and how
often it ended. -/
theorem counted_run (host : Host) (events : List Event) :
    Counted host events (run host {} events) := by
  induction events using List.reverseRecOn with
  | nil =>
    intro i
    rfl
  | append_singleton events e ih =>
    rw [run_append, run_cons, run_nil]
    cases e with
    | call o => exact counted_call (records_run host events) ih o
    | leave => exact counted_leave (records_run host events) ih

/-! ## The aggregation of a trace -/

/-- What a replay leaves behind is what the trace tells. -/
structure Aggregates (host : Host) (events : List Event) (s : State) : Prop where
  /-- The methods are those called, in the order of their first calls. -/
  nodes : s.graph.nodes.toList.map Node.key = (called host events).eraseDups
  /-- The edges are the transitions, in the order of their first appearances. -/
  edges : (List.range s.graph.edges.size).mapM
      (fun i => s.graph.callRecord ⟨s.graph.generation, i⟩) =
    .ok (transitions host events).eraseDups
  /-- An edge has the calls and the returns of its transition. -/
  counts : ∀ id c, s.graph.callRecord id = .ok c →
    s.counter.counts id = ⟨(transitions host events).count c, (returned host events).count c⟩
  /-- A root was called from outside any method. -/
  root : ∀ id n, s.graph.node id = .ok n →
    (n.root = true ↔ ⟨none, n.key⟩ ∈ transitions host events)
  /-- A recursive method was called while it was open. -/
  recursive : ∀ id n, s.graph.node id = .ok n →
    (n.recursive = true ↔ ∃ before o after, events = before ++ .call o :: after ∧
      o.key host = n.key ∧ n.key ∈ (opened host [] before).map CallRecord.callee)
  /-- A method has the source that its first call tells of. -/
  source : ∀ id n, s.graph.node id = .ok n → ∃ o, firstCall host events n.key = some o ∧
    n.source.map Source.file = (if o.native then none else o.file) ∧
      n.line = if o.native = true ∨ o.file = none then 0 else o.line

/-- A method was called again while it was open exactly if some event did so. -/
theorem mem_reentries_iff {host : Host} {events : List Event} {k : Key} :
    k ∈ reentries host events ↔ ∃ before o after, events = before ++ .call o :: after ∧
      o.key host = k ∧ k ∈ (opened host [] before).map CallRecord.callee := by
  constructor
  · intro h
    rcases mem_gather_iff.mp h with ⟨before, e, after, hsplit, he⟩
    cases e with
    | leave => simp [reentered] at he
    | call o =>
      simp only [reentered] at he
      split at he
      · rename_i hopen
        have hk := Option.some.inj he
        exact ⟨before, o, after, hsplit, hk, hk ▸ hopen⟩
      · simp at he
  · rintro ⟨before, o, after, hsplit, rfl, hopen⟩
    refine mem_gather_iff.mpr ⟨before, .call o, after, hsplit, ?_⟩
    simp only [reentered, if_pos hopen]

/-- A node of a replay says what the trace tells of its method. -/
theorem profile_of_node {g : Graph} {host : Host} {events : List Event}
    (h : g.Records (aggregate host events)) {id : NodeId} {n : Node} (hn : g.node id = .ok n) :
    n.key ∈ called host events ∧ n.profile = profileOf host events n.key := by
  have hmem : n.profile ∈ (aggregate host events).profiles := by
    rw [← h.ledger_eq]
    apply List.mem_map_of_mem
    exact Array.mem_toList_iff.mpr (Array.mem_of_getElem? (Graph.node_eq_ok_iff.mp hn).2)
  rcases List.mem_map.mp hmem with ⟨k, hk, hprofile⟩
  have hkey : k = n.key := congrArg Profile.key hprofile
  subst hkey
  exact ⟨List.mem_eraseDups.mp hk, hprofile.symm⟩

/-- The calls of a ledger are those of the edges, in the order of the arena. -/
theorem mapM_callRecord {g : Graph} (hg : g.Sound) :
    (List.range g.edges.size).mapM (fun i => g.callRecord ⟨g.generation, i⟩) =
      .ok g.ledger.calls := by
  have hlen : g.ledger.calls.length = g.edges.size := by simp [Graph.ledger]
  have hcall : ∀ i ∈ List.range g.edges.size,
      g.callRecord ⟨g.generation, i⟩ = .ok (g.ledger.calls.getD i default) := by
    intro i hi
    have hlt : i < g.ledger.calls.length := by
      rw [hlen]
      exact List.mem_range.mp hi
    rw [hg.callRecord_eq_ok_iff]
    exact ⟨rfl, by simp [hlt]⟩
  rw [Graph.mapM_eq_ok hcall, ← hlen]
  congr 1
  apply List.ext_getElem
  · simp
  · intro i _ hi
    simp [hi]

/-- A call tells of a place exactly if it is not native and has a file. -/
theorem source_eq (o : Observation) :
    o.source.map Source.file = (if o.native then none else o.file) ∧
      (o.source.map Source.line).getD 0 =
        if o.native = true ∨ o.file = none then 0 else o.line := by
  unfold Observation.source
  cases o.native <;> cases o.file <;> simp

/-- A replay of a fresh graph yields the aggregation of its trace. -/
theorem aggregates_run (host : Host) (events : List Event) :
    Aggregates host events (run host {} events) := by
  have h := records_run host events
  have hcalls : (run host {} events).graph.ledger.calls = (transitions host events).eraseDups :=
    congrArg Ledger.calls h.ledger_eq
  refine ⟨?_, ?_, ?_, ?_, ?_, ?_⟩
  · rw [← keys_aggregate, ← h.ledger_eq, Graph.keys_ledger]
    rfl
  · rw [← hcalls]
    exact mapM_callRecord h.sound
  · intro id c hc
    rcases h.sound.callRecord_eq_ok_iff.mp hc with ⟨hgen, hplace⟩
    rw [hcalls] at hplace
    have hcounts := counted_run host events id.index
    rw [← hgen, countsAt_of_getElem? hplace] at hcounts
    exact hcounts
  · intro id n hn
    have hroot : n.root = decide (⟨none, n.key⟩ ∈ transitions host events) :=
      congrArg Profile.root (profile_of_node h hn).2
    rw [hroot, decide_eq_true_iff]
  · intro id n hn
    have hrecursive : n.recursive = decide (n.key ∈ reentries host events) :=
      congrArg Profile.recursive (profile_of_node h hn).2
    rw [hrecursive, decide_eq_true_iff]
    exact mem_reentries_iff
  · intro id n hn
    rcases profile_of_node h hn with ⟨hcalled, hprofile⟩
    cases hfirst : firstCall host events n.key with
    | none => exact (firstCall_eq_none_iff.mp hfirst hcalled).elim
    | some o =>
      have hsource : n.source = o.source := by
        have hsource := congrArg Profile.source hprofile
        simpa [Node.profile, profileOf, hfirst] using hsource
      rw [Node.line, hsource]
      exact ⟨o, rfl, source_eq o⟩

end Replay

end CallGraph
