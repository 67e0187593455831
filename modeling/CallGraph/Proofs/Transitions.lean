import CallGraph.Proofs.Absorb
import CallGraph.Replay
import Mathlib.Data.List.Induction

/-!
# What a trace tells

A list of events can be read without a graph.  A call leads from the method on top of a stack to its
own, which is then on top; a return takes the top away.  What is on the stack are the transitions by
which the open calls were entered.  Everything that a replay records is gathered from the events and
the transitions that are open before each.

Main results:

- Theorem `mem_gather_iff` says what is gathered from a trace.
- Theorem `aggregate_concat` says that an event adds to what a trace tells what the same event
  adds to a ledger.
- Theorem `records_run` says that a replay of a fresh graph records what the trace tells.
-/

namespace CallGraph

namespace Replay

/-! ## Reading a trace -/

section Reading

variable (host : Host)

/-- The transition that an event makes, with the transitions that are open before it. -/
def entered (stack : List CallRecord) : Event → Option CallRecord
  | .call o => some ⟨stack.head?.map CallRecord.callee, o.key host⟩
  | .leave => none

/-- The transition that an event ends. -/
def ended (stack : List CallRecord) : Event → Option CallRecord
  | .call _ => none
  | .leave => stack.head?

/-- The method that an event calls while it is open. -/
def reentered (stack : List CallRecord) : Event → Option Key
  | .call o => if o.key host ∈ stack.map CallRecord.callee then some (o.key host) else none
  | .leave => none

/-- The transitions that are open after an event, innermost first. -/
def openAfter (stack : List CallRecord) (e : Event) : List CallRecord :=
  match e with
  | .call _ => (entered host stack e).toList ++ stack
  | .leave => stack.tail

/-- The transitions that are open after a list of events. -/
def opened (stack : List CallRecord) (events : List Event) : List CallRecord :=
  events.foldl (openAfter host) stack

/-- What the events of a list yield, each with the transitions that are open before it. -/
def gather {α : Type} (f : List CallRecord → Event → Option α) :
    List CallRecord → List Event → List α
  | _, [] => []
  | stack, e :: rest => (f stack e).toList ++ gather f (openAfter host stack e) rest

/-- The transitions of a trace. -/
def transitions (events : List Event) : List CallRecord := gather host (entered host) [] events

/-- The transitions of a trace that end before it does. -/
def returned (events : List Event) : List CallRecord := gather host ended [] events

/-- The methods of a trace that are called while they are open. -/
def reentries (events : List Event) : List Key := gather host (reentered host) [] events

/-- The calls of a trace. -/
def observations (events : List Event) : List Observation := events.filterMap Event.observation

/-- The methods that are called in a trace. -/
def called (events : List Event) : List Key := (observations events).map fun o => o.key host

/-- The first call of a method. -/
def firstCall (events : List Event) (k : Key) : Option Observation :=
  (observations events).find? fun o => o.key host = k

/-- What a trace tells of a method. -/
def profileOf (events : List Event) (k : Key) : Profile where
  key := k
  source := (firstCall host events k).bind Observation.source
  root := decide (⟨none, k⟩ ∈ transitions host events)
  recursive := decide (k ∈ reentries host events)

/-- What a trace tells. -/
def aggregate (events : List Event) : Ledger where
  profiles := (called host events).eraseDups.map (profileOf host events)
  calls := (transitions host events).eraseDups
  stack := (opened host [] events).map CallRecord.callee

end Reading

/-! ## One more event -/

variable {host : Host}

/-- One more event acts on the transitions that the others left open. -/
theorem opened_concat (stack : List CallRecord) (events : List Event) (e : Event) :
    opened host stack (events ++ [e]) = openAfter host (opened host stack events) e := by
  simp [opened]

/-- One more event yields what it yields with the transitions that are open before it. -/
theorem gather_concat {α : Type} (f : List CallRecord → Event → Option α)
    (stack : List CallRecord) (events : List Event) (e : Event) :
    gather host f stack (events ++ [e]) =
      gather host f stack events ++ (f (opened host stack events) e).toList := by
  induction events generalizing stack with
  | nil => simp [gather, opened]
  | cons e' rest ih =>
    simp only [List.cons_append, gather, ih, List.append_assoc]
    rfl

/-- What is gathered are the yields of the events. -/
theorem mem_gather_iff {α : Type} {f : List CallRecord → Event → Option α} {events : List Event}
    {stack : List CallRecord} {a : α} :
    a ∈ gather host f stack events ↔ ∃ before e after,
      events = before ++ e :: after ∧ f (opened host stack before) e = some a := by
  induction events generalizing stack with
  | nil => simp [gather]
  | cons e rest ih =>
    simp only [gather, List.mem_append, Option.mem_toList, ih]
    constructor
    · rintro (h | ⟨before, e', after, rfl, h⟩)
      · exact ⟨[], e, rest, rfl, h⟩
      · exact ⟨e :: before, e', after, rfl, h⟩
    · rintro ⟨before, e', after, hsplit, h⟩
      cases before with
      | nil =>
        rcases List.cons.inj hsplit with ⟨rfl, rfl⟩
        exact Or.inl h
      | cons first before =>
        rcases List.cons.inj hsplit with ⟨rfl, rfl⟩
        exact Or.inr ⟨before, e', after, rfl, h⟩

/-- One more event adds the transition that it makes. -/
theorem transitions_concat (events : List Event) (e : Event) :
    transitions host (events ++ [e]) =
      transitions host events ++ (entered host (opened host [] events) e).toList :=
  gather_concat _ _ _ _

/-- One more event adds the transition that it ends. -/
theorem returned_concat (events : List Event) (e : Event) :
    returned host (events ++ [e]) =
      returned host events ++ (ended (opened host [] events) e).toList :=
  gather_concat _ _ _ _

/-- One more event adds the method that it calls while it is open. -/
theorem reentries_concat (events : List Event) (e : Event) :
    reentries host (events ++ [e]) =
      reentries host events ++ (reentered host (opened host [] events) e).toList :=
  gather_concat _ _ _ _

/-- One more event adds its observation if it is a call. -/
theorem observations_concat (events : List Event) (e : Event) :
    observations (events ++ [e]) = observations events ++ e.observation.toList := by
  cases e <;> simp [observations, Event.observation]

/-- One more event adds the method that it calls. -/
theorem called_concat (events : List Event) (e : Event) :
    called host (events ++ [e]) =
      called host events ++ (e.observation.map fun o => o.key host).toList := by
  rw [called, observations_concat, List.map_append]
  cases e <;> rfl

/-- One more call is the first one of its method if there was none before. -/
theorem firstCall_call (events : List Event) (o : Observation) (k : Key) :
    firstCall host (events ++ [.call o]) k =
      (firstCall host events k).or (if o.key host = k then some o else none) := by
  rw [firstCall, observations_concat, List.find?_append]
  by_cases h : o.key host = k <;> simp [firstCall, Event.observation, h]

/-- A method is called exactly if a transition leads to it. -/
theorem map_callee_transitions (events : List Event) :
    (transitions host events).map CallRecord.callee = called host events := by
  induction events using List.reverseRecOn with
  | nil => rfl
  | append_singleton events e ih =>
    rw [transitions_concat, called_concat, List.map_append, ih]
    cases e <;> rfl

/-- A method is called exactly if the trace has a call of it. -/
theorem mem_called_iff {events : List Event} {k : Key} :
    k ∈ called host events ↔ ∃ o, .call o ∈ events ∧ o.key host = k := by
  simp only [called, observations, List.mem_map, List.mem_filterMap]
  constructor
  · rintro ⟨o, ⟨e, he, ho⟩, hk⟩
    cases e with
    | call o' => exact ⟨o, Option.some.inj ho ▸ he, hk⟩
    | leave => simp [Event.observation] at ho
  · rintro ⟨o, he, hk⟩
    exact ⟨o, ⟨.call o, he, rfl⟩, hk⟩

/-- What is called while it is open is called. -/
theorem reentries_subset (events : List Event) :
    ∀ k ∈ reentries host events, k ∈ called host events := by
  intro k hk
  rcases mem_gather_iff.mp hk with ⟨before, e, after, rfl, he⟩
  cases e with
  | leave => simp [reentered] at he
  | call o =>
    simp only [reentered] at he
    split at he
    · exact mem_called_iff.mpr ⟨o, by simp, Option.some.inj he⟩
    · simp at he

/-- What is open was entered before. -/
theorem opened_subset (events : List Event) :
    ∀ t ∈ opened host [] events, t ∈ transitions host events := by
  induction events using List.reverseRecOn with
  | nil => simp [opened]
  | append_singleton events e ih =>
    intro t ht
    rw [opened_concat] at ht
    rw [transitions_concat, List.mem_append]
    cases e with
    | call o =>
      rcases List.mem_append.mp ht with ht | ht
      · exact Or.inr ht
      · exact Or.inl (ih t ht)
    | leave => exact Or.inl (ih t (List.mem_of_mem_tail ht))

/-- What has ended was entered before. -/
theorem returned_subset (events : List Event) :
    ∀ t ∈ returned host events, t ∈ transitions host events := by
  induction events using List.reverseRecOn with
  | nil => simp [returned, gather]
  | append_singleton events e ih =>
    intro t ht
    rw [returned_concat, List.mem_append] at ht
    rw [transitions_concat, List.mem_append]
    rcases ht with ht | ht
    · exact Or.inl (ih t ht)
    · cases e with
      | call o => simp [ended] at ht
      | leave =>
        rw [Option.mem_toList] at ht
        exact Or.inl (opened_subset events t (List.mem_of_head? ht))

/-! ## The ledger of a trace -/

/-- One more entry is appended if it is new. -/
theorem eraseDups_concat {α : Type} [DecidableEq α] (as : List α) (a : α) :
    (as ++ [a]).eraseDups = if a ∈ as then as.eraseDups else as.eraseDups ++ [a] := by
  rw [List.eraseDups_append, List.cons_removeAll]
  by_cases h : a ∈ as <;> simp [h, List.eraseDups_cons]

/-- The methods that a trace tells of are those that it calls, in order of first appearance. -/
@[simp] theorem keys_aggregate (events : List Event) :
    (aggregate host events).keys = (called host events).eraseDups := by
  simp [aggregate, Ledger.keys, profileOf, Function.comp_def]

/-- A call adds to what a trace tells of its method and to that of no other one. -/
theorem profileOf_call (events : List Event) (o : Observation) (k : Key) :
    profileOf host (events ++ [.call o]) k =
      if o.key host = k then
        ({ profileOf host events k with
            source := ((firstCall host events k).or (some o)).bind Observation.source } :
          Profile).called (opened host [] events).isEmpty
            (decide (k ∈ (opened host [] events).map CallRecord.callee))
      else profileOf host events k := by
  by_cases h : o.key host = k
  · subst h
    have hroot : (⟨none, o.key host⟩ : CallRecord) ∈ transitions host (events ++ [.call o]) ↔
        ⟨none, o.key host⟩ ∈ transitions host events ∨ opened host [] events = [] := by
      rw [transitions_concat, List.mem_append]
      refine or_congr_right ?_
      cases opened host [] events <;> simp [entered]
    have hagain : o.key host ∈ reentries host (events ++ [.call o]) ↔
        o.key host ∈ reentries host events ∨
          o.key host ∈ (opened host [] events).map CallRecord.callee := by
      rw [reentries_concat, List.mem_append]
      refine or_congr_right ?_
      simp [reentered]
    have hempty : decide (opened host [] events = []) = (opened host [] events).isEmpty := by
      cases opened host [] events <;> rfl
    simp [profileOf, Profile.called, firstCall_call, hroot, hagain, hempty]
  · have hne : ¬ k = o.key host := fun hk => h hk.symm
    have hroot : (⟨none, k⟩ : CallRecord) ∈ transitions host (events ++ [.call o]) ↔
        ⟨none, k⟩ ∈ transitions host events := by
      simp [transitions_concat, entered, hne]
    have hagain : k ∈ reentries host (events ++ [.call o]) ↔ k ∈ reentries host events := by
      rw [reentries_concat, List.mem_append, reentered]
      split <;> simp [hne]
    simp [profileOf, firstCall_call, h, hroot, hagain]

/-- A method that was not called has no first call. -/
theorem firstCall_eq_none_iff {events : List Event} {k : Key} :
    firstCall host events k = none ↔ k ∉ called host events := by
  simp [firstCall, called]

/-- A method that was called before keeps its source, and a call is told of its own method only. -/
theorem profileOf_call_of_mem {events : List Event} (o : Observation) {k : Key}
    (hk : k ∈ called host events) :
    profileOf host (events ++ [.call o]) k =
      if (profileOf host events k).key = o.key host then
        (profileOf host events k).called (opened host [] events).isEmpty
          (decide (o.key host ∈ (opened host [] events).map CallRecord.callee))
      else profileOf host events k := by
  have hkey : (profileOf host events k).key = k := rfl
  rw [profileOf_call, hkey]
  by_cases h : o.key host = k
  · subst h
    cases hfirst : firstCall host events (o.key host) with
    | none => exact (firstCall_eq_none_iff.mp hfirst hk).elim
    | some first => simp [profileOf, hfirst]
  · have hne : ¬ k = o.key host := fun hk => h hk.symm
    simp [h, hne]

/-- Of a method that is called for the first time nothing was known before. -/
theorem profileOf_call_of_not_mem {events : List Event} {o : Observation}
    (hk : o.key host ∉ called host events) :
    profileOf host (events ++ [.call o]) (o.key host) =
      ({ key := o.key host, source := o.source } : Profile).called
        (opened host [] events).isEmpty
        (decide (o.key host ∈ (opened host [] events).map CallRecord.callee)) := by
  have hroot : (⟨none, o.key host⟩ : CallRecord) ∉ transitions host events := by
    intro h
    rw [← map_callee_transitions] at hk
    exact hk (List.mem_map_of_mem h)
  have hagain : o.key host ∉ reentries host events := fun h => hk (reentries_subset events _ h)
  rw [profileOf_call, if_pos rfl, firstCall_eq_none_iff.mpr hk]
  simp [profileOf, hroot, hagain]

/-- A call adds to the methods that a trace tells of what it adds to those of a ledger. -/
theorem profiles_aggregate_call (events : List Event) (o : Observation) :
    (aggregate host (events ++ [.call o])).profiles =
      (((aggregate host events).intern (o.key host) o.source).mark (o.key host)).profiles := by
  have hmem : o.key host ∈ (aggregate host events).keys ↔ o.key host ∈ called host events := by
    rw [keys_aggregate, List.mem_eraseDups]
  have hempty : (aggregate host events).stack.isEmpty = (opened host [] events).isEmpty := by
    simp [aggregate]
  have hprofiles : (aggregate host (events ++ [.call o])).profiles =
      (called host events ++ [o.key host]).eraseDups.map
        (profileOf host (events ++ [.call o])) := by
    have hcalled : called host (events ++ [.call o]) = called host events ++ [o.key host] := by
      rw [called_concat]
      rfl
    rw [← hcalled]
    rfl
  have hmark : ∀ profiles : List Profile,
      (({ aggregate host events with profiles := profiles } : Ledger).mark (o.key host)).profiles =
        profiles.map fun p => if p.key = o.key host then
          p.called (opened host [] events).isEmpty
            (decide (o.key host ∈ (opened host [] events).map CallRecord.callee)) else p := by
    intro profiles
    rw [← hempty]
    rfl
  have hold : ((called host events).eraseDups.map (profileOf host events)).map (fun p =>
      if p.key = o.key host then
        p.called (opened host [] events).isEmpty
          (decide (o.key host ∈ (opened host [] events).map CallRecord.callee)) else p) =
      (called host events).eraseDups.map (profileOf host (events ++ [.call o])) := by
    rw [List.map_map]
    apply List.map_congr_left
    intro k hk
    exact (profileOf_call_of_mem o (List.mem_eraseDups.mp hk)).symm
  -- A method that was called before is changed in place, and a new one comes at the end.
  rw [hprofiles, eraseDups_concat]
  by_cases hk : o.key host ∈ called host events
  · have hintern : (aggregate host events).intern (o.key host) o.source =
        { aggregate host events with profiles := (aggregate host events).profiles } := by
      rw [Ledger.intern, if_pos (hmem.mpr hk)]
    rw [if_pos hk, hintern, hmark]
    exact hold.symm
  · have hintern : (aggregate host events).intern (o.key host) o.source =
        { aggregate host events with
          profiles := (aggregate host events).profiles ++
            [{ key := o.key host, source := o.source }] } := by
      rw [Ledger.intern, if_neg (fun h => hk (hmem.mp h))]
    rw [if_neg hk, hintern, hmark, List.map_append, List.map_append, List.map_singleton,
      List.map_singleton, profileOf_call_of_not_mem hk]
    simp only [if_true]
    rw [← hold]
    rfl

/-- A call adds to what a trace tells what it adds to a ledger. -/
theorem aggregate_call (events : List Event) (o : Observation) :
    aggregate host (events ++ [.call o]) = (aggregate host events).enter host o := by
  have hcaller : (aggregate host events).stack.head? =
      (opened host [] events).head?.map CallRecord.callee := by
    simp [aggregate]
  have hcalls : (aggregate host (events ++ [.call o])).calls =
      ((aggregate host events).link ⟨(aggregate host events).stack.head?, o.key host⟩).calls := by
    rw [Ledger.calls_link, hcaller]
    simp [aggregate, transitions_concat, entered, eraseDups_concat]
  have hstack : (aggregate host (events ++ [.call o])).stack =
      o.key host :: (aggregate host events).stack := by
    simp [aggregate, opened_concat, openAfter, entered]
  rw [Ledger.enter_eq]
  apply Ledger.ext
  · rw [Ledger.profiles_link]
    exact profiles_aggregate_call events o
  · rw [hcalls, Ledger.calls_link, Ledger.calls_link, Ledger.calls_mark, Ledger.calls_intern]
  · exact hstack

/-- A return adds to what a trace tells what it adds to a ledger. -/
theorem aggregate_leave (events : List Event) :
    aggregate host (events ++ [.leave]) = (aggregate host events).leave := by
  have hcalled : called host (events ++ [.leave]) = called host events := by
    simp [called_concat, Event.observation]
  have htransitions : transitions host (events ++ [.leave]) = transitions host events := by
    simp [transitions_concat, entered]
  have hreentries : reentries host (events ++ [.leave]) = reentries host events := by
    simp [reentries_concat, reentered]
  have hfirst : firstCall host (events ++ [.leave]) = firstCall host events := by
    funext k
    simp [firstCall, observations_concat, Event.observation]
  apply Ledger.ext
  · have hprofile : profileOf host (events ++ [.leave]) = profileOf host events := by
      funext k
      simp only [profileOf, htransitions, hreentries, hfirst]
    simp only [aggregate, hcalled, hprofile, Ledger.leave]
  · simp only [aggregate, htransitions, Ledger.leave]
  · simp [aggregate, opened_concat, openAfter, Ledger.leave]

/-- What an event does to a graph. -/
def action (host : Host) : Event → Action
  | .call o => .enter host o
  | .leave => .leave

/-- An event adds to what a trace tells what it adds to a ledger. -/
theorem aggregate_concat (events : List Event) (e : Event) :
    aggregate host (events ++ [e]) = (aggregate host events).apply (action host e) := by
  cases e with
  | call o => exact aggregate_call events o
  | leave => exact aggregate_leave events

/-! ## Replays -/

/-- An event does to the graph of a replay what its action does. -/
theorem graph_step (host : Host) (s : State) (e : Event) :
    (step host s e).graph = s.graph.apply (action host e) := by
  cases e with
  | call o => rfl
  | leave =>
    simp only [step, action, Graph.apply, Graph.leave]
    cases s.graph.stack <;> rfl

/-- A replay does to its graph what its events do as actions. -/
theorem graph_run (host : Host) (s : State) (events : List Event) :
    (run host s events).graph = s.graph.applyAll (events.map (action host)) := by
  induction events generalizing s with
  | nil => rfl
  | cons e rest ih => rw [run_cons, ih, graph_step, List.map_cons, Graph.applyAll_cons]

/-- A replay of a fresh graph records what the trace tells. -/
theorem records_run (host : Host) (events : List Event) :
    (run host {} events).graph.Records (aggregate host events) := by
  induction events using List.reverseRecOn with
  | nil => exact Graph.records_fresh 0
  | append_singleton events e ih =>
    rw [run_append, run_cons, run_nil, graph_step, aggregate_concat]
    exact ih.apply (action host e)

end Replay

end CallGraph
