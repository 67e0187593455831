import CallGraph.Replay
import Mathlib.Data.List.Infix
import Mathlib.Order.Bounds.Basic

/-!
# The summary of a replay

A replay walks up with every call and down with every return, but not below the ground: a return
that finds no call open is counted as unbalanced and does nothing else.  How many there are is
therefore told by the deepest point that the walk would have reached without a ground, that is by
the largest surplus of returns over calls in any prefix of the events, less the calls that were open
at the start.  Without the unbalanced returns the same events lead to the same graph.

Main results:

- Theorem `isGreatest_peak` says that the peak of a trace is the largest surplus of its prefixes.
- Theorems `unbalanced_run`, `depth_run` and `returns_run` say what a replay from any state counts.
- Theorem `run_dropUnbalanced` says that a replay can do without its unbalanced returns.
- Theorem `sumsUp_run` says what the summary of a replay tells.
-/

namespace CallGraph

/-- What an event adds to the surplus of returns over calls. -/
def Event.surplus : Event → ℤ
  | call _ => -1
  | leave => 1

namespace Replay

/-! ## The surplus of returns -/

/-- The number of calls among some events. -/
def callsIn (events : List Event) : Nat := events.countP fun e => e.observation.isSome

/-- The number of returns among some events. -/
def leavesIn (events : List Event) : Nat := events.countP fun e => e.observation.isNone

/-- By how much the returns outnumber the calls. -/
def surplus (events : List Event) : ℤ := leavesIn events - callsIn events

/-- The largest surplus of a prefix. -/
def peak : List Event → ℤ
  | [] => 0
  | e :: rest => max 0 (e.surplus + peak rest)

@[simp] theorem callsIn_call (o : Observation) (rest : List Event) :
    callsIn (.call o :: rest) = callsIn rest + 1 := by
  simp [callsIn, Event.observation]

@[simp] theorem callsIn_leave (rest : List Event) : callsIn (.leave :: rest) = callsIn rest := by
  simp [callsIn, Event.observation]

@[simp] theorem leavesIn_call (o : Observation) (rest : List Event) :
    leavesIn (.call o :: rest) = leavesIn rest := by
  simp [leavesIn, Event.observation]

@[simp] theorem leavesIn_leave (rest : List Event) :
    leavesIn (.leave :: rest) = leavesIn rest + 1 := by
  simp [leavesIn, Event.observation]

/-- The surplus of some events is that of the first one and that of the others. -/
theorem surplus_cons (e : Event) (rest : List Event) :
    surplus (e :: rest) = e.surplus + surplus rest := by
  cases e with
  | call o =>
    rw [surplus, surplus, leavesIn_call, callsIn_call, Event.surplus]
    omega
  | leave =>
    rw [surplus, surplus, leavesIn_leave, callsIn_leave, Event.surplus]
    omega

/-- No trace has a peak below its start. -/
theorem peak_nonneg (events : List Event) : 0 ≤ peak events := by
  cases events with
  | nil => exact le_refl 0
  | cons e rest => exact le_max_left _ _

/-- A prefix of a longer trace is empty, or its first event followed by a prefix of the rest. -/
theorem exists_surplus_cons {e : Event} {rest : List Event} {x : ℤ} :
    (∃ p, p <+: e :: rest ∧ x = surplus p) ↔
      x = 0 ∨ ∃ p, p <+: rest ∧ x = e.surplus + surplus p := by
  constructor
  · rintro ⟨p, hp, rfl⟩
    rcases List.prefix_cons_iff.mp hp with rfl | ⟨q, rfl, hq⟩
    · exact Or.inl rfl
    · exact Or.inr ⟨q, hq, surplus_cons e q⟩
  · rintro (rfl | ⟨p, hp, rfl⟩)
    · exact ⟨[], List.nil_prefix, rfl⟩
    · exact ⟨e :: p, (List.prefix_cons_inj e).mpr hp, (surplus_cons e p).symm⟩

/-- The peak of a trace is the largest surplus of its prefixes. -/
theorem isGreatest_peak (events : List Event) :
    IsGreatest {x | ∃ p, p <+: events ∧ x = surplus p} (peak events) := by
  induction events with
  | nil =>
    refine ⟨⟨[], List.prefix_rfl, rfl⟩, ?_⟩
    rintro x ⟨p, hp, rfl⟩
    rw [List.prefix_nil.mp hp]
    exact le_refl 0
  | cons e rest ih =>
    obtain ⟨⟨p, hp, hpeak⟩, hle⟩ := ih
    simp only [exists_surplus_cons]
    constructor
    · rcases le_total 0 (e.surplus + peak rest) with h | h
      · exact Or.inr ⟨p, hp, by rw [peak, max_eq_right h, hpeak]⟩
      · exact Or.inl (max_eq_left h)
    · rintro x (rfl | ⟨q, hq, rfl⟩)
      · exact le_max_left _ _
      · have hrest : surplus q ≤ peak rest := hle ⟨q, hq, rfl⟩
        exact le_trans (by omega) (le_max_right _ _)

/-- The returns before and after a call that is closed count, the one that closes it does not. -/
example : peak [.leave, .call {}, .leave, .leave] = 2 := by decide

/-! ## One event -/

section Step

variable (host : Host) (s : State)

/-- A call opens one more frame. -/
theorem depth_call (o : Observation) :
    (step host s (.call o)).graph.depth = s.graph.depth + 1 := by
  obtain ⟨f, hstack, -⟩ := s.graph.stack_enter host o
  simp only [step, Graph.depth, hstack, List.length_cons]

/-- A call is counted as one. -/
theorem tally_call (o : Observation) :
    (step host s (.call o)).tally = { s.tally with calls := s.tally.calls + 1 } := rfl

variable {s}

/-- A return with no call open is counted and does nothing else. -/
theorem step_leave_of_depth_zero (h : s.graph.depth = 0) :
    step host s .leave =
      { s with tally := { s.tally with unbalanced := s.tally.unbalanced + 1 } } := by
  have hstack : s.graph.stack = [] := List.length_eq_zero_iff.mp h
  simp only [step, Graph.leave_of_stack_nil hstack]

/-- Any other return closes a call. -/
theorem step_leave_of_depth_pos (h : 0 < s.graph.depth) :
    (step host s .leave).graph.depth + 1 = s.graph.depth ∧
      (step host s .leave).tally = { s.tally with returns := s.tally.returns + 1 } := by
  obtain ⟨f, rest, hstack⟩ := List.exists_cons_of_length_pos h
  simp [step, Graph.leave_of_stack_cons hstack, Graph.depth, hstack]

end Step

/-! ## A list of events -/

section Run

variable (host : Host) (s : State) (events : List Event)

/-- The unbalanced returns are those for which the peak exceeds the calls that were open. -/
theorem unbalanced_run :
    ((run host s events).tally.unbalanced : ℤ) =
      s.tally.unbalanced + max 0 (peak events - s.graph.depth) := by
  induction events generalizing s with
  | nil => simp [peak]
  | cons e rest ih =>
    have hpeak := peak_nonneg rest
    rw [run_cons, ih]
    cases e with
    | call o =>
      rw [depth_call, tally_call, peak, Event.surplus]
      push_cast
      omega
    | leave =>
      rw [peak, Event.surplus]
      -- On the ground a return is unbalanced, and anywhere above it closes a call.
      rcases Nat.eq_zero_or_pos s.graph.depth with h | h
      · rw [step_leave_of_depth_zero host h]
        simp only [h]
        push_cast
        omega
      · obtain ⟨hdepth, htally⟩ := step_leave_of_depth_pos host h
        rw [htally]
        simp only
        omega

/-- What is open at the end was open before or was called, and has not returned. -/
theorem depth_run :
    (run host s events).graph.depth + (run host s events).tally.returns + s.tally.calls =
      s.graph.depth + s.tally.returns + (run host s events).tally.calls := by
  induction events generalizing s with
  | nil => simp
  | cons e rest ih =>
    rw [run_cons]
    have hrest := ih (step host s e)
    cases e with
    | call o =>
      rw [depth_call, tally_call] at hrest
      simp only at hrest
      omega
    | leave =>
      rcases Nat.eq_zero_or_pos s.graph.depth with h | h
      · rw [step_leave_of_depth_zero host h] at hrest ⊢
        exact hrest
      · obtain ⟨hdepth, htally⟩ := step_leave_of_depth_pos host h
        rw [htally] at hrest
        simp only at hrest
        omega

/-- Every return closes a call or is unbalanced. -/
theorem returns_run :
    (run host s events).tally.returns + (run host s events).tally.unbalanced =
      s.tally.returns + s.tally.unbalanced + leavesIn events := by
  induction events generalizing s with
  | nil => simp [leavesIn]
  | cons e rest ih =>
    rw [run_cons, ih]
    cases e with
    | call o => rw [tally_call, leavesIn_call]
    | leave =>
      rw [leavesIn_leave]
      rcases Nat.eq_zero_or_pos s.graph.depth with h | h
      · rw [step_leave_of_depth_zero host h]
        simp only
        omega
      · rw [(step_leave_of_depth_pos host h).2]
        simp only
        omega

end Run

/-! ## Without the unbalanced returns -/

/-- The events without those that raise the count of unbalanced returns. -/
def dropUnbalanced (host : Host) : State → List Event → List Event
  | _, [] => []
  | s, e :: rest =>
    if s.tally.unbalanced < (step host s e).tally.unbalanced then
      dropUnbalanced host (step host s e) rest
    else e :: dropUnbalanced host (step host s e) rest

/-- The same state with another count of unbalanced returns. -/
def State.withUnbalanced (s : State) (n : Nat) : State :=
  { s with tally := { s.tally with unbalanced := n } }

section Drop

variable (host : Host) (s : State) (n : Nat)

/-- An event that is not dropped does the same whatever the count of unbalanced returns. -/
theorem step_withUnbalanced {e : Event}
    (h : ¬ s.tally.unbalanced < (step host s e).tally.unbalanced) :
    step host (s.withUnbalanced n) e = (step host s e).withUnbalanced n := by
  cases e with
  | call o => rfl
  | leave =>
    rcases Nat.eq_zero_or_pos s.graph.depth with h0 | h0
    · rw [step_leave_of_depth_zero host h0] at h
      simp at h
    · obtain ⟨f, rest, hstack⟩ := List.exists_cons_of_length_pos h0
      simp only [step, State.withUnbalanced, Graph.leave_of_stack_cons hstack]

/-- An event that is dropped does nothing else than raise the count of unbalanced returns. -/
theorem leave_of_lt_unbalanced {e : Event}
    (h : s.tally.unbalanced < (step host s e).tally.unbalanced) :
    e = .leave ∧ (step host s e).withUnbalanced n = s.withUnbalanced n := by
  cases e with
  | call o =>
    rw [tally_call] at h
    simp at h
  | leave =>
    rcases Nat.eq_zero_or_pos s.graph.depth with h0 | h0
    · rw [step_leave_of_depth_zero host h0]
      exact ⟨rfl, rfl⟩
    · rw [(step_leave_of_depth_pos host h0).2] at h
      simp at h

variable (events : List Event)

/-- A replay can do without its unbalanced returns. -/
theorem run_dropUnbalanced :
    run host (s.withUnbalanced n) (dropUnbalanced host s events) =
      (run host s events).withUnbalanced n := by
  induction events generalizing s with
  | nil => rfl
  | cons e rest ih =>
    rw [dropUnbalanced, run_cons host s]
    split
    · rename_i h
      rw [← (leave_of_lt_unbalanced host s n h).2]
      exact ih (step host s e)
    · rename_i h
      rw [run_cons, step_withUnbalanced host s n h]
      exact ih (step host s e)

/-- Dropping the unbalanced returns leaves the other events in their order. -/
theorem sublist_dropUnbalanced : (dropUnbalanced host s events).Sublist events := by
  induction events generalizing s with
  | nil => exact List.Sublist.refl _
  | cons e rest ih =>
    rw [dropUnbalanced]
    split
    · exact (ih _).cons e
    · exact (ih _).cons_cons e

/-- No call is dropped. -/
theorem observations_dropUnbalanced :
    (dropUnbalanced host s events).filterMap Event.observation =
      events.filterMap Event.observation := by
  induction events generalizing s with
  | nil => rfl
  | cons e rest ih =>
    rw [dropUnbalanced]
    split
    · rename_i h
      rw [(leave_of_lt_unbalanced host s 0 h).1, ih]
      rfl
    · rw [List.filterMap_cons, List.filterMap_cons, ih]

/-- As many returns are dropped as were unbalanced. -/
theorem leavesIn_dropUnbalanced :
    leavesIn (dropUnbalanced host s events) + (run host s events).tally.unbalanced =
      leavesIn events + s.tally.unbalanced := by
  have hkept := returns_run host (s.withUnbalanced 0) (dropUnbalanced host s events)
  rw [run_dropUnbalanced] at hkept
  simp only [State.withUnbalanced] at hkept
  have hall := returns_run host s events
  omega

end Drop

/-! ## The summary -/

/-- The state before the first event: nothing has been counted yet. -/
def State.start (g : Graph) (c : Counter) : State := { graph := g, counter := c }

/-- What a replay of a graph and its counter sums up. -/
structure SumsUp (host : Host) (start : State) (events : List Event) : Prop where
  calls : (run host start events).summary.calls = callsIn events
  /-- The largest surplus of returns in a prefix, less the calls that were open. -/
  unbalanced : ∃ m, IsGreatest {x | ∃ p, p <+: events ∧ x = surplus p} m ∧
    ((run host start events).summary.unbalanced : ℤ) = max 0 (m - start.graph.depth)
  returns : ((run host start events).summary.returns : ℤ) =
    leavesIn events - (run host start events).summary.unbalanced
  /-- The calls that are left open: those open before and those made, without the returns. -/
  openFrames : ((run host start events).summary.openFrames : ℤ) =
    start.graph.depth + (run host start events).summary.calls -
      (run host start events).summary.returns
  /-- There are as many of them as the stack is deep at the end. -/
  depth : (run host start events).summary.openFrames = (run host start events).graph.depth
  /-- Only returns are dropped with the unbalanced ones, and as many as were counted. -/
  dropped : (dropUnbalanced host start events).Sublist events ∧
    (dropUnbalanced host start events).filterMap Event.observation =
      events.filterMap Event.observation ∧
    leavesIn (dropUnbalanced host start events) + (run host start events).summary.unbalanced =
      leavesIn events
  /-- The graph, the counter and the other counts are the same without them. -/
  without : run host start (dropUnbalanced host start events) =
    (run host start events).withUnbalanced 0

/-- The summary of a replay tells what the events tell, whatever the graph and its counter. -/
theorem sumsUp_run (host : Host) (g : Graph) (c : Counter) (events : List Event) :
    SumsUp host (.start g c) events where
  calls := by
    rw [State.summary_toTally, run_calls, callsIn, List.countP_eq_length_filter]
    exact Nat.zero_add _
  unbalanced := by
    refine ⟨peak events, isGreatest_peak events, ?_⟩
    rw [State.summary_toTally, unbalanced_run]
    exact Int.zero_add _
  returns := by
    have h := returns_run host (.start g c) events
    simp only [State.start, State.summary_toTally] at h ⊢
    omega
  openFrames := by
    have h := depth_run host (.start g c) events
    simp only [State.start, State.summary_toTally, State.summary_openFrames] at h ⊢
    omega
  depth := State.summary_openFrames _
  dropped := ⟨sublist_dropUnbalanced host _ events, observations_dropUnbalanced host _ events,
    leavesIn_dropUnbalanced host (.start g c) events⟩
  without := run_dropUnbalanced host (.start g c) 0 events

end Replay

end CallGraph
