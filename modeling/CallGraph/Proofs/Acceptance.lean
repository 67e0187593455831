import CallGraph.Proofs.Reloading
import Mathlib.Order.Bounds.Basic

/-!
# Which records are loaded

A record is loaded exactly if each of its calls touches its method, with all keys as the host gives
them.  Any other record is refused for its first stray call, an incoming one before an outgoing one,
and the graph has no say in either.

That a record which is refused leaves no trace is a matter of order: all calls are checked before
the first change.  To say so, loading is written once more as a program that changes its graph in
place, so that whatever it had done before it failed would stay done.

Main results:

- Theorem `recordProblem_eq_some_iff` says that the problem of a record is its first stray call.
- Theorem `run_checkInPlace` says that a check finds the problem of a record and changes nothing.
- Theorem `run_loadInPlace` says that loading in place does what loading does.
- Theorem `judges_record` says which records are loaded, and what becomes of the others.
-/

namespace CallGraph

/-! ## Records whose calls touch their method -/

namespace Record

/-- Each incoming call of a record leads to its method, and each outgoing one starts there. -/
structure Connected (host : Host) (r : Record) : Prop where
  callers : ∀ c ∈ r.callers, c.callee.canonical host = r.key.canonical host
  callees : ∀ c ∈ r.callees, ∃ k, c.caller = some k ∧ k.canonical host = r.key.canonical host

/-- The indices of the incoming calls that do not lead to the method of a record. -/
def strayCallers (host : Host) (r : Record) : Set Nat :=
  {i | ∃ c, r.callers[i]? = some c ∧ c.callee.canonical host ≠ r.key.canonical host}

/-- The indices of the outgoing calls that do not start at the method of a record. -/
def strayCallees (host : Host) (r : Record) : Set Nat :=
  {j | ∃ c, r.callees[j]? = some c ∧
    ¬ ∃ k, c.caller = some k ∧ k.canonical host = r.key.canonical host}

/-- The first stray call of a record as a problem, with the place of it in words. -/
inductive FirstStray (host : Host) (r : Record) : RecordProblem → String → Prop
  | caller {i : Nat} (least : IsLeast (r.strayCallers host) i) :
      FirstStray host r (.strayCaller i) ("callers[" ++ toString i ++ "].callee")
  | callee {j : Nat} (callers : r.strayCallers host = ∅) (least : IsLeast (r.strayCallees host) j) :
      FirstStray host r (.strayCallee j) ("callees[" ++ toString j ++ "].caller")

end Record

/-- The first entry that passes a test is the one of the least index. -/
theorem findIdx?_eq_some_iff_isLeast {α : Type} {p : α → Bool} {as : List α} {i : Nat} :
    as.findIdx? p = some i ↔ IsLeast {i | ∃ a, as[i]? = some a ∧ p a = true} i := by
  rw [List.findIdx?_eq_some_iff_getElem]
  constructor
  · rintro ⟨hi, hp, hbefore⟩
    refine ⟨⟨as[i], List.getElem?_eq_getElem hi, hp⟩, ?_⟩
    rintro j ⟨a, ha, hpa⟩
    obtain ⟨hj, rfl⟩ := List.getElem?_eq_some_iff.mp ha
    by_contra hlt
    exact hbefore j (Nat.lt_of_not_le hlt) hpa
  · rintro ⟨⟨a, ha, hp⟩, hleast⟩
    obtain ⟨hi, rfl⟩ := List.getElem?_eq_some_iff.mp ha
    refine ⟨hi, hp, ?_⟩
    intro j hj hpj
    have hle := hleast ⟨as[j], List.getElem?_eq_getElem (Nat.lt_trans hj hi), hpj⟩
    omega

namespace Graph

/-! ## The problem of a record -/

section Problem

variable {host : Host} {r : Record}

/-- The incoming call that is reported is the first one that is astray. -/
theorem strayCaller_eq_some_iff {i : Nat} :
    strayCaller host (r.key.canonical host) r = some i ↔ IsLeast (r.strayCallers host) i := by
  simp only [strayCaller, findIdx?_eq_some_iff_isLeast, decide_eq_true_eq]
  rfl

/-- The outgoing call that is reported is the first one that is astray. -/
theorem strayCallee_eq_some_iff {j : Nat} :
    strayCallee host (r.key.canonical host) r = some j ↔ IsLeast (r.strayCallees host) j := by
  simp only [strayCallee, findIdx?_eq_some_iff_isLeast, decide_eq_true_eq, ne_eq,
    Option.map_eq_some_iff]
  rfl

/-- No incoming call is reported exactly if none is astray. -/
theorem strayCaller_eq_none_iff :
    strayCaller host (r.key.canonical host) r = none ↔ r.strayCallers host = ∅ := by
  rw [Set.eq_empty_iff_forall_notMem]
  simp only [strayCaller, List.findIdx?_eq_none_iff, decide_eq_false_iff_not, Record.strayCallers,
    Set.mem_ofPred_eq, not_exists, not_and]
  constructor
  · intro h i c hc
    exact h c (List.mem_of_getElem? hc)
  · intro h c hc
    obtain ⟨i, hi⟩ := List.getElem?_of_mem hc
    exact h i c hi

/-- A record has no problem exactly if its calls touch its method. -/
theorem recordProblem_eq_none_iff_connected : recordProblem host r = none ↔ r.Connected host := by
  rw [recordProblem_eq_none_iff]
  simp only [Option.map_eq_some_iff]
  constructor
  · rintro ⟨hcallers, hcallees⟩
    exact ⟨hcallers, hcallees⟩
  · rintro ⟨hcallers, hcallees⟩
    exact ⟨hcallers, hcallees⟩

/-- The problem of a record is its first stray call, and the place that it names is where this call
stands. -/
theorem recordProblem_eq_some_iff {p : RecordProblem} :
    recordProblem host r = some p ↔ r.FirstStray host p p.field := by
  constructor
  · intro h
    cases hcaller : strayCaller host (r.key.canonical host) r with
    | some i =>
      simp only [recordProblem, hcaller, Option.some.injEq] at h
      subst h
      exact .caller (strayCaller_eq_some_iff.mp hcaller)
    | none =>
      simp only [recordProblem, hcaller, Option.map_eq_some_iff] at h
      obtain ⟨j, hj, rfl⟩ := h
      exact .callee (strayCaller_eq_none_iff.mp hcaller) (strayCallee_eq_some_iff.mp hj)
  · rintro (⟨least⟩ | ⟨callers, least⟩)
    · rw [recordProblem, strayCaller_eq_some_iff.mpr least]
    · rw [recordProblem, strayCaller_eq_none_iff.mpr callers, strayCallee_eq_some_iff.mpr least]
      rfl

end Problem

/-! ## Programs that work in place -/

/-- A program that works on a graph in place: what it has changed when it fails stays changed. -/
abbrev InPlace (α : Type) : Type := ExceptT GraphError (StateM Graph) α

namespace InPlace

/-- How a program ends, and the graph that it leaves. -/
def run {α : Type} (p : InPlace α) (g : Graph) : Except GraphError α × Graph :=
  StateT.run (ExceptT.run p) g

@[simp] theorem run_pure {α : Type} (a : α) (g : Graph) : run (pure a) g = (.ok a, g) := rfl

@[simp] theorem run_modify (f : Graph → Graph) (g : Graph) :
    run (modify f) g = (.ok (), f g) := rfl

@[simp] theorem run_modifyGet {α : Type} (f : Graph → α × Graph) (g : Graph) :
    run (modifyGet f) g = (.ok (f g).1, (f g).2) := rfl

/-- A program that is continued goes on with the graph that its first part left, unless that part
failed. -/
theorem run_bind {α β : Type} (p : InPlace α) (f : α → InPlace β) (g : Graph) :
    run (p >>= f) g =
      match run p g with
      | (.ok a, g') => run (f a) g'
      | (.error e, g') => (.error e, g') := by
  simp only [run, ExceptT.run_bind, StateT.run_bind]
  rcases StateT.run (ExceptT.run p) g with ⟨_ | a, g'⟩ <;> rfl

/-- Changes that are made one after the other. -/
theorem run_forM_modify {α : Type} (f : Graph → α → Graph) (as : List α) (g : Graph) :
    run (forM as fun a => modify fun g => f g a) g = (.ok (), as.foldl f g) := by
  induction as generalizing g with
  | nil => rfl
  | cons a rest ih =>
    rw [List.forM_cons, run_bind, run_modify]
    exact ih (f g a)

end InPlace

/-! ## Loading in place -/

/-- Go through calls, the first of which has the index `i`, and fail at the first one astray. -/
def checkFrom (astray : CallRecord → Bool) (problem : Nat → RecordProblem) :
    Nat → List CallRecord → InPlace Unit
  | _, [] => pure ()
  | i, c :: rest => do
    if astray c then throw (.malformedRecord (problem i))
    checkFrom astray problem (i + 1) rest

/-- Check the calls of a record, the incoming ones first. -/
def checkInPlace (host : Host) (r : Record) : InPlace Unit := do
  let key := r.key.canonical host
  checkFrom (fun c => c.callee.canonical host ≠ key) .strayCaller 0 r.callers
  checkFrom (fun c => c.caller.map (Key.canonical host) ≠ some key) .strayCallee 0 r.callees

/-- Take a record in, one change after the other. -/
def absorbInPlace (host : Host) (r : Record) : InPlace NodeId := do
  let key := r.key.canonical host
  let id ← modifyGet fun g => ((g.intern key none).2, (g.intern key none).1)
  modify fun g => g.adjust id fun n =>
    { n with source := sourceOf r, recursive := n.recursive || r.recursive }
  forM r.callers fun c => modify fun g => absorbCaller host ⟨id, key⟩ g c
  forM r.callees fun c => modify fun g => absorbCallee host ⟨id, key⟩ g c
  return id

/-- Load a record in place. -/
def loadInPlace (host : Host) (r : Record) : InPlace NodeId := do
  checkInPlace host r
  absorbInPlace host r

/-- How a check ends that finds this problem. -/
def verdict : Option RecordProblem → Except GraphError Unit
  | none => .ok ()
  | some p => .error (.malformedRecord p)

/-- A check looks for the first call that is astray and leaves the graph alone. -/
theorem run_checkFrom (astray : CallRecord → Bool) (problem : Nat → RecordProblem) (i : Nat)
    (calls : List CallRecord) (g : Graph) :
    (checkFrom astray problem i calls).run g =
      (verdict ((calls.findIdx? astray).map fun j => problem (i + j)), g) := by
  induction calls generalizing i with
  | nil => rfl
  | cons c rest ih =>
    rw [checkFrom, List.findIdx?_cons]
    cases astray c with
    | true => rfl
    | false =>
      have hindex : ((fun j => problem (i + j)) ∘ fun j => j + 1) =
          fun j => problem (i + 1 + j) := by
        funext j
        rw [Function.comp_apply, Nat.add_assoc, Nat.add_comm 1 j]
      simp only [Bool.false_eq_true, if_false, Option.map_map, hindex]
      exact ih (i + 1)

/-- A check finds the problem of a record and changes nothing. -/
theorem run_checkInPlace (host : Host) (r : Record) (g : Graph) :
    (checkInPlace host r).run g = (verdict (recordProblem host r), g) := by
  have hcallers : r.callers.findIdx? (fun c => c.callee.canonical host ≠ r.key.canonical host) =
      strayCaller host (r.key.canonical host) r := rfl
  have hcallees : r.callees.findIdx?
      (fun c => c.caller.map (Key.canonical host) ≠ some (r.key.canonical host)) =
      strayCallee host (r.key.canonical host) r := rfl
  simp only [checkInPlace, InPlace.run_bind, run_checkFrom, hcallers, hcallees, Nat.zero_add,
    recordProblem]
  cases strayCaller host (r.key.canonical host) r <;> rfl

/-- Taking a record in, step by step in place, is taking it in at once. -/
theorem run_absorbInPlace (host : Host) (r : Record) (g : Graph) :
    (absorbInPlace host r).run g = (.ok (g.absorb host r).2, (g.absorb host r).1) := by
  simp only [absorbInPlace, InPlace.run_bind, InPlace.run_modifyGet, InPlace.run_modify,
    InPlace.run_forM_modify, InPlace.run_pure]
  rfl

/-- Loading in place does what loading does, and nothing if that fails. -/
theorem run_loadInPlace (host : Host) (r : Record) (g : Graph) :
    (loadInPlace host r).run g =
      match g.load host r with
      | .ok (g', id) => (.ok id, g')
      | .error e => (.error e, g) := by
  rw [loadInPlace, InPlace.run_bind, run_checkInPlace, load]
  cases recordProblem host r with
  | none => exact run_absorbInPlace host r g
  | some p => rfl

/-! ## What becomes of a record -/

/-- What a graph does with a record that it is to load. -/
structure Judges (g : Graph) (host : Host) (r : Record) : Prop where
  /-- It loads the record exactly if the calls of the record touch its method. -/
  accepts : (∃ out, g.load host r = .ok out) ↔ r.Connected host
  /-- It refuses any other record for its first stray call, and stays what it was. -/
  refuses : ¬ r.Connected host → ∃ p, r.FirstStray host p p.field ∧
    g.load host r = .error (.malformedRecord p) ∧
    (loadInPlace host r).run g = (.error (.malformedRecord p), g)
  /-- Done in place, a load that succeeds leaves the graph that it tells of. -/
  inPlace : ∀ g' id, g.load host r = .ok (g', id) → (loadInPlace host r).run g = (.ok id, g')

/-- Every graph loads the records whose calls touch their method.  It refuses any other record for
its first stray call, before it has changed anything. -/
theorem judges_record (g : Graph) (host : Host) (r : Record) : g.Judges host r where
  accepts := exists_load_iff.trans recordProblem_eq_none_iff_connected
  refuses hnot := by
    obtain ⟨p, hp⟩ : ∃ p, recordProblem host r = some p := by
      rw [← Option.ne_none_iff_exists', ne_eq, recordProblem_eq_none_iff_connected]
      exact hnot
    have hload : g.load host r = .error (.malformedRecord p) := load_eq_error.mpr ⟨p, hp, rfl⟩
    refine ⟨p, recordProblem_eq_some_iff.mp hp, hload, ?_⟩
    rw [run_loadInPlace, hload]
  inPlace g' id hload := by rw [run_loadInPlace, hload]

/-- Of two stray calls in a record of the method that is open, the incoming one is told. -/
example :
    let own : Key := ⟨some ⟨1⟩, some ⟨10⟩⟩
    let other : Key := ⟨some ⟨1⟩, some ⟨11⟩⟩
    let g := empty.applyAll kernelActions
    (loadInPlace kernelHost
      ⟨own, false, none, 1, [⟨none, own⟩, ⟨none, other⟩], [⟨some other, other⟩]⟩).run g =
        (.error (.malformedRecord (.strayCaller 1)), g) := by
  decide

end Graph

end CallGraph
