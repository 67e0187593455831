import CallGraph.Proofs.Canonical
import CallGraph.Proofs.Uptake
import Mathlib.Data.List.Dedup

/-!
# Normal forms of records

A record may list a call several times, in any order and under several spellings of its ends; it
may tell of a call of the method by itself in one list only, and give a line without a file.  A
graph that loads it and is asked for it again gives its normal form.  The records that graphs tell
are in normal form already, as far as the host leaves their keys alone, so they come back as they
were.

Main results:

- Theorem `Ascending.arrange_eq` says that calls in ascending order are arranged already.
- Theorem `record_absorb_empty` says that a record that is taken in comes out in normal form.
- Theorem `normal_record` says which records of a ledger are in normal form.
- Theorem `dump_load_normal` says what both mean for graphs.
-/

namespace CallGraph

/-! ## Arranging calls -/

namespace CallRecord

/-- A call with its ends as a host observes them. -/
def canonical (host : Host) (c : CallRecord) : CallRecord :=
  ⟨c.caller.map (Key.canonical host), c.callee.canonical host⟩

/-- The calls of a list in ascending order, each of them once. -/
def arrange (calls : List CallRecord) : List CallRecord := sort calls.dedup

/-- Arranging neither adds nor drops a call. -/
@[simp] theorem mem_arrange {calls : List CallRecord} {c : CallRecord} :
    c ∈ arrange calls ↔ c ∈ calls := by
  rw [arrange, mem_sort, List.mem_dedup]

/-- Arranged calls are in ascending order, each of them once. -/
theorem ascending_arrange (calls : List CallRecord) : Ascending (arrange calls) :=
  ascending_sort (List.nodup_dedup calls)

/-- Calls in ascending order are what comes out if their members are arranged. -/
theorem Ascending.arrange_eq {as bs : List CallRecord} (hbs : Ascending bs)
    (hab : ∀ c ∈ as, c ∈ bs) (hba : ∀ c ∈ bs, c ∈ as) : arrange as = bs := by
  refine (ascending_arrange as).ext hbs ?_
  intro c
  rw [mem_arrange]
  exact ⟨hab c, hba c⟩

end CallRecord

/-! ## Normal forms -/

namespace Record

/-- The call of the method of a record by itself. -/
def loop (host : Host) (r : Record) : CallRecord :=
  ⟨some (r.key.canonical host), r.key.canonical host⟩

/-- The record with its ends as a host observes them, no line without a file, and its calls in
ascending order, each of them once; a call of the method by itself is in both lists as soon as it is
in either. -/
def normal (host : Host) (r : Record) : Record :=
  let callers := r.callers.map (CallRecord.canonical host)
  let callees := r.callees.map (CallRecord.canonical host)
  let loops := (callers ++ callees).filter fun c => c = r.loop host
  { key := r.key.canonical host
    recursive := r.recursive
    file := r.file
    line := if r.file.isSome then r.line else 0
    callers := CallRecord.arrange (callers ++ loops)
    callees := CallRecord.arrange (callees ++ loops) }

section Members

variable {host : Host} {r : Record} {c : CallRecord}

/-- A call is one of the method by itself exactly if both of its ends are the method. -/
theorem eq_loop_iff : c = r.loop host ↔
    c.caller = some (r.key.canonical host) ∧ c.callee = r.key.canonical host := by
  cases c
  simp [loop]

/-- The callers of a normal form are those of the record, and a call of the method by itself that is
among the callees. -/
theorem mem_callers_normal : c ∈ (r.normal host).callers ↔
    c ∈ r.callers.map (CallRecord.canonical host) ∨
      c ∈ r.callees.map (CallRecord.canonical host) ∧ c = r.loop host := by
  simp only [normal, CallRecord.mem_arrange, List.mem_append, List.mem_filter, decide_eq_true_eq]
  tauto

/-- The callees of a normal form are those of the record, and a call of the method by itself that is
among the callers. -/
theorem mem_callees_normal : c ∈ (r.normal host).callees ↔
    c ∈ r.callees.map (CallRecord.canonical host) ∨
      c ∈ r.callers.map (CallRecord.canonical host) ∧ c = r.loop host := by
  simp only [normal, CallRecord.mem_arrange, List.mem_append, List.mem_filter, decide_eq_true_eq]
  tauto

end Members

/-- A host leaves the keys of a record alone: its own and those of the peers of its calls. -/
structure Fixed (host : Host) (r : Record) : Prop where
  key : r.key.canonical host = r.key
  callers : ∀ c ∈ r.callers, c.caller.map (Key.canonical host) = c.caller
  callees : ∀ c ∈ r.callees, c.callee.canonical host = c.callee

end Record

namespace Ledger

/-! ## Taking one record in -/

section Absorb

variable {host : Host} {r : Record} (h : Graph.recordProblem host r = none)

include h

/-- The incoming calls of a record without a problem lead to its method. -/
theorem callee_of_mem_callers {c : CallRecord}
    (hc : c ∈ r.callers.map (CallRecord.canonical host)) : c.callee = r.key.canonical host := by
  obtain ⟨c, hmem, rfl⟩ := List.mem_map.mp hc
  exact (Graph.recordProblem_eq_none_iff.mp h).1 c hmem

/-- The outgoing calls of a record without a problem come from its method. -/
theorem caller_of_mem_callees {c : CallRecord}
    (hc : c ∈ r.callees.map (CallRecord.canonical host)) :
    c.caller = some (r.key.canonical host) := by
  obtain ⟨c, hmem, rfl⟩ := List.mem_map.mp hc
  exact (Graph.recordProblem_eq_none_iff.mp h).2 c hmem

/-- The calls of a record without a problem are recorded as the host observes their ends. -/
theorem mem_calls_absorb_empty {c : CallRecord} : c ∈ (absorb {} host r).calls ↔
    c ∈ r.callers.map (CallRecord.canonical host) ∨
      c ∈ r.callees.map (CallRecord.canonical host) := by
  obtain ⟨hcallers, hcallees⟩ := Graph.recordProblem_eq_none_iff.mp h
  have hcaller : ∀ c' ∈ r.callers,
      c'.canonical host = ⟨c'.caller.map (Key.canonical host), r.key.canonical host⟩ := by
    intro c' hc'
    rw [CallRecord.canonical, hcallers c' hc']
  have hcallee : ∀ c' ∈ r.callees,
      c'.canonical host = ⟨some (r.key.canonical host), c'.callee.canonical host⟩ := by
    intro c' hc'
    rw [CallRecord.canonical, hcallees c' hc']
  rw [mem_calls_absorb, List.map_congr_left hcaller, List.map_congr_left hcallee]
  simp [eq_comm]

/-- The incoming calls that an empty ledger takes in come out arranged. -/
theorem callers_absorb_empty :
    CallRecord.sort ((absorb {} host r).callersOf (r.key.canonical host)) =
      (r.normal host).callers := by
  have hl := consistent_empty.absorb host r
  refine (CallRecord.ascending_sort (hl.calls_nodup.filter _)).ext
    (CallRecord.ascending_arrange _) ?_
  intro c
  rw [CallRecord.mem_sort, List.mem_filter, mem_calls_absorb_empty h,
    Record.mem_callers_normal, Record.eq_loop_iff, decide_eq_true_eq]
  constructor
  · rintro ⟨hc | hc, hcallee⟩
    · exact Or.inl hc
    · exact Or.inr ⟨hc, caller_of_mem_callees h hc, hcallee⟩
  · rintro (hc | ⟨hc, -, hcallee⟩)
    · exact ⟨Or.inl hc, callee_of_mem_callers h hc⟩
    · exact ⟨Or.inr hc, hcallee⟩

/-- The outgoing calls that an empty ledger takes in come out arranged. -/
theorem callees_absorb_empty :
    CallRecord.sort ((absorb {} host r).calleesOf (r.key.canonical host)) =
      (r.normal host).callees := by
  have hl := consistent_empty.absorb host r
  refine (CallRecord.ascending_sort (hl.calls_nodup.filter _)).ext
    (CallRecord.ascending_arrange _) ?_
  intro c
  rw [CallRecord.mem_sort, List.mem_filter, mem_calls_absorb_empty h,
    Record.mem_callees_normal, Record.eq_loop_iff, decide_eq_true_eq]
  constructor
  · rintro ⟨hc | hc, hcaller⟩
    · exact Or.inr ⟨hc, hcaller, callee_of_mem_callers h hc⟩
    · exact Or.inl hc
  · rintro (hc | ⟨hc, hcaller, -⟩)
    · exact ⟨Or.inr hc, caller_of_mem_callees h hc⟩
    · exact ⟨Or.inl hc, hcaller⟩

/-- A record that an empty ledger takes in comes out in normal form. -/
theorem record_absorb_empty :
    (absorb {} host r).record ((absorb {} host r).profile (r.key.canonical host)) =
      r.normal host := by
  have hprofile : (absorb {} host r).profile (r.key.canonical host) = _ := profile_absorb _
  rw [if_pos rfl, profile_of_not_mem (l := {}) List.not_mem_nil] at hprofile
  rw [record, key_profile, callers_absorb_empty h, callees_absorb_empty h, hprofile]
  cases hfile : r.file <;>
    simp [Record.normal, Profile.called, Profile.told, Graph.sourceOf, hfile]

end Absorb

/-! ## The records of a ledger -/

section Record

variable {l : Ledger} {p : Profile} {host : Host} (h : (l.record p).Fixed host)

include h

/-- The incoming calls of a record that a host leaves alone stay as they are. -/
theorem map_callers_record :
    (l.record p).callers.map (CallRecord.canonical host) = (l.record p).callers := by
  refine (List.map_congr_left ?_).trans (List.map_id _)
  intro c hc
  have hcallee : c.callee.canonical host = c.callee := by
    rw [(mem_callers_record.mp hc).2]
    exact h.key
  rw [CallRecord.canonical, h.callers c hc, hcallee, id]

/-- The outgoing calls of a record that a host leaves alone stay as they are. -/
theorem map_callees_record :
    (l.record p).callees.map (CallRecord.canonical host) = (l.record p).callees := by
  refine (List.map_congr_left ?_).trans (List.map_id _)
  intro c hc
  have hcaller : c.caller.map (Key.canonical host) = c.caller := by
    rw [(mem_callees_record.mp hc).2, Option.map_some]
    exact congrArg some h.key
  rw [CallRecord.canonical, hcaller, h.callees c hc, id]

/-- The records of a ledger are in normal form, as far as the host leaves their keys alone. -/
theorem normal_record (hl : l.Consistent) : (l.record p).normal host = l.record p := by
  have hkey : (l.record p).key.canonical host = p.key := h.key
  have hline : (if (l.record p).file.isSome then (l.record p).line else 0) = (l.record p).line := by
    cases hsource : p.source <;> simp [record, hsource]
  have hcallers : ((l.record p).normal host).callers = (l.record p).callers := by
    refine (CallRecord.ascending_arrange _).ext
      (CallRecord.ascending_sort (hl.calls_nodup.filter _)) fun c => ?_
    refine Record.mem_callers_normal.trans (Iff.trans ?_ mem_callers_record.symm)
    rw [map_callers_record h, map_callees_record h, Record.eq_loop_iff, hkey, mem_callers_record,
      mem_callees_record]
    tauto
  have hcallees : ((l.record p).normal host).callees = (l.record p).callees := by
    refine (CallRecord.ascending_arrange _).ext
      (CallRecord.ascending_sort (hl.calls_nodup.filter _)) fun c => ?_
    refine Record.mem_callees_normal.trans (Iff.trans ?_ mem_callees_record.symm)
    rw [map_callers_record h, map_callees_record h, Record.eq_loop_iff, hkey, mem_callers_record,
      mem_callees_record]
    tauto
  exact (Record.mk.injEq ..).mpr ⟨hkey, rfl, rfl, hline, hcallers, hcallees⟩

end Record

end Ledger

namespace Graph

/-! ## Loading and telling -/

/-- A graph in which nothing has happened tells a record that it has loaded in normal form. -/
theorem dump_of_load {generation : Nat} {host : Host} {r : Record} {g : Graph} {id : NodeId}
    (h : Graph.load { generation := generation } host r = .ok (g, id)) :
    g.dump id = .ok (r.normal host) := by
  have hl := Ledger.consistent_empty.absorb host r
  obtain ⟨hg, hid⟩ := (records_fresh generation).records_load h
  obtain ⟨n, hn, hkey⟩ := has_iff_node.mp hid
  rw [hg.dump hl hn, ← hg.profile_eq hl hn, hkey,
    Ledger.record_absorb_empty (load_eq_ok_iff.mp h).1]

/-- A record that is loaded and told again is in normal form.  After every history of a new graph
its records come back as they were, as far as the host leaves their keys alone. -/
theorem dump_load_normal :
    (∀ generation host r g id, Graph.load { generation := generation } host r = .ok (g, id) →
      g.dump id = .ok (r.normal host)) ∧
    ∀ actions host id n, (empty.applyAll actions).node id = .ok n →
      ∃ r, (empty.applyAll actions).dump id = .ok r ∧ (r.Fixed host → ∀ generation,
        ∃ g' id', Graph.load { generation := generation } host r = .ok (g', id') ∧
          g'.dump id' = .ok r) := by
  refine ⟨fun _ _ _ _ _ h => dump_of_load h, ?_⟩
  intro actions host id n hn
  have hl := Ledger.consistent_empty.applyAll actions
  refine ⟨_, (records_applyAll actions).dump hl hn, ?_⟩
  intro hfixed generation
  have hload := load_of_problem_none (g := { generation := generation })
    (Ledger.recordProblem_record (Ledger.applyAll {} actions) n.profile host)
  refine ⟨_, _, hload, ?_⟩
  rw [dump_of_load hload, Ledger.normal_record hfixed hl]

/-- A record under a proxy of its module, with a line but no file.  One of its incoming calls comes
twice in two spellings, and its call of itself is among the incoming ones only. -/
def proxyRecord : Record :=
  ⟨⟨some ⟨5⟩, some ⟨14⟩⟩, true, none, 9,
    [⟨some ⟨some ⟨4⟩, some ⟨14⟩⟩, ⟨some ⟨5⟩, some ⟨14⟩⟩⟩,
      ⟨some ⟨some ⟨5⟩, some ⟨13⟩⟩, ⟨some ⟨4⟩, some ⟨14⟩⟩⟩,
      ⟨none, ⟨some ⟨5⟩, some ⟨14⟩⟩⟩,
      ⟨some ⟨some ⟨4⟩, some ⟨13⟩⟩, ⟨some ⟨5⟩, some ⟨14⟩⟩⟩],
    [⟨some ⟨some ⟨5⟩, some ⟨14⟩⟩, ⟨some ⟨1⟩, some ⟨10⟩⟩⟩]⟩

/-- What is left of it under its module, which comes back as it is from there on. -/
def moduleRecord : Record :=
  ⟨⟨some ⟨4⟩, some ⟨14⟩⟩, true, none, 0,
    [⟨none, ⟨some ⟨4⟩, some ⟨14⟩⟩⟩,
      ⟨some ⟨some ⟨4⟩, some ⟨13⟩⟩, ⟨some ⟨4⟩, some ⟨14⟩⟩⟩,
      ⟨some ⟨some ⟨4⟩, some ⟨14⟩⟩, ⟨some ⟨4⟩, some ⟨14⟩⟩⟩],
    [⟨some ⟨some ⟨4⟩, some ⟨14⟩⟩, ⟨some ⟨1⟩, some ⟨10⟩⟩⟩,
      ⟨some ⟨some ⟨4⟩, some ⟨14⟩⟩, ⟨some ⟨4⟩, some ⟨14⟩⟩⟩]⟩

/-- A record that is loaded and told again, and once more. -/
theorem dump_load_normal_proxyRecord :
    (∃ g id, empty.load kernelHost proxyRecord = .ok (g, id) ∧ g.dump id = .ok moduleRecord) ∧
      ∃ g id, empty.load kernelHost moduleRecord = .ok (g, id) ∧ g.dump id = .ok moduleRecord := by
  have hcallers : (proxyRecord.normal kernelHost).callers = moduleRecord.callers :=
    CallRecord.Ascending.arrange_eq (by decide) (by decide) (by decide)
  have hcallees : (proxyRecord.normal kernelHost).callees = moduleRecord.callees :=
    CallRecord.Ascending.arrange_eq (by decide) (by decide) (by decide)
  have hnormal : proxyRecord.normal kernelHost = moduleRecord :=
    (Record.mk.injEq ..).mpr ⟨by decide, rfl, rfl, rfl, hcallers, hcallees⟩
  have hload : empty.load kernelHost proxyRecord = .ok (empty.absorb kernelHost proxyRecord) :=
    load_of_problem_none (by decide)
  have hdump := dump_load_normal.1 0 kernelHost proxyRecord _ _ hload
  rw [hnormal] at hdump
  refine ⟨⟨_, _, hload, hdump⟩, ?_⟩
  obtain ⟨n, hn, -⟩ := bind_eq_ok_iff.mp hdump
  obtain ⟨r, hr, hback⟩ := dump_load_normal.2 [.load kernelHost proxyRecord] kernelHost _ n hn
  have hsame : moduleRecord = r := Except.ok.inj (hdump.symm.trans hr)
  subst hsame
  exact hback ⟨by decide, by decide, by decide⟩ 0

end Graph

end CallGraph
