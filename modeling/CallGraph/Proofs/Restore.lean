import CallGraph.Proofs.Dump

/-!
# Taking the records of a ledger in

The records of one ledger are taken in by another one, in any order.  If the host leaves the keys
alone, the second ledger gets the methods that are told of, their peers, and every call that has
an end among the methods told of; each method told of is known as before, and no other one is
learnt anything of.

Main results:

- Theorem `Records.loadAll` says that records without a problem are all taken in.
- Theorem `recordProblem_record` says that the records of a ledger have no problem.
- Theorem `restored_absorbAll` says what a ledger holds after it took in the records of another one.
- Theorem `Restored.record_eq` says that the records that it told of come back as they were.
- Theorem `Records.loadAll_records` says that a graph loads the records of a ledger like that.
-/

namespace CallGraph

/-! ## Lists of records -/

namespace Ledger

/-- Take in records one after the other. -/
def absorbAll (l : Ledger) (host : Host) (rs : List Record) : Ledger :=
  rs.foldl (fun l r => l.absorb host r) l

/-- Records are taken in from the first one on. -/
@[simp] theorem absorbAll_cons (l : Ledger) (host : Host) (r : Record) (rs : List Record) :
    l.absorbAll host (r :: rs) = (l.absorb host r).absorbAll host rs := rfl

/-- Records that are taken in leave the open calls alone. -/
@[simp] theorem stack_absorbAll (l : Ledger) (host : Host) (rs : List Record) :
    (l.absorbAll host rs).stack = l.stack :=
  foldl_leaves stack (fun l r => stack_absorb l host r) l rs

/-- Records that are taken in keep a ledger consistent. -/
theorem Consistent.absorbAll {l : Ledger} (hl : l.Consistent) (host : Host) (rs : List Record) :
    (l.absorbAll host rs).Consistent := by
  induction rs generalizing l with
  | nil => exact hl
  | cons r rest ih => exact ih (hl.absorb host r)

/-- A record tells nothing of a method other than its own. -/
theorem profile_absorbAll_of_forall_ne {l : Ledger} {host : Host} {rs : List Record} {k : Key}
    (h : ∀ r ∈ rs, r.key.canonical host ≠ k) : (l.absorbAll host rs).profile k = l.profile k := by
  induction rs generalizing l with
  | nil => rfl
  | cons r rest ih =>
    rw [absorbAll_cons, ih fun r' hr' => h r' (List.mem_cons_of_mem r hr'), profile_absorb,
      if_neg (h r List.mem_cons_self)]

/-- Of records of different methods each has its say on its own one. -/
theorem profile_absorbAll_of_mem {l : Ledger} {host : Host} {rs : List Record}
    (hrs : (rs.map fun r => r.key.canonical host).Nodup) {r : Record} (hr : r ∈ rs) :
    (l.absorbAll host rs).profile (r.key.canonical host) =
      ((l.profile (r.key.canonical host)).told r).called
        (r.callers.any fun c => c.caller.isNone) false := by
  induction rs generalizing l with
  | nil => simp at hr
  | cons first rest ih =>
    rw [List.map_cons, List.nodup_cons] at hrs
    rw [absorbAll_cons]
    rcases List.mem_cons.mp hr with rfl | hr
    · have hne : ∀ r' ∈ rest, r'.key.canonical host ≠ r.key.canonical host := by
        intro r' hr' heq
        exact hrs.1 (List.mem_map.mpr ⟨r', hr', heq⟩)
      rw [profile_absorbAll_of_forall_ne hne, profile_absorb, if_pos rfl]
    · have hne : first.key.canonical host ≠ r.key.canonical host := by
        intro heq
        exact hrs.1 (List.mem_map.mpr ⟨r, hr, heq.symm⟩)
      rw [ih hrs.2 hr, profile_absorb, if_neg hne]

end Ledger

namespace Graph

/-- A record has no problem if all of its incoming calls lead to its method and all of its outgoing
ones come from it. -/
theorem recordProblem_eq_none_iff {host : Host} {r : Record} :
    recordProblem host r = none ↔
      (∀ c ∈ r.callers, c.callee.canonical host = r.key.canonical host) ∧
        ∀ c ∈ r.callees, c.caller.map (Key.canonical host) = some (r.key.canonical host) := by
  have hcaller : strayCaller host (r.key.canonical host) r = none ↔
      ∀ c ∈ r.callers, c.callee.canonical host = r.key.canonical host := by
    simp [strayCaller, List.findIdx?_eq_none_iff]
  have hcallee : strayCallee host (r.key.canonical host) r = none ↔
      ∀ c ∈ r.callees, c.caller.map (Key.canonical host) = some (r.key.canonical host) := by
    simp [strayCallee, List.findIdx?_eq_none_iff]
  rw [← hcaller, ← hcallee]
  cases h : strayCaller host (r.key.canonical host) r <;> simp [recordProblem, h]

/-- Records without a problem are all taken in. -/
theorem Records.loadAll {g : Graph} {l : Ledger} (h : g.Records l) {host : Host}
    {rs : List Record} (hrs : ∀ r ∈ rs, recordProblem host r = none) :
    ∃ g', g.loadAll host rs = .ok g' ∧ g'.Records (l.absorbAll host rs) := by
  induction rs generalizing g l with
  | nil => exact ⟨g, rfl, h⟩
  | cons r rest ih =>
    have hload : g.load host r = .ok (g.absorb host r) :=
      load_of_problem_none (hrs r List.mem_cons_self)
    rcases ih (h.absorb host r).1 (fun r' hr' => hrs r' (List.mem_cons_of_mem r hr')) with
      ⟨g', hg', hrec⟩
    refine ⟨g', ?_, hrec⟩
    simp only [Graph.loadAll, hload, bind, Except.bind]
    exact hg'

end Graph

namespace Ledger

/-! ## The records of a ledger -/

@[simp] theorem key_record (l : Ledger) (p : Profile) : (l.record p).key = p.key := rfl

@[simp] theorem recursive_record (l : Ledger) (p : Profile) :
    (l.record p).recursive = p.recursive := rfl

/-- The incoming calls of a record are the recorded ones that lead to its method. -/
theorem mem_callers_record {l : Ledger} {p : Profile} {c : CallRecord} :
    c ∈ (l.record p).callers ↔ c ∈ l.calls ∧ c.callee = p.key := by
  simp [record, callersOf]

/-- The outgoing calls of a record are the recorded ones that come from its method. -/
theorem mem_callees_record {l : Ledger} {p : Profile} {c : CallRecord} :
    c ∈ (l.record p).callees ↔ c ∈ l.calls ∧ c.caller = some p.key := by
  simp [record, calleesOf]

/-- The records of a ledger have no problem, whatever the host. -/
theorem recordProblem_record (l : Ledger) (p : Profile) (host : Host) :
    Graph.recordProblem host (l.record p) = none := by
  rw [Graph.recordProblem_eq_none_iff]
  constructor
  · intro c hc
    rw [(mem_callers_record.mp hc).2, key_record]
  · intro c hc
    rw [(mem_callees_record.mp hc).2, key_record, Option.map_some]

/-- A record tells of the place of its method what is recorded of it. -/
@[simp] theorem sourceOf_record (l : Ledger) (p : Profile) :
    Graph.sourceOf (l.record p) = p.source := by
  cases hp : p.source <;> simp [Graph.sourceOf, record, hp]

/-- A record of a consistent ledger has a call from outside exactly if its method is a root. -/
theorem any_callers_record {l : Ledger} (hl : l.Consistent) {p : Profile} (hp : p ∈ l.profiles) :
    ((l.record p).callers.any fun c => c.caller.isNone) = p.root := by
  rw [Bool.eq_iff_iff, List.any_eq_true]
  have hprofile := ((mem_profiles_iff hl.keys_nodup).mp hp).2
  have hroot := hl.root p.key
  rw [hprofile] at hroot
  rw [hroot]
  constructor
  · rintro ⟨⟨caller, callee⟩, hc, hnone⟩
    rcases mem_callers_record.mp hc with ⟨hmem, rfl⟩
    rw [Option.isNone_iff_eq_none] at hnone
    exact hnone ▸ hmem
  · intro hmem
    exact ⟨_, mem_callers_record.mpr ⟨hmem, rfl⟩, rfl⟩

/-! ## Taking them in -/

/-- The ledger `l'` holds, besides what `base` holds, what the records of `l` tell. -/
structure Restored (l base l' : Ledger) : Prop where
  consistent : l'.Consistent
  stack : l'.stack = base.stack
  /-- The methods told of and the peers of their calls. -/
  keys : ∀ k, k ∈ l'.keys ↔ k ∈ base.keys ∨ ∃ p ∈ l.visible, k = p.key ∨
    ∃ c ∈ l.calls, (c.callee = p.key ∧ c.caller = some k) ∨ (c.caller = some p.key ∧ c.callee = k)
  /-- The calls with an end among the methods told of. -/
  calls : ∀ c, c ∈ l'.calls ↔ c ∈ base.calls ∨
    c ∈ l.calls ∧ ∃ p ∈ l.visible, c.callee = p.key ∨ c.caller = some p.key
  /-- A method told of is known as in `l`. -/
  told : ∀ p ∈ l.visible,
    l'.profile p.key = ((base.profile p.key).told (l.record p)).called p.root false
  /-- Nothing is learnt of any other method. -/
  untold : ∀ k, (∀ p ∈ l.visible, p.key ≠ k) → l'.profile k = base.profile k

/-- The records of a ledger in any order are those of its visible methods. -/
theorem exists_mem_perm_records {l : Ledger} {rs : List Record} (hrs : rs.Perm l.records)
    (Q : Record → Prop) : (∃ r ∈ rs, Q r) ↔ ∃ p ∈ l.visible, Q (l.record p) := by
  simp [hrs.mem_iff, records]

section Restore

variable {l base : Ledger} (hl : l.Consistent) {host : Host}
  (hhost : ∀ k ∈ l.keys, k.canonical host = k)

include hl hhost

/-- A host that leaves the keys of a ledger alone leaves the callers of its calls alone. -/
theorem canonical_caller {c : CallRecord} (hc : c ∈ l.calls) :
    c.caller.map (Key.canonical host) = c.caller := by
  cases hcaller : c.caller with
  | none => rfl
  | some k => rw [Option.map_some, hhost k (hl.caller c hc k hcaller)]

/-- It leaves the callees of its calls alone. -/
theorem canonical_callee {c : CallRecord} (hc : c ∈ l.calls) : c.callee.canonical host = c.callee :=
  hhost c.callee (hl.callee c hc)

omit hl in
/-- It leaves the keys of its visible methods alone. -/
theorem canonical_of_mem_visible {p : Profile} (hp : p ∈ l.visible) :
    p.key.canonical host = p.key :=
  hhost p.key (List.mem_map_of_mem (mem_visible.mp hp).1)

/-- A record of a ledger brings its method and the peers of its calls. -/
theorem mem_keys_absorb_record {base : Ledger} {p : Profile} (hp : p ∈ l.visible) {k : Key} :
    k ∈ (base.absorb host (l.record p)).keys ↔ k ∈ base.keys ∨ k = p.key ∨
      ∃ c ∈ l.calls, (c.callee = p.key ∧ c.caller = some k) ∨
        (c.caller = some p.key ∧ c.callee = k) := by
  rw [mem_keys_absorb, key_record, canonical_of_mem_visible hhost hp]
  refine or_congr_right (or_congr_right ?_)
  constructor
  · rintro (⟨c, hc, hk⟩ | ⟨c, hc, hk⟩)
    · rcases mem_callers_record.mp hc with ⟨hmem, hcallee⟩
      rw [canonical_caller hl hhost hmem] at hk
      exact ⟨c, hmem, Or.inl ⟨hcallee, hk⟩⟩
    · rcases mem_callees_record.mp hc with ⟨hmem, hcaller⟩
      rw [canonical_callee hl hhost hmem] at hk
      exact ⟨c, hmem, Or.inr ⟨hcaller, hk⟩⟩
  · rintro ⟨c, hmem, ⟨hcallee, hk⟩ | ⟨hcaller, hk⟩⟩
    · refine Or.inl ⟨c, mem_callers_record.mpr ⟨hmem, hcallee⟩, ?_⟩
      rw [canonical_caller hl hhost hmem]
      exact hk
    · refine Or.inr ⟨c, mem_callees_record.mpr ⟨hmem, hcaller⟩, ?_⟩
      rw [canonical_callee hl hhost hmem]
      exact hk

/-- A record of a ledger brings the calls that have its method at an end. -/
theorem mem_calls_absorb_record {base : Ledger} {p : Profile} (hp : p ∈ l.visible)
    {c : CallRecord} :
    c ∈ (base.absorb host (l.record p)).calls ↔
      c ∈ base.calls ∨ c ∈ l.calls ∧ (c.callee = p.key ∨ c.caller = some p.key) := by
  have hcallers : ∀ c' ∈ (l.record p).callers,
      (⟨c'.caller.map (Key.canonical host), p.key⟩ : CallRecord) = c' := by
    intro c' hc'
    rcases mem_callers_record.mp hc' with ⟨hmem, hcallee⟩
    rw [canonical_caller hl hhost hmem, ← hcallee]
  have hcallees : ∀ c' ∈ (l.record p).callees,
      (⟨some p.key, c'.callee.canonical host⟩ : CallRecord) = c' := by
    intro c' hc'
    rcases mem_callees_record.mp hc' with ⟨hmem, hcaller⟩
    rw [canonical_callee hl hhost hmem, ← hcaller]
  rw [mem_calls_absorb, key_record, canonical_of_mem_visible hhost hp, and_or_left]
  refine or_congr_right (or_congr ?_ ?_)
  · rw [← mem_callers_record]
    constructor
    · rintro ⟨c', hc', rfl⟩
      rw [hcallers c' hc']
      exact hc'
    · intro hc
      exact ⟨c, hc, (hcallers c hc).symm⟩
  · rw [← mem_callees_record]
    constructor
    · rintro ⟨c', hc', rfl⟩
      rw [hcallees c' hc']
      exact hc'
    · intro hc
      exact ⟨c, hc, (hcallees c hc).symm⟩

/-- The records of a ledger, taken in in any order. -/
theorem restored_absorbAll (hbase : base.Consistent) {rs : List Record}
    (hrs : rs.Perm l.records) : Restored l base (base.absorbAll host rs) := by
  have hmem : ∀ r ∈ rs, ∃ p ∈ l.visible, l.record p = r := by
    intro r hr
    exact List.mem_map.mp (hrs.mem_iff.mp hr)
  have hcanonical : ∀ r ∈ rs, r.key.canonical host = r.key := by
    intro r hr
    rcases hmem r hr with ⟨p, hp, rfl⟩
    exact canonical_of_mem_visible hhost hp
  -- What one record brings does not depend on those before it, so their order does not matter.
  refine ⟨hbase.absorbAll host rs, stack_absorbAll base host rs, ?_, ?_, ?_, ?_⟩
  · intro k
    have hfold := foldl_iff (f := fun l r => l.absorb host r) (P := fun l => k ∈ l.keys)
      (Q := fun r => k = r.key ∨ ∃ c ∈ l.calls, (c.callee = r.key ∧ c.caller = some k) ∨
        (c.caller = some r.key ∧ c.callee = k)) rs ?_ base
    · exact hfold.trans (or_congr_right (exists_mem_perm_records hrs _))
    · intro l' r hr
      rcases hmem r hr with ⟨p, hp, rfl⟩
      exact mem_keys_absorb_record hl hhost hp
  · intro c
    have hfold := foldl_iff (f := fun l r => l.absorb host r) (P := fun l => c ∈ l.calls)
      (Q := fun r => c ∈ l.calls ∧ (c.callee = r.key ∨ c.caller = some r.key)) rs ?_ base
    · refine hfold.trans (or_congr_right ((exists_mem_perm_records hrs _).trans ?_))
      simp only [key_record]
      constructor
      · rintro ⟨p, hp, hc, hend⟩
        exact ⟨hc, p, hp, hend⟩
      · rintro ⟨hc, p, hp, hend⟩
        exact ⟨p, hp, hc, hend⟩
    · intro l' r hr
      rcases hmem r hr with ⟨p, hp, rfl⟩
      exact mem_calls_absorb_record hl hhost hp
  · intro p hp
    have hr : l.record p ∈ rs := hrs.mem_iff.mpr (List.mem_map_of_mem hp)
    have hnodup : (rs.map fun r => r.key.canonical host).Nodup := by
      rw [List.map_congr_left hcanonical, (hrs.map Record.key).nodup_iff, records, List.map_map]
      exact hl.keys_nodup.sublist (List.filter_sublist.map Profile.key)
    have htold := profile_absorbAll_of_mem (l := base) hnodup hr
    rw [key_record, canonical_of_mem_visible hhost hp,
      any_callers_record hl (mem_visible.mp hp).1] at htold
    exact htold
  · intro k hk
    apply profile_absorbAll_of_forall_ne
    intro r hr
    rw [hcanonical r hr]
    rcases hmem r hr with ⟨p, hp, rfl⟩
    exact hk p hp

end Restore

/-! ## What is told comes back -/

/-- A method of which nothing was known is known by its record. -/
theorem told_blank (l : Ledger) {p : Profile} (hp : p.excluded = false) :
    (({ key := p.key } : Profile).told (l.record p)).called p.root false = p := by
  rcases p with ⟨key, source, root, recursive, excluded⟩
  simp only at hp
  simp [Profile.called, Profile.told, hp]

section Restored

variable {l base l' : Ledger} (h : Restored l base l') {p : Profile} (hp : p ∈ l.visible)

include h hp

/-- A method of which the base knows nothing is known as in the ledger that told of it. -/
theorem Restored.profile_eq (hbase : base.profile p.key = { key := p.key }) :
    l'.profile p.key = p := by
  rw [h.told p hp, hbase, told_blank l (mem_visible.mp hp).2]

/-- The record of a method comes back as it was, if the base knows of no call of it that did not
come with it. -/
theorem Restored.record_eq (hl : l.Consistent)
    (hbase : ∀ c ∈ base.calls, c.callee = p.key ∨ c.caller = some p.key → c ∈ l.calls) :
    l'.record p = l.record p := by
  apply record_congr hl h.consistent
  intro c hc
  rw [h.calls]
  constructor
  · rintro (hmem | ⟨hmem, -⟩)
    · exact hbase c hmem hc
    · exact hmem
  · intro hmem
    exact Or.inr ⟨hmem, p, hp, hc⟩

end Restored

section Whole

variable {l l' : Ledger} (h : Restored l {} l') (hl : l.Consistent)
  (hall : ∀ p ∈ l.profiles, p.excluded = false)

include h hl hall

/-- If nothing is excluded, an empty ledger gets the methods back, though in another order. -/
theorem Restored.perm_keys : l'.keys.Perm l.keys := by
  apply (List.perm_ext_iff_of_nodup h.consistent.keys_nodup hl.keys_nodup).mpr
  intro k
  rw [h.keys]
  constructor
  · rintro (hk | ⟨p, hp, rfl | ⟨c, hc, ⟨-, hk⟩ | ⟨-, rfl⟩⟩⟩)
    · simp [Ledger.keys] at hk
    · exact List.mem_map_of_mem (mem_visible.mp hp).1
    · exact hl.caller c hc k hk
    · exact hl.callee c hc
  · intro hk
    rcases List.mem_map.mp hk with ⟨p, hp, rfl⟩
    exact Or.inr ⟨p, mem_visible.mpr ⟨hp, hall p hp⟩, Or.inl rfl⟩

/-- If nothing is excluded, an empty ledger gets the calls back, though in another order. -/
theorem Restored.perm_calls : l'.calls.Perm l.calls := by
  apply (List.perm_ext_iff_of_nodup h.consistent.calls_nodup hl.calls_nodup).mpr
  intro c
  rw [h.calls]
  constructor
  · rintro (hc | ⟨hc, -⟩)
    · simp at hc
    · exact hc
  · intro hc
    rcases List.mem_map.mp (hl.callee c hc) with ⟨p, hp, hkey⟩
    exact Or.inr ⟨hc, p, mem_visible.mpr ⟨hp, hall p hp⟩, Or.inl hkey.symm⟩

end Whole

end Ledger

namespace Graph

/-- A graph loads the records of any ledger that a history leaves behind, in any order. -/
theorem Records.loadAll_records {g : Graph} {base l : Ledger} (h : g.Records base)
    (hbase : base.Consistent) (hl : l.Consistent) {host : Host}
    (hhost : ∀ k ∈ l.keys, k.canonical host = k) {rs : List Record} (hrs : rs.Perm l.records) :
    ∃ g' l', g.loadAll host rs = .ok g' ∧ g'.Records l' ∧ Ledger.Restored l base l' := by
  have hok : ∀ r ∈ rs, recordProblem host r = none := by
    intro r hr
    rcases List.mem_map.mp (hrs.mem_iff.mp hr) with ⟨p, -, rfl⟩
    exact Ledger.recordProblem_record l p host
  rcases h.loadAll hok with ⟨g', hg', h'⟩
  exact ⟨g', _, hg', h', Ledger.restored_absorbAll hl hhost hbase hrs⟩

end Graph

end CallGraph
