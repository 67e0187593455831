import CallGraph.Proofs.Renumbering

/-!
# Loading in another order

Records only add methods and calls, set flags, and tell the sources of their own methods.  Those
that agree on the sources can therefore be loaded in any order and any number of times: the graphs
that come out differ in the numbers of what is new.  A record that is loaded again changes nothing
at all.

Main results:

- Theorem `alike_absorbAll` says that the order and the repetition of records do not matter to a
  ledger.
- Theorem `Records.absorb_absorb` says that a record that is taken in again changes nothing.
- Theorem `branches_loadAll` says what both mean for a graph with a history.
-/

namespace CallGraph

/-- Profiles are equal part by part. -/
theorem Profile.eq_of_parts {p q : Profile} (hkey : p.key = q.key) (hsource : p.source = q.source)
    (hroot : p.root = true ↔ q.root = true) (hrecursive : p.recursive = true ↔ q.recursive = true)
    (hexcluded : p.excluded = true ↔ q.excluded = true) : p = q := by
  cases p
  cases q
  rw [← Bool.eq_iff_iff] at hroot hrecursive hexcluded
  simp_all

namespace Ledger

variable {host : Host} {rs rs' : List Record}

/-- A fact that records keep or make true does not depend on their order and repetition. -/
theorem absorbAll_iff {P : Ledger → Prop} {Q : Record → Prop}
    (hstep : ∀ l r, P (l.absorb host r) ↔ P l ∨ Q r) (hsame : ∀ r, r ∈ rs' ↔ r ∈ rs)
    (l : Ledger) : P (l.absorbAll host rs') ↔ P (l.absorbAll host rs) := by
  have hfold : ∀ rs, P (l.absorbAll host rs) ↔ P l ∨ ∃ r ∈ rs, Q r :=
    fun rs => foldl_iff rs (fun l r _ => hstep l r) l
  rw [hfold, hfold]
  simp only [hsame]

/-- The source of a method of which some records tell is the one on which they agree. -/
theorem source_absorbAll {l : Ledger} {k : Key} {s : Option Source}
    (hagree : ∀ r ∈ rs, r.key.canonical host = k → Graph.sourceOf r = s)
    (hs : (l.profile k).source = s ∨ ∃ r ∈ rs, r.key.canonical host = k) :
    ((l.absorbAll host rs).profile k).source = s := by
  induction rs generalizing l with
  | nil =>
    rcases hs with hs | ⟨r, hr, -⟩
    · exact hs
    · simp at hr
  | cons r rest ih =>
    rw [absorbAll_cons]
    apply ih fun r' hr' => hagree r' (List.mem_cons_of_mem r hr')
    rw [profile_absorb]
    by_cases hk : r.key.canonical host = k
    · left
      rw [if_pos hk]
      exact hagree r List.mem_cons_self hk
    · simpa [hk] using hs

/-- Records of one method that agree on the file, and on the line if there is a file, tell the same
source. -/
theorem sourceOf_eq {r r' : Record} (hfile : r.file = r'.file)
    (hline : r.file ≠ none → r.line = r'.line) : Graph.sourceOf r = Graph.sourceOf r' := by
  unfold Graph.sourceOf
  rw [← hfile]
  cases hr : r.file with
  | none => rfl
  | some file => rw [hline (by simp [hr])]

section Alike

variable (hagree : ∀ r ∈ rs, ∀ r' ∈ rs, r.key.canonical host = r'.key.canonical host →
    Graph.sourceOf r = Graph.sourceOf r')
  (hsame : ∀ r, r ∈ rs' ↔ r ∈ rs) (l : Ledger)

include hagree hsame

/-- Records that agree on the sources give the same ones in any order and number. -/
theorem source_absorbAll_eq (k : Key) : ((l.absorbAll host rs').profile k).source =
    ((l.absorbAll host rs).profile k).source := by
  by_cases hk : ∃ r ∈ rs, r.key.canonical host = k
  · obtain ⟨r, hr, hkey⟩ := hk
    have htold : ∀ r' ∈ rs, r'.key.canonical host = k → Graph.sourceOf r' = Graph.sourceOf r :=
      fun r' hr' hkey' => hagree r' hr' r hr (hkey'.trans hkey.symm)
    have hother : ((l.absorbAll host rs').profile k).source = Graph.sourceOf r := by
      apply source_absorbAll
      · intro r' hr'
        exact htold r' ((hsame r').mp hr')
      · exact Or.inr ⟨r, (hsame r).mpr hr, hkey⟩
    rw [hother, source_absorbAll htold (Or.inr ⟨r, hr, hkey⟩)]
  · have hne : ∀ r ∈ rs, r.key.canonical host ≠ k := fun r hr hkey => hk ⟨r, hr, hkey⟩
    rw [profile_absorbAll_of_forall_ne fun r hr => hne r ((hsame r).mp hr),
      profile_absorbAll_of_forall_ne hne]

/-- The order and the repetition of records that agree on the sources do not matter. -/
theorem alike_absorbAll : Alike (l.absorbAll host rs) (l.absorbAll host rs') where
  keys k := absorbAll_iff (P := fun l => k ∈ l.keys) (fun _ _ => mem_keys_absorb) hsame l
  calls c := absorbAll_iff (P := fun l => c ∈ l.calls) (fun _ _ => mem_calls_absorb) hsame l
  profile k := by
    apply Profile.eq_of_parts
    · rw [key_profile, key_profile]
    · exact source_absorbAll_eq hagree hsame l k
    · apply absorbAll_iff (P := fun l => (l.profile k).root = true)
        (Q := fun r => r.key.canonical host = k ∧ (r.callers.any fun c => c.caller.isNone) = true)
        ?_ hsame
      intro l r
      rw [profile_absorb]
      by_cases hk : r.key.canonical host = k <;> simp [hk, Profile.called, Profile.told]
    · apply absorbAll_iff (P := fun l => (l.profile k).recursive = true)
        (Q := fun r => r.key.canonical host = k ∧ r.recursive = true) ?_ hsame
      intro l r
      rw [profile_absorb]
      by_cases hk : r.key.canonical host = k <;> simp [hk, Profile.called, Profile.told]
    · apply absorbAll_iff (P := fun l => (l.profile k).excluded = true) (Q := fun _ => False)
        ?_ hsame
      intro l r
      rw [profile_absorb]
      by_cases hk : r.key.canonical host = k <;> simp [hk, Profile.called, Profile.told]

end Alike

end Ledger

namespace Graph

/-! ## Loading again -/

/-- Steps that do nothing can be repeated. -/
theorem foldl_eq_self {g : Graph} {step : Graph → CallRecord → Graph} {calls : List CallRecord}
    (h : ∀ c ∈ calls, step g c = g) : calls.foldl step g = g := by
  induction calls with
  | nil => rfl
  | cons c rest ih =>
    rw [List.foldl_cons, h c List.mem_cons_self]
    exact ih fun c' hc' => h c' (List.mem_cons_of_mem c hc')

section Again

variable {g : Graph} {l : Ledger} (h : g.Records l)

include h

/-- A method that is recorded has its node. -/
theorem Records.intern_eq_self {k : Key} (hk : k ∈ l.keys) (source : Option Source) :
    ∃ id, g.Has ⟨id, k⟩ ∧ g.intern k source = (g, id) := by
  obtain ⟨id, hid⟩ := exists_has_of_mem (h.mem_keys_iff.mp hk)
  exact ⟨id, hid, intern_of_lookup ((h.sound.registry k id).mpr hid) source⟩

/-- A call that is recorded has its edge. -/
theorem Records.link_eq_self {caller : Option Vertex} {callee : Vertex}
    (hcaller : ∀ c, caller = some c → g.Has c) (hcallee : g.Has callee)
    (hmem : ⟨caller.map Vertex.key, callee.key⟩ ∈ l.calls) : (g.link caller callee).1 = g := by
  rw [← h.ledger_eq, h.sound.mem_calls_iff hcaller hcallee] at hmem
  obtain ⟨id, hjoin⟩ := hmem
  rw [link_of_edgeBetween ((h.sound.edgeBetween_iff hcaller hcallee).mpr hjoin)]

variable (hl : l.Consistent) {v : Vertex} (hv : g.Has v)

include hl hv

/-- A change that does nothing to a node that is known like this leaves the graph as it is. -/
theorem Records.adjust_eq_self {f : Node → Node}
    (hf : ∀ n : Node, n.profile = l.profile v.key → f n = n) : g.adjust v.id f = g := by
  apply Graph.adjust_eq_self
  intro n hn
  obtain ⟨m, hm, hkey⟩ := has_iff_node.mp hv
  have hsame : m = n := by
    rw [(node_eq_ok_iff.mp hm).2, Option.some.injEq] at hn
    exact hn
  subst hsame
  apply hf
  rw [← hkey, h.profile_eq hl hm]

/-- A caller whose call is recorded already adds nothing. -/
theorem Records.absorbCaller_eq_self {host : Host} {c : CallRecord}
    (hmem : ⟨c.caller.map (Key.canonical host), v.key⟩ ∈ l.calls) :
    Graph.absorbCaller host v g c = g := by
  unfold Graph.absorbCaller
  cases hcaller : c.caller with
  | none =>
    rw [hcaller, Option.map_none] at hmem
    have hroot := (hl.root v.key).mpr hmem
    have hadjust : g.adjust v.id (fun n => { n with root := true }) = g := by
      apply h.adjust_eq_self hl hv
      intro n hn
      have hn' : n.root = true := by
        rw [← hroot, ← hn]
        rfl
      rw [← hn']
    simp only [hadjust]
    exact h.link_eq_self (by simp) hv hmem
  | some peer =>
    rw [hcaller, Option.map_some] at hmem
    obtain ⟨id, hid, hintern⟩ := h.intern_eq_self (hl.caller _ hmem _ rfl) none
    simp only [hintern]
    exact h.link_eq_self (fun c hc => Option.some.inj hc ▸ hid) hv hmem

/-- A callee whose call is recorded already adds nothing. -/
theorem Records.absorbCallee_eq_self {host : Host} {c : CallRecord}
    (hmem : ⟨some v.key, c.callee.canonical host⟩ ∈ l.calls) :
    Graph.absorbCallee host v g c = g := by
  obtain ⟨id, hid, hintern⟩ := h.intern_eq_self (hl.callee _ hmem) none
  simp only [Graph.absorbCallee, hintern]
  exact h.link_eq_self (fun c hc => Option.some.inj hc ▸ hv) hid hmem

end Again

/-- A record that is taken in again changes nothing. -/
theorem Records.absorb_absorb {g : Graph} {l : Ledger} (h : g.Records l) (hl : l.Consistent)
    (host : Host) (r : Record) : (g.absorb host r).1.absorb host r = g.absorb host r := by
  obtain ⟨h', hv⟩ := h.absorb host r
  have hl' := hl.absorb host r
  cases hpair : g.absorb host r with
  | mk g' id =>
    rw [hpair] at h' hv
    have hintern : g'.intern (r.key.canonical host) none = (g', id) :=
      intern_of_lookup ((h'.sound.registry _ _).mpr hv) none
    -- What the record sets was set the first time, so setting it again leaves the node as it is.
    have hdescribe : g'.adjust id (fun n =>
        { n with source := sourceOf r, recursive := n.recursive || r.recursive }) = g' := by
      apply h'.adjust_eq_self hl' hv
      intro n hn
      rw [Ledger.profile_absorb, if_pos rfl] at hn
      have hsource : n.source = sourceOf r := congrArg Profile.source hn
      have hrecursive : n.recursive =
          (((l.profile (r.key.canonical host)).recursive || r.recursive) || false) :=
        congrArg Profile.recursive hn
      have hagain : (n.recursive || r.recursive) = n.recursive := by
        rw [hrecursive]
        cases r.recursive <;> simp
      rw [hagain, ← hsource]
    have hcallers :
        r.callers.foldl (Graph.absorbCaller host ⟨id, r.key.canonical host⟩) g' = g' := by
      apply foldl_eq_self
      intro c hc
      apply h'.absorbCaller_eq_self hl' hv
      exact Ledger.mem_calls_absorb.mpr (Or.inr (Or.inl ⟨c, hc, rfl⟩))
    have hcallees :
        r.callees.foldl (Graph.absorbCallee host ⟨id, r.key.canonical host⟩) g' = g' := by
      apply foldl_eq_self
      intro c hc
      apply h'.absorbCallee_eq_self hl' hv
      exact Ledger.mem_calls_absorb.mpr (Or.inr (Or.inr ⟨c, hc, rfl⟩))
    simp only [Graph.absorb, hintern, hdescribe, hcallers, hcallees]

/-- A load is accepted exactly if its record has no problem. -/
theorem exists_load_iff {g : Graph} {host : Host} {r : Record} :
    (∃ out, g.load host r = .ok out) ↔ recordProblem host r = none := by
  constructor
  · rintro ⟨⟨g', id⟩, hload⟩
    exact (load_eq_ok_iff.mp hload).1
  · intro h
    exact ⟨g.absorb host r, load_of_problem_none h⟩

/-- A record that is taken in makes its graph grow. -/
theorem grows_absorb (g : Graph) (host : Host) (r : Record) : g.Grows (g.absorb host r).1 :=
  ⟨extends_absorb g host r, stack_absorb g host r, remembered_absorb g host r⟩

/-- A graph grows by a record that it loads. -/
theorem grows_of_load {g g' : Graph} {host : Host} {r : Record} {id : NodeId}
    (h : g.load host r = .ok (g', id)) : g.Grows g' := by
  have hgrows := grows_absorb g host r
  rwa [(load_eq_ok_iff.mp h).2] at hgrows

/-- A graph grows by all records that it loads. -/
theorem grows_loadAll {g g' : Graph} {host : Host} {rs : List Record}
    (h : g.loadAll host rs = .ok g') : g.Grows g' := by
  induction rs generalizing g with
  | nil =>
    have hsame : g = g' := Except.ok.inj h
    exact hsame ▸ .refl g
  | cons r rest ih =>
    obtain ⟨⟨next, id⟩, hload, hrest⟩ := bind_eq_ok_iff.mp h
    exact (grows_of_load hload).trans (ih hrest)

/-! ## Any order, any number of times -/

/-- Records that agree on the sources make the same graph in any order and with any repetition, but
for the numbers of what is new; and a record that is loaded again changes nothing. -/
theorem branches_loadAll (actions : List Action) {host : Host} {rs rs' : List Record}
    (haccepted : ∀ r ∈ rs, ∃ out, (empty.applyAll actions).load host r = .ok out)
    (hagree : ∀ r ∈ rs, ∀ r' ∈ rs, r.key.canonical host = r'.key.canonical host →
      r.file = r'.file ∧ (r.file ≠ none → r.line = r'.line))
    (hsame : ∀ r, r ∈ rs' ↔ r ∈ rs) :
    let base := empty.applyAll actions
    (∃ g g' ν ε, base.loadAll host rs = .ok g ∧ base.loadAll host rs' = .ok g' ∧
      base.Branches g ν ε g') ∧
    ∀ r g id, base.load host r = .ok (g, id) → g.load host r = .ok (g, id) := by
  intro base
  have hbase := records_applyAll actions
  have hlbase := Ledger.consistent_empty.applyAll actions
  constructor
  · have hok : ∀ r ∈ rs, recordProblem host r = none :=
      fun r hr => exists_load_iff.mp (haccepted r hr)
    have hsources : ∀ r ∈ rs, ∀ r' ∈ rs, r.key.canonical host = r'.key.canonical host →
        sourceOf r = sourceOf r' := by
      intro r hr r' hr' hkey
      obtain ⟨hfile, hline⟩ := hagree r hr r' hr' hkey
      exact Ledger.sourceOf_eq hfile hline
    obtain ⟨g, hload, hg⟩ := hbase.loadAll hok
    obtain ⟨g', hload', hg'⟩ := hbase.loadAll fun r hr => hok r ((hsame r).mp hr)
    have halike := Ledger.alike_absorbAll hsources hsame (Ledger.applyAll {} actions)
    have hbranches := (grows_loadAll hload).branches (grows_loadAll hload') hbase.sound hg hg'
      halike (hlbase.absorbAll host rs) (hlbase.absorbAll host rs')
    exact ⟨g, g', _, _, hload, hload', hbranches⟩
  · intro r g id hload
    obtain ⟨hproblem, habsorb⟩ := load_eq_ok_iff.mp hload
    have hagain := hbase.absorb_absorb hlbase host r
    rw [habsorb] at hagain
    exact load_eq_ok_iff.mpr ⟨hproblem, hagain⟩

/-- A record of the method that is open in the small session, with a call through a proxy. -/
def appRecord : Record :=
  ⟨⟨some ⟨1⟩, some ⟨10⟩⟩, false, some "app.rb", 3, [⟨none, ⟨some ⟨1⟩, some ⟨10⟩⟩⟩],
    [⟨some ⟨some ⟨1⟩, some ⟨10⟩⟩, ⟨some ⟨5⟩, some ⟨14⟩⟩⟩]⟩

/-- A record of the method at the other end of that call, which has another caller. -/
def kernelRecord : Record :=
  ⟨⟨some ⟨4⟩, some ⟨14⟩⟩, true, none, 0,
    [⟨some ⟨some ⟨1⟩, some ⟨11⟩⟩, ⟨some ⟨4⟩, some ⟨14⟩⟩⟩,
      ⟨some ⟨some ⟨1⟩, some ⟨10⟩⟩, ⟨some ⟨5⟩, some ⟨14⟩⟩⟩], []⟩

/-- Two records that share a call, on top of a small session: the edges that they bring have other
numbers in another order. -/
theorem branches_loadAll_kernelActions :
    let base := empty.applyAll kernelActions
    let once := [appRecord, kernelRecord]
    let again := [kernelRecord, appRecord, kernelRecord]
    ((∃ g g' ν ε, base.loadAll kernelHost once = .ok g ∧ base.loadAll kernelHost again = .ok g' ∧
      base.Branches g ν ε g') ∧
    ∀ r g id, base.load kernelHost r = .ok (g, id) → g.load kernelHost r = .ok (g, id)) ∧
      (fun g => Array.toList g.edges) <$> base.loadAll kernelHost once ≠
        (fun g => Array.toList g.edges) <$> base.loadAll kernelHost again := by
  intro base once again
  have hproblem : ∀ r ∈ once, recordProblem kernelHost r = none := by decide
  refine ⟨branches_loadAll kernelActions ?_ ?_ ?_, by decide⟩
  · intro r hr
    exact exists_load_iff.mpr (hproblem r hr)
  · decide
  · intro r
    simp only [once, again, List.mem_cons, List.not_mem_nil, or_false]
    constructor
    · rintro (hr | hr | hr)
      · exact Or.inr hr
      · exact Or.inl hr
      · exact Or.inr hr
    · exact Or.inr

end Graph

end CallGraph
