import CallGraph.Proofs.Agreement
import CallGraph.Proofs.RoundTrip

/-!
# Going on from records

A session that is cut while no call is open can go on from its records: a new graph that loads them
lacks only the calls between excluded methods, and these never show.  Whatever happens then, both
graphs keep agreeing on everything that they show.

Main results:

- Theorem `Reopened.agree` says that what was loaded and excluded agrees with what it comes from.
- Theorem `perm_records_resume` says that a session that goes on from its records, with its
  exclusions made again before or after these are loaded, ends with the records of one that was
  never cut.
-/

namespace CallGraph

namespace Ledger

/-! ## Loading and excluding -/

/-- The ledger `l'` holds what the records of `l` tell, with the methods of `hidden` excluded. -/
structure Reopened (l : Ledger) (hidden : List Key) (l' : Ledger) : Prop where
  consistent : l'.Consistent
  stack : l'.stack = []
  keys : ∀ k, k ∈ l'.keys ↔ k ∈ hidden ∨ ∃ p ∈ l.visible, k = p.key ∨
    ∃ c ∈ l.calls, (c.callee = p.key ∧ c.caller = some k) ∨ (c.caller = some p.key ∧ c.callee = k)
  calls : ∀ c, c ∈ l'.calls ↔
    c ∈ l.calls ∧ ∃ p ∈ l.visible, c.callee = p.key ∨ c.caller = some p.key
  hides : ∀ k, l'.hides k = decide (k ∈ hidden)
  profile : ∀ p ∈ l.visible, p.key ∉ hidden → l'.profile p.key = p

/-- Records that are taken in hide no method and bring none back that was hidden. -/
theorem Restored.hides_eq {l base l' : Ledger} (h : Restored l base l') (k : Key) :
    l'.hides k = base.hides k := by
  unfold hides
  by_cases hk : ∃ p ∈ l.visible, p.key = k
  · rcases hk with ⟨p, hp, rfl⟩
    rw [h.told p hp]
    rfl
  · rw [h.untold k fun p hp hkey => hk ⟨p, hp, hkey⟩]

/-- Records that are loaded after the exclusions were made. -/
theorem reopened_of_restored {l l' : Ledger} {host : Host} {keys : List Key}
    (h : Restored l (excludeAll {} host keys) l') :
    Reopened l (keys.map (Key.canonical host)) l' where
  consistent := h.consistent
  stack := by rw [h.stack, stack_excludeAll]
  keys k := by
    rw [h.keys, mem_keys_excludeAll]
    simp [Ledger.keys]
  calls c := by
    rw [h.calls, calls_excludeAll]
    simp
  hides k := by
    rw [h.hides_eq, hides_excludeAll]
    exact Bool.or_false _
  profile p hp hk := by
    apply h.profile_eq hp
    rw [profile_excludeAll, if_neg hk]
    rfl

/-- Exclusions that are made after the records were loaded. -/
theorem reopened_excludeAll {l l' : Ledger} (host : Host) (keys : List Key)
    (h : Restored l {} l') :
    Reopened l (keys.map (Key.canonical host)) (l'.excludeAll host keys) where
  consistent := h.consistent.excludeAll host keys
  stack := by rw [stack_excludeAll, h.stack]
  keys k := by
    rw [mem_keys_excludeAll, h.keys]
    simp [Ledger.keys, or_comm]
  calls c := by
    rw [calls_excludeAll, h.calls]
    simp
  hides k := by
    rw [hides_excludeAll, h.hides_eq]
    exact Bool.or_false _
  profile p hp hk := by
    rw [profile_excludeAll, if_neg hk]
    exact h.profile_eq hp rfl

/-- What is loaded and excluded agrees with the ledger from which it comes. -/
theorem Reopened.agree {l l' : Ledger} {hidden : List Key} (h : Reopened l hidden l')
    (hl : l.Consistent) (hstack : l.stack = []) (hkeys : ∀ k ∈ hidden, k ∈ l.keys)
    (hhides : ∀ k, l.hides k = decide (k ∈ hidden)) : Agree l l' := by
  have hvisible : ∀ k ∈ l.keys, l.hides k = false → l.profile k ∈ l.visible := by
    intro k hk hshown
    exact mem_visible.mpr ⟨mem_profiles_of_mem hk, hshown⟩
  -- What is hidden is recorded on both sides, and anything else comes with the records.
  have hkeys' : ∀ k, k ∈ l'.keys ↔ k ∈ l.keys := by
    intro k
    rw [h.keys]
    constructor
    · rintro (hk | ⟨p, hp, rfl | ⟨c, hc, ⟨-, hk⟩ | ⟨-, rfl⟩⟩⟩)
      · exact hkeys k hk
      · exact ((mem_visible_iff hl).mp hp).1
      · exact hl.caller c hc k hk
      · exact hl.callee c hc
    · intro hk
      by_cases hhidden : k ∈ hidden
      · exact Or.inl hhidden
      · have hshown : l.hides k = false := by rw [hhides, decide_eq_false hhidden]
        exact Or.inr ⟨_, hvisible k hk hshown, Or.inl (key_profile l k).symm⟩
  refine ⟨by rw [h.stack, hstack], hkeys', ?_, ?_, ?_⟩
  · intro k
    rw [h.hides, hhides]
  · intro k hshown
    by_cases hk : k ∈ l.keys
    · have hhidden : k ∉ hidden := by
        intro hmem
        rw [hhides, decide_eq_true hmem] at hshown
        simp at hshown
      have hprofile := h.profile _ (hvisible k hk hshown)
      rw [key_profile] at hprofile
      exact hprofile hhidden
    · rw [profile_of_not_mem hk, profile_of_not_mem fun hk' => hk ((hkeys' k).mp hk')]
  · intro c hc
    rw [h.calls]
    refine and_iff_left_of_imp fun hmem => ?_
    rcases hc with hshown | ⟨k, hcaller, hshown⟩
    · exact ⟨_, hvisible _ (hl.callee c hmem) hshown, Or.inl (key_profile l _).symm⟩
    · refine ⟨_, hvisible k (hl.caller c hmem k hcaller) hshown, Or.inr ?_⟩
      rw [hcaller, key_profile]

/-! ## Sessions that are cut -/

/-- What a session records that excludes methods and then replays events. -/
def session (host : Host) (excluded : List Key) (events : List Event) : Ledger :=
  (excludeAll {} host excluded).applyAll (events.map (Replay.action host))

section Session

variable (host : Host) (excluded : List Key) (events : List Event)

/-- The ledger of a session that excludes methods at its start is consistent. -/
theorem consistent_session : (session host excluded events).Consistent :=
  (consistent_empty.excludeAll host excluded).applyAll _

/-- A session hides the methods that it excludes, and no others. -/
theorem hides_session (k : Key) :
    (session host excluded events).hides k =
      decide (k ∈ excluded.map (Key.canonical host)) := by
  rw [session, hides_replay, hides_excludeAll]
  exact Bool.or_false _

/-- A method that is excluded is recorded from the start. -/
theorem mem_keys_session {k : Key} (hk : k ∈ excluded.map (Key.canonical host)) :
    k ∈ (session host excluded events).keys :=
  mem_keys_replay host events (mem_keys_excludeAll.mpr (Or.inr hk))

variable {host}

/-- A host without chains of proxies leaves the keys of a session alone. -/
theorem canonical_session
    (hhost : ∀ ty, host.isProxy ty = true → host.isProxy (host.target ty) = false) :
    ∀ k ∈ (session host excluded events).keys, k.canonical host = k := by
  refine canonical_replay hhost ?_ events
  intro k hk
  rcases mem_keys_excludeAll.mp hk with hk | hk
  · simp [Ledger.keys] at hk
  · rcases List.mem_map.mp hk with ⟨k', -, rfl⟩
    exact canonical_make hhost k'.owner k'.method

variable {excluded events}

/-- A session that goes on after it was reopened ends with the records of one that was never cut. -/
theorem Reopened.perm_records {l' : Ledger}
    (h : Reopened (session host excluded events) (excluded.map (Key.canonical host)) l')
    (hstack : (session host excluded events).stack = []) (rest : List Event) :
    (l'.applyAll (rest.map (Replay.action host))).records.Perm
      ((session host excluded events).applyAll (rest.map (Replay.action host))).records := by
  have hl := consistent_session host excluded events
  have hagree := h.agree hl hstack (fun k => mem_keys_session host excluded events)
    (hides_session host excluded events)
  exact (hagree.replay host rest).perm_records (hl.applyAll _) (h.consistent.applyAll _)

end Session

end Ledger

namespace Graph

/-- A session that is cut while no call is open and goes on from its records, with its exclusions
made again before or after these are loaded, ends with the records of a session that was never
cut. -/
theorem perm_records_resume {host : Host}
    (hhost : ∀ ty, host.isProxy ty = true → host.isProxy (host.target ty) = false)
    (hidden : List Key) (first second : List Event)
    (hstack : (Replay.run host {} first).graph.stack = []) :
    let start := Replay.excludeAll host empty hidden
    let cut := Replay.run host { graph := start } first
    ∃ rs whole, cut.graph.dumpAll = .ok rs ∧
      (Replay.run host cut second).graph.dumpAll = .ok whole ∧
      ∀ rs', rs'.Perm rs →
        (∃ g resumed, start.loadAll host rs' = .ok g ∧
          (Replay.run host { graph := g } second).graph.dumpAll = .ok resumed ∧
          resumed.Perm whole) ∧
        ∃ g resumed, empty.loadAll host rs' = .ok g ∧
          (Replay.run host { graph := Replay.excludeAll host g hidden } second).graph.dumpAll =
            .ok resumed ∧
          resumed.Perm whole := by
  intro start cut
  have hstart : start.Records (Ledger.excludeAll {} host hidden) :=
    (records_fresh 0).excludeAll host hidden
  have hstart' := Ledger.consistent_empty.excludeAll host hidden
  have hcut : cut.graph.Records (Ledger.session host hidden first) :=
    Records.run (s := { graph := start }) hstart host first
  have hcut' := Ledger.consistent_session host hidden first
  have hclosed : (Ledger.session host hidden first).stack = [] := by
    have hfresh := Records.run (s := {}) (records_fresh 0) host first
    have hempty := congrArg Ledger.stack hfresh.ledger_eq
    rw [stack_ledger, hstack] at hempty
    rw [Ledger.session, Ledger.stack_replay (Ledger.stack_excludeAll {} host hidden)]
    exact hempty.symm
  have hcanonical := Ledger.canonical_session hidden first hhost
  -- However the graph was reopened, the rest of the session shows the same in it.
  have hresume : ∀ {g : Graph} {l' : Ledger}, g.Records l' →
      Ledger.Reopened (Ledger.session host hidden first) (hidden.map (Key.canonical host)) l' →
      ∃ resumed, (Replay.run host { graph := g } second).graph.dumpAll = .ok resumed ∧
        resumed.Perm ((Ledger.session host hidden first).applyAll
          (second.map (Replay.action host))).records := by
    intro g l' hg hopen
    exact ⟨_, (Records.run (s := { graph := g }) hg host second).dumpAll
      (hopen.consistent.applyAll _), hopen.perm_records hclosed second⟩
  refine ⟨_, _, hcut.dumpAll hcut', (hcut.run host second).dumpAll (hcut'.applyAll _), ?_⟩
  intro rs' hperm
  constructor
  · rcases hstart.loadAll_records hstart' hcut' hcanonical hperm with ⟨g, l', hg, hrec, hrestored⟩
    rcases hresume hrec (Ledger.reopened_of_restored hrestored) with ⟨resumed, hdump, hsame⟩
    exact ⟨g, resumed, hg, hdump, hsame⟩
  · rcases (records_fresh 0).loadAll_records Ledger.consistent_empty hcut' hcanonical hperm with
      ⟨g, l', hg, hrec, hrestored⟩
    rcases hresume (hrec.excludeAll host hidden)
      (Ledger.reopened_excludeAll host hidden hrestored) with ⟨resumed, hdump, hsame⟩
    exact ⟨g, resumed, hg, hdump, hsame⟩

/-- A session that excludes the method of the module, is cut after one call of it and its return,
and goes on with a call from outside. -/
theorem perm_records_resume_kernelHost :
    let hidden : List Key := [⟨some ⟨5⟩, some ⟨13⟩⟩]
    let start := Replay.excludeAll kernelHost empty hidden
    let cut := Replay.run kernelHost { graph := start }
      [.call ⟨some ⟨1⟩, some ⟨10⟩, some "app.rb", 1, false⟩,
        .call ⟨some ⟨5⟩, some ⟨13⟩, none, 0, true⟩, .leave, .leave]
    let second := [Event.call ⟨some ⟨1⟩, some ⟨11⟩, some "app.rb", 5, false⟩]
    ∃ rs whole, cut.graph.dumpAll = .ok rs ∧
      (Replay.run kernelHost cut second).graph.dumpAll = .ok whole ∧
      ∀ rs', rs'.Perm rs →
        (∃ g resumed, start.loadAll kernelHost rs' = .ok g ∧
          (Replay.run kernelHost { graph := g } second).graph.dumpAll = .ok resumed ∧
          resumed.Perm whole) ∧
        ∃ g resumed, empty.loadAll kernelHost rs' = .ok g ∧
          (Replay.run kernelHost { graph := Replay.excludeAll kernelHost g hidden }
            second).graph.dumpAll = .ok resumed ∧
          resumed.Perm whole := by
  intro hidden start cut second
  apply perm_records_resume
  · intro ty hty
    have hproxy : (⟨5⟩ : TypeId) = ty := by
      by_contra hne
      by_cases hmodule : (⟨4⟩ : TypeId) = ty <;> by_cases hclass : (⟨1⟩ : TypeId) = ty <;>
        simp [kernelHost, TypeTable.ofEntries, TypeTable.host, TypeTable.empty, hne, hmodule,
          hclass] at hty
    subst hproxy
    decide
  · decide

end Graph

end CallGraph
