import CallGraph.Proofs.Dump
import CallGraph.Proofs.Transitions

/-!
# Agreement on what is shown

Methods that are excluded are recorded but never shown, and neither is a call between two of them.
Ledgers that differ in these alone have the same records, and a replay leaves them like that.

Main results:

- Theorem `Agree.replay` says that a replay keeps ledgers in agreement.
- Theorem `Agree.perm_records` says that ledgers in agreement have the same records.
- Theorem `profile_excludeAll` says what is known of a method after others were excluded.
-/

namespace CallGraph

namespace Ledger

/-! ## Ledgers in agreement -/

/-- Whether a method is excluded. -/
def hides (l : Ledger) (k : Key) : Bool := (l.profile k).excluded

/-- Whether one of the ends of a call is not excluded. -/
def shows (l : Ledger) (c : CallRecord) : Prop :=
  l.hides c.callee = false ∨ ∃ k, c.caller = some k ∧ l.hides k = false

/-- Ledgers that may differ in what they know of excluded methods and in the calls between these. -/
structure Agree (l l' : Ledger) : Prop where
  stack : l'.stack = l.stack
  keys : ∀ k, k ∈ l'.keys ↔ k ∈ l.keys
  hides : ∀ k, l'.hides k = l.hides k
  profile : ∀ k, l.hides k = false → l'.profile k = l.profile k
  calls : ∀ c, l.shows c → (c ∈ l'.calls ↔ c ∈ l.calls)

/-- A call hides no method and shows none. -/
theorem hides_enter (l : Ledger) (host : Host) (o : Observation) (k : Key) :
    (l.enter host o).hides k = l.hides k := by
  unfold hides
  rw [profile_enter]
  split
  · by_cases hk : k ∈ l.keys
    · rw [if_pos hk]
      rfl
    · rw [if_neg hk, profile_of_not_mem hk]
      rfl
  · rfl

/-- A call keeps ledgers in agreement. -/
theorem Agree.enter {l l' : Ledger} (h : Agree l l') (host : Host) (o : Observation) :
    Agree (l.enter host o) (l'.enter host o) where
  stack := by
    rw [enter_eq, enter_eq, h.stack]
  keys k := by
    rw [mem_keys_enter, mem_keys_enter, h.keys]
  hides k := by
    rw [hides_enter, hides_enter, h.hides]
  profile k hk := by
    rw [hides_enter] at hk
    rw [profile_enter, profile_enter, h.profile k hk, h.stack]
    simp only [h.keys]
  calls c hc := by
    have hshows : l.shows c := by
      simpa only [shows, hides_enter] using hc
    rw [mem_calls_enter, mem_calls_enter, h.calls c hshows, h.stack]

/-- Ledgers that agree do so after a return. -/
theorem Agree.leave {l l' : Ledger} (h : Agree l l') : Agree l.leave l'.leave :=
  ⟨congrArg List.tail h.stack, h.keys, h.hides, h.profile, h.calls⟩

/-- What calls and returns keep between two ledgers, a replay of both keeps. -/
theorem rel_replay {R : Ledger → Ledger → Prop} {host : Host}
    (henter : ∀ l l' o, R l l' → R (l.enter host o) (l'.enter host o))
    (hleave : ∀ l l', R l l' → R l.leave l'.leave) (l l' : Ledger) (h : R l l')
    (events : List Event) :
    R (l.applyAll (events.map (Replay.action host)))
      (l'.applyAll (events.map (Replay.action host))) := by
  induction events generalizing l l' with
  | nil => exact h
  | cons e rest ih =>
    cases e with
    | call o => exact ih _ _ (henter l l' o h)
    | leave => exact ih _ _ (hleave l l' h)

/-- Whatever is replayed, ledgers stay in agreement. -/
theorem Agree.replay {l l' : Ledger} (h : Agree l l') (host : Host) (events : List Event) :
    Agree (l.applyAll (events.map (Replay.action host)))
      (l'.applyAll (events.map (Replay.action host))) :=
  rel_replay (fun _ _ o h => h.enter host o) (fun _ _ h => h.leave) l l' h events

/-- No method is told twice among those that are visible. -/
theorem nodup_visible {l : Ledger} (hl : l.Consistent) : l.visible.Nodup :=
  (hl.keys_nodup.of_map Profile.key).filter _

/-- A method that is not excluded is shown as what is known of it. -/
theorem mem_visible_iff {l : Ledger} (hl : l.Consistent) {p : Profile} :
    p ∈ l.visible ↔ p.key ∈ l.keys ∧ l.hides p.key = false ∧ l.profile p.key = p := by
  rw [mem_visible, mem_profiles_iff hl.keys_nodup, hides]
  constructor
  · rintro ⟨⟨hk, hp⟩, hexcluded⟩
    refine ⟨hk, ?_, hp⟩
    rw [hp]
    exact hexcluded
  · rintro ⟨hk, hexcluded, hp⟩
    rw [hp] at hexcluded
    exact ⟨⟨hk, hp⟩, hexcluded⟩

/-- Ledgers in agreement have the same records. -/
theorem Agree.perm_records {l l' : Ledger} (h : Agree l l') (hl : l.Consistent)
    (hl' : l'.Consistent) : l'.records.Perm l.records := by
  have hvisible : l'.visible.Perm l.visible := by
    rw [List.perm_ext_iff_of_nodup (nodup_visible hl') (nodup_visible hl)]
    intro p
    rw [mem_visible_iff hl', mem_visible_iff hl, h.keys, h.hides]
    refine and_congr_right fun _ => and_congr_right fun hk => ?_
    rw [h.profile p.key hk]
  have hrecord : ∀ p ∈ l.visible, l'.record p = l.record p := by
    intro p hp
    have hhides := ((mem_visible_iff hl).mp hp).2.1
    refine record_congr hl hl' fun c hc => h.calls c ?_
    rcases hc with hc | hc
    · exact Or.inl (hc ▸ hhides)
    · exact Or.inr ⟨p.key, hc, hhides⟩
  calc l'.records = l'.visible.map l'.record := rfl
    List.Perm _ (l.visible.map l'.record) := hvisible.map _
    _ = l.visible.map l.record := List.map_congr_left hrecord

/-! ## Exclusions -/

/-- Exclude methods one after the other. -/
def excludeAll (l : Ledger) (host : Host) (keys : List Key) : Ledger :=
  keys.foldl (fun l k => l.exclude host k) l

/-- Methods are excluded one after the other. -/
theorem excludeAll_cons (l : Ledger) (host : Host) (k : Key) (keys : List Key) :
    l.excludeAll host (k :: keys) = (l.exclude host k).excludeAll host keys := rfl

/-- A ledger stays consistent when methods are excluded. -/
theorem Consistent.excludeAll {l : Ledger} (hl : l.Consistent) (host : Host) (keys : List Key) :
    (l.excludeAll host keys).Consistent := by
  induction keys generalizing l with
  | nil => exact hl
  | cons k rest ih => exact ih (hl.exclude host k)

/-- Exclusions record no call. -/
@[simp] theorem calls_excludeAll (l : Ledger) (host : Host) (keys : List Key) :
    (l.excludeAll host keys).calls = l.calls :=
  foldl_leaves calls (fun l k => calls_exclude l host k) l keys

/-- Exclusions leave the open calls alone. -/
@[simp] theorem stack_excludeAll (l : Ledger) (host : Host) (keys : List Key) :
    (l.excludeAll host keys).stack = l.stack :=
  foldl_leaves stack (fun l k => stack_exclude l host k) l keys

/-- Methods that are excluded are recorded from then on. -/
theorem mem_keys_excludeAll {l : Ledger} {host : Host} {keys : List Key} {k : Key} :
    k ∈ (l.excludeAll host keys).keys ↔ k ∈ l.keys ∨ k ∈ keys.map (Key.canonical host) := by
  induction keys generalizing l with
  | nil => simp [excludeAll]
  | cons k' rest ih =>
    rw [excludeAll_cons, ih, mem_keys_exclude, List.map_cons, List.mem_cons, or_assoc]

/-- Exclusions hide the methods that they name and are told of no other one. -/
theorem profile_excludeAll (l : Ledger) (host : Host) (keys : List Key) (k : Key) :
    (l.excludeAll host keys).profile k =
      if k ∈ keys.map (Key.canonical host) then (l.profile k).hidden else l.profile k := by
  induction keys generalizing l with
  | nil => simp [excludeAll]
  | cons k' rest ih =>
    rw [excludeAll_cons, ih, profile_exclude]
    by_cases hk : k'.canonical host = k
    · by_cases hrest : k ∈ rest.map (Key.canonical host) <;>
        simp [hk, hrest, Profile.hidden]
    · have hne : ¬ k = k'.canonical host := fun h => hk h.symm
      simp [hk, hne]

/-- A method is hidden after some exclusions if it is among them or was hidden before. -/
theorem hides_excludeAll (l : Ledger) (host : Host) (keys : List Key) (k : Key) :
    (l.excludeAll host keys).hides k =
      (decide (k ∈ keys.map (Key.canonical host)) || l.hides k) := by
  unfold hides
  rw [profile_excludeAll]
  split
  · rename_i hk
    rw [decide_eq_true hk]
    rfl
  · rename_i hk
    rw [decide_eq_false hk, Bool.false_or]

/-! ## What a replay keeps -/

/-- What calls and returns keep, a replay keeps. -/
theorem prop_replay {P : Ledger → Prop} {host : Host}
    (henter : ∀ l o, P l → P (l.enter host o)) (hleave : ∀ l, P l → P l.leave) {l : Ledger}
    (h : P l) (events : List Event) : P (l.applyAll (events.map (Replay.action host))) :=
  rel_replay (R := fun l _ => P l) (fun l _ => henter l) (fun l _ => hleave l) l l h events

/-- A replay hides no method and shows none. -/
theorem hides_replay (l : Ledger) (host : Host) (events : List Event) (k : Key) :
    (l.applyAll (events.map (Replay.action host))).hides k = l.hides k := by
  refine prop_replay (P := fun l' => l'.hides k = l.hides k) ?_ ?_ rfl events
  · intro l' o h
    exact (hides_enter l' host o k).trans h
  · intro l' h
    exact h

/-- A method that is recorded stays recorded through a replay. -/
theorem mem_keys_replay {l : Ledger} (host : Host) (events : List Event) {k : Key}
    (hk : k ∈ l.keys) : k ∈ (l.applyAll (events.map (Replay.action host))).keys := by
  refine prop_replay (P := fun l' => k ∈ l'.keys) ?_ ?_ hk events
  · intro l' o h
    exact mem_keys_enter.mpr (Or.inl h)
  · intro l' h
    exact h

/-- The open calls depend on those before and the events alone. -/
theorem stack_replay {l l' : Ledger} (h : l'.stack = l.stack) (host : Host) (events : List Event) :
    (l'.applyAll (events.map (Replay.action host))).stack =
      (l.applyAll (events.map (Replay.action host))).stack := by
  refine rel_replay (R := fun l l' => l'.stack = l.stack) ?_ ?_ l l' h events
  · intro l l' o h
    rw [stack_enter, stack_enter, h]
  · intro l l' h
    exact congrArg List.tail h

/-- Keys that a host has made it leaves alone if no proxy stands for another one. -/
theorem canonical_make {host : Host}
    (hhost : ∀ ty, host.isProxy ty = true → host.isProxy (host.target ty) = false)
    (owner : Option TypeId) (method : Option MethodId) :
    (Key.make host owner method).canonical host = Key.make host owner method := by
  rw [Key.make_eq_self]
  intro ty hty
  rw [Key.make_owner, Option.map_eq_some_iff] at hty
  rcases hty with ⟨ty', -, rfl⟩
  cases hproxy : host.isProxy ty' with
  | true => simp [Key.canonicalOwner, hproxy, hhost ty' hproxy]
  | false => simp [Key.canonicalOwner, hproxy]

/-- A host that has no proxies of proxies leaves alone all keys that a replay records. -/
theorem canonical_replay {host : Host}
    (hhost : ∀ ty, host.isProxy ty = true → host.isProxy (host.target ty) = false) {l : Ledger}
    (hl : ∀ k ∈ l.keys, k.canonical host = k) (events : List Event) :
    ∀ k ∈ (l.applyAll (events.map (Replay.action host))).keys, k.canonical host = k := by
  refine prop_replay (P := fun l => ∀ k ∈ l.keys, k.canonical host = k) ?_ ?_ hl events
  · intro l' o h k hk
    rcases mem_keys_enter.mp hk with hk | rfl
    · exact h k hk
    · exact canonical_make hhost o.owner o.method
  · intro l' h
    exact h

end Ledger

namespace Graph

/-! ## Replays and their ledgers -/

/-- Excluding methods does to a ledger what it does to its graph. -/
theorem Records.excludeAll {g : Graph} {l : Ledger} (h : g.Records l) (host : Host)
    (keys : List Key) : (Replay.excludeAll host g keys).Records (l.excludeAll host keys) := by
  induction keys generalizing g l with
  | nil => exact h
  | cons k rest ih => exact ih (h.exclude host k)

/-- A replay does to a ledger what it does to its graph. -/
theorem Records.run {s : Replay.State} {l : Ledger} (h : s.graph.Records l) (host : Host)
    (events : List Event) :
    (Replay.run host s events).graph.Records
      (l.applyAll (events.map (Replay.action host))) := by
  rw [Replay.graph_run]
  exact h.applyAll _

end Graph

end CallGraph
