import CallGraph.Proofs.Action
import Mathlib.Data.List.Nodup

/-!
# Ledgers

A ledger is what a call graph records, told by keys alone: a list of methods and a list of calls,
both in order of first appearance, and the keys of the open calls.  It has no handles, no tables
and no generation, so two graphs that record the same have equal ledgers.  Every action on graphs
has its counterpart on ledgers.

Main results:

- Theorems `profile_intern`, `profile_adjust` and `profile_link` say what the operations do to what
  is recorded of each method.
- Theorem `mem_calls_link` says which calls are recorded after one more.
- Theorem `mem_profiles_iff` says that a ledger is its keys with what is recorded of them.
-/

namespace CallGraph

/-- What is recorded of a method apart from its calls. -/
structure Profile where
  key : Key
  source : Option Source := none
  root : Bool := false
  recursive : Bool := false
  excluded : Bool := false
  deriving DecidableEq, Repr, Inhabited

namespace Profile

/-- What is known of a method after it was called: whether the call came from outside any method,
and whether the method was open. -/
def called (p : Profile) (outermost again : Bool) : Profile :=
  { p with root := p.root || outermost, recursive := p.recursive || again }

/-- What is known of a method after a record told of it. -/
def told (p : Profile) (r : Record) : Profile :=
  { p with source := Graph.sourceOf r, recursive := p.recursive || r.recursive }

/-- What is known of a method that is left out of every listing. -/
def hidden (p : Profile) : Profile := { p with excluded := true }

@[simp] theorem key_called (p : Profile) (outermost again : Bool) :
    (p.called outermost again).key = p.key := rfl

@[simp] theorem key_told (p : Profile) (r : Record) : (p.told r).key = p.key := rfl

@[simp] theorem key_hidden (p : Profile) : p.hidden.key = p.key := rfl

/-- A call from a method that was not open tells nothing of its callee. -/
@[simp] theorem called_false (p : Profile) : p.called false false = p := by simp [called]

/-- Two calls tell of a method what either of them tells. -/
theorem called_called (p : Profile) (a b c d : Bool) :
    (p.called a b).called c d = p.called (a || c) (b || d) := by
  simp [called, Bool.or_assoc]

end Profile

/-- What a call graph records, told by keys alone. -/
@[ext] structure Ledger where
  /-- The methods, in order of first appearance. -/
  profiles : List Profile := []
  /-- The calls between methods, in order of first appearance. -/
  calls : List CallRecord := []
  /-- The methods that are open, innermost first. -/
  stack : List Key := []
  deriving DecidableEq, Repr, Inhabited

namespace Ledger

/-! ## Operations -/

/-- The keys of the methods. -/
def keys (l : Ledger) : List Key := l.profiles.map Profile.key

/-- What is recorded of a method; nothing is known of one that is not recorded. -/
def profile (l : Ledger) (k : Key) : Profile :=
  (l.profiles.find? fun p => p.key = k).getD { key := k }

/-- Record a method that is not recorded yet. -/
def intern (l : Ledger) (k : Key) (source : Option Source) : Ledger :=
  if k ∈ l.keys then l else { l with profiles := l.profiles ++ [{ key := k, source := source }] }

/-- Change what is recorded of a method. -/
def adjust (l : Ledger) (k : Key) (f : Profile → Profile) : Ledger :=
  { l with profiles := l.profiles.map fun p => if p.key = k then f p else p }

/-- Record a call that is not recorded yet. -/
def link (l : Ledger) (c : CallRecord) : Ledger :=
  if c ∈ l.calls then l else { l with calls := l.calls ++ [c] }

/-- Mark a method that is called. -/
def mark (l : Ledger) (k : Key) : Ledger :=
  l.adjust k fun p => p.called l.stack.isEmpty (decide (k ∈ l.stack))

/-- Record a call and open it. -/
def enter (l : Ledger) (host : Host) (o : Observation) : Ledger :=
  let k := o.key host
  let l := ((l.intern k o.source).mark k).link ⟨l.stack.head?, k⟩
  { l with stack := k :: l.stack }

/-- Close the innermost call. -/
def leave (l : Ledger) : Ledger := { l with stack := l.stack.tail }

/-- Leave a method out of every listing. -/
def exclude (l : Ledger) (host : Host) (k : Key) : Ledger :=
  (l.intern (k.canonical host) none).adjust (k.canonical host) Profile.hidden

/-- Record an incoming call of a method that a record tells of. -/
def absorbCaller (host : Host) (k : Key) (l : Ledger) (c : CallRecord) : Ledger :=
  match c.caller with
  | some peer => (l.intern (peer.canonical host) none).link ⟨some (peer.canonical host), k⟩
  | none => (l.adjust k fun p => p.called true false).link ⟨none, k⟩

/-- Record an outgoing call of a method that a record tells of. -/
def absorbCallee (host : Host) (k : Key) (l : Ledger) (c : CallRecord) : Ledger :=
  (l.intern (c.callee.canonical host) none).link ⟨some k, c.callee.canonical host⟩

/-- Record what a record tells of its method itself. -/
def describe (l : Ledger) (k : Key) (r : Record) : Ledger :=
  (l.intern k none).adjust k fun p => p.told r

/-- Take in a record that has been checked. -/
def absorb (l : Ledger) (host : Host) (r : Record) : Ledger :=
  let k := r.key.canonical host
  r.callees.foldl (absorbCallee host k) (r.callers.foldl (absorbCaller host k) (l.describe k r))

/-- Take in a record, unless it has a problem. -/
def load (l : Ledger) (host : Host) (r : Record) : Ledger :=
  if Graph.recordProblem host r = none then l.absorb host r else l

/-- The ledger after an action. -/
def apply (l : Ledger) : Action → Ledger
  | .enter host o => l.enter host o
  | .leave => l.leave
  | .exclude host k => l.exclude host k
  | .load host r => l.load host r
  | .loadValue host v =>
    match Graph.recordOfJson v with
    | .ok r => l.load host r
    | .error _ => l
  | .resolve _ _ => l
  | .release => {}

/-- The ledger after a history. -/
def applyAll (l : Ledger) (actions : List Action) : Ledger := actions.foldl apply l

/-! ## Keys -/

/-- Interning adds the key of a new method after the others. -/
theorem keys_intern (l : Ledger) (k : Key) (source : Option Source) :
    (l.intern k source).keys = if k ∈ l.keys then l.keys else l.keys ++ [k] := by
  unfold intern
  split
  · rfl
  · simp [keys]

/-- Interning adds no key but its own. -/
theorem mem_keys_intern {l : Ledger} {k k' : Key} {source : Option Source} :
    k' ∈ (l.intern k source).keys ↔ k' ∈ l.keys ∨ k' = k := by
  rw [keys_intern]
  split
  · rename_i h
    constructor
    · exact Or.inl
    · rintro (h' | rfl)
      · exact h'
      · exact h
  · simp

/-- A change that leaves keys alone leaves all of them alone. -/
theorem keys_adjust {f : Profile → Profile} (hf : ∀ p, (f p).key = p.key) (l : Ledger) (k : Key) :
    (l.adjust k f).keys = l.keys := by
  simp only [keys, adjust, List.map_map]
  apply List.map_congr_left
  intro p _
  by_cases h : p.key = k <;> simp [h, hf]

/-- Marking a method leaves the keys alone. -/
@[simp] theorem keys_mark (l : Ledger) (k : Key) : (l.mark k).keys = l.keys := by
  unfold mark
  exact keys_adjust (fun p => p.key_called _ _) l k

/-- A call leaves what is recorded of the methods alone. -/
@[simp] theorem profiles_link (l : Ledger) (c : CallRecord) : (l.link c).profiles = l.profiles := by
  unfold link
  split <;> rfl

/-- A call leaves the keys alone. -/
@[simp] theorem keys_link (l : Ledger) (c : CallRecord) : (l.link c).keys = l.keys := by
  simp [keys]

/-! ## Calls -/

/-- Interning leaves the calls alone. -/
@[simp] theorem calls_intern (l : Ledger) (k : Key) (source : Option Source) :
    (l.intern k source).calls = l.calls := by
  unfold intern
  split <;> rfl

@[simp] theorem calls_adjust (l : Ledger) (k : Key) (f : Profile → Profile) :
    (l.adjust k f).calls = l.calls := rfl

@[simp] theorem calls_mark (l : Ledger) (k : Key) : (l.mark k).calls = l.calls := rfl

/-- A new call comes after the others. -/
theorem calls_link (l : Ledger) (c : CallRecord) :
    (l.link c).calls = if c ∈ l.calls then l.calls else l.calls ++ [c] := by
  unfold link
  split <;> rfl

/-- No call is recorded but the one that is added. -/
theorem mem_calls_link {l : Ledger} {c c' : CallRecord} :
    c' ∈ (l.link c).calls ↔ c' ∈ l.calls ∨ c' = c := by
  rw [calls_link]
  split
  · rename_i h
    constructor
    · exact Or.inl
    · rintro (h' | rfl)
      · exact h'
      · exact h
  · simp

/-! ## The open calls -/

/-- Interning leaves the open calls alone. -/
@[simp] theorem stack_intern (l : Ledger) (k : Key) (source : Option Source) :
    (l.intern k source).stack = l.stack := by
  unfold intern
  split <;> rfl

@[simp] theorem stack_adjust (l : Ledger) (k : Key) (f : Profile → Profile) :
    (l.adjust k f).stack = l.stack := rfl

@[simp] theorem stack_mark (l : Ledger) (k : Key) : (l.mark k).stack = l.stack := rfl

/-- Recording a call does not open it. -/
@[simp] theorem stack_link (l : Ledger) (c : CallRecord) : (l.link c).stack = l.stack := by
  unfold link
  split <;> rfl

/-- A call records its method, its marks and its edge, and opens its method. -/
theorem enter_eq (l : Ledger) (host : Host) (o : Observation) :
    l.enter host o =
      { ((l.intern (o.key host) o.source).mark (o.key host)).link ⟨l.stack.head?, o.key host⟩ with
        stack := o.key host :: l.stack } := by
  simp [enter]

/-! ## What is recorded of each method -/

/-- No method is found exactly for the keys that are not recorded. -/
theorem find?_eq_none_iff {l : Ledger} {k : Key} :
    (l.profiles.find? fun p => p.key = k) = none ↔ k ∉ l.keys := by
  simp [keys]

/-- Nothing is known of a method that is not recorded. -/
theorem profile_of_not_mem {l : Ledger} {k : Key} (h : k ∉ l.keys) :
    l.profile k = { key := k } := by
  rw [profile, find?_eq_none_iff.mpr h, Option.getD_none]

/-- What is known of a recorded method is one of the entries. -/
theorem mem_profiles_of_mem {l : Ledger} {k : Key} (h : k ∈ l.keys) :
    l.profile k ∈ l.profiles := by
  cases hfind : l.profiles.find? fun p => p.key = k with
  | none => exact (find?_eq_none_iff.mp hfind h).elim
  | some p =>
    rw [profile, hfind, Option.getD_some]
    exact List.mem_of_find?_eq_some hfind

/-- What is known of a method is told under its key. -/
@[simp] theorem key_profile (l : Ledger) (k : Key) : (l.profile k).key = k := by
  cases hfind : l.profiles.find? fun p => p.key = k with
  | none => simp [profile, hfind]
  | some p =>
    have hp := List.find?_some hfind
    simpa [profile, hfind] using hp

/-- Interning tells the source of a method that is new, and of no other. -/
theorem profile_intern (l : Ledger) (k k' : Key) (source : Option Source) :
    (l.intern k source).profile k' =
      if k = k' ∧ k ∉ l.keys then { key := k, source := source } else l.profile k' := by
  unfold intern
  by_cases hk : k ∈ l.keys
  · simp [hk]
  · simp only [hk, if_false, not_false_eq_true, and_true]
    by_cases h : k = k'
    · subst h
      have hnone := find?_eq_none_iff.mpr hk
      simp [profile, List.find?_append, hnone]
    · simp [profile, List.find?_append, h]

/-- A method that is recorded without a source is told nothing of. -/
@[simp] theorem profile_intern_none (l : Ledger) (k k' : Key) :
    (l.intern k none).profile k' = l.profile k' := by
  rw [profile_intern]
  split
  · rename_i h
    rcases h with ⟨rfl, hk⟩
    exact (profile_of_not_mem hk).symm
  · rfl

/-- A change of a recorded method changes what is known of this method only. -/
theorem profile_adjust {f : Profile → Profile} (hf : ∀ p, (f p).key = p.key) {l : Ledger}
    {k : Key} (hk : k ∈ l.keys) (k' : Key) :
    (l.adjust k f).profile k' = if k = k' then f (l.profile k') else l.profile k' := by
  have hfind : ∀ profiles : List Profile,
      (profiles.map fun p => if p.key = k then f p else p).find? (fun p => p.key = k') =
        (profiles.find? fun p => p.key = k').map fun p => if p.key = k then f p else p := by
    intro profiles
    rw [List.find?_map]
    congr 2
    funext p
    by_cases hp : p.key = k <;> simp [hp, hf]
  simp only [profile, adjust, hfind]
  split
  · rename_i h
    subst h
    cases h : l.profiles.find? fun p => p.key = k with
    | none => exact (find?_eq_none_iff.mp h hk).elim
    | some p =>
      have hp : p.key = k := by simpa using List.find?_some h
      simp [hp]
  · rename_i hne
    cases h : l.profiles.find? fun p => p.key = k' with
    | none => rfl
    | some p =>
      have hp : p.key = k' := by simpa using List.find?_some h
      simp [hp, Ne.symm hne]

/-- A call leaves what is known of each method alone. -/
@[simp] theorem profile_link (l : Ledger) (c : CallRecord) (k : Key) :
    (l.link c).profile k = l.profile k := by
  simp [profile]

/-- If no method is recorded twice, the methods recorded are the keys with what is known of them. -/
theorem mem_profiles_iff {l : Ledger} (h : l.keys.Nodup) {p : Profile} :
    p ∈ l.profiles ↔ p.key ∈ l.keys ∧ l.profile p.key = p := by
  constructor
  · intro hp
    have hkey : p.key ∈ l.keys := List.mem_map.mpr ⟨p, hp, rfl⟩
    refine ⟨hkey, ?_⟩
    have hmem := mem_profiles_of_mem hkey
    exact List.inj_on_of_nodup_map h hmem hp (key_profile l p.key)
  · rintro ⟨hkey, hp⟩
    rw [← hp]
    exact mem_profiles_of_mem hkey

/-! ## Calls and exclusions -/

/-- A call records no method but its own. -/
theorem mem_keys_enter {l : Ledger} {host : Host} {o : Observation} {k : Key} :
    k ∈ (l.enter host o).keys ↔ k ∈ l.keys ∨ k = o.key host := by
  have hkeys : (l.enter host o).keys =
      (((l.intern (o.key host) o.source).mark (o.key host)).link
        ⟨l.stack.head?, o.key host⟩).keys := by
    rw [enter_eq]
    rfl
  rw [hkeys, keys_link, keys_mark]
  exact mem_keys_intern

/-- A call is the innermost one that is open. -/
@[simp] theorem stack_enter (l : Ledger) (host : Host) (o : Observation) :
    (l.enter host o).stack = o.key host :: l.stack := by
  rw [enter_eq]

/-- A call records one edge, from the method that was open. -/
theorem mem_calls_enter {l : Ledger} {host : Host} {o : Observation} {c : CallRecord} :
    c ∈ (l.enter host o).calls ↔ c ∈ l.calls ∨ c = ⟨l.stack.head?, o.key host⟩ := by
  rw [enter_eq, mem_calls_link, calls_mark, calls_intern]

/-- A call is told of its own method only, which keeps the source that it was recorded with. -/
theorem profile_enter (l : Ledger) (host : Host) (o : Observation) (k : Key) :
    (l.enter host o).profile k =
      if o.key host = k then
        (if k ∈ l.keys then l.profile k else { key := k, source := o.source }).called
          l.stack.isEmpty (decide (k ∈ l.stack))
      else l.profile k := by
  have hprofile : (l.enter host o).profile k =
      (((l.intern (o.key host) o.source).mark (o.key host)).link
        ⟨l.stack.head?, o.key host⟩).profile k := by
    rw [enter_eq]
    rfl
  have hmem : o.key host ∈ (l.intern (o.key host) o.source).keys :=
    mem_keys_intern.mpr (Or.inr rfl)
  rw [hprofile, profile_link, mark, profile_adjust (fun p => p.key_called _ _) hmem, profile_intern,
    stack_intern]
  by_cases h : o.key host = k
  · subst h
    by_cases hk : o.key host ∈ l.keys <;> simp [hk]
  · simp [h]

/-- An exclusion records no method but its own. -/
theorem mem_keys_exclude {l : Ledger} {host : Host} {k k' : Key} :
    k' ∈ (l.exclude host k).keys ↔ k' ∈ l.keys ∨ k' = k.canonical host := by
  rw [exclude, keys_adjust Profile.key_hidden]
  exact mem_keys_intern

/-- An exclusion leaves the calls alone. -/
@[simp] theorem calls_exclude (l : Ledger) (host : Host) (k : Key) :
    (l.exclude host k).calls = l.calls := by
  simp [exclude]

/-- An exclusion leaves the open calls alone. -/
@[simp] theorem stack_exclude (l : Ledger) (host : Host) (k : Key) :
    (l.exclude host k).stack = l.stack := by
  simp [exclude]

/-- An exclusion hides its method and leaves what is known of the others alone. -/
theorem profile_exclude (l : Ledger) (host : Host) (k k' : Key) :
    (l.exclude host k).profile k' =
      if k.canonical host = k' then (l.profile k').hidden else l.profile k' := by
  rw [exclude, profile_adjust Profile.key_hidden (mem_keys_intern.mpr (Or.inr rfl)),
    profile_intern_none]

/-! ## Consistency -/

/-- A ledger in which methods and calls are recorded once, the ends of calls are recorded methods,
and the methods marked as roots are those that were called from outside. -/
structure Consistent (l : Ledger) : Prop where
  keys_nodup : l.keys.Nodup
  calls_nodup : l.calls.Nodup
  callee : ∀ c ∈ l.calls, c.callee ∈ l.keys
  caller : ∀ c ∈ l.calls, ∀ k, c.caller = some k → k ∈ l.keys
  root : ∀ k, (l.profile k).root = true ↔ ⟨none, k⟩ ∈ l.calls
  stack : ∀ k ∈ l.stack, k ∈ l.keys

/-- The empty ledger is consistent. -/
theorem consistent_empty : Consistent {} :=
  ⟨List.nodup_nil, List.nodup_nil, by simp, by simp, by simp [profile], by simp⟩

/-- Interning records no method twice. -/
theorem nodup_keys_intern {l : Ledger} (h : l.keys.Nodup) (k : Key) (source : Option Source) :
    (l.intern k source).keys.Nodup := by
  rw [keys_intern]
  split
  · exact h
  · rename_i hk
    rw [← List.concat_eq_append]
    exact h.concat hk

/-- No call is recorded twice. -/
theorem nodup_calls_link {l : Ledger} (h : l.calls.Nodup) (c : CallRecord) :
    (l.link c).calls.Nodup := by
  rw [calls_link]
  split
  · exact h
  · rename_i hc
    rw [← List.concat_eq_append]
    exact h.concat hc

namespace Consistent

variable {l : Ledger} (hl : l.Consistent)

include hl

/-- A consistent ledger stays so when a method is interned. -/
theorem intern (k : Key) (source : Option Source) : (l.intern k source).Consistent where
  keys_nodup := nodup_keys_intern hl.keys_nodup k source
  calls_nodup := by simpa using hl.calls_nodup
  callee c hc := by
    rw [calls_intern] at hc
    exact mem_keys_intern.mpr (Or.inl (hl.callee c hc))
  caller c hc k' hk' := by
    rw [calls_intern] at hc
    exact mem_keys_intern.mpr (Or.inl (hl.caller c hc k' hk'))
  root k' := by
    rw [profile_intern, calls_intern]
    split
    · rename_i h
      rcases h with ⟨rfl, hk⟩
      have hnot : (⟨none, k⟩ : CallRecord) ∉ l.calls := fun h => hk (hl.callee _ h)
      simpa using hnot
    · exact hl.root k'
  stack k' hk' := by
    rw [stack_intern] at hk'
    exact mem_keys_intern.mpr (Or.inl (hl.stack k' hk'))

/-- A change of a method that leaves its key and its root flag alone. -/
theorem adjust {f : Profile → Profile} (hkey : ∀ p, (f p).key = p.key)
    (hroot : ∀ p, (f p).root = p.root) {k : Key} (hk : k ∈ l.keys) :
    (l.adjust k f).Consistent where
  keys_nodup := by
    rw [keys_adjust hkey]
    exact hl.keys_nodup
  calls_nodup := hl.calls_nodup
  callee c hc := by
    rw [keys_adjust hkey]
    exact hl.callee c hc
  caller c hc k' hk' := by
    rw [keys_adjust hkey]
    exact hl.caller c hc k' hk'
  root k' := by
    rw [profile_adjust hkey hk, calls_adjust, ← hl.root k']
    split
    · rw [hroot]
    · rfl
  stack k' hk' := by
    rw [keys_adjust hkey]
    exact hl.stack k' hk'

/-- A call between recorded methods. -/
theorem link_some {a b : Key} (ha : a ∈ l.keys) (hb : b ∈ l.keys) :
    (l.link ⟨some a, b⟩).Consistent where
  keys_nodup := by simpa using hl.keys_nodup
  calls_nodup := nodup_calls_link hl.calls_nodup _
  callee c hc := by
    rw [keys_link]
    rcases mem_calls_link.mp hc with hc | rfl
    · exact hl.callee c hc
    · exact hb
  caller c hc k hk := by
    rw [keys_link]
    rcases mem_calls_link.mp hc with hc | rfl
    · exact hl.caller c hc k hk
    · exact Option.some.inj hk ▸ ha
  root k := by
    rw [profile_link, mem_calls_link, hl.root k]
    simp
  stack k hk := by
    rw [stack_link] at hk
    simpa using hl.stack k hk

/-- A call from outside, whose method is marked as a root with it. -/
theorem link_none {f : Profile → Profile} (hkey : ∀ p, (f p).key = p.key)
    (hroot : ∀ p, (f p).root = true) {k : Key} (hk : k ∈ l.keys) :
    ((l.adjust k f).link ⟨none, k⟩).Consistent where
  keys_nodup := by
    rw [keys_link, keys_adjust hkey]
    exact hl.keys_nodup
  calls_nodup := nodup_calls_link (l := l.adjust k f) hl.calls_nodup _
  callee c hc := by
    rw [keys_link, keys_adjust hkey]
    rcases mem_calls_link.mp hc with hc | rfl
    · exact hl.callee c hc
    · exact hk
  caller c hc k' hk' := by
    rw [keys_link, keys_adjust hkey]
    rcases mem_calls_link.mp hc with hc | rfl
    · exact hl.caller c hc k' hk'
    · simp at hk'
  root k' := by
    rw [profile_link, profile_adjust hkey hk, mem_calls_link, calls_adjust]
    split
    · rename_i h
      simp [hroot, h]
    · rename_i h
      rw [hl.root k']
      simp [Ne.symm h]
  stack k' hk' := by
    rw [stack_link] at hk'
    rw [keys_link, keys_adjust hkey]
    exact hl.stack k' hk'

/-- Open calls may be any that are recorded. -/
theorem withStack {stack : List Key} (h : ∀ k ∈ stack, k ∈ l.keys) :
    ({ l with stack := stack } : Ledger).Consistent :=
  ⟨hl.keys_nodup, hl.calls_nodup, hl.callee, hl.caller, hl.root, h⟩

/-- A call of a recorded method from the one that is open marks and links it consistently. -/
theorem mark_link {k : Key} (hk : k ∈ l.keys) :
    ((l.mark k).link ⟨l.stack.head?, k⟩).Consistent := by
  unfold mark
  cases hstack : l.stack with
  | nil =>
    -- With nothing open the call comes from outside, and its method becomes a root with it.
    refine hl.link_none (fun p => p.key_called _ _) ?_ hk
    intro p
    simp [Profile.called]
  | cons top rest =>
    have htop : top ∈ l.keys := hl.stack top (by simp [hstack])
    have hkeys := keys_mark l k
    unfold mark at hkeys
    rw [hstack] at hkeys
    apply link_some
    · refine hl.adjust (fun p => p.key_called _ _) ?_ hk
      intro p
      simp [Profile.called]
    · rw [hkeys]
      exact htop
    · rw [hkeys]
      exact hk

/-- A call keeps a ledger consistent. -/
theorem enter (host : Host) (o : Observation) : (l.enter host o).Consistent := by
  have hintern := hl.intern (o.key host) o.source
  have hkey : o.key host ∈ (l.intern (o.key host) o.source).keys :=
    mem_keys_intern.mpr (Or.inr rfl)
  have hlink := hintern.mark_link hkey
  rw [stack_intern] at hlink
  apply hlink.withStack
  intro k hk
  rw [stack_link, stack_mark, stack_intern] at hk
  rw [keys_link, keys_mark, mem_keys_intern]
  rcases List.mem_cons.mp hk with rfl | hk
  · exact Or.inr rfl
  · exact Or.inl (hl.stack k hk)

/-- A return keeps a ledger consistent. -/
theorem leave : l.leave.Consistent :=
  hl.withStack fun k hk => hl.stack k (List.mem_of_mem_tail hk)

/-- An exclusion keeps a ledger consistent. -/
theorem exclude (host : Host) (k : Key) : (l.exclude host k).Consistent :=
  (hl.intern _ none).adjust Profile.key_hidden (fun _ => rfl) (mem_keys_intern.mpr (Or.inr rfl))

/-- What a record tells of its method itself keeps a ledger consistent. -/
theorem describe (k : Key) (r : Record) : (l.describe k r).Consistent :=
  (hl.intern _ none).adjust (fun p => p.key_told r) (fun _ => rfl)
    (mem_keys_intern.mpr (Or.inr rfl))

/-- So does a caller in the record. -/
theorem absorbCaller (host : Host) {k : Key} (hk : k ∈ l.keys) (c : CallRecord) :
    (Ledger.absorbCaller host k l c).Consistent := by
  unfold Ledger.absorbCaller
  cases c.caller with
  | none =>
    refine hl.link_none (fun p => p.key_called _ _) ?_ hk
    intro p
    simp [Profile.called]
  | some peer =>
    exact (hl.intern _ none).link_some (mem_keys_intern.mpr (Or.inr rfl))
      (mem_keys_intern.mpr (Or.inl hk))

/-- So does a callee in the record. -/
theorem absorbCallee (host : Host) {k : Key} (hk : k ∈ l.keys) (c : CallRecord) :
    (Ledger.absorbCallee host k l c).Consistent :=
  (hl.intern _ none).link_some (mem_keys_intern.mpr (Or.inl hk))
    (mem_keys_intern.mpr (Or.inr rfl))

end Consistent

end Ledger

end CallGraph
