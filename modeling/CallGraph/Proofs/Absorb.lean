import CallGraph.Proofs.Refinement

/-!
# What records add to a ledger

A record that is taken in adds its method, the peers of its calls and the calls themselves, tells
the source of its method, and may set the flags of its method.  It leaves alone what is recorded
of any other method.

Main results:

- Theorems `mem_keys_absorb`, `mem_calls_absorb` and `profile_absorb` say what is recorded after a
  record was taken in.
- Theorem `Consistent.applyAll` says that a history keeps a ledger consistent.
- Theorem `Records.loadAll` says that records without a problem are all taken in.
-/

namespace CallGraph

namespace Ledger

/-! ## Repeated steps -/

/-- A fact that each step keeps or makes true holds after all steps if it held before or one of them
made it true. -/
theorem foldl_iff {α : Type} {f : Ledger → α → Ledger} {P : Ledger → Prop} {Q : α → Prop}
    (as : List α) (h : ∀ l, ∀ a ∈ as, P (f l a) ↔ P l ∨ Q a) (l : Ledger) :
    P (as.foldl f l) ↔ P l ∨ ∃ a ∈ as, Q a := by
  induction as generalizing l with
  | nil => simp
  | cons a rest ih =>
    have hrest := ih fun l' b hb => h l' b (List.mem_cons_of_mem a hb)
    rw [List.foldl_cons, hrest, h l a List.mem_cons_self]
    simp [or_assoc]

/-! ## One call of a record -/

/-- An incoming call brings the method of its caller, if it has one. -/
theorem mem_keys_absorbCaller {host : Host} {k k' : Key} {l : Ledger} {c : CallRecord} :
    k' ∈ (absorbCaller host k l c).keys ↔
      k' ∈ l.keys ∨ c.caller.map (Key.canonical host) = some k' := by
  unfold absorbCaller
  cases c.caller with
  | none =>
    rw [keys_link, keys_adjust fun p => p.key_called true false]
    simp
  | some peer =>
    rw [keys_link, mem_keys_intern]
    simp [eq_comm]

/-- An outgoing call brings the method of its callee. -/
theorem mem_keys_absorbCallee {host : Host} {k k' : Key} {l : Ledger} {c : CallRecord} :
    k' ∈ (absorbCallee host k l c).keys ↔ k' ∈ l.keys ∨ c.callee.canonical host = k' := by
  unfold absorbCallee
  rw [keys_link, mem_keys_intern, eq_comm]

/-- An incoming call is recorded with its caller and the method of the record. -/
theorem mem_calls_absorbCaller {host : Host} {k : Key} {l : Ledger} {c c' : CallRecord} :
    c' ∈ (absorbCaller host k l c).calls ↔
      c' ∈ l.calls ∨ c' = ⟨c.caller.map (Key.canonical host), k⟩ := by
  unfold absorbCaller
  cases c.caller with
  | none => simp [mem_calls_link]
  | some peer => simp [mem_calls_link]

/-- An outgoing call is recorded with the method of the record and its callee. -/
theorem mem_calls_absorbCallee {host : Host} {k : Key} {l : Ledger} {c c' : CallRecord} :
    c' ∈ (absorbCallee host k l c).calls ↔
      c' ∈ l.calls ∨ c' = ⟨some k, c.callee.canonical host⟩ := by
  unfold absorbCallee
  rw [mem_calls_link, calls_intern]

/-- An incoming call makes the method of the record a root if it comes from outside, and tells of no
other method. -/
theorem profile_absorbCaller {host : Host} {k : Key} {l : Ledger} (hk : k ∈ l.keys)
    (c : CallRecord) (k' : Key) :
    (absorbCaller host k l c).profile k' =
      (l.profile k').called (decide (k = k') && c.caller.isNone) false := by
  unfold absorbCaller
  cases c.caller with
  | none =>
    rw [profile_link, profile_adjust (fun p => p.key_called true false) hk]
    by_cases h : k = k' <;> simp [h]
  | some peer => simp

/-- An outgoing call tells nothing of any method. -/
@[simp] theorem profile_absorbCallee (host : Host) (k k' : Key) (l : Ledger) (c : CallRecord) :
    (absorbCallee host k l c).profile k' = l.profile k' := by
  simp [absorbCallee]

/-- An incoming call that is taken in leaves the open calls alone. -/
@[simp] theorem stack_absorbCaller (host : Host) (k : Key) (l : Ledger) (c : CallRecord) :
    (absorbCaller host k l c).stack = l.stack := by
  unfold absorbCaller
  cases c.caller <;> simp

/-- An outgoing call that is taken in leaves the open calls alone. -/
@[simp] theorem stack_absorbCallee (host : Host) (k : Key) (l : Ledger) (c : CallRecord) :
    (absorbCallee host k l c).stack = l.stack := by
  simp [absorbCallee]

/-! ## All calls of a record -/

/-- A method is marked as a root if one of its incoming calls comes from outside. -/
theorem profile_foldl_absorbCaller {host : Host} {k : Key} {l : Ledger} (hk : k ∈ l.keys)
    (calls : List CallRecord) (k' : Key) :
    (calls.foldl (absorbCaller host k) l).profile k' =
      (l.profile k').called (decide (k = k') && calls.any fun c => c.caller.isNone) false := by
  induction calls generalizing l with
  | nil => simp
  | cons c rest ih =>
    rw [List.foldl_cons, ih (mem_keys_absorbCaller.mpr (Or.inl hk)), profile_absorbCaller hk,
      Profile.called_called, ← Bool.and_or_distrib_left]
    rfl

/-- A method that is described is recorded from then on. -/
theorem mem_keys_describe {l : Ledger} {k k' : Key} {r : Record} :
    k' ∈ (l.describe k r).keys ↔ k' ∈ l.keys ∨ k' = k := by
  unfold describe
  rw [keys_adjust fun p => p.key_told r]
  exact mem_keys_intern

/-- A description tells of its own method only. -/
theorem profile_describe (l : Ledger) (k k' : Key) (r : Record) :
    (l.describe k r).profile k' = if k = k' then (l.profile k').told r else l.profile k' := by
  unfold describe
  rw [profile_adjust (fun p => p.key_told r) (mem_keys_intern.mpr (Or.inr rfl)),
    profile_intern_none]

/-! ## A record -/

section Absorb

variable (l : Ledger) (host : Host) (r : Record)

/-- A record that is taken in leaves the open calls alone. -/
@[simp] theorem stack_absorb : (l.absorb host r).stack = l.stack := by
  unfold absorb describe
  rw [foldl_leaves stack (stack_absorbCallee host _),
    foldl_leaves stack (stack_absorbCaller host _), stack_adjust, stack_intern]

variable {l host r}

/-- The methods after a record was taken in: those before, its own, and the peers of its calls. -/
theorem mem_keys_absorb {k : Key} :
    k ∈ (l.absorb host r).keys ↔
      k ∈ l.keys ∨ k = r.key.canonical host ∨
        (∃ c ∈ r.callers, c.caller.map (Key.canonical host) = some k) ∨
          ∃ c ∈ r.callees, c.callee.canonical host = k := by
  have hcaller : ∀ l' : Ledger,
      k ∈ (r.callers.foldl (absorbCaller host (r.key.canonical host)) l').keys ↔
        k ∈ l'.keys ∨ ∃ c ∈ r.callers, c.caller.map (Key.canonical host) = some k :=
    fun l' => foldl_iff (f := absorbCaller host _) (P := fun l => k ∈ l.keys) _
      (fun _ _ _ => mem_keys_absorbCaller) l'
  have hcallee : ∀ l' : Ledger,
      k ∈ (r.callees.foldl (absorbCallee host (r.key.canonical host)) l').keys ↔
        k ∈ l'.keys ∨ ∃ c ∈ r.callees, c.callee.canonical host = k :=
    fun l' => foldl_iff (f := absorbCallee host _) (P := fun l => k ∈ l.keys) _
      (fun _ _ _ => mem_keys_absorbCallee) l'
  unfold absorb
  rw [hcallee, hcaller, mem_keys_describe]
  simp only [or_assoc]

/-- The calls after a record was taken in: those before and its own. -/
theorem mem_calls_absorb {c : CallRecord} :
    c ∈ (l.absorb host r).calls ↔
      c ∈ l.calls ∨
        (∃ c' ∈ r.callers, c = ⟨c'.caller.map (Key.canonical host), r.key.canonical host⟩) ∨
          ∃ c' ∈ r.callees, c = ⟨some (r.key.canonical host), c'.callee.canonical host⟩ := by
  have hcaller : ∀ l' : Ledger,
      c ∈ (r.callers.foldl (absorbCaller host (r.key.canonical host)) l').calls ↔
        c ∈ l'.calls ∨
          ∃ c' ∈ r.callers, c = ⟨c'.caller.map (Key.canonical host), r.key.canonical host⟩ :=
    fun l' => foldl_iff (f := absorbCaller host _) (P := fun l => c ∈ l.calls) _
      (fun _ _ _ => mem_calls_absorbCaller) l'
  have hcallee : ∀ l' : Ledger,
      c ∈ (r.callees.foldl (absorbCallee host (r.key.canonical host)) l').calls ↔
        c ∈ l'.calls ∨
          ∃ c' ∈ r.callees, c = ⟨some (r.key.canonical host), c'.callee.canonical host⟩ :=
    fun l' => foldl_iff (f := absorbCallee host _) (P := fun l => c ∈ l.calls) _
      (fun _ _ _ => mem_calls_absorbCallee) l'
  have hdescribe : (l.describe (r.key.canonical host) r).calls = l.calls := by simp [describe]
  unfold absorb
  rw [hcallee, hcaller, hdescribe, or_assoc]

/-- What is known of a method after a record was taken in: the record has the last word on the
source of its own method and may set its flags. -/
theorem profile_absorb (k : Key) :
    (l.absorb host r).profile k =
      if r.key.canonical host = k then
        ((l.profile k).told r).called (r.callers.any fun c => c.caller.isNone) false
      else l.profile k := by
  unfold absorb
  have hcallees (l' : Ledger) :
      (r.callees.foldl (absorbCallee host (r.key.canonical host)) l').profile k = l'.profile k :=
    foldl_leaves (fun l => l.profile k) (profile_absorbCallee host _ k) l' r.callees
  rw [hcallees, profile_foldl_absorbCaller (mem_keys_describe.mpr (Or.inr rfl)), profile_describe]
  by_cases h : r.key.canonical host = k <;> simp [h]

end Absorb

namespace Consistent

variable {l : Ledger} (hl : l.Consistent)

include hl

/-- Steps that keep a ledger consistent while it has a method can be repeated for a list. -/
theorem foldl {k : Key} {f : Ledger → CallRecord → Ledger}
    (hf : ∀ {l : Ledger}, l.Consistent → k ∈ l.keys → ∀ c, (f l c).Consistent ∧ k ∈ (f l c).keys)
    (hk : k ∈ l.keys) (calls : List CallRecord) :
    (calls.foldl f l).Consistent ∧ k ∈ (calls.foldl f l).keys := by
  induction calls generalizing l with
  | nil => exact ⟨hl, hk⟩
  | cons c rest ih =>
    rcases hf hl hk c with ⟨hnext, hk'⟩
    exact ih hnext hk'

/-- A ledger stays consistent when a record is taken in. -/
theorem absorb (host : Host) (r : Record) : (l.absorb host r).Consistent := by
  have hdescribe := hl.describe (r.key.canonical host) r
  have hk : r.key.canonical host ∈ (l.describe (r.key.canonical host) r).keys :=
    mem_keys_describe.mpr (Or.inr rfl)
  rcases hdescribe.foldl (fun hl hk c =>
    ⟨hl.absorbCaller host hk c, mem_keys_absorbCaller.mpr (Or.inl hk)⟩) hk r.callers with
    ⟨hcallers, hk'⟩
  exact (hcallers.foldl (fun hl hk c =>
    ⟨hl.absorbCallee host hk c, mem_keys_absorbCallee.mpr (Or.inl hk)⟩) hk' r.callees).1

/-- A ledger stays consistent when a record is loaded, whether it is accepted or not. -/
theorem load (host : Host) (r : Record) : (l.load host r).Consistent := by
  unfold Ledger.load
  split
  · exact hl.absorb host r
  · exact hl

/-- Every action keeps a ledger consistent. -/
theorem apply (a : Action) : (l.apply a).Consistent := by
  cases a with
  | enter host o => exact hl.enter host o
  | leave => exact hl.leave
  | exclude host k => exact hl.exclude host k
  | load host r => exact hl.load host r
  | loadValue host v =>
    simp only [Ledger.apply]
    cases Graph.recordOfJson v with
    | ok r => exact hl.load host r
    | error e => exact hl
  | resolve host id => exact hl
  | release => exact consistent_empty

/-- A ledger stays consistent through a history. -/
theorem applyAll (actions : List Action) : (l.applyAll actions).Consistent := by
  induction actions generalizing l with
  | nil => exact hl
  | cons a rest ih => exact ih (hl.apply a)

end Consistent

end Ledger

end CallGraph
