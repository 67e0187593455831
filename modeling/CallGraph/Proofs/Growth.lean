import CallGraph.Proofs.Refinement

/-!
# How a call graph grows

Every action but a release extends its graph: the handles that are alive stay alive and denote what
they denoted.  A release kills all of them and moves the generation on, so the generation of a graph
is the number of releases in its history and never comes back to an earlier one.

Main results:

- Theorem `extends_apply` says that an action that is no release extends the graph.
- Theorem `generation_applyAll` says that the generation counts the releases of a history.
- Theorems `stack_exclude` and `stack_load` say that exclusions and loads leave the open calls
  alone.
-/

namespace CallGraph

namespace Action

/-- Whether an action forgets everything. -/
def isRelease : Action → Bool
  | release => true
  | _ => false

/-- The number of releases in a history. -/
def releases (actions : List Action) : Nat := actions.countP isRelease

/-- The only action that forgets everything is a release. -/
theorem isRelease_iff {a : Action} : a.isRelease = true ↔ a = .release := by
  cases a <;> simp [isRelease]

/-- An action of a history without a release is none. -/
theorem isRelease_of_not_mem {a : Action} {actions : List Action} (h : .release ∉ actions)
    (ha : a ∈ actions) : a.isRelease = false := by
  rw [Bool.eq_false_iff, ne_eq, isRelease_iff]
  exact fun heq => h (heq ▸ ha)

/-- A history counts a release exactly if it has one. -/
theorem releases_pos_iff {actions : List Action} : 0 < releases actions ↔ .release ∈ actions := by
  simp only [releases, List.countP_pos_iff, isRelease_iff]
  constructor
  · rintro ⟨a, ha, rfl⟩
    exact ha
  · intro h
    exact ⟨.release, h, rfl⟩

end Action

namespace Graph

/-! ## Calls, returns and exclusions -/

/-- A call extends the graph. -/
theorem extends_enter (g : Graph) (host : Host) (o : Observation) :
    g.Extends (g.enter host o).1 := by
  have hintern := extends_intern g (o.key host) o.source
  have hmark := extends_mark (g.intern (o.key host) o.source).1 (g.intern (o.key host) o.source).2
  exact ((hintern.trans hmark).trans (extends_link _ _ _)).trans (extends_stack _ _)

/-- A return extends the graph. -/
theorem extends_leave (g : Graph) : g.Extends g.leave.1 := by
  unfold leave
  split
  · exact .refl g
  · exact extends_stack g _

/-- An exclusion extends the graph. -/
theorem extends_exclude (g : Graph) (host : Host) (k : Key) : g.Extends (g.exclude host k).1 := by
  rw [exclude_fst]
  exact (extends_intern g _ none).trans (extends_adjust keepsLinks_excluded _ _)

/-! ## Loads -/

/-- A caller that is read from a record extends the graph. -/
theorem extends_absorbCaller (host : Host) (v : Vertex) (g : Graph) (c : CallRecord) :
    g.Extends (absorbCaller host v g c) := by
  unfold absorbCaller
  split
  · exact (extends_intern g _ none).trans (extends_link _ _ _)
  · exact (extends_adjust keepsLinks_root g v.id).trans (extends_link _ _ _)

/-- So does a callee. -/
theorem extends_absorbCallee (host : Host) (v : Vertex) (g : Graph) (c : CallRecord) :
    g.Extends (absorbCallee host v g c) :=
  (extends_intern g _ none).trans (extends_link _ _ _)

/-- Steps that extend a graph extend it when they are repeated. -/
theorem extends_foldl {α : Type} {f : Graph → α → Graph} (hf : ∀ (g : Graph) a, g.Extends (f g a))
    (g : Graph) (as : List α) : g.Extends (as.foldl f g) := by
  induction as generalizing g with
  | nil => exact .refl g
  | cons a rest ih => exact (hf g a).trans (ih (f g a))

/-- So does a whole record. -/
theorem extends_absorb (g : Graph) (host : Host) (r : Record) : g.Extends (g.absorb host r).1 := by
  have hdescribe := (extends_intern g (r.key.canonical host) none).trans
    (extends_adjust (keepsLinks_describe r) _ (g.intern (r.key.canonical host) none).2)
  exact (hdescribe.trans (extends_foldl (extends_absorbCaller host _) _ r.callers)).trans
    (extends_foldl (extends_absorbCallee host _) _ r.callees)

/-- A load extends the graph, whether it is accepted or not. -/
theorem extends_load (g : Graph) (host : Host) (r : Record) :
    g.Extends (g.apply (.load host r)) := by
  rw [apply_load]
  split
  · exact extends_absorb g host r
  · exact .refl g

/-! ## Histories -/

/-- An action that is no release extends the graph. -/
theorem extends_apply (g : Graph) {a : Action} (ha : a.isRelease = false) :
    g.Extends (g.apply a) := by
  cases a with
  | enter host o => exact extends_enter g host o
  | leave => exact extends_leave g
  | exclude host k => exact extends_exclude g host k
  | load host r => exact extends_load g host r
  | loadValue host v =>
    rw [apply_loadValue]
    cases recordOfJson v with
    | ok r => exact extends_load g host r
    | error e => exact .refl g
  | resolve host id =>
    rcases apply_resolve g host id with hsame | hadjust
    · rw [hsame]
      exact .refl g
    · rw [hadjust]
      exact extends_adjust (keepsLinks_remember host) g id
  | release => simp [Action.isRelease] at ha

/-- A history without a release extends the graph. -/
theorem extends_applyAll (g : Graph) {actions : List Action} (h : .release ∉ actions) :
    g.Extends (g.applyAll actions) := by
  induction actions generalizing g with
  | nil => exact .refl g
  | cons a rest ih =>
    have ha := Action.isRelease_of_not_mem h List.mem_cons_self
    exact (extends_apply g ha).trans (ih (g.apply a) fun hrest => h (List.mem_cons_of_mem a hrest))

/-- A release moves the generation on by one, and nothing else does. -/
theorem generation_apply (g : Graph) (a : Action) :
    (g.apply a).generation = g.generation + a.isRelease.toNat := by
  cases ha : a.isRelease with
  | false => exact (extends_apply g ha).generation
  | true =>
    rw [Action.isRelease_iff.mp ha]
    rfl

/-- The generation counts the releases. -/
theorem generation_applyAll (g : Graph) (actions : List Action) :
    (g.applyAll actions).generation = g.generation + Action.releases actions := by
  induction actions generalizing g with
  | nil => rfl
  | cons a rest ih =>
    rw [applyAll_cons, ih, generation_apply, Action.releases, Action.releases, List.countP_cons]
    cases a.isRelease with
    | false => simp
    | true =>
      simp
      omega

/-- Actions that follow others act on what those left. -/
theorem applyAll_append (g : Graph) (xs ys : List Action) :
    g.applyAll (xs ++ ys) = (g.applyAll xs).applyAll ys := by
  simp [applyAll]

/-! ## What stays open -/

/-- An exclusion opens and closes no call. -/
theorem stack_exclude (g : Graph) (host : Host) (k : Key) :
    (g.exclude host k).1.stack = g.stack := by
  rw [exclude_fst]
  simp

/-- A caller that is read from a record opens and closes no call. -/
theorem stack_absorbCaller (host : Host) (v : Vertex) (g : Graph) (c : CallRecord) :
    (absorbCaller host v g c).stack = g.stack := by
  unfold absorbCaller
  cases c.caller <;> simp

/-- Nor does a callee. -/
theorem stack_absorbCallee (host : Host) (v : Vertex) (g : Graph) (c : CallRecord) :
    (absorbCallee host v g c).stack = g.stack := by
  simp [absorbCallee]

/-- Nor does a whole record. -/
theorem stack_absorb (g : Graph) (host : Host) (r : Record) :
    (g.absorb host r).1.stack = g.stack := by
  rw [absorb, foldl_leaves stack (stack_absorbCallee host _),
    foldl_leaves stack (stack_absorbCaller host _), stack_adjust, stack_intern]

/-- Nor does a load, whether it is accepted or not. -/
theorem stack_load (g : Graph) (host : Host) (r : Record) :
    (g.apply (.load host r)).stack = g.stack := by
  rw [apply_load]
  split
  · exact stack_absorb g host r
  · rfl

end Graph

end CallGraph
