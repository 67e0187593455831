import CallGraph.Key
import CallGraph.TypeTable

/-!
# Chains of proxies

The module that an inclusion proxy stands for may be given by another proxy.  Following proxies as
far as they lead finds the module itself, but a key takes one step only.  So the owners that lead to
one module share their keys if no proxy on the way leads to a proxy, and otherwise they do not.

Main results:

- Theorem `canonicalOwner_eq_iff` says for which owners a key names the end of the chain.
- Theorem `make_eq_and_canonical_make_iff` says for which hosts the owners of one module share their
  keys, and that these are the hosts that leave alone the keys they have made.
-/

namespace CallGraph

namespace Host

/-- Following proxies from a type ends at a type that is none. -/
inductive EndsAt (host : Host) : TypeId → TypeId → Prop
  | stop {ty : TypeId} (hproxy : host.isProxy ty = false) : EndsAt host ty ty
  | step {ty last : TypeId} (hproxy : host.isProxy ty = true)
      (rest : EndsAt host (host.target ty) last) : EndsAt host ty last

/-- No proxy from which a type that is none can be reached leads to another proxy. -/
def Flat (host : Host) : Prop :=
  ∀ ty last, host.EndsAt ty last → host.isProxy ty = true → host.isProxy (host.target ty) = false

variable {host : Host}

/-- No chain ends at a proxy. -/
theorem EndsAt.isProxy_last {ty last : TypeId} (h : host.EndsAt ty last) :
    host.isProxy last = false := by
  induction h with
  | stop hproxy => exact hproxy
  | step _ _ ih => exact ih

/-- A chain from a type that is no proxy ends where it starts. -/
theorem EndsAt.eq_of_not_proxy {ty last : TypeId} (h : host.EndsAt ty last)
    (hproxy : host.isProxy ty = false) : ty = last := by
  cases h with
  | stop _ => rfl
  | step hproxy' _ =>
    rw [hproxy] at hproxy'
    simp at hproxy'

/-- A chain that ends does not run in a circle. -/
theorem EndsAt.target_ne {ty last : TypeId} (h : host.EndsAt ty last)
    (hproxy : host.isProxy ty = true) : host.target ty ≠ ty := by
  induction h with
  | stop hproxy' =>
    rw [hproxy] at hproxy'
    simp at hproxy'
  | step _ _ ih =>
    intro heq
    rw [heq] at ih
    exact ih hproxy heq

end Host

namespace Key

variable {host : Host}

/-- A proxy is replaced by its target in a key. -/
theorem canonicalOwner_of_proxy {ty : TypeId} (h : host.isProxy ty = true) :
    canonicalOwner host ty = host.target ty := by
  simp [canonicalOwner, h]

/-- An owner that is no proxy stays in a key. -/
theorem canonicalOwner_of_not_proxy {ty : TypeId} (h : host.isProxy ty = false) :
    canonicalOwner host ty = ty := by
  simp [canonicalOwner, h]

/-- One step along a chain keeps its end. -/
theorem endsAt_canonicalOwner {ty last : TypeId} (h : host.EndsAt ty last) :
    host.EndsAt (canonicalOwner host ty) last := by
  cases h with
  | stop hproxy =>
    rw [canonicalOwner_of_not_proxy hproxy]
    exact .stop hproxy
  | step hproxy rest =>
    rw [canonicalOwner_of_proxy hproxy]
    exact rest

/-- A key names the end of a chain exactly if one step leaves no proxy. -/
theorem canonicalOwner_eq_iff {ty last : TypeId} (h : host.EndsAt ty last) :
    canonicalOwner host ty = last ↔ host.isProxy (canonicalOwner host ty) = false := by
  constructor
  · intro heq
    rw [heq]
    exact h.isProxy_last
  · exact (endsAt_canonicalOwner h).eq_of_not_proxy

/-- A host whose proxies do not form chains names the end of every chain. -/
theorem canonicalOwner_eq_of_flat (hflat : host.Flat) {ty last : TypeId}
    (h : host.EndsAt ty last) : canonicalOwner host ty = last := by
  rw [canonicalOwner_eq_iff h]
  cases hproxy : host.isProxy ty with
  | true =>
    rw [canonicalOwner_of_proxy hproxy]
    exact hflat ty last h hproxy
  | false =>
    rw [canonicalOwner_of_not_proxy hproxy]
    exact hproxy

/-- Two owners share their keys exactly if one step leads to the same type. -/
theorem make_some_eq_iff {a b : TypeId} {method : Option MethodId} :
    make host (some a) method = make host (some b) method ↔
      canonicalOwner host a = canonicalOwner host b := by
  simp [make]

/-- A key is left alone exactly if one more step leads nowhere else. -/
theorem canonical_make_eq_iff {ty : TypeId} {method : Option MethodId} :
    (make host (some ty) method).canonical host = make host (some ty) method ↔
      canonicalOwner host (canonicalOwner host ty) = canonicalOwner host ty := by
  simp [canonical, make]

/-- The owners that lead to one module share their keys exactly if the proxies on the way do not
form chains, and a host then leaves alone the keys it has made, and only then. -/
theorem make_eq_and_canonical_make_iff (host : Host) :
    ((∀ a b last, host.EndsAt a last → host.EndsAt b last → ∀ method,
        make host (some a) method = make host (some b) method) ↔ host.Flat) ∧
      ((∀ ty last, host.EndsAt ty last → ∀ method,
        (make host (some ty) method).canonical host = make host (some ty) method) ↔
          host.Flat) := by
  simp only [make_some_eq_iff, canonical_make_eq_iff, forall_const]
  refine ⟨⟨?_, ?_⟩, ⟨?_, ?_⟩⟩
  · intro hshare ty last h hproxy
    have hlast := h.isProxy_last
    have heq := hshare ty last last h (.stop hlast)
    rw [canonicalOwner_of_not_proxy hlast, canonicalOwner_of_proxy hproxy] at heq
    rw [heq]
    exact hlast
  · intro hflat a b last ha hb
    rw [canonicalOwner_eq_of_flat hflat ha, canonicalOwner_eq_of_flat hflat hb]
  · intro hfixed ty last h hproxy
    have hfix := hfixed ty last h
    rw [canonicalOwner_of_proxy hproxy] at hfix
    -- A proxy that one more step leaves in place would run in a circle.
    cases htarget : host.isProxy (host.target ty) with
    | false => rfl
    | true =>
      have hrest := endsAt_canonicalOwner h
      rw [canonicalOwner_of_proxy hproxy] at hrest
      rw [canonicalOwner_of_proxy htarget] at hfix
      exact (hrest.target_ne htarget hfix).elim
  · intro hflat ty last h
    have hlast := endsAt_canonicalOwner h
    rw [canonicalOwner_eq_of_flat hflat h, canonicalOwner_of_not_proxy hlast.isProxy_last]

/-- A module, a proxy of it, and a proxy of that proxy. -/
def nestedHost : Host :=
  (TypeTable.ofEntries
    [(⟨1⟩, .mdl "Enumerable"), (⟨2⟩, .proxy ⟨1⟩ none), (⟨3⟩, .proxy ⟨2⟩ none)] []).host

/-- A proxy of a proxy has other keys than the module, and its keys change when they are made
again. -/
theorem make_nestedHost :
    nestedHost.EndsAt ⟨1⟩ ⟨1⟩ ∧ nestedHost.EndsAt ⟨3⟩ ⟨1⟩ ∧
      make nestedHost (some ⟨1⟩) (some ⟨10⟩) = ⟨some ⟨1⟩, some ⟨10⟩⟩ ∧
      make nestedHost (some ⟨3⟩) (some ⟨10⟩) = ⟨some ⟨2⟩, some ⟨10⟩⟩ ∧
      (make nestedHost (some ⟨3⟩) (some ⟨10⟩)).canonical nestedHost = ⟨some ⟨1⟩, some ⟨10⟩⟩ := by
  have hstop : nestedHost.EndsAt ⟨1⟩ ⟨1⟩ := .stop (by decide)
  have hchain : nestedHost.EndsAt ⟨3⟩ ⟨1⟩ := .step (by decide) (.step (by decide) hstop)
  exact ⟨hstop, hchain, by decide, by decide, by decide⟩

end Key

end CallGraph
