import CallGraph.Proofs.FreshIds
import CallGraph.Proofs.Resolving

/-!
# Tables that are built from the bottom up

A type that is registered under a fresh identity can name the types that are there already, but
neither itself nor a later one.  If a table is made of the empty one by such registrations and by
names of methods alone, each of its types names smaller ones only, so the search for a canonical
owner leads down with every step.  It never runs in a circle then, and the identity of the owner
bounds the number of its steps.

Main results:

- Theorem `LeadsDown.exists_route` says in how many steps a host whose steps lead down resolves an
  owner.
- Theorem `edit_eq_or_draws` says what one edit of such a table does.
- Theorem `Layered.editAll` says how the types and the names of such a table are numbered.
- Theorem `descends_editAll` says that such a table resolves every owner, and in how many steps.
-/

namespace CallGraph

namespace Table

variable {κ α : Type} [DecidableEq κ]

/-- A new key adds one entry, and an old one none. -/
theorem size_insert (t : Table κ α) (k : κ) (v : α) :
    (t.insert k v).size = if k ∈ t.keys then t.size else t.size + 1 := by
  rw [← length_keys, keys_insert]
  split <;> simp [length_keys]

end Table

namespace Host

/-! ## Hosts whose steps lead down -/

/-- The identity of an owner as a number; the absent owner is as low as the identity 0. -/
def rank (owner : Option TypeId) : Nat := owner.elim 0 fun ty => ty.val.toNat

/-- Every step of the host leads down. -/
def LeadsDown (host : Host) : Prop :=
  ∀ ty kind next, host.Goes ty kind next → rank next < rank (some ty)

variable {host : Host} {owner last : Option TypeId} {steps : List (TypeId × Kind)}

/-- A route that leads down has at most as many steps as there are ranks between its ends. -/
theorem Route.length_add_rank_le (h : host.Route owner steps last) (hdown : host.LeadsDown) :
    steps.length + rank last ≤ rank owner := by
  induction h with
  | stay owner => simp
  | step hgoes _ ih =>
    have hlt := hdown _ _ _ hgoes
    rw [List.length_cons]
    omega

/-- If all steps lead down, resolving ends wherever it starts, before it has taken more steps than
the rank of the owner. -/
theorem LeadsDown.exists_route (h : host.LeadsDown) (owner : Option TypeId) :
    ∃ steps last, host.Route owner steps last ∧ host.Settled last ∧
      steps.length ≤ rank owner := by
  have hends : host.Ends owner := by
    by_contra hends
    obtain ⟨steps, last, hroute, hlength⟩ := exists_route_of_not_ends hends (rank owner + 1)
    have hle := hroute.length_add_rank_le h
    omega
  obtain ⟨steps, last, hroute, hsettled⟩ := hends
  have hle := hroute.length_add_rank_le h
  exact ⟨steps, last, hroute, hsettled, by omega⟩

end Host

/-- The types that a shape names: what it wraps or stands for, and its supertype. -/
def Shape.mentions : Shape → List TypeId
  | .cls _ superclass => superclass.toList
  | .mdl _ => []
  | .singleton (.cls id) superclass => id :: superclass.toList
  | .singleton (.mdl id) superclass => id :: superclass.toList
  | .singleton .object superclass => superclass.toList
  | .singleton .other superclass => superclass.toList
  | .proxy target superclass => target :: superclass.toList
  | .other _ => []

namespace TypeTable

open Host

variable {t : TypeTable}

/-! ## Building from the bottom up -/

/-- The edit draws its identity from the sequence, and it names no type beyond the largest identity
so far. -/
def LooksBack (t : TypeTable) : Edit → Prop
  | .declare _ _ => False
  | .add shape => ∀ id ∈ shape.mentions, id.val ≤ t.lastId
  | .intern _ => True

/-- Each of the edits looks back, where the ones before it have led. -/
def BuildsUp : TypeTable → List Edit → Prop
  | _, [] => True
  | t, e :: rest => t.LooksBack e ∧ BuildsUp (t.edit e) rest

instance decidableLooksBack (t : TypeTable) : (e : Edit) → Decidable (t.LooksBack e)
  | .declare _ _ => inferInstanceAs (Decidable False)
  | .add shape => inferInstanceAs (Decidable (∀ id ∈ shape.mentions, id.val ≤ t.lastId))
  | .intern _ => inferInstanceAs (Decidable True)

instance decidableBuildsUp : (t : TypeTable) → (edits : List Edit) → Decidable (t.BuildsUp edits)
  | _, [] => inferInstanceAs (Decidable True)
  | t, e :: rest =>
    have := decidableBuildsUp (t.edit e) rest
    inferInstanceAs (Decidable (_ ∧ _))

/-! ## How much a table holds -/

/-- The number of types and of method names in a table. -/
def held (t : TypeTable) : Nat := t.types.size + t.methods.size

/-- There is a 64-bit number other than 0 for everything that the table holds.  A memory with 64-bit
addresses has no room for a table that holds more. -/
def Fits (t : TypeTable) : Prop := t.held < UInt64.size

/-- An edit takes nothing away, and adds one type or name at most. -/
theorem held_edit (t : TypeTable) (e : Edit) :
    t.held ≤ (t.edit e).held ∧ (t.edit e).held ≤ t.held + 1 := by
  cases e with
  | declare id shape =>
    simp only [edit, declare, held, Table.size_insert]
    split <;> omega
  | add shape =>
    simp only [edit, add, held, Table.size_insert]
    split <;> omega
  | intern name =>
    rcases t.intern_cases name with ⟨id, -, heq⟩ | ⟨-, heq⟩
    · simp [edit, heq]
    · simp only [edit, heq, held, Table.size_insert]
      split <;> omega

/-- Every edit adds at most one entry to those that a table holds, and removes none. -/
theorem held_editAll (t : TypeTable) (edits : List Edit) :
    t.held ≤ (t.editAll edits).held ∧ (t.editAll edits).held ≤ t.held + edits.length := by
  induction edits generalizing t with
  | nil => exact ⟨Nat.le_refl _, Nat.le_refl _⟩
  | cons e rest ih =>
    obtain ⟨hle, hle'⟩ := t.held_edit e
    obtain ⟨hrest, hrest'⟩ := ih (t.edit e)
    have hcons : t.editAll (e :: rest) = (t.edit e).editAll rest := rfl
    rw [hcons, List.length_cons]
    omega

/-- Fewer edits than there are numbers make a table that fits. -/
theorem fits_of_length_lt {edits : List Edit} (h : edits.length < UInt64.size) :
    (empty.editAll edits).Fits := by
  have hle := (empty.held_editAll edits).2
  have hempty : empty.held = 0 := rfl
  rw [Fits]
  omega

/-! ## Drawing a number -/

/-- The second table is the first one after a type or a name has drawn the next number, where a type
names none beyond the largest number before. -/
structure Draws (t t' : TypeTable) : Prop where
  lastId_eq : t'.lastId = t.freshId
  holds : ∀ n, t'.Holds n → n = t.freshId ∨ t.Holds n
  held_eq : ¬ t.Holds t.freshId → t'.held = t.held + 1
  lookup : ∀ ty shape, t'.types.lookup ty = some shape →
    t.types.lookup ty = some shape ∨
      ty.val = t.freshId ∧ ∀ id ∈ shape.mentions, id.val ≤ t.lastId

/-- A type that mentions earlier types only is drawn from what is there. -/
theorem draws_add {shape : Shape} (hback : ∀ id ∈ shape.mentions, id.val ≤ t.lastId) :
    t.Draws (t.add shape).1 where
  lastId_eq := rfl
  holds := by
    rintro n (hn | hn)
    · exact (Table.mem_keys_insert.mp hn).imp (congrArg TypeId.val) Or.inl
    · exact Or.inr (Or.inr hn)
  held_eq := by
    intro hnew
    have hkey : (⟨t.freshId⟩ : TypeId) ∉ t.types.keys := fun hmem => hnew (Or.inl hmem)
    simp only [add, held, Table.size_insert, if_neg hkey]
    omega
  lookup := by
    intro ty other hlookup
    rw [types_of_add, Table.lookup_insert] at hlookup
    split at hlookup
    · next heq =>
      cases hlookup
      exact Or.inr ⟨congrArg TypeId.val heq.symm, hback⟩
    · exact Or.inl hlookup

/-- A name that is registered already draws nothing. -/
theorem intern_eq_or_draws (t : TypeTable) (name : String) :
    (t.intern name).1 = t ∨ t.Draws (t.intern name).1 := by
  rcases t.intern_cases name with ⟨id, -, heq⟩ | ⟨-, heq⟩
  · exact Or.inl (by rw [heq])
  · refine Or.inr ⟨by rw [heq], ?_, ?_, ?_⟩
    · rw [heq]
      rintro n (hn | hn)
      · exact Or.inr (Or.inl hn)
      · exact (Table.mem_keys_insert.mp hn).imp (congrArg MethodId.val) Or.inr
    · intro hnew
      have hkey : (⟨t.freshId⟩ : MethodId) ∉ t.methods.keys := fun hmem => hnew (Or.inr hmem)
      simp only [heq, held, Table.size_insert, if_neg hkey]
      omega
    · intro ty shape hlookup
      rw [types_intern] at hlookup
      exact Or.inl hlookup

/-- What an edit that looks back does: nothing, or it draws the next number. -/
theorem edit_eq_or_draws {e : Edit} (h : t.LooksBack e) : t.edit e = t ∨ t.Draws (t.edit e) := by
  cases e with
  | declare id shape => exact h.elim
  | add shape => exact Or.inr (draws_add h)
  | intern name => exact t.intern_eq_or_draws name

/-! ## The numbering of a table -/

/-- Types and names are numbered from 1 on without a gap, and a type names smaller ones only. -/
structure Layered (t : TypeTable) : Prop where
  bounded : t.Bounded
  positive : ∀ n, t.Holds n → 0 < n
  /-- No number was skipped, so the largest one says how many there are. -/
  lastId_eq : t.lastId.toNat = t.held
  smaller : ∀ ty shape, t.types.lookup ty = some shape → ∀ id ∈ shape.mentions, id.val < ty.val

/-- Nothing in the empty table mentions a later type. -/
theorem layered_empty : empty.Layered where
  bounded := bounded_empty
  positive := by
    rintro n (h | h) <;> simp [empty] at h
  lastId_eq := rfl
  smaller := by
    intro ty shape h
    simp [empty] at h

namespace Layered

/-- The next number is not in use, not even if the sequence starts again from 0. -/
theorem not_holds_freshId (h : t.Layered) : ¬ t.Holds t.freshId := by
  intro hheld
  have hpos : 0 < t.freshId.toNat := UInt64.lt_iff_toNat_lt.mp (h.positive _ hheld)
  have hle := UInt64.le_iff_toNat_le.mp (h.bounded _ hheld)
  have hfresh : t.freshId.toNat = (t.lastId.toNat + 1) % 2 ^ 64 := UInt64.toNat_add t.lastId 1
  have hlast := t.lastId.toNat_lt
  omega

/-- An edit that looks back keeps the numbering, as long as there are numbers. -/
theorem edit (h : t.Layered) {e : Edit} (hback : t.LooksBack e) (hfits : (t.edit e).Fits) :
    (t.edit e).Layered := by
  rcases edit_eq_or_draws hback with heq | hdraws
  · rw [heq]
    exact h
  -- The number is a new one, so the larger table has a number for it only if one was left.
  have hheld := hdraws.held_eq h.not_holds_freshId
  have hroom : t.HasRoom := by
    rw [HasRoom, h.lastId_eq, ← hheld]
    exact hfits
  have hfresh := hroom.toNat_freshId
  refine ⟨h.bounded.edit hroom e, ?_, ?_, ?_⟩
  · intro n hn
    rcases hdraws.holds n hn with rfl | hold
    · rw [UInt64.lt_iff_toNat_lt, hfresh]
      exact Nat.succ_pos _
    · exact h.positive n hold
  · rw [hdraws.lastId_eq, hfresh, h.lastId_eq, hheld]
  · intro ty shape hlookup id hid
    rcases hdraws.lookup ty shape hlookup with hold | ⟨hty, hseen⟩
    · exact h.smaller ty shape hold id hid
    · have hle := UInt64.le_iff_toNat_le.mp (hseen id hid)
      rw [hty, UInt64.lt_iff_toNat_lt, hfresh]
      exact Nat.lt_succ_of_le hle

/-- Building from the bottom up keeps the numbering. -/
theorem editAll (h : t.Layered) {edits : List Edit} (hback : t.BuildsUp edits)
    (hfits : (t.editAll edits).Fits) : (t.editAll edits).Layered := by
  induction edits generalizing t with
  | nil => exact h
  | cons e rest ih =>
    have hfirst : (t.edit e).Fits := Nat.lt_of_le_of_lt ((t.edit e).held_editAll rest).1 hfits
    exact ih (h.edit hback.1 hfirst) hback.2 hfits

end Layered

/-! ## Steps of a layered table -/

/-- A step starts at a registered type and leads to one that its shape names, or to the absent
owner. -/
theorem exists_mentions_of_step {ty : TypeId} {next : Option TypeId} {relation : Relation}
    (h : t.host.step ty = some (next, relation)) :
    ∃ shape, t.types.lookup ty = some shape ∧ ∀ id, next = some id → id ∈ shape.mentions := by
  cases hshape : t.types.lookup ty with
  | none => simp [step, host, hshape] at h
  | some shape =>
    refine ⟨shape, rfl, ?_⟩
    rintro id rfl
    cases shape with
    | cls _ _ | mdl _ | other _ => simp [step, host, hshape] at h
    | singleton entity superclass =>
      cases entity <;> simp_all [step, host, wrapped, supertype, Shape.mentions]
    | proxy mdl superclass => simp_all [step, host, target, Shape.mentions]

/-- The steps of a table lead down, also those to the absent owner, since no type has the
identity 0. -/
theorem Layered.leadsDown (h : t.Layered) : t.host.LeadsDown := by
  intro ty kind next hgoes
  obtain ⟨shape, hshape, hmentions⟩ := exists_mentions_of_step hgoes.step_eq
  cases next with
  | none =>
    have hkey : ty ∈ t.types.keys := Table.mem_keys_iff_lookup.mpr ⟨shape, hshape⟩
    exact UInt64.lt_iff_toNat_lt.mp (h.positive ty.val (Or.inl hkey))
  | some id =>
    exact UInt64.lt_iff_toNat_lt.mp (h.smaller ty shape hshape id (hmentions id rfl))

/-- A table resolves an owner in at most `n` steps. -/
structure ResolvesWithin (t : TypeTable) (owner : Option TypeId) (n : Nat) : Prop where
  /-- So many steps lead from the owner to its canonical owner. -/
  route : ∃ steps, t.host.Route owner steps (t.host.resolve owner).owner ∧ steps.length ≤ n
  /-- No step leads on from there. -/
  settled : t.host.Settled (t.host.resolve owner).owner
  /-- The search needs no bound to come to its result. -/
  pursue : t.host.resolve owner ∈ t.host.pursue owner
  /-- Nor does it need more turns than `n`. -/
  walk : t.host.walk n owner = t.host.resolve owner

/-- Resolving leads down in a table, and ends. -/
structure Descends (t : TypeTable) : Prop where
  /-- Steps are taken from registered types only, to smaller ones or to the absent owner. -/
  smaller : ∀ ty next relation, t.host.step ty = some (next, relation) →
    ty ∈ t.types.keys ∧ ∀ id, next = some id → id.val < ty.val
  /-- There are at most as many steps as the identity of the owner says. -/
  resolves : ∀ owner, t.ResolvesWithin owner (rank owner)

/-- A route that fits the bound of a walk is the way that the walk takes. -/
theorem resolvesWithin_of_route {owner last : Option TypeId} {steps : List (TypeId × Kind)}
    {n : Nat} (h : t.host.Route owner steps last) (hsettled : t.host.Settled last)
    (hn : steps.length ≤ n) : t.ResolvesWithin owner n := by
  have hresolve := resolve_eq_of_route h hsettled
  constructor
  · rw [hresolve]
    exact ⟨steps, h, hn⟩
  · rw [hresolve]
    exact hsettled
  · rw [hresolve]
    exact mem_pursue_iff.mpr ⟨steps, h, hsettled, rfl⟩
  · rw [hresolve]
    exact h.walk_eq hsettled hn

/-- In a layered table every chain goes down and comes to an end. -/
theorem Layered.descends (h : t.Layered) : t.Descends where
  smaller := by
    intro ty next relation hstep
    obtain ⟨shape, hshape, hmentions⟩ := exists_mentions_of_step hstep
    exact ⟨Table.mem_keys_iff_lookup.mpr ⟨shape, hshape⟩,
      fun id hid => h.smaller ty shape hshape id (hmentions id hid)⟩
  resolves := by
    intro owner
    obtain ⟨steps, last, hroute, hsettled, hle⟩ := h.leadsDown.exists_route owner
    exact resolvesWithin_of_route hroute hsettled hle

/-- A table that is built from the bottom up resolves every owner, registered or not.  Each step
leads to a smaller type, so there are at most as many steps as the identity of the owner says. -/
theorem descends_editAll {edits : List Edit} (h : empty.BuildsUp edits)
    (hfits : (empty.editAll edits).Fits) : (empty.editAll edits).Descends :=
  (layered_empty.editAll h hfits).descends

/-- A module, a proxy of it, the singleton of an object above the proxy, and the singleton of that
singleton, with a class and a name among them. -/
def ladderEdits : List Edit :=
  [.add (.mdl "Kernel"), .intern "puts", .add (.cls "App" none), .add (.proxy ⟨1⟩ (some ⟨3⟩)),
    .intern "puts", .add (.singleton .object (some ⟨4⟩)), .add (.singleton (.cls ⟨5⟩) (some ⟨4⟩))]

/-- The top of the ladder is resolved to the module, by one step of each kind. -/
theorem descends_ladderEdits :
    empty.BuildsUp ladderEdits ∧ (empty.editAll ladderEdits).Fits ∧
      (empty.editAll ladderEdits).Descends ∧
      (empty.editAll ladderEdits).host.resolve (some ⟨6⟩) = ⟨some ⟨1⟩, ⟨true, true, true⟩⟩ := by
  have hback : empty.BuildsUp ladderEdits := by decide +kernel
  have hfits : (empty.editAll ladderEdits).Fits := fits_of_length_lt (by decide +kernel)
  exact ⟨hback, hfits, descends_editAll hback hfits, by decide +kernel⟩

end TypeTable

end CallGraph
