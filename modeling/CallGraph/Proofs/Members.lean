import CallGraph.Decode.Record
import CallGraph.Proofs.Refinement
import Mathlib.Data.String.Basic

/-!
# The members of an object

The sorted form of an object has one member of each name, the last one that was written.  A decoder
that goes through these members and sets each of them in its place therefore finds in every place
what the last member of that name tells, whatever the order in which the members came.

Main results:

- Theorem `member?_sorted` says which member of each name is left in a sorted object.
- Theorem `nodup_sortedMembers` says that a sorted object names no member twice.
- Theorem `members_read_iff` says what is in each place after the members of an object were read.
-/

namespace CallGraph

namespace Json

/-! ## Sorted objects -/

/-- The last member of a name, in its sorted form. -/
def lastMember? (name : String) (members : List (String × Json)) : Option Json :=
  (member? name members.reverse).map sorted

/-- A member is looked up in the first list and, if it is not there, in the second one. -/
theorem member?_append (name : String) (first second : List (String × Json)) :
    member? name (first ++ second) = (member? name first).or (member? name second) := by
  induction first with
  | nil => rfl
  | cons m rest ih =>
    rw [List.cons_append, member?_cons, member?_cons, ih]
    split <;> rfl

/-- A name that no member has is not found. -/
theorem member?_eq_none_of_not_mem {name : String} {members : List (String × Json)}
    (h : name ∉ members.map Prod.fst) : member? name members = none := by
  induction members with
  | nil => rfl
  | cons m rest ih =>
    rw [List.map_cons, List.mem_cons, not_or] at h
    rw [member?_cons, if_neg (Ne.symm h.1), ih h.2]

/-- A member that is inserted is found under its name and no other. -/
theorem member?_insertMember (name other : String) (v : Json) (members : List (String × Json)) :
    member? name (insertMember other v members) =
      if other = name then some v else member? name members := by
  induction members with
  | nil => rfl
  | cons m rest ih =>
    by_cases hm : m.1 = other
    · by_cases h : other = name <;> simp [insertMember, member?_cons, hm, h]
    · by_cases hlt : other < m.1
      · simp [insertMember, member?_cons, hm, hlt]
      · simp only [insertMember, hm, hlt, if_false, member?_cons, ih]
        by_cases h : m.1 = name
        · have hne : other ≠ name := fun heq => hm (h.trans heq.symm)
          simp [h, hne]
        · simp [h]

/-- Insertion adds no member but its own. -/
theorem mem_insertMember {name : String} {v : Json} {m : String × Json}
    {members : List (String × Json)} (h : m ∈ insertMember name v members) :
    m = (name, v) ∨ m ∈ members := by
  induction members with
  | nil => exact Or.inl (List.mem_singleton.mp h)
  | cons m' rest ih =>
    simp only [insertMember] at h
    split at h
    · grind
    · split at h <;> grind

/-- A member is inserted where its name belongs. -/
theorem pairwise_insertMember {members : List (String × Json)}
    (h : members.Pairwise fun m m' => m.1 < m'.1) (name : String) (v : Json) :
    (insertMember name v members).Pairwise fun m m' => m.1 < m'.1 := by
  induction members with
  | nil => exact List.pairwise_singleton _ _
  | cons m rest ih =>
    obtain ⟨hm, hrest⟩ := List.pairwise_cons.mp h
    simp only [insertMember]
    split
    · rename_i heq
      subst heq
      exact List.pairwise_cons.mpr ⟨hm, hrest⟩
    · rename_i hne
      split
      · rename_i hlt
        refine List.pairwise_cons.mpr ⟨?_, h⟩
        intro m' hm'
        rcases List.mem_cons.mp hm' with rfl | hm'
        · exact hlt
        · exact lt_trans hlt (hm m' hm')
      · rename_i hnlt
        refine List.pairwise_cons.mpr ⟨?_, ih hrest⟩
        intro m' hm'
        rcases mem_insertMember hm' with rfl | hm'
        · exact lt_of_le_of_ne (not_lt.mp hnlt) hne
        · exact hm m' hm'

/-- Sorted members stand in ascending order of their names, each name once. -/
theorem pairwise_sortedMembers {members done : List (String × Json)}
    (h : done.Pairwise fun m m' => m.1 < m'.1) :
    (sortedMembers members done).Pairwise fun m m' => m.1 < m'.1 := by
  induction members generalizing done with
  | nil =>
    rw [sortedMembers]
    exact h
  | cons m rest ih =>
    rw [sortedMembers]
    exact ih (pairwise_insertMember h m.1 m.2.sorted)

/-- A sorted object names no member twice. -/
theorem nodup_sortedMembers (members : List (String × Json)) :
    ((sortedMembers members []).map Prod.fst).Nodup := by
  rw [List.Nodup, List.pairwise_map]
  exact (pairwise_sortedMembers List.Pairwise.nil).imp fun hlt => ne_of_lt hlt

/-- Of the members of one name the last is left. -/
theorem member?_sortedMembers (name : String) (members done : List (String × Json)) :
    member? name (sortedMembers members done) =
      (lastMember? name members).or (member? name done) := by
  induction members generalizing done with
  | nil => simp [sortedMembers, lastMember?, member?]
  | cons m rest ih =>
    rw [sortedMembers, ih, member?_insertMember, lastMember?, lastMember?, List.reverse_cons,
      member?_append]
    cases member? name rest.reverse with
    | some v => rfl
    | none =>
      by_cases h : m.1 = name <;> simp [member?, h]

/-- A sorted object has the last member of each name. -/
theorem member?_sorted (name : String) (members : List (String × Json)) :
    member? name (sortedMembers members []) = lastMember? name members := by
  rw [member?_sortedMembers, member?, Option.or_none]

/-! ## Skipping finished values -/

mutual

/-- A finished value is skipped without a fault. -/
theorem skip_ofJson (v : Json) : (Doc.ofJson v).skip = .ok () := by
  cases v with
  | arr items =>
    rw [Doc.ofJson, Doc.skip, skipItems_ofItems items]
    rfl
  | obj members =>
    rw [Doc.ofJson, Doc.skip, skipMembers_ofMembers members]
    rfl
  | null | bool | int | float | str => rfl

/-- Items that were values once can be skipped. -/
theorem skipItems_ofItems (items : List Json) : Doc.skipItems (Doc.ofItems items) = .ok () := by
  cases items with
  | nil => rfl
  | cons v rest =>
    rw [Doc.ofItems, Doc.skipItems, skip_ofJson v, skipItems_ofItems rest]
    rfl

/-- Members that were values once can be skipped. -/
theorem skipMembers_ofMembers (members : List (String × Json)) :
    Doc.skipMembers (Doc.ofMembers members) = .ok () := by
  cases members with
  | nil => rfl
  | cons m rest =>
    rw [Doc.ofMembers, Doc.skipMembers, skip_ofJson m.2, skipMembers_ofMembers rest]
    rfl

end

end Json

namespace Decode

open Json (Doc)

/-! ## Places that members fill -/

/-- A member that nobody asks for changes nothing. -/
theorem pass_ofJson {σ : Type} (s : σ) (v : Json) : pass s (Doc.ofJson v) = .ok s := by
  rw [pass, Json.skip_ofJson]
  rfl

/-- A place after members were read that name nothing twice. -/
def fill {α : Type} (place : Option α) (name : String) (read : Doc → Result α)
    (members : List (String × Json)) : Result (Option α) :=
  match Json.member? name members with
  | none => .ok place
  | some v => once place name read (Doc.ofJson v)

section Fill

variable {α : Type} (place : Option α) {name other : String} (read : Doc → Result α) (v : Json)
  {rest : List (String × Json)}

/-- The first member of a name is read into its place. -/
theorem fill_cons_self (name : String) :
    fill place name read ((name, v) :: rest) = once place name read (Doc.ofJson v) := by
  rw [fill, Json.member?_cons, if_pos rfl]

/-- Members of other names do not fill a place. -/
theorem fill_cons_of_ne (h : other ≠ name) :
    fill place name read ((other, v) :: rest) = fill place name read rest := by
  rw [fill, fill, Json.member?_cons, if_neg h]

/-- A place that no member has the name of stays as it was. -/
theorem fill_of_not_mem (h : name ∉ rest.map Prod.fst) : fill place name read rest = .ok place := by
  rw [fill, Json.member?_eq_none_of_not_mem h]

end Fill

/-! ## The members of a record -/

/-- The places of a record before and after its members were read. -/
@[mk_iff]
structure RecordParts.Filled (medium : Medium) (p : RecordParts) (members : List (String × Json))
    (p' : RecordParts) : Prop where
  owner : fill p.owner "owner" (optional typeId) members = .ok p'.owner
  method : fill p.method "method" (optional methodId) members = .ok p'.method
  recursive : fill p.recursive "recursive" bool members = .ok p'.recursive
  file : fill p.file "source_file" (optional string) members = .ok p'.file
  line : fill p.line "line" uint32 members = .ok p'.line
  callers : fill p.callers "callers" (list (call medium)) members = .ok p'.callers
  callees : fill p.callees "callees" (list (call medium)) members = .ok p'.callees

/-- A member fills its own place and leaves the others to the rest. -/
theorem RecordParts.filled_cons {medium : Medium} {p p' : RecordParts} {m : String × Json}
    {rest : List (String × Json)} (h : m.1 ∉ rest.map Prod.fst) :
    Filled medium p (m :: rest) p' ↔
      ∃ q, RecordParts.read medium p m.1 (Doc.ofJson m.2) = .ok q ∧ Filled medium q rest p' := by
  obtain ⟨name, v⟩ := m
  dsimp only at h ⊢
  unfold RecordParts.read
  split
  case h_8 howner hmethod hrecursive hfile hline hcallers hcallees =>
    simp only [pass_ofJson, Except.ok.injEq, exists_eq_left', filled_iff,
      fill_cons_of_ne _ _ _ howner, fill_cons_of_ne _ _ _ hmethod, fill_cons_of_ne _ _ _ hrecursive,
      fill_cons_of_ne _ _ _ hfile, fill_cons_of_ne _ _ _ hline, fill_cons_of_ne _ _ _ hcallers,
      fill_cons_of_ne _ _ _ hcallees]
  -- The rest does not name the member again, so its place keeps what the member has put there.
  all_goals
    simp only [filled_iff, fill_cons_self, ne_eq, String.reduceEq, not_false_eq_true,
      fill_cons_of_ne, fill_of_not_mem _ _ h, Graph.bind_eq_ok_iff, pure, Except.pure,
      Except.ok.injEq, exists_exists_and_eq_and]
    grind

/-- What is in each place after the members of an object were read. -/
theorem members_read_iff {medium : Medium} {p p' : RecordParts} {ms : List (String × Json)}
    (h : (ms.map Prod.fst).Nodup) :
    members (RecordParts.read medium) p (Doc.ofMembers ms) = .ok p' ↔
      RecordParts.Filled medium p ms p' := by
  induction ms generalizing p with
  | nil =>
    cases p
    cases p'
    simp [Doc.ofMembers, members, RecordParts.filled_iff, fill, Json.member?]
  | cons m rest ih =>
    obtain ⟨hm, hrest⟩ := List.nodup_cons.mp h
    have hread : members (RecordParts.read medium) p (Doc.ofMembers (m :: rest)) =
        RecordParts.read medium p m.1 (Doc.ofJson m.2) >>= fun q =>
          members (RecordParts.read medium) q (Doc.ofMembers rest) := rfl
    rw [hread, Graph.bind_eq_ok_iff, RecordParts.filled_cons hm]
    exact exists_congr fun q => and_congr_right fun _ => ih hrest

end Decode

end CallGraph
