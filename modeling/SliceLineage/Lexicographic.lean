/-!
# Lexicographic order

The first place in which two lists differ decides, and a list comes before those that extend it.

* `lexLe`: the order of lists, given which of two different elements comes first.
* `Orders`: the laws of a total order. `Orders.lexLe`: they carry over from elements to lists.
-/

namespace SliceLineage

variable {α : Type}

/-- `le` puts all elements in one order. It need not relate an element to itself. -/
structure Orders (le : α → α → Bool) : Prop where
  connected : ∀ a b, a ≠ b → le a b = true ∨ le b a = true
  antisymm : ∀ a b, le a b = true → le b a = true → a = b
  trans : ∀ a b c, le a b = true → le b c = true → le a c = true

/-- The order of lists whose elements are ordered by `le`. -/
def lexLe [DecidableEq α] (le : α → α → Bool) : List α → List α → Bool
  | [], _ => true
  | _ :: _, [] => false
  | a :: s, b :: t => if a = b then lexLe le s t else le a b

variable [DecidableEq α] {le : α → α → Bool}

theorem lexLe_refl (s : List α) : lexLe le s s = true := by
  induction s with
  | nil => rfl
  | cons a s ih => rw [lexLe, if_pos rfl]; exact ih

theorem lexLe_total (h : Orders le) (s t : List α) :
    lexLe le s t = true ∨ lexLe le t s = true := by
  induction s generalizing t with
  | nil => exact Or.inl rfl
  | cons a s ih =>
      cases t with
      | nil => exact Or.inr rfl
      | cons b t =>
          rw [lexLe, lexLe]
          by_cases e : a = b
          · rw [if_pos e, if_pos e.symm]
            exact ih t
          · rw [if_neg e, if_neg (Ne.symm e)]
            exact h.connected a b e

theorem lexLe_antisymm (h : Orders le) {s t : List α} (hst : lexLe le s t = true)
    (hts : lexLe le t s = true) : s = t := by
  induction s generalizing t with
  | nil =>
      cases t with
      | nil => rfl
      | cons b t => cases hts
  | cons a s ih =>
      cases t with
      | nil => cases hst
      | cons b t =>
          rw [lexLe] at hst hts
          by_cases e : a = b
          · rw [if_pos e] at hst
            rw [if_pos e.symm] at hts
            rw [e, ih hst hts]
          · rw [if_neg e] at hst
            rw [if_neg (Ne.symm e)] at hts
            exact absurd (h.antisymm a b hst hts) e

theorem lexLe_trans (h : Orders le) {s t u : List α} (hst : lexLe le s t = true)
    (htu : lexLe le t u = true) : lexLe le s u = true := by
  induction s generalizing t u with
  | nil => rfl
  | cons a s ih =>
      cases t with
      | nil => cases hst
      | cons b t =>
          cases u with
          | nil => cases htu
          | cons c u =>
              rw [lexLe] at hst htu ⊢
              by_cases hab : a = b
              · subst hab
                rw [if_pos rfl] at hst
                by_cases hac : a = c
                · rw [if_pos hac] at htu ⊢
                  exact ih hst htu
                · rw [if_neg hac] at htu ⊢
                  exact htu
              · rw [if_neg hab] at hst
                by_cases hbc : b = c
                · subst hbc
                  rw [if_neg hab]
                  exact hst
                · rw [if_neg hbc] at htu
                  have hac : a ≠ c := by
                    intro e
                    subst e
                    exact hab (h.antisymm a b hst htu)
                  rw [if_neg hac]
                  exact h.trans a b c hst htu

/-- If the elements are totally ordered, so are the lists. -/
theorem Orders.lexLe (h : Orders le) : Orders (lexLe le) where
  connected s t _ := lexLe_total h s t
  antisymm _ _ := lexLe_antisymm h
  trans _ _ _ := lexLe_trans h

end SliceLineage
