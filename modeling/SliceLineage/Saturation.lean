/-!
# Saturation

Closing a list under a step function that leads to finitely many elements. Elements are handled
first come, first served, and each of them once.

* `Confined`: the step stays inside a set that is covered by a list. The list is only needed to know
  that saturation ends, and is never computed.
* `saturate`: everything that can be reached from a queue, after what was seen before.
-/

namespace SliceLineage

/-- From elements inside, `step` leads to elements inside, and these are finitely many. -/
structure Confined {α : Type} (step : α → List α) (inside : α → Prop) : Prop where
  closed : ∀ a, inside a → ∀ b ∈ step a, inside b
  finite : ∃ cover : List α, ∀ a, inside a → a ∈ cover

section

variable {α : Type} [DecidableEq α]

/-- The first occurrences of the elements that were not seen before. -/
def newOnes (seen : List α) : List α → List α
  | [] => []
  | a :: rest => if a ∈ seen then newOnes seen rest else a :: newOnes (a :: seen) rest

theorem mem_newOnes {seen found : List α} {a : α} :
    a ∈ newOnes seen found ↔ a ∈ found ∧ a ∉ seen := by
  induction found generalizing seen with
  | nil => simp [newOnes]
  | cons b rest ih =>
      rw [newOnes]
      by_cases h : b ∈ seen
      · by_cases e : a = b <;> simp_all
      · by_cases e : a = b <;> simp_all

/-- How many elements of a list were not seen. -/
def unseen (cover seen : List α) : Nat := (cover.filter (· ∉ seen)).length

theorem unseen_cons (u : α) (us seen : List α) :
    unseen (u :: us) seen = unseen us seen + if u ∈ seen then 0 else 1 := by
  by_cases h : u ∈ seen <;> simp [unseen, h]

theorem unseen_append_le (cover seen found : List α) :
    unseen cover (seen ++ found) ≤ unseen cover seen := by
  induction cover with
  | nil => exact Nat.le_refl _
  | cons u us ih =>
      rw [unseen_cons, unseen_cons]
      by_cases h : u ∈ seen
      · rw [if_pos h, if_pos (List.mem_append_left _ h)]
        exact ih
      · rw [if_neg h]
        split <;> omega

theorem unseen_append_lt {cover seen found : List α} {a : α} (hu : a ∈ cover)
    (hs : a ∉ seen) (hf : a ∈ found) :
    unseen cover (seen ++ found) < unseen cover seen := by
  induction cover with
  | nil => cases hu
  | cons u us ih =>
      have hle := unseen_append_le us seen found
      rw [unseen_cons, unseen_cons]
      rcases List.mem_cons.mp hu with rfl | hu
      · rw [if_neg hs, if_pos (List.mem_append_right _ hf)]
        omega
      · have hlt := ih hu
        by_cases h : u ∈ seen
        · rw [if_pos h, if_pos (List.mem_append_left _ h)]
          exact hlt
        · rw [if_neg h]
          split <;> omega

/-- Everything seen, then everything that the step leads to from the queue, in the order in which it
is found. The queue is taken to be seen already. -/
def saturate (step : α → List α) {inside : α → Prop} (confined : Confined step inside)
    (seen queue : List α) (queued : ∀ a ∈ queue, inside a) : List α :=
  match queue with
  | [] => seen
  | a :: rest =>
      saturate step confined (seen ++ newOnes seen (step a)) (rest ++ newOnes seen (step a)) (by
        intro b hb
        rcases List.mem_append.mp hb with hb | hb
        · exact queued b (List.mem_cons_of_mem _ hb)
        · exact confined.closed a (queued a List.mem_cons_self) b (mem_newOnes.mp hb).1)
termination_by (unseen confined.finite.choose seen, queue.length)
decreasing_by
  rcases hnew : newOnes seen (step a) with _ | ⟨b, found⟩
  · simp only [List.append_nil, List.length_cons]
    exact Prod.Lex.right _ (Nat.lt_succ_self _)
  · apply Prod.Lex.left
    have hmem : b ∈ newOnes seen (step a) := by
      rw [hnew]
      exact List.mem_cons_self
    have hb := mem_newOnes.mp hmem
    exact unseen_append_lt
      (confined.finite.choose_spec b (confined.closed a (queued a List.mem_cons_self) b hb.1))
      hb.2 List.mem_cons_self

end

end SliceLineage
