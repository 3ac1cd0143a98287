import SliceLineage.Lowering.Chain
import SliceLineage.Proofs.Leaves.Alignment
import SliceLineage.Proofs.Runs

/-!
# Cells of leaf regions

Lowering numbers leaf regions on its way. What it computes is best said with a table that knows all
the regions it met, because a number that was given once stays.

* `CellTable.internAll`: regions interned one after the other; `CellTable.Consistent`: the list
  and the index of a table are inverse to each other.
* `CellTable.Consistent.intern_cases`: what one call does.
* `CellTable.Interns`: a table grows by the given regions, in their order, and renumbers nothing.
* `CellM.Yields`: a computation that succeeds from every consistent table, grows it by the given
  regions, and gives a result that can be read off the grown table or any later one.
* `CellM.Yields.bind`, `CellM.Yields.mapM`: such computations one after the other.
-/

namespace SliceLineage

theorem Selector.isBlank_blank : Selector.blank.isBlank = true := rfl

namespace CellTable

/-- The cell of a region that the table knows; a region of the blank value has the blank cell. -/
def cell (t : CellTable) (s : Selector) : ValueId :=
  if s.isBlank then .blank else (t.get? s).getD .blank

/-- Regions interned one after the other: the cells that they get, and the table after them. -/
def internAll (t : CellTable) : List Selector → List ValueId × CellTable
  | [] => ([], t)
  | s :: rest =>
      let later := (t.intern s).2.internAll rest
      ((t.intern s).1 :: later.1, later.2)

/-- The region has a cell. -/
def Knows (t : CellTable) (s : Selector) : Prop := s.isBlank = true ∨ s ∈ t.selectors

/-- The two parts of the table are inverse to each other: the index has a region under a cell just if
the list has it there. -/
structure Consistent (t : CellTable) : Prop where
  inverse : ∀ s c, t.get? s = some c ↔ t.selector? c = some s

/-- The table `t'` is `t` with the regions `leaves` numbered as well. -/
structure Interns (leaves : List Selector) (t t' : CellTable) : Prop where
  grows : t.selectors <+: t'.selectors
  knows : ∀ s ∈ leaves, t'.Knows s
  only : ∀ s ∈ t'.selectors, s ∈ t.selectors ∨ s ∈ leaves ∧ s.isBlank = false
  consistent : t'.Consistent
  order : t' = (t.internAll leaves).2

variable {t t' : CellTable} {s : Selector} {c : ValueId}

/-! ## The two parts of the table -/

theorem mem_of_selector? (h : t.selector? c = some s) : s ∈ t.selectors := by
  cases c with
  | blank => cases h
  | tracked cell => exact List.mem_of_getElem? h

theorem exists_selector?_of_mem (h : s ∈ t.selectors) : ∃ c, t.selector? c = some s := by
  obtain ⟨cell, hcell⟩ := List.mem_iff_getElem?.mp h
  exact ⟨.tracked cell, hcell⟩

theorem selector?_of_grows (hg : t.selectors <+: t'.selectors) (h : t.selector? c = some s) :
    t'.selector? c = some s := by
  cases c with
  | blank => cases h
  | tracked k =>
      obtain ⟨more, hmore⟩ := hg
      have hk : t.selectors[k]? = some s := h
      obtain ⟨hlt, -⟩ := List.getElem?_eq_some_iff.mp hk
      show t'.selectors[k]? = some s
      rw [← hmore, List.getElem?_append_left hlt, hk]

theorem selector?_enter_iff {x : Selector} : (t.enter s).selector? c = some x ↔
    t.selector? c = some x ∨ c = .tracked t.size ∧ x = s := by
  cases c with
  | blank => simp [selector?]
  | tracked cell =>
      rw [selector?, selector?, enter, List.getElem?_append]
      split
      · rename_i hlt
        have hold : cell ≠ t.size := Nat.ne_of_lt hlt
        simp [hold]
      · rename_i hnot
        have hge : t.selectors.length ≤ cell := Nat.le_of_not_lt hnot
        have hposition : cell - t.selectors.length = 0 ↔ cell = t.size := by
          rw [size]
          omega
        rw [List.getElem?_singleton, List.getElem?_eq_none hge]
        simp [hposition, eq_comm]

theorem get?_enter (t : CellTable) (s x : Selector) :
    (t.enter s).get? x = if x = s then some (.tracked t.size) else t.get? x := by
  rw [get?, enter, List.lookup_cons]
  split
  · rename_i hsame
    rw [if_pos (eq_of_beq hsame)]
  · rename_i hother
    rw [if_neg (ne_of_beq_false hother)]
    rfl

namespace Consistent

theorem empty : Consistent .empty where
  inverse s c := by cases c <;> simp [CellTable.empty, get?, selector?]

theorem isSome_get?_iff (h : t.Consistent) : (t.get? s).isSome = true ↔ s ∈ t.selectors := by
  rw [Option.isSome_iff_exists]
  constructor
  · rintro ⟨c, hc⟩
    exact mem_of_selector? ((h.inverse s c).mp hc)
  · intro hs
    obtain ⟨c, hc⟩ := exists_selector?_of_mem hs
    exact ⟨c, (h.inverse s c).mpr hc⟩

/-- A region that stood twice in the list would be in the index under one number. -/
theorem nodup (h : t.Consistent) : t.selectors.Nodup := by
  rw [List.nodup_iff_pairwise_ne, List.pairwise_iff_getElem]
  intro i j hi hj hlt hsame
  have hfirst : t.get? t.selectors[j] = some (.tracked i) :=
    (h.inverse _ _).mpr ((List.getElem?_eq_getElem hi).trans (congrArg some hsame))
  have hsecond : t.get? t.selectors[j] = some (.tracked j) :=
    (h.inverse _ _).mpr (List.getElem?_eq_getElem hj)
  obtain rfl : i = j := ValueId.tracked.inj (Option.some.inj (hfirst.symm.trans hsecond))
  exact Nat.lt_irrefl _ hlt

/-- **A new region changes both parts alike.** -/
theorem enter (h : t.Consistent) (hnew : s ∉ t.selectors) : (t.enter s).Consistent where
  inverse x c := by
    rw [get?_enter, selector?_enter_iff]
    split
    · rename_i hsame
      subst hsame
      constructor
      · intro hc
        exact Or.inr ⟨(Option.some.inj hc).symm, rfl⟩
      · rintro (hc | ⟨rfl, -⟩)
        · exact absurd (mem_of_selector? hc) hnew
        · rfl
    · rename_i hother
      rw [h.inverse]
      exact ⟨Or.inl, fun hc => hc.resolve_right fun hlast => hother hlast.2⟩

end Consistent

/-! ## Regions one after the other -/

theorem internAll_append (t : CellTable) (first second : List Selector) :
    t.internAll (first ++ second) =
      ((t.internAll first).1 ++ ((t.internAll first).2.internAll second).1,
        ((t.internAll first).2.internAll second).2) := by
  induction first generalizing t with
  | nil => rfl
  | cons s rest ih =>
      simp only [List.cons_append, internAll]
      rw [ih]

/-- What a call does: a region of the blank value and one that was met before leave the table as it
is, and any other one gets the next number. -/
theorem Consistent.intern_cases (ht : t.Consistent) (s : Selector) :
    s.isBlank = true ∧ t.intern s = (.blank, t) ∨
    s.isBlank = false ∧ s ∈ t.selectors ∧ (∃ c, t.get? s = some c ∧ t.intern s = (c, t)) ∨
    s.isBlank = false ∧ s ∉ t.selectors ∧ t.intern s = (.tracked t.size, t.enter s) := by
  have hsome := ht.isSome_get?_iff (s := s)
  cases hb : s.isBlank with
  | true => exact Or.inl ⟨rfl, if_pos hb⟩
  | false =>
      refine Or.inr ?_
      unfold intern
      rw [if_neg (by simp [hb])]
      cases hg : t.get? s with
      | some c =>
          rw [hg] at hsome
          exact Or.inl ⟨rfl, hsome.mp rfl, c, rfl, rfl⟩
      | none =>
          rw [hg] at hsome
          exact Or.inr ⟨rfl, fun h => Bool.false_ne_true (hsome.mpr h), rfl⟩

/-- The regions of the blank value leave the table as it is. -/
theorem internAll_filter (t : CellTable) (calls : List Selector) :
    (t.internAll (calls.filter (!·.isBlank))).2 = (t.internAll calls).2 := by
  induction calls generalizing t with
  | nil => rfl
  | cons s rest ih =>
      cases hb : s.isBlank with
      | true =>
          rw [List.filter_cons_of_neg (by simp [hb]), ih]
          have hintern : t.intern s = (.blank, t) := if_pos hb
          show _ = ((t.intern s).2.internAll rest).2
          rw [hintern]
      | false =>
          rw [List.filter_cons_of_pos (by simp [hb])]
          exact ih _

theorem Knows.mem {t : CellTable} {s : Selector} (h : t.Knows s) (hb : s.isBlank = false) :
    s ∈ t.selectors := by
  rcases h with h | h
  · rw [hb] at h
    cases h
  · exact h

theorem Knows.grow {t t' : CellTable} {s : Selector} (h : t.Knows s)
    (hg : t.selectors <+: t'.selectors) : t'.Knows s :=
  h.imp id fun hs => hg.subset hs

/-- The cell of a known region of a followed value stands for that region. -/
theorem Consistent.selector?_cell (ht : t.Consistent) (hb : s.isBlank = false)
    (h : s ∈ t.selectors) : t.selector? (t.cell s) = some s := by
  obtain ⟨c, hc⟩ := Option.isSome_iff_exists.mp (ht.isSome_get?_iff.mpr h)
  have hcell : t.cell s = c := by simp [cell, hb, hc]
  rw [hcell]
  exact (ht.inverse s c).mp hc

theorem Consistent.cell_of_selector? (ht : t.Consistent) (hb : s.isBlank = false)
    (h : t.selector? c = some s) : t.cell s = c := by
  simp [cell, hb, (ht.inverse s c).mpr h]

/-- **A number that was given once stays.** -/
theorem Consistent.cell_eq_of_grows (ht : t.Consistent) (ht' : t'.Consistent)
    (hg : t.selectors <+: t'.selectors) (h : t.Knows s) : t'.cell s = t.cell s := by
  cases hb : s.isBlank with
  | true => rw [cell, cell, if_pos hb, if_pos hb]
  | false =>
      have hcell := ht.selector?_cell hb (h.mem hb)
      exact ht'.cell_of_selector? hb (selector?_of_grows hg hcell)

theorem Consistent.intern_spec (ht : t.Consistent) (s : Selector) :
    (t.intern s).1 = (t.intern s).2.cell s ∧ Interns [s] t (t.intern s).2 := by
  have horder : (t.intern s).2 = (t.internAll [s]).2 := rfl
  rcases ht.intern_cases s with ⟨hb, hintern⟩ | ⟨hb, hs, c, hc, hintern⟩ | ⟨hb, hnew, hintern⟩ <;>
    rw [hintern] at horder ⊢
  · refine ⟨by simp [cell, hb], List.prefix_refl _, ?_, fun x hx => Or.inl hx, ht, horder⟩
    intro x hx
    rw [List.mem_singleton.mp hx]
    exact Or.inl hb
  · refine ⟨by simp [cell, hb, hc], List.prefix_refl _, ?_, fun x hx => Or.inl hx, ht, horder⟩
    intro x hx
    rw [List.mem_singleton.mp hx]
    exact Or.inr hs
  · refine ⟨?_, List.prefix_append _ _, ?_, ?_, ht.enter hnew, horder⟩
    · simp [cell, hb, get?_enter]
    · intro x hx
      rw [List.mem_singleton.mp hx]
      exact Or.inr (List.mem_append_right _ (List.mem_singleton.mpr rfl))
    · intro x hx
      rcases List.mem_append.mp hx with hx | hx
      · exact Or.inl hx
      · exact Or.inr ⟨hx, by rw [List.mem_singleton.mp hx]; exact hb⟩

theorem Consistent.interns_nil (ht : t.Consistent) : Interns [] t t :=
  ⟨List.prefix_refl _, by simp, fun _ h => Or.inl h, ht, rfl⟩

theorem Interns.trans {first second : List Selector} {t t' t'' : CellTable}
    (h : Interns first t t') (h' : Interns second t' t'') : Interns (first ++ second) t t'' where
  grows := h.grows.trans h'.grows
  knows s hs := by
    rcases List.mem_append.mp hs with hs | hs
    · exact (h.knows s hs).grow h'.grows
    · exact h'.knows s hs
  only s hs := by
    rcases h'.only s hs with hs | ⟨hs, hb⟩
    · rcases h.only s hs with hs | ⟨hs, hb⟩
      · exact Or.inl hs
      · exact Or.inr ⟨List.mem_append_left _ hs, hb⟩
    · exact Or.inr ⟨List.mem_append_right _ hs, hb⟩
  consistent := h'.consistent
  order := by rw [internAll_append, ← h.order, ← h'.order]

end CellTable

namespace CellM

/-- From every consistent table the computation succeeds and grows it by the regions `leaves`; its
result is what `read` gives for the grown table or any later one. -/
structure Yields {β : Type} (m : CellM β) (leaves : List Selector) (read : CellTable → β) :
    Prop where
  runs : ∀ t : CellTable, t.Consistent →
    ∃ t', m.run t = .ok (read t', t') ∧ CellTable.Interns leaves t t'
  stable : ∀ t t' : CellTable, t.Consistent → t'.Consistent → t.selectors <+: t'.selectors →
    (∀ s ∈ leaves, t.Knows s) → read t' = read t

variable {β γ : Type} {m : CellM β} {leaves : List Selector} {read : CellTable → β}

theorem Yields.pure (b : β) : Yields (Pure.pure b : CellM β) [] fun _ => b :=
  ⟨fun t ht => ⟨t, rfl, ht.interns_nil⟩, fun _ _ _ _ _ _ => rfl⟩

theorem Yields.intern (s : Selector) : Yields (CellM.intern s) [s] (·.cell s) where
  runs t ht := ⟨(t.intern s).2, by
    show Except.ok ((t.intern s).1, (t.intern s).2) = _
    rw [(ht.intern_spec s).1], (ht.intern_spec s).2⟩
  stable _ _ ht ht' hg hk := ht.cell_eq_of_grows ht' hg (hk s (List.mem_singleton.mpr rfl))

theorem Yields.bind {k : β → CellM γ} {after : List Selector} {result : β → CellTable → γ}
    (hm : Yields m leaves read) (hk : ∀ b, Yields (k b) after (result b)) :
    Yields (m >>= k) (leaves ++ after) fun t => result (read t) t where
  runs t ht := by
    obtain ⟨t₁, hrun, hi⟩ := hm.runs t ht
    obtain ⟨t₂, hrun', hi'⟩ := (hk (read t₁)).runs t₁ hi.consistent
    refine ⟨t₂, ?_, hi.trans hi'⟩
    have hread : read t₂ = read t₁ :=
      hm.stable t₁ t₂ hi.consistent hi'.consistent hi'.grows hi.knows
    rw [run_bind_of_ok hrun, hrun', hread]
  stable t t' ht ht' hg hknow := by
    have hread := hm.stable t t' ht ht' hg fun s hs => hknow s (List.mem_append_left _ hs)
    have hresult := (hk (read t)).stable t t' ht ht' hg fun s hs =>
      hknow s (List.mem_append_right _ hs)
    rw [hread, hresult]

theorem Yields.map (f : β → γ) (hm : Yields m leaves read) :
    Yields (m >>= fun b => Pure.pure (f b)) leaves fun t => f (read t) := by
  have h := hm.bind fun b => Yields.pure (f b)
  rwa [List.append_nil] at h

theorem Yields.mapM {α : Type} {f : α → CellM β} {ls : α → List Selector}
    {result : α → CellTable → β} {xs : List α} (hf : ∀ x ∈ xs, Yields (f x) (ls x) (result x)) :
    Yields (xs.mapM f) (xs.flatMap ls) fun t => xs.map fun x => result x t := by
  induction xs with
  | nil => exact Yields.pure []
  | cons x xs ih =>
      have hx := hf x List.mem_cons_self
      have hxs := ih fun y hy => hf y (List.mem_cons_of_mem _ hy)
      rw [List.mapM_cons, List.flatMap_cons]
      exact hx.bind fun b => hxs.map fun bs => b :: bs

end CellM

end SliceLineage
