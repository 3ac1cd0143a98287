import SliceLineage.Leaves.Rules
import SliceLineage.Saturation

/-!
# Closure of field paths under assignments

Every path that an assignment mentions is followed on its value. A followed path below the target of
an assignment is followed at the same suffix below the source as well, and the other way round.
Field cycles (`a = b.next` with `b = a`) would make paths grow without end, so that paths longer
than a cap are dropped and counted.

A `PathClosure` remembers the assignments and followed paths of earlier batches; each batch extends
it and gives the `LeafRules` of the paths that were new in it.
-/

namespace SliceLineage

/-- A copy of one region to another (`SelectorAssignment`). -/
structure Assignment where
  source : Selector
  target : Selector
  deriving DecidableEq

namespace Assignment

/-- Both sides are regions of the same value (`SelectorAssignment.is_self_referential`). -/
def isSelfCopy (a : Assignment) : Bool := a.source.value == a.target.value

/-- Paths travel between two different followed values only. -/
def carriesPaths (a : Assignment) : Bool :=
  !a.source.isBlank && !a.target.isBlank && !a.isSelfCopy

def values (a : Assignment) : List ValueId := [a.source.value, a.target.value]

/-- The longer of the two paths that the assignment mentions. -/
def depth (a : Assignment) : Nat := max a.source.path.length a.target.path.length

end Assignment

/-- A path followed on a value. -/
abbrev PathEntry := ValueId × FieldPath

/-- If the entry lies at or below the region `near`, the corresponding entry below `far`. -/
def PathEntry.across (near far : Selector) (e : PathEntry) : Option PathEntry :=
  if near.value = e.1 then (near.path.below? e.2).map fun s => (far.value, far.path ++ s)
  else none

/-- Where a followed path leads to along the assignments: from targets to sources, then from sources
to targets (`Factorizer.propagate`). -/
def propagate (index : List Assignment) (e : PathEntry) : List PathEntry :=
  index.filterMap (fun a => PathEntry.across a.target a.source e)
    ++ index.filterMap (fun a => PathEntry.across a.source a.target e)

/-- Propagation up to paths of length `cap`. -/
def propagateWithin (cap : Nat) (index : List Assignment) (e : PathEntry) : List PathEntry :=
  (propagate index e).filter (·.2.length ≤ cap)

/-- What propagation drops because its path is longer than `cap`. -/
def droppedPaths (cap : Nat) (index : List Assignment) (e : PathEntry) : List PathEntry :=
  (propagate index e).filter (cap < ·.2.length)

/-- The paths that assignments mention: for each side its whole value and its own path. -/
def seedPaths (assignments : List Assignment) : List PathEntry :=
  let seeds := assignments.flatMap fun a =>
    [a.source, a.target].flatMap fun s => [(s.value, []), (s.value, s.path)]
  seeds.filter (!·.1.isBlank)

/-! ## Propagation is confined

Propagated paths consist of field names that were mentioned, on values that were mentioned, and are
no longer than the cap. -/

/-- All words of at most `n` letters. -/
def wordsUpTo {α : Type} (letters : List α) : Nat → List (List α)
  | 0 => [[]]
  | n + 1 => [] :: (wordsUpTo letters n).flatMap fun w => letters.map (· :: w)

theorem mem_wordsUpTo {α : Type} {letters : List α} {n : Nat} {w : List α}
    (hlen : w.length ≤ n) (hmem : ∀ c ∈ w, c ∈ letters) : w ∈ wordsUpTo letters n := by
  induction n generalizing w with
  | zero =>
      cases w with
      | nil => simp [wordsUpTo]
      | cons c w => simp at hlen
  | succ n ih =>
      cases w with
      | nil => simp [wordsUpTo]
      | cons c w =>
          simp only [wordsUpTo, List.mem_cons, List.mem_flatMap, List.mem_map]
          refine Or.inr ⟨w, ih ?_ ?_, c, hmem c (by simp), rfl⟩
          · simpa using hlen
          · exact fun d hd => hmem d (by simp [hd])

/-- The values that a batch can reach: those of the indexed assignments and of the seeds. -/
def knownValues (index : List Assignment) (seeds : List PathEntry) : List ValueId :=
  index.flatMap Assignment.values ++ seeds.map Prod.fst

/-- The field names that a batch can reach. -/
def knownFields (index : List Assignment) (seeds : List PathEntry) : List String :=
  index.flatMap (fun a => a.source.path ++ a.target.path) ++ seeds.flatMap Prod.snd

/-- An entry over known values and fields that is not longer than the cap. -/
def KnownEntry (cap : Nat) (index : List Assignment) (seeds : List PathEntry)
    (e : PathEntry) : Prop :=
  e.1 ∈ knownValues index seeds ∧ (∀ f ∈ e.2, f ∈ knownFields index seeds) ∧ e.2.length ≤ cap

theorem PathEntry.across_eq_some {near far : Selector} {e e' : PathEntry}
    (h : PathEntry.across near far e = some e') :
    ∃ s, e = (near.value, near.path ++ s) ∧ e' = (far.value, far.path ++ s) := by
  unfold PathEntry.across at h
  split at h
  · rename_i hv
    obtain ⟨s, hs, rfl⟩ := Option.map_eq_some_iff.mp h
    exact ⟨s, by rw [← FieldPath.below?_eq_some.mp hs, hv], rfl⟩
  · simp at h

theorem mem_propagate {index : List Assignment} {e e' : PathEntry} (h : e' ∈ propagate index e) :
    ∃ a ∈ index, PathEntry.across a.target a.source e = some e' ∨
      PathEntry.across a.source a.target e = some e' := by
  rcases List.mem_append.mp h with h | h
  · obtain ⟨a, ha, he⟩ := List.mem_filterMap.mp h
    exact ⟨a, ha, Or.inl he⟩
  · obtain ⟨a, ha, he⟩ := List.mem_filterMap.mp h
    exact ⟨a, ha, Or.inr he⟩

theorem confined_propagateWithin (cap : Nat) (index : List Assignment) (seeds : List PathEntry) :
    Confined (propagateWithin cap index) (KnownEntry cap index seeds) where
  closed := by
    intro e he e' he'
    obtain ⟨he', hlen⟩ := List.mem_filter.mp he'
    obtain ⟨a, ha, hacross⟩ := mem_propagate he'
    have hfield : ∀ f, f ∈ a.source.path ∨ f ∈ a.target.path → f ∈ knownFields index seeds :=
      fun f hf => List.mem_append_left _
        (List.mem_flatMap.mpr ⟨a, ha, List.mem_append.mpr hf⟩)
    have hvalue : ∀ v ∈ a.values, v ∈ knownValues index seeds :=
      fun v hv => List.mem_append_left _ (List.mem_flatMap.mpr ⟨a, ha, hv⟩)
    refine ⟨?_, ?_, of_decide_eq_true hlen⟩
    · rcases hacross with h | h <;> obtain ⟨s, -, rfl⟩ := PathEntry.across_eq_some h
      · exact hvalue _ (by simp [Assignment.values])
      · exact hvalue _ (by simp [Assignment.values])
    · intro f hf
      rcases hacross with h | h <;> obtain ⟨s, rfl, rfl⟩ := PathEntry.across_eq_some h
      · rcases List.mem_append.mp hf with hf | hf
        · exact hfield f (Or.inl hf)
        · exact he.2.1 f (List.mem_append_right _ hf)
      · rcases List.mem_append.mp hf with hf | hf
        · exact hfield f (Or.inr hf)
        · exact he.2.1 f (List.mem_append_right _ hf)
  finite := by
    refine ⟨(knownValues index seeds).flatMap fun v =>
      (wordsUpTo (knownFields index seeds) cap).map (v, ·), fun e he => ?_⟩
    exact List.mem_flatMap.mpr ⟨e.1, he.1,
      List.mem_map.mpr ⟨e.2, mem_wordsUpTo he.2.2 he.2.1, rfl⟩⟩

/-! ## Batches of assignments -/

/-- The longest path that a list of assignments mentions. -/
def longestPath (assignments : List Assignment) : Nat :=
  assignments.foldl (fun n a => max n a.depth) 0

theorem le_foldl_depth (assignments : List Assignment) (n : Nat) :
    n ≤ assignments.foldl (fun n a => max n a.depth) n := by
  induction assignments generalizing n with
  | nil => simp
  | cons a rest ih => exact Nat.le_trans (Nat.le_max_left _ _) (ih _)

theorem depth_le_longestPath {assignments : List Assignment} {a : Assignment}
    (h : a ∈ assignments) : a.depth ≤ longestPath assignments := by
  unfold longestPath
  generalize 0 = n
  induction assignments generalizing n with
  | nil => simp at h
  | cons b rest ih =>
      rcases List.mem_cons.mp h with rfl | h
      · exact Nat.le_trans (Nat.le_max_right _ _) (le_foldl_depth rest _)
      · exact ih h _

theorem length_le_of_mem_seedPaths {assignments : List Assignment} {e : PathEntry}
    (h : e ∈ seedPaths assignments) : e.2.length ≤ longestPath assignments := by
  obtain ⟨h, -⟩ := List.mem_filter.mp h
  obtain ⟨a, ha, h⟩ := List.mem_flatMap.mp h
  have hdepth := depth_le_longestPath ha
  have hs : a.source.path.length ≤ a.depth := Nat.le_max_left _ _
  have ht : a.target.path.length ≤ a.depth := Nat.le_max_right _ _
  simp only [List.flatMap_cons, List.flatMap_nil, List.mem_append, List.mem_cons,
    List.not_mem_nil, or_false] at h
  rcases h with (rfl | rfl) | (rfl | rfl) <;> simp <;> omega

/-- The assignments that carry paths, and all paths followed so far (`Factorizer`). -/
structure PathClosure where
  index : List Assignment
  followed : List PathEntry
  /-- Number of propagations that the cap cut off. -/
  dropped : Nat

namespace PathClosure

def empty : PathClosure := ⟨[], [], 0⟩

instance : Inhabited PathClosure := ⟨empty⟩

theorem knownEntry_newSeeds (index : List Assignment) (batch : List Assignment) (depth : Nat)
    (before : List PathEntry) :
    ∀ e ∈ newOnes before (seedPaths batch),
      KnownEntry (max depth (longestPath batch)) index (newOnes before (seedPaths batch)) e := by
  intro e he
  refine ⟨List.mem_append_right _ (List.mem_map_of_mem he), fun f hf => ?_, ?_⟩
  · exact List.mem_append_right _ (List.mem_flatMap.mpr ⟨e, he, hf⟩)
  · exact Nat.le_trans (length_le_of_mem_seedPaths (mem_newOnes.mp he).1) (Nat.le_max_right _ _)

/-- Follows the paths of a batch of assignments. The cap on the length of paths is `depth`, or the
longest path that the batch mentions. Gives the paths that were not followed before, and the
extended closure. -/
def extend (c : PathClosure) (depth : Nat) (batch : List Assignment) :
    List PathEntry × PathClosure :=
  let index := c.index ++ batch.filter Assignment.carriesPaths
  let cap := max depth (longestPath batch)
  let seeds := newOnes c.followed (seedPaths batch)
  let followed := saturate (propagateWithin cap index) (confined_propagateWithin cap index seeds)
    (c.followed ++ seeds) seeds (knownEntry_newSeeds index batch depth c.followed)
  let found := followed.drop c.followed.length
  let dropped := (found.flatMap (droppedPaths cap index)).length
  (found, ⟨index, followed, c.dropped + dropped⟩)

/-- The leaf rules of a batch: those of the paths that were not followed before
(`Factorizer.factorize`). -/
def rules (c : PathClosure) (depth : Nat) (batch : List Assignment) : LeafRules × PathClosure :=
  let (found, c) := c.extend depth batch
  (.ofPaths found (c.dropped != 0), c)

end PathClosure

/-- The leaf rules of a single batch. -/
def leafRules (depth : Nat) (assignments : List Assignment) : LeafRules :=
  (PathClosure.empty.rules depth assignments).1

end SliceLineage
