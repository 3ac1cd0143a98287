import Mathlib
import SliceLineage.Proofs.Build.Temporaries
import SliceLineage.Proofs.Lowering.DataFlow

/-!
# Tuple assignment

An assignment of several places to several names becomes copies one after the other. The places are
resolved to regions before the first copy, but the contents of the regions are read by the copies,
so that a copy may find what an earlier one has written.

* `Simultaneous`: copies leave in each target what its source held before all of them.
* `simultaneous_iff`: they do exactly if none reads what an earlier one has changed.
* `Expr.place?`, `Scopes.copies`: the places of expressions, and the copies of an assignment.
* `FunctionDecl.simultaneous_assignment_iff`: when assignments in a function are simultaneous.
-/

namespace SliceLineage

/-! ## Copies one after the other -/

/-- Each target ends up with what its source held at first, or with something new if the source is
blank. -/
def Simultaneous (copies : List BoundAssignment) : Prop :=
  ∀ (α : Type) (new : Nat → Store α) (σ : Store α), ∀ a ∈ copies, a.target.isBlank = false →
    ∀ suffix, if a.source.isBlank then
        ∃ k, Store.run new σ copies (a.target.extend suffix) = new k (a.target.extend suffix)
      else Store.run new σ copies (a.target.extend suffix) = σ (a.source.extend suffix)

/-- The targets are whole values, and different ones unless they are blank. -/
structure WholeTargets (copies : List BoundAssignment) : Prop where
  whole : ∀ a ∈ copies, a.target.path = []
  distinct : copies.Pairwise fun a b => a.target.isBlank = false → a.target.value ≠ b.target.value

/-- The later copy does not read what the earlier one has changed. -/
def ReadsUnchanged (earlier later : BoundAssignment) : Prop :=
  earlier.target.isBlank = false → later.target.isBlank = false →
    later.source.value = earlier.target.value → earlier.source = earlier.target

theorem Selector.eq_of_extend_eq {x y : Selector} {suffix : FieldPath}
    (h : x.extend suffix = y.extend suffix) : x = y := by
  obtain ⟨v, p⟩ := x
  obtain ⟨w, q⟩ := y
  obtain ⟨rfl, hpath⟩ := Selector.mk.inj h
  obtain rfl : p = q := List.append_cancel_right hpath
  rfl

namespace Store

variable {α : Type} {σ new : Store α} {a : BoundAssignment}

theorem assign_of_value_ne {s : Selector}
    (h : a.target.isBlank = false → s.value ≠ a.target.value) : σ.assign new a s = σ s :=
  if_neg fun hs => h hs.1 hs.2

/-- What a copy leaves below its target. -/
theorem assign_extend (hb : a.target.isBlank = false) (suffix : FieldPath) :
    σ.assign new a (a.target.extend suffix) =
      if a.source.isBlank then new (a.target.extend suffix) else σ (a.source.extend suffix) := by
  have hbelow : a.target.path.below? (a.target.extend suffix).path = some suffix :=
    FieldPath.below?_eq_some.mpr rfl
  rw [assign, if_pos ⟨hb, rfl⟩, hbelow]

/-- A copy of a value to itself changes nothing. -/
theorem assign_self (hwhole : a.target.path = []) (hself : a.source = a.target) :
    σ.assign new a = σ := by
  cases hb : a.target.isBlank with
  | true => exact assign_blank σ new hb
  | false =>
      funext s
      by_cases hs : s.value = a.target.value
      · have hextend : s = a.target.extend s.path := by
          simp [Selector.extend, hwhole, ← hs]
        rw [hextend, assign_extend hb, hself, hb, if_neg Bool.false_ne_true]
      · exact assign_of_value_ne fun _ => hs

/-- A value that is no target keeps its contents. -/
theorem run_of_value_ne {copies : List BoundAssignment} {s : Selector}
    (h : ∀ a ∈ copies, a.target.isBlank = false → s.value ≠ a.target.value) :
    ∀ (new : Nat → Store α) (σ : Store α), Store.run new σ copies s = σ s := by
  induction copies with
  | nil => exact fun _ _ => rfl
  | cons a copies ih =>
      intro new σ
      rw [run, ih fun a' ha' => h a' (List.mem_cons_of_mem _ ha')]
      exact assign_of_value_ne (h a List.mem_cons_self)

/-- Copies after other copies, where all new contents are alike. -/
theorem run_append (new σ : Store α) (copies copies' : List BoundAssignment) :
    Store.run (fun _ => new) σ (copies ++ copies') =
      Store.run (fun _ => new) (Store.run (fun _ => new) σ copies) copies' := by
  induction copies generalizing σ with
  | nil => rfl
  | cons a copies ih => exact ih (σ.assign new a)

end Store

namespace WholeTargets

variable {copies later : List BoundAssignment} {a : BoundAssignment}

theorem tail (h : WholeTargets (a :: copies)) : WholeTargets copies :=
  ⟨fun a' ha' => h.whole a' (List.mem_cons_of_mem _ ha'), (List.pairwise_cons.mp h.distinct).2⟩

/-- Nothing is written to the target of the first copy later. -/
theorem run_head (h : WholeTargets (a :: copies)) (hb : a.target.isBlank = false) {α : Type}
    (new : Nat → Store α) (σ : Store α) (suffix : FieldPath) :
    Store.run new σ copies (a.target.extend suffix) = σ (a.target.extend suffix) := by
  have hne : ∀ a' ∈ copies, a'.target.isBlank = false →
      (a.target.extend suffix).value ≠ a'.target.value :=
    fun a' ha' _ => (List.pairwise_cons.mp h.distinct).1 a' ha' hb
  exact Store.run_of_value_ne hne new σ

/-- Copies that read nothing changed are simultaneous. -/
theorem simultaneous (h : WholeTargets copies) (hreads : copies.Pairwise ReadsUnchanged) :
    Simultaneous copies := by
  induction copies with
  | nil => exact fun _ _ _ a ha => absurd ha List.not_mem_nil
  | cons a copies ih =>
      intro α new σ b hb hblank suffix
      obtain ⟨hfirst, hrest⟩ := List.pairwise_cons.mp hreads
      rcases List.mem_cons.mp hb with rfl | hb
      · rw [Store.run, h.run_head hblank, Store.assign_extend hblank]
        split
        · exact ⟨0, rfl⟩
        · rfl
      · have hlater := ih h.tail hrest α (fun k => new (k + 1)) (σ.assign (new 0) a) b hb hblank
          suffix
        rw [Store.run]
        split at hlater
        · rename_i hsource
          rw [if_pos hsource]
          obtain ⟨k, hk⟩ := hlater
          exact ⟨k + 1, hk⟩
        · rename_i hsource
          rw [if_neg hsource, hlater]
          -- The first copy writes another value, or it changes nothing.
          by_cases hvalue : a.target.isBlank = false ∧ b.source.value = a.target.value
          · rw [Store.assign_self (h.whole a List.mem_cons_self)
              (hfirst b hb hvalue.1 hblank hvalue.2)]
          · exact Store.assign_of_value_ne fun ha hs => hvalue ⟨ha, hs⟩

theorem append_right (h : WholeTargets (copies ++ later)) : WholeTargets later :=
  ⟨fun a' ha' => h.whole a' (List.mem_append_right _ ha'), (List.pairwise_append.mp h.distinct).2.1⟩

end WholeTargets

section

variable {earlier copies later : List BoundAssignment} {a b : BoundAssignment}

/-- What simultaneous copies leave if all regions hold their own names at first. -/
theorem Simultaneous.run_names (h : Simultaneous (earlier ++ copies)) (ha : a ∈ copies)
    (hb : a.target.isBlank = false) (suffix : FieldPath) :
    Store.run (fun _ _ => none) (Store.run (fun _ _ => none) some earlier) copies
        (a.target.extend suffix) =
      if a.source.isBlank then none else some (a.source.extend suffix) := by
  have hall := h (Option Selector) (fun _ _ => none) some a (List.mem_append_right _ ha) hb suffix
  rw [Store.run_append] at hall
  split at hall
  · rename_i hsource
    obtain ⟨-, hnone⟩ := hall
    rw [hnone, if_pos hsource]
  · rename_i hsource
    rw [hall, if_neg hsource]

/-- Of two simultaneous copies the later one reads nothing that the earlier one has changed. -/
theorem Simultaneous.readsUnchanged (h : Simultaneous (earlier ++ a :: (copies ++ b :: later)))
    (hwhole : WholeTargets (a :: (copies ++ b :: later))) : ReadsUnchanged a b := by
  intro ha hb hvalue
  -- The store after the first of the two copies, where every region holds a name.
  obtain ⟨τ, hτ⟩ : ∃ τ : Store (Option Selector),
    τ = (Store.run (fun _ _ => none) some earlier).assign (fun _ => none) a := ⟨_, rfl⟩
  have hsource : b.source.isBlank = false := by
    rw [Selector.isBlank, hvalue]
    exact ha
  have hmember : b ∈ a :: (copies ++ b :: later) := by simp
  have hfirst := h.run_names List.mem_cons_self ha b.source.path
  rw [Store.run, ← hτ, hwhole.run_head ha] at hfirst
  have hsecond := h.run_names hmember hb []
  rw [Store.run, ← hτ, Store.run_append, Store.run, hwhole.tail.append_right.run_head hb,
    Store.assign_extend hb, hsource, if_neg Bool.false_ne_true] at hsecond
  have hbetween : Store.run (fun _ _ => none) τ copies (b.source.extend []) =
      τ (b.source.extend []) := by
    refine Store.run_of_value_ne (fun a' ha' _ => ?_) _ _
    have hne := (List.pairwise_cons.mp hwhole.distinct).1 a' (List.mem_append_left _ ha') ha
    exact fun heq => hne (hvalue.symm.trans heq)
  have hread : b.source.extend [] = a.target.extend b.source.path := by
    simp [Selector.extend, hwhole.whole a List.mem_cons_self, ← hvalue]
  rw [hbetween, hread, hfirst] at hsecond
  split at hsecond
  · cases hsecond
  · exact Selector.eq_of_extend_eq (Option.some.inj hsecond)

theorem Simultaneous.pairwise (hwhole : WholeTargets copies) :
    ∀ earlier, Simultaneous (earlier ++ copies) → copies.Pairwise ReadsUnchanged := by
  induction copies with
  | nil => exact fun _ _ => .nil
  | cons a copies ih =>
      intro earlier h
      refine List.pairwise_cons.mpr ⟨fun b hb => ?_, ?_⟩
      · obtain ⟨between, later, rfl⟩ := List.append_of_mem hb
        exact h.readsUnchanged hwhole
      · exact ih hwhole.tail (earlier ++ [a]) (by rwa [List.append_assoc])

/-- **Copies into different values are simultaneous exactly if none of them reads what an earlier
one has changed.** -/
theorem simultaneous_iff (hwhole : WholeTargets copies) :
    Simultaneous copies ↔ copies.Pairwise ReadsUnchanged :=
  ⟨Simultaneous.pairwise hwhole [], hwhole.simultaneous⟩

end

/-! ## Places -/

/-- The place that an expression names: a variable, and the fields selected from it. -/
def Expr.place? : Expr → Option (String × FieldPath)
  | .ident name _ => some (name, [])
  | .paren inner _ => inner.place?
  | .select operand field _ => operand.place?.map fun place => (place.1, place.2 ++ [field])
  | _ => none

/-- A name is a place without fields. -/
theorem Expr.place?_of_name? : ∀ {e : Expr} {name : String}, e.name? = some name →
    e.place? = some (name, [])
  | .ident _ _, _, h => by
      cases h
      rfl
  | .paren inner _, _, h => place?_of_name? (e := inner) h
  | .select .., _, h | .call .., _, h | .slice .., _, h | .composite .., _, h | .unary .., _, h
  | .binary .., _, h | .index .., _, h | .typeAssert .., _, h | .literal .., _, h
  | .funcLit .., _, h | .other .., _, h | .bad .., _, h => by cases h

namespace Scopes

/-- The region of a place. No region of a blank value is followed. -/
def region (s : Scopes) (place : String × FieldPath) : Selector :=
  if (s.lookup place.1).isBlank then .blank else ⟨s.lookup place.1, place.2⟩

/-- The copies of an assignment of places to names. There is none between blank values. -/
def copies (s : Scopes) (pairs : List (String × String × FieldPath)) : List BoundAssignment :=
  (pairs.map fun pair => ⟨s.region pair.2, .whole (s.lookup pair.1), .same⟩).filter fun a =>
    !(a.source.isBlank && a.target.isBlank)

variable {s : Scopes}

theorem region_name (s : Scopes) (name : String) :
    s.region (name, []) = .whole (s.lookup name) := by
  unfold region
  split
  · rename_i h
    rw [ValueId.isBlank_iff.mp h]
    rfl
  · rfl

/-- Selection of a field from a region. -/
theorem select_region (s : Scopes) (place : String × FieldPath) (field : String) :
    (Composition.of (s.region place)).select field =
      .of (s.region (place.1, place.2 ++ [field])) := by
  unfold region
  split <;> simp_all [Composition.select, Composition.of, Embed.select, Selector.isBlank,
    Selector.field, Selector.extend, Composition.blank, Selector.blank, Selector.whole,
    ValueId.isBlank]

theorem copies_cons (s : Scopes) (name : String) (place : String × FieldPath)
    (pairs : List (String × String × FieldPath)) :
    s.copies ((name, place) :: pairs) =
      if (s.region place).isBlank && (s.lookup name).isBlank then s.copies pairs
      else ⟨s.region place, .whole (s.lookup name), .same⟩ :: s.copies pairs := by
  unfold copies
  rw [List.map_cons, List.filter_cons]
  show (if (!((s.region place).isBlank && (s.lookup name).isBlank)) = true then _ else _) = _
  cases (s.region place).isBlank && (s.lookup name).isBlank <;> rfl

/-- Different names have different values. -/
theorem Separate.eq_of_lookup_eq (h : s.Separate) {name name' : String}
    (hb : (s.lookup name).isBlank = false) (heq : s.lookup name = s.lookup name') :
    name = name' := by
  have hfound : ∀ {name : String}, (s.lookup name).isBlank = false →
      (name, s.lookup name) ∈ s.frames.flatten := by
    intro name hb
    unfold lookup at hb ⊢
    cases hv : s.lookup? name with
    | none =>
        rw [hv] at hb
        cases hb
    | some v =>
        rw [hv] at hb
        refine mem_flatten_of_lookup? (fun hname => ?_) hv
        rw [lookup?, if_pos hname] at hv
        cases hv
        cases hb
  have hsame := List.inj_on_of_nodup_map h.nodup (hfound hb) (hfound (heq ▸ hb)) heq
  exact congrArg Prod.fst hsame

/-- The region of a place of a declared variable. -/
theorem region_of_tracked {place : String × FieldPath} (hb : (s.lookup place.1).isBlank = false) :
    s.region place = ⟨s.lookup place.1, place.2⟩ := by
  rw [region, hb, if_neg Bool.false_ne_true]

/-- The value of a region is that of its variable. -/
theorem value_region (s : Scopes) (place : String × FieldPath) :
    (s.region place).value = s.lookup place.1 := by
  unfold region
  split
  · rename_i h
    exact (ValueId.isBlank_iff.mp h).symm
  · rfl

/-- A whole variable is the region of its own name only. -/
theorem Separate.region_eq_whole_iff (h : s.Separate) {name : String}
    (hb : (s.lookup name).isBlank = false) (place : String × FieldPath) :
    s.region place = .whole (s.lookup name) ↔ place = (name, []) := by
  constructor
  · intro hregion
    have hvalue : s.lookup place.1 = s.lookup name := by
      rw [← value_region, hregion]
      rfl
    rw [region_of_tracked (hvalue ▸ hb)] at hregion
    exact Prod.ext (h.eq_of_lookup_eq hb hvalue.symm).symm (congrArg Selector.path hregion)
  · rintro rfl
    exact region_name s name

/-- The copies of an assignment to different names go to different values. -/
theorem Separate.wholeTargets_copies (h : s.Separate) {names : List String} (hnames : names.Nodup)
    {places : List (String × FieldPath)} (hlength : names.length = places.length) :
    WholeTargets (s.copies (names.zip places)) := by
  refine ⟨fun a ha => ?_, ?_⟩
  · obtain ⟨pair, -, rfl⟩ := List.mem_map.mp (List.mem_of_mem_filter ha)
    rfl
  · refine List.Pairwise.filter _ (List.pairwise_map.mpr ?_)
    have hpairs : (names.zip places).Pairwise fun p q => p.1 ≠ q.1 := by
      rw [← List.map_fst_zip (Nat.le_of_eq hlength)] at hnames
      exact List.pairwise_map.mp hnames
    exact hpairs.imp fun hne hb heq => hne (h.eq_of_lookup_eq hb heq)

/-- An assignment of places to names where no place lies in a variable that was changed before:
apart from blank targets, an earlier target that is the variable of a later place is assigned to
itself. -/
def ReadsUnassigned (s : Scopes) (earlier later : String × String × FieldPath) : Prop :=
  (s.lookup earlier.1).isBlank = false → (s.lookup later.1).isBlank = false →
    later.2.1 = earlier.1 → earlier.2 = (earlier.1, [])

theorem Separate.pairwise_copies_iff (h : s.Separate) (pairs : List (String × String × FieldPath)) :
    (s.copies pairs).Pairwise ReadsUnchanged ↔ pairs.Pairwise s.ReadsUnassigned := by
  unfold copies
  rw [List.pairwise_filter, List.pairwise_map]
  refine List.Pairwise.iff fun earlier later => ?_
  constructor
  · intro hreads hearlier hlater hname
    have hkept : ∀ pair : String × String × FieldPath, (s.lookup pair.1).isBlank = false →
        (!((s.region pair.2).isBlank && (Selector.whole (s.lookup pair.1)).isBlank)) = true := by
      intro pair hb
      show (!((s.region pair.2).isBlank && (s.lookup pair.1).isBlank)) = true
      rw [hb, Bool.and_false]
      rfl
    have hvalue : (s.region later.2).value = s.lookup earlier.1 := by
      rw [value_region, hname]
    exact (h.region_eq_whole_iff hearlier earlier.2).mp
      (hreads (hkept earlier hearlier) (hkept later hlater) hearlier hlater hvalue)
  · intro hreads _ _ hearlier hlater hvalue
    have hlookup : s.lookup earlier.1 = s.lookup later.2.1 := by
      rw [← value_region]
      exact hvalue.symm
    have hself := hreads hearlier hlater (h.eq_of_lookup_eq hearlier hlookup).symm
    exact (h.region_eq_whole_iff hearlier earlier.2).mpr hself

end Scopes

/-- The copies are appended one after the other. -/
def Cursor.copyAll (c : Cursor) (span : Span) (copies : List BoundAssignment) : Cursor :=
  copies.foldl (fun c a => c.append (.assign a.source a.target) (some span)) c

namespace Build

variable {registry : Registry} {ctx : BuildContext} {s : BuildState} {targets values : List Expr}
  {names : List String} {places : List (String × FieldPath)}

/-- A place is resolved to its region, and nothing happens. -/
theorem run_evaluate_place : ∀ {e : Expr} {place : String × FieldPath}, e.place? = some place →
    (evaluate registry e 1).run s = .ok ([.of (s.scopes.region place)], s)
  | .ident name span, _, h => by
      cases h
      rw [Scopes.region_name, evaluate]
      rfl
  | .paren inner _, _, h => by
      rw [evaluate]
      exact run_evaluate_place (e := inner) h
  | .select operand field span, place, h => by
      obtain ⟨base, hbase, rfl⟩ := Option.map_eq_some_iff.mp h
      rw [evaluate, run_bind_of_ok (run_evaluate_place hbase)]
      rw [← Scopes.select_region]
      rfl
  | .call .., _, h | .slice .., _, h | .composite .., _, h | .unary .., _, h
  | .binary .., _, h | .index .., _, h | .typeAssert .., _, h | .literal .., _, h
  | .funcLit .., _, h | .other .., _, h | .bad .., _, h => by cases h

theorem run_evaluateEach_places
    (h : List.Forall₂ (fun e place => e.place? = some place) values places) :
    (evaluateEach registry values).run s =
      .ok (places.map fun place => .of (s.scopes.region place), s) := by
  induction h with
  | nil =>
      rw [evaluateEach]
      rfl
  | cons hplace _ ih =>
      rw [evaluateEach, run_bind_of_ok (run_evaluate_place hplace),
        run_bind_of_ok (run_single _ _ s), run_bind_of_ok ih]
      rfl

/-- All places are resolved before anything is copied. -/
theorem run_evaluateValues_places (span : Span)
    (h : List.Forall₂ (fun e place => e.place? = some place) values places) :
    (evaluateValues registry span values values.length).run s =
      .ok (places.map fun place => .of (s.scopes.region place), s) := by
  have hvalues : (resolveValues registry span values values.length).run s =
      .ok (places.map fun place => .of (s.scopes.region place), s) := by
    unfold resolveValues
    split
    · cases h
      rfl
    · obtain _ | ⟨hplace, hrest⟩ := h
      cases hrest
      exact run_evaluate_place hplace
    · rw [if_pos rfl]
      exact run_evaluateEach_places h
  rw [evaluateValues, run_bind_of_ok hvalues, if_pos]
  · rfl
  · rw [List.length_map, h.length_eq]

/-- A copy of a region to a whole value, unless both are blank. -/
theorem run_store_region (source : Selector) (v : ValueId) (span : Span) :
    (store (.whole v) (.of source) span).run s =
      .ok ((), if source.isBlank && v.isBlank then s else
        ⟨s.cursor.append (.assign source (.whole v)) (some span), s.scopes⟩) := by
  have hcopy : (store (.whole v) (.of source) span).run s =
      (do copy source (.whole v) span; return : Build Unit).run s := rfl
  rw [hcopy, bind_pure_unit]
  unfold copy
  cases hb : source.isBlank && v.isBlank with
  | true =>
      have hboth : (source.isBlank && (Selector.whole v).isBlank) = true := hb
      rw [hboth]
      rfl
  | false =>
      have hboth : (source.isBlank && (Selector.whole v).isBlank) = false := hb
      rw [hboth]
      rfl

theorem run_assignTargets (span : Span)
    (htargets : List.Forall₂ (fun e name => e.name? = some name) targets names) :
    ∀ (places : List (String × FieldPath)) (s : BuildState),
      (assignTargets ctx span
        (targets.zip (places.map fun place => .of (s.scopes.region place)))).run s =
      .ok ((), ⟨s.cursor.copyAll span (s.scopes.copies (names.zip places)), s.scopes⟩) := by
  induction htargets with
  | nil =>
      intro places s
      rw [List.zip_nil_left, List.zip_nil_left, assignTargets]
      rfl
  | @cons target name targets names hname _ ih =>
      intro places s
      cases places with
      | nil =>
          rw [List.map_nil, List.zip_nil_right, List.zip_nil_right, assignTargets]
          rfl
      | cons place places =>
          have hplace : (evaluateOne ctx.registry target).run s =
              .ok (.of (.whole (s.scopes.lookup name)), s) := by
            rw [evaluateOne, run_bind_of_ok (run_evaluate_place (Expr.place?_of_name? hname)),
              Scopes.region_name]
            rfl
          rw [List.map_cons, List.zip_cons_cons, assignTargets, run_bind_of_ok hplace]
          have hstore := run_store_region (s := s) (s.scopes.region place)
            (s.scopes.lookup name) span
          show ((do
            store (.whole (s.scopes.lookup name)) (.of (s.scopes.region place)) span
            assignTargets ctx span _ : Build Unit)).run s = _
          rw [run_bind_of_ok hstore, List.zip_cons_cons, Scopes.copies_cons]
          cases hb : (s.scopes.region place).isBlank && (s.scopes.lookup name).isBlank with
          | true => exact ih places s
          | false =>
              exact ih places ⟨s.cursor.append (.assign (s.scopes.region place)
                (.whole (s.scopes.lookup name))) (some span), s.scopes⟩

/-- **The walk over an assignment of places to names appends its copies and nothing else.** -/
theorem run_assign_places (ctx : BuildContext) (span : Span)
    (htargets : List.Forall₂ (fun e name => e.name? = some name) targets names)
    (hvalues : List.Forall₂ (fun e place => e.place? = some place) values places)
    (hlength : names.length = places.length) (s : BuildState) :
    (statement ctx (.assign targets values span)).run s =
      .ok ((), ⟨s.cursor.copyAll span (s.scopes.copies (names.zip places)), s.scopes⟩) := by
  have hcount : targets.length = values.length := by
    rw [htargets.length_eq, hvalues.length_eq, hlength]
  rw [statement, hcount, run_bind_of_ok (run_evaluateValues_places span hvalues)]
  exact run_assignTargets span htargets places s

end Build

/-! ## Assignments in a function -/

/-- The operation of a copy. -/
def BoundAssignment.op (a : BoundAssignment) : Operation := .assign a.source a.target

theorem Cursor.records_copyAll (span : Span) (copies : List BoundAssignment) :
    ∀ {c : Cursor} {ops : List Operation}, c.graph.Records ops →
      (c.copyAll span copies).graph.Records (ops ++ copies.map BoundAssignment.op) := by
  induction copies with
  | nil =>
      intro c ops h
      rw [List.map_nil, List.append_nil]
      exact h
  | cons a copies ih =>
      intro c ops h
      have hfirst : (c.append a.op (some span)).graph.Records (ops ++ [a.op]) :=
        records_append h a.op (some span)
      have hrest := ih hfirst
      rw [List.append_assoc] at hrest
      exact hrest

namespace FunctionDecl

variable {registry : Registry} {f : FunctionDecl} {g : FlowGraph} {enter : Build Unit}
  {targets values : List Expr} {span : Span} {rest : List Stmt} {names : List String}
  {places : List (String × FieldPath)}

/-- **Tuple assignment is simultaneous exactly if it reads no variable that it has changed.** At
every position in a function where places are assigned to as many different names, the graph gets
one copy for each of them, in order, except for those of blank values to blank names. These copies
leave in each target what its place held before, in every store, if and only if a later place never
lies in an earlier target, unless that target is assigned to itself. -/
theorem simultaneous_assignment_iff (h : f.graph registry = .ok g)
    (hleads : Build.Leads (f.context registry) f.body.stmts enter
      (.assign targets values span :: rest))
    (htargets : List.Forall₂ (fun e name => e.name? = some name) targets names)
    (hvalues : List.Forall₂ (fun e place => e.place? = some place) values places)
    (hlength : names.length = places.length) (hnames : names.Nodup) :
    ∃ s before after, enter.run f.bodyState = .ok ((), s) ∧
      (Build.statement (f.context registry) (.assign targets values span)).run s =
        .ok ((), ⟨s.cursor.copyAll span (s.scopes.copies (names.zip places)), s.scopes⟩) ∧
      g.history = before ++
        ((s.scopes.copies (names.zip places)).map BoundAssignment.op ++ after) ∧
      (Simultaneous (s.scopes.copies (names.zip places)) ↔
        (names.zip places).Pairwise s.scopes.ReadsUnassigned) := by
  obtain ⟨final, hrun, rfl⟩ := f.exists_run_of_graph h
  obtain ⟨s, s₂, _, _, henter, hlist, -, ⟨before, _, hbefore⟩, ⟨after, _, hafter⟩, hs, -⟩ :=
    hleads.stops f.bodyState final f.separate_bodyState hrun
  have hassign := Build.run_assign_places (f.context registry) span htargets hvalues hlength s
  rw [Build.statements, run_bind_of_ok hassign] at hlist
  obtain ⟨-, ⟨middle, _, hmiddle⟩, -⟩ := Build.logs_statements rest _
    ⟨s.cursor.copyAll span (s.scopes.copies (names.zip places)), s.scopes⟩ () s₂ rfl
    hs hlist
  have hrecords := hafter.records _ (hmiddle.records _ (Cursor.records_copyAll span
    (s.scopes.copies (names.zip places))
    (hbefore.records [] (Cursor.records_start (some f.span)))))
  refine ⟨s, before, middle ++ after, henter, hassign, ?_, ?_⟩
  · rw [hrecords.history_eq]
    simp
  · rw [simultaneous_iff (hs.wholeTargets_copies hnames hlength), hs.pairwise_copies_iff]

/-- In a branch, one variable is assigned to itself and then read. -/
def guarded : FunctionDecl :=
  let a : Expr := .ident "a" default
  let b : Expr := .ident "b" default
  let c : Expr := .ident "c" default
  ⟨"spread", ["a", "b", "c"], [], ⟨[.ifElse none a
    ⟨[.assign [a, b, c] [a, .paren (.select c "x" default) default, .select a "y" default] default],
      default⟩ none default], default⟩, default⟩

theorem guarded_simultaneous :
    ∃ g before after, guarded.graph .builtin = .ok g ∧
      g.history = before ++ ([
        .assign ⟨.tracked 0, []⟩ ⟨.tracked 0, []⟩,
        .assign ⟨.tracked 2, ["x"]⟩ ⟨.tracked 1, []⟩,
        .assign ⟨.tracked 0, ["y"]⟩ ⟨.tracked 2, []⟩] ++ after) ∧
      Simultaneous [⟨⟨.tracked 0, []⟩, ⟨.tracked 0, []⟩, .same⟩,
        ⟨⟨.tracked 2, ["x"]⟩, ⟨.tracked 1, []⟩, .same⟩,
        ⟨⟨.tracked 0, ["y"]⟩, ⟨.tracked 2, []⟩, .same⟩] := by
  obtain ⟨enter, hleads, hcopies⟩ : ∃ enter,
      Build.Leads (guarded.context .builtin) guarded.body.stmts enter
        [.assign [.ident "a" default, .ident "b" default, .ident "c" default]
          [.ident "a" default, .paren (.select (.ident "c" default) "x" default) default,
            .select (.ident "a" default) "y" default] default] ∧
      (enter.run guarded.bodyState).map (·.2.scopes.copies
        (["a", "b", "c"].zip [("a", []), ("c", ["x"]), ("a", ["y"])])) =
        .ok [⟨⟨.tracked 0, []⟩, ⟨.tracked 0, []⟩, .same⟩,
          ⟨⟨.tracked 2, ["x"]⟩, ⟨.tracked 1, []⟩, .same⟩,
          ⟨⟨.tracked 0, ["y"]⟩, ⟨.tracked 2, []⟩, .same⟩] := by
    refine ⟨_, .inside _ (.arms .thenBlock) (.here _), ?_⟩
    cbv
  have hbuilt : (guarded.graph .builtin).map FlowGraph.pointCount = .ok 5 := by cbv
  cases hg : guarded.graph .builtin with
  | error e =>
      rw [hg] at hbuilt
      cases hbuilt
  | ok g =>
      have hplaces : List.Forall₂ (fun (e : Expr) place => e.place? = some place)
          [.ident "a" default, .paren (.select (.ident "c" default) "x" default) default,
            .select (.ident "a" default) "y" default]
          [("a", []), ("c", ["x"]), ("a", ["y"])] := .cons rfl (.cons rfl (.cons rfl .nil))
      obtain ⟨s, before, after, henter, -, hhistory, hiff⟩ :=
        simultaneous_assignment_iff hg hleads (.cons rfl (.cons rfl (.cons rfl .nil))) hplaces rfl
          (by decide)
      rw [henter] at hcopies
      have hcopies : s.scopes.copies _ = _ := Except.ok.inj hcopies
      rw [hcopies] at hhistory hiff
      refine ⟨g, before, after, rfl, hhistory, hiff.mpr ?_⟩
      simp [Scopes.ReadsUnassigned]

/-- Two variables are exchanged. -/
def swapped : FunctionDecl :=
  let a : Expr := .ident "a" default
  let b : Expr := .ident "b" default
  ⟨"swap", ["a", "b"], [], ⟨[.assign [a, b] [b, a] default], default⟩, default⟩

/-- After the exchange both variables hold what the second one held, and what the first one held is
lost. -/
theorem swapped_keeps_second :
    (swapped.graph .builtin).map FlowGraph.history =
      .ok [.assign ⟨.tracked 1, []⟩ ⟨.tracked 0, []⟩,
        .assign ⟨.tracked 0, []⟩ ⟨.tracked 1, []⟩] ∧
    (∀ (α : Type) (new : Nat → Store α) (σ : Store α) (suffix : FieldPath),
      Store.run new σ [⟨⟨.tracked 1, []⟩, ⟨.tracked 0, []⟩, .same⟩,
          ⟨⟨.tracked 0, []⟩, ⟨.tracked 1, []⟩, .same⟩] ⟨.tracked 0, suffix⟩ =
        σ ⟨.tracked 1, suffix⟩ ∧
      Store.run new σ [⟨⟨.tracked 1, []⟩, ⟨.tracked 0, []⟩, .same⟩,
          ⟨⟨.tracked 0, []⟩, ⟨.tracked 1, []⟩, .same⟩] ⟨.tracked 1, suffix⟩ =
        σ ⟨.tracked 1, suffix⟩) ∧
    ¬ Simultaneous [⟨⟨.tracked 1, []⟩, ⟨.tracked 0, []⟩, .same⟩,
      ⟨⟨.tracked 0, []⟩, ⟨.tracked 1, []⟩, .same⟩] := by
  have hsecond : ∀ (α : Type) (new : Nat → Store α) (σ : Store α) (suffix : FieldPath),
      Store.run new σ [⟨⟨.tracked 1, []⟩, ⟨.tracked 0, []⟩, .same⟩,
          ⟨⟨.tracked 0, []⟩, ⟨.tracked 1, []⟩, .same⟩] ⟨.tracked 1, suffix⟩ =
        σ ⟨.tracked 1, suffix⟩ := fun _ _ _ _ => rfl
  refine ⟨by cbv, fun α new σ suffix => ⟨rfl, hsecond α new σ suffix⟩, fun h => ?_⟩
  have hlost := h Selector (fun _ => id) id ⟨⟨.tracked 0, []⟩, ⟨.tracked 1, []⟩, .same⟩
    (by simp) rfl []
  rw [if_neg (by decide)] at hlost
  exact absurd ((hsecond _ _ _ []).symm.trans hlost) (by decide)

end FunctionDecl

end SliceLineage
