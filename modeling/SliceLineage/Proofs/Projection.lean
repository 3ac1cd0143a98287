import SliceLineage.Composition

/-!
# Selecting and nesting are projection and embedding

A composition says of every region of a value what is placed there. An embed above the region
places a field of its selector, an embed at the region the selector itself; embeds elsewhere, and
blank ones, place nothing. Seen through this reading, selecting a field is projection to the regions
below it, and nesting is the embedding into them.

* `Embed.placed?`, `Composition.placed`: what a region is a copy of.
* `placed_select`, `placed_selectPath`, `placed_nest`: the reading commutes with the operations.
* `Composition.select_projects_nest_embeds`: the laws together; selecting what was nested gives it
  back.
-/

namespace SliceLineage

namespace Embed

/-- The followed region that an embed places at `path`, if its own path leads there. -/
def placed? (e : Embed) (path : FieldPath) : Option Selector :=
  if e.selector.isBlank then none else (e.path.below? path).map e.selector.extend

/-- What is left of an embed after a selection places below the field what the embed placed there
before. -/
theorem placed?_select (e : Embed) (name : String) (path : FieldPath) :
    (e.select name).bind (·.placed? path) = e.placed? (name :: path) := by
  obtain ⟨_ | ⟨head, rest⟩, s⟩ := e
  · -- an embed of the whole value: the selector gets longer instead of the path shorter
    cases hb : s.isBlank with
    | true => simp [select, placed?, hb]
    | false =>
        have hfield : (s.extend [name]).isBlank = false := hb
        simp [select, placed?, hb, hfield, FieldPath.below?, Selector.field]
  · by_cases hname : head = name <;> simp [select, placed?, FieldPath.below?, hname]

theorem placed?_nest (e : Embed) (name field : String) (path : FieldPath) :
    (e.nest name).placed? (field :: path) = if name = field then e.placed? path else none := by
  by_cases hname : name = field <;> simp [nest, placed?, FieldPath.below?, hname]

theorem select_nest (e : Embed) (name : String) : (e.nest name).select name = some e := by
  simp [nest, select]

end Embed

namespace Composition

/-- What the composition places at `path`, embed by embed. -/
def placed (c : Composition) (path : FieldPath) : List Selector :=
  c.embeds.filterMap (·.placed? path)

/-- Where no embed is left the selection is blank, and places nothing either. -/
theorem placed_select (c : Composition) (name : String) (path : FieldPath) :
    (c.select name).placed path = c.placed (name :: path) := by
  have hkept : (c.embeds.filterMap (·.select name)).filterMap (·.placed? path) =
      c.placed (name :: path) := by
    rw [List.filterMap_filterMap]
    exact congrArg c.embeds.filterMap (funext fun e => e.placed?_select name path)
  unfold select
  split
  · rename_i hnone
    rw [← hkept, hnone]
    rfl
  · exact hkept

theorem placed_selectPath (fields path : FieldPath) :
    ∀ c : Composition, (c.selectPath fields).placed path = c.placed (fields ++ path) := by
  induction fields with
  | nil => exact fun c => rfl
  | cons name rest ih =>
      intro c
      calc (c.selectPath (name :: rest)).placed path
          = ((c.select name).selectPath rest).placed path := rfl
        _ = (c.select name).placed (rest ++ path) := ih (c.select name)
        _ = c.placed (name :: rest ++ path) := placed_select c name (rest ++ path)

theorem placed_nest (c : Composition) (name field : String) (path : FieldPath) :
    (c.nest name).placed (field :: path) = if name = field then c.placed path else [] := by
  unfold placed nest
  rw [List.filterMap_map]
  have hembed : (fun e : Embed => e.placed? (field :: path)) ∘ (fun e : Embed => e.nest name) =
      fun e => if name = field then e.placed? path else none :=
    funext fun e => e.placed?_nest name field path
  rw [hembed]
  split <;> simp

@[simp]
theorem placed_nest_nil (c : Composition) (name : String) : (c.nest name).placed [] = [] := by
  simp [placed, nest, Embed.nest, Embed.placed?, FieldPath.below?]

theorem isUnknown_select (c : Composition) (name : String) : (c.select name).isUnknown = false := by
  unfold select
  split
  · rfl
  · rename_i hsome
    simpa [isUnknown] using hsome

/-- Each field of the path is selected out of something, so that something is left at the end. -/
theorem isUnknown_selectPath {c : Composition} (hc : c.isUnknown = false) (fields : FieldPath) :
    (c.selectPath fields).isUnknown = false := by
  induction fields generalizing c with
  | nil => exact hc
  | cons name rest ih => exact ih (c.isUnknown_select name)

theorem select_nest {c : Composition} (hc : c.isUnknown = false) (name : String) :
    (c.nest name).select name = c := by
  have hkept : (c.nest name).embeds.filterMap (·.select name) = c.embeds := by
    simp only [nest, List.filterMap_map]
    have hembed : (fun e : Embed => e.select name) ∘ (fun e : Embed => e.nest name) = some :=
      funext fun e => e.select_nest name
    rw [hembed, List.filterMap_some]
  unfold select
  rw [hkept]
  split
  · rename_i hnone
    simp [isUnknown, hnone] at hc
  · rfl

/-- **Selection projects, nesting embeds.** Whatever the embeds of a composition are, below a field
that is selected stands what the composition places below the field, in the same order, and the same
for a path of fields. Below the field that a composition is nested in stands what the composition
places, and nothing anywhere else. A selection is always known, and what was nested in a field is
got back by selecting it, unless nothing was known. -/
theorem select_projects_nest_embeds (c : Composition) (name : String) (fields path : FieldPath) :
    (c.select name).placed path = c.placed (name :: path) ∧
    (c.selectPath fields).placed path = c.placed (fields ++ path) ∧
    (c.nest name).placed (name :: path) = c.placed path ∧
    (∀ other, other ≠ name → (c.nest name).placed (other :: path) = []) ∧
    (c.nest name).placed [] = [] ∧
    (fields ≠ [] → (c.selectPath fields).isUnknown = false) ∧
    (c.isUnknown = false → (c.nest name).select name = c) := by
  refine ⟨c.placed_select name path, placed_selectPath fields path c, ?_, fun other hne => ?_,
    c.placed_nest_nil name, fun hfields => ?_, fun hc => select_nest hc name⟩
  · rw [placed_nest, if_pos rfl]
  · rw [placed_nest, if_neg hne.symm]
  · cases fields with
    | nil => exact absurd rfl hfields
    | cons first rest => exact isUnknown_selectPath (c.isUnknown_select first) rest

/-- The whole value is a copy of `$0`, its field `Meta` also of `$1.x`, and twice something is put
at `Meta.Phone`, once blank. -/
def overlaid : Composition :=
  ⟨[⟨[], .whole (.tracked 0)⟩, ⟨["Meta"], ⟨.tracked 1, ["x"]⟩⟩, ⟨["Meta", "Phone"], .blank⟩,
    ⟨["Meta", "Phone"], .whole (.tracked 2)⟩]⟩

theorem overlaid_projected :
    overlaid.isUnknown = false ∧
    (overlaid.selectPath ["Meta", "Phone"]).placed ["Area"] =
      [⟨.tracked 0, ["Meta", "Phone", "Area"]⟩, ⟨.tracked 1, ["x", "Phone", "Area"]⟩,
        ⟨.tracked 2, ["Area"]⟩] ∧
    (overlaid.nest "User").placed ["Meta", "Area"] = [] ∧
    (overlaid.selectPath ["Meta", "Phone"]).isUnknown = false ∧
    (overlaid.nest "User").select "User" = overlaid := by
  obtain ⟨-, hpath, -, hother, -, hknown, hback⟩ :=
    overlaid.select_projects_nest_embeds "User" ["Meta", "Phone"] ["Area"]
  exact ⟨rfl, hpath.trans (by decide), hother "Meta" (by decide), hknown (by decide), hback rfl⟩

end Composition

end SliceLineage
