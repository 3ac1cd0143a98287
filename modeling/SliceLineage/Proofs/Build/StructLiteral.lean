import Mathlib
import SliceLineage.Proofs.Build.TupleAssignment

/-!
# Assignment of struct literals

A struct literal that is stored in a variable becomes one copy for each element, to the path of keys
that leads to it. Nothing is written to the fields that the literal leaves out, so that they keep
what the variable held before.

* `Expr.parts?`: the variables in a literal of variables, nested to any depth, with their paths.
* `Expr.distinctKeys`, `FieldPath.Apart`: if no key is repeated, no element lies inside another.
* `Scopes.partCopies`, `Fills`: the copies of a literal, and what they do to every store.
* `Replaces`: copies that leave nothing of what a variable held before.
* `FunctionDecl.struct_literal_fills`: what is stored where in a function.
-/

namespace SliceLineage

/-! ## Literals of variables -/

/-- What stands in a literal: a path of keys, and the variable there, if the literal does not end in
one without elements. -/
abbrev LiteralPart := FieldPath × Option String

/-- The part below one key more. -/
def LiteralPart.below (key : String) (part : LiteralPart) : LiteralPart := (key :: part.1, part.2)

namespace Expr

mutual

/-- The parts of a variable or of a struct literal with keys whose innermost elements are variables,
in order. -/
def parts? : Expr → Option (List LiteralPart)
  | .ident name _ => some [([], some name)]
  | .paren inner _ => inner.parts?
  | .composite .struct [] _ => some [([], none)]
  | .composite .struct (element :: elements) _ => partsOfElements? (element :: elements)
  | _ => none

def partsOfElements? : List Element → Option (List LiteralPart)
  | [] => some []
  | ⟨none, _⟩ :: _ => none
  | ⟨some key, value⟩ :: elements => do
      let parts ← value.parts?
      let rest ← partsOfElements? elements
      return parts.map (.below key) ++ rest

end

mutual

/-- No key is repeated in a literal, at any level. -/
def distinctKeys : Expr → Bool
  | .paren inner _ => inner.distinctKeys
  | .composite _ elements _ => decide (elements.map Element.key).Nodup && distinctInEach elements
  | _ => true

def distinctInEach : List Element → Bool
  | [] => true
  | ⟨_, value⟩ :: elements => value.distinctKeys && distinctInEach elements

end

end Expr

/-- Neither path lies below the other one. -/
def FieldPath.Apart (p q : FieldPath) : Prop := ¬ p <+: q ∧ ¬ q <+: p

theorem FieldPath.apart_cons {key : String} {p q : FieldPath} (h : Apart p q) :
    Apart (key :: p) (key :: q) :=
  ⟨fun hp => h.1 (List.cons_prefix_cons.mp hp).2, fun hq => h.2 (List.cons_prefix_cons.mp hq).2⟩

theorem FieldPath.apart_of_ne {key key' : String} (hne : key ≠ key') (p q : FieldPath) :
    Apart (key :: p) (key' :: q) :=
  ⟨fun hp => hne (List.cons_prefix_cons.mp hp).1,
    fun hq => hne (List.cons_prefix_cons.mp hq).1.symm⟩

/-- What lies below one of the two paths does not lie below the other one. -/
theorem FieldPath.Apart.not_prefix_append {p q : FieldPath} (h : Apart p q) (suffix : FieldPath) :
    ¬ q <+: p ++ suffix := by
  intro hq
  rcases List.prefix_or_prefix_of_prefix (List.prefix_append p suffix) hq with hp | hq
  · exact h.1 hp
  · exact h.2 hq

namespace Expr

/-- The parts of some elements, by those of the first one. -/
theorem partsOfElements?_cons {element : Element} {elements : List Element} {all : List LiteralPart}
    (h : partsOfElements? (element :: elements) = some all) :
    ∃ key parts rest, element.key = some key ∧ element.value.parts? = some parts ∧
      partsOfElements? elements = some rest ∧ all = parts.map (.below key) ++ rest := by
  obtain ⟨key, value⟩ := element
  cases key with
  | none =>
      rw [partsOfElements?] at h
      cases h
  | some key =>
      rw [partsOfElements?] at h
      obtain ⟨parts, hparts, h⟩ := Option.bind_eq_some_iff.mp h
      obtain ⟨rest, hrest, h⟩ := Option.bind_eq_some_iff.mp h
      cases h
      exact ⟨key, parts, rest, rfl, hparts, hrest, rfl⟩

/-- The parts of elements stand below their keys. -/
theorem exists_key_of_mem {elements : List Element} :
    ∀ {parts : List LiteralPart}, partsOfElements? elements = some parts → ∀ part ∈ parts,
      ∃ key path, some key ∈ elements.map Element.key ∧ part.1 = key :: path := by
  induction elements with
  | nil =>
      intro parts h part hpart
      cases h
      cases hpart
  | cons element elements ih =>
      intro parts h part hpart
      obtain ⟨key, inner, rest, hkey, -, hrest, rfl⟩ := partsOfElements?_cons h
      rw [List.map_cons, hkey]
      rcases List.mem_append.mp hpart with hpart | hpart
      · obtain ⟨part, -, rfl⟩ := List.mem_map.mp hpart
        exact ⟨key, part.1, List.mem_cons_self, rfl⟩
      · obtain ⟨key', path, hmem, hpath⟩ := ih hrest part hpart
        exact ⟨key', path, List.mem_cons_of_mem _ hmem, hpath⟩

mutual

/-- A literal has parts. -/
theorem parts_ne_nil : ∀ {e : Expr} {parts : List LiteralPart}, e.parts? = some parts → parts ≠ []
  | .ident name _, _, h => by
      cases h
      simp
  | .paren inner _, _, h => by
      rw [parts?] at h
      exact parts_ne_nil h
  | .composite .struct [] _, _, h => by
      cases h
      simp
  | .composite .struct (element :: elements) _, _, h => by
      rw [parts?] at h
      exact partsOfElements_ne_nil h
  | .composite .sequence .., _, h | .composite .map .., _, h | .select .., _, h | .call .., _, h
  | .slice .., _, h | .unary .., _, h | .binary .., _, h | .index .., _, h | .typeAssert .., _, h
  | .literal _, _, h | .funcLit _, _, h | .other _, _, h | .bad _, _, h => by simp [parts?] at h

theorem partsOfElements_ne_nil : ∀ {element : Element} {elements : List Element}
    {parts : List LiteralPart}, partsOfElements? (element :: elements) = some parts → parts ≠ []
  | ⟨key, value⟩, elements, _, h => by
      obtain ⟨_, inner, rest, -, hinner, -, rfl⟩ := partsOfElements?_cons h
      have hne : inner ≠ [] := parts_ne_nil (e := value) hinner
      simp [hne]

end

mutual

/-- **Where no key is repeated, no part of a literal lies inside another.** -/
theorem apart_parts : ∀ {e : Expr} {parts : List LiteralPart}, e.parts? = some parts →
    e.distinctKeys = true → parts.Pairwise fun p q => FieldPath.Apart p.1 q.1
  | .ident name _, _, h, _ => by
      cases h
      exact List.pairwise_singleton _ _
  | .paren inner _, _, h, hkeys => by
      rw [parts?] at h
      rw [distinctKeys] at hkeys
      exact apart_parts h hkeys
  | .composite .struct [] _, _, h, _ => by
      cases h
      exact List.pairwise_singleton _ _
  | .composite .struct (element :: elements) _, _, h, hkeys => by
      rw [parts?] at h
      rw [distinctKeys, Bool.and_eq_true, decide_eq_true_eq] at hkeys
      exact apart_partsOfElements h hkeys.1 hkeys.2
  | .composite .sequence .., _, h, _ | .composite .map .., _, h, _ | .select .., _, h, _
  | .call .., _, h, _ | .slice .., _, h, _ | .unary .., _, h, _ | .binary .., _, h, _
  | .index .., _, h, _ | .typeAssert .., _, h, _ | .literal _, _, h, _ | .funcLit _, _, h, _
  | .other _, _, h, _ | .bad _, _, h, _ => by simp [parts?] at h

theorem apart_partsOfElements : ∀ {elements : List Element} {parts : List LiteralPart},
    partsOfElements? elements = some parts → (elements.map Element.key).Nodup →
    distinctInEach elements = true → parts.Pairwise fun p q => FieldPath.Apart p.1 q.1
  | [], _, h, _, _ => by
      cases h
      exact .nil
  | ⟨_, value⟩ :: elements, _, h, hkeys, hinner => by
      obtain ⟨key, inner, rest, rfl, hvalue, hrest, rfl⟩ := partsOfElements?_cons h
      rw [List.map_cons, List.nodup_cons] at hkeys
      rw [distinctInEach, Bool.and_eq_true] at hinner
      refine List.pairwise_append.mpr ⟨List.pairwise_map.mpr ?_, ?_, ?_⟩
      · exact (apart_parts hvalue hinner.1).imp FieldPath.apart_cons
      · exact apart_partsOfElements hrest hkeys.2 hinner.2
      · intro part hpart part' hpart'
        obtain ⟨part, -, rfl⟩ := List.mem_map.mp hpart
        obtain ⟨key', path, hkey', hpath⟩ := exists_key_of_mem hrest part' hpart'
        rw [hpath]
        refine FieldPath.apart_of_ne ?_ _ _
        rintro rfl
        exact hkeys.1 hkey'

end

end Expr

/-! ## Copies of a literal -/

namespace Scopes

/-- The region that a part is copied from. -/
def source (s : Scopes) (part : LiteralPart) : Selector :=
  part.2.elim .blank fun name => .whole (s.lookup name)

/-- The copies of the parts of a literal into a value. -/
def partCopies (s : Scopes) (v : ValueId) (parts : List LiteralPart) : List BoundAssignment :=
  parts.map fun part => ⟨s.source part, ⟨v, part.1⟩, .same⟩

/-- What the walk finds a literal to be composed of. -/
def partEmbeds (s : Scopes) (parts : List LiteralPart) : List Embed :=
  parts.map fun part => ⟨part.1, s.source part⟩

end Scopes

/-- In every store, the copies bring to each part what its variable held before, or something new if
that is not followed, and leave all other regions alone, those of the same value included. -/
def Fills (s : Scopes) (v : ValueId) (parts : List LiteralPart)
    (copies : List BoundAssignment) : Prop :=
  ∀ (α : Type) (new : Nat → Store α) (σ : Store α),
    (∀ part ∈ parts, ∀ suffix, if (s.source part).isBlank then
        ∃ k, Store.run new σ copies ⟨v, part.1 ++ suffix⟩ = new k ⟨v, part.1 ++ suffix⟩
      else Store.run new σ copies ⟨v, part.1 ++ suffix⟩ = σ ((s.source part).extend suffix)) ∧
    ∀ r : Selector, (r.value = v → ∀ part ∈ parts, ¬ part.1 <+: r.path) →
      Store.run new σ copies r = σ r

/-- In every store, the copies leave something new in each region of the value that is apart from
all parts, so that nothing of what it held before is left. -/
def Replaces (v : ValueId) (parts : List LiteralPart) (copies : List BoundAssignment) : Prop :=
  ∀ (α : Type) (new : Nat → Store α) (σ : Store α) (path : FieldPath),
    (∀ part ∈ parts, FieldPath.Apart part.1 path) →
      ∃ k, Store.run new σ copies ⟨v, path⟩ = new k ⟨v, path⟩

section

variable {s : Scopes} {v : ValueId} {parts : List LiteralPart} {α : Type}

/-- Regions of other values and those below no part are left alone. -/
theorem Store.run_partCopies_of_not_prefix {r : Selector}
    (h : r.value = v → ∀ part ∈ parts, ¬ part.1 <+: r.path) :
    ∀ (new : Nat → Store α) (σ : Store α), Store.run new σ (s.partCopies v parts) r = σ r := by
  induction parts with
  | nil => exact fun _ _ => rfl
  | cons part parts ih =>
      intro new σ
      have hrest := ih (fun hr part' hpart' => h hr part' (List.mem_cons_of_mem _ hpart'))
        (fun k => new (k + 1)) (σ.assign (new 0) ⟨s.source part, ⟨v, part.1⟩, .same⟩)
      refine hrest.trans ?_
      cases hb : (Selector.mk v part.1).isBlank with
      | true => rw [Store.assign_blank (a := ⟨s.source part, ⟨v, part.1⟩, .same⟩) σ (new 0) hb]
      | false =>
          rw [Store.assign_apply (a := ⟨s.source part, ⟨v, part.1⟩, .same⟩) σ (new 0) hb, if_neg]
          exact fun hr => h hr.1 part List.mem_cons_self hr.2

/-- **Parts that are apart and come from other values fill the value.** -/
theorem Scopes.fills_partCopies (hv : v.isBlank = false)
    (hother : ∀ part ∈ parts, (s.source part).value ≠ v)
    (hapart : parts.Pairwise fun p q => FieldPath.Apart p.1 q.1) :
    Fills s v parts (s.partCopies v parts) := by
  refine fun α new σ => ⟨?_, fun r h => Store.run_partCopies_of_not_prefix h new σ⟩
  induction parts generalizing new σ with
  | nil => exact fun part hpart => absurd hpart List.not_mem_nil
  | cons first parts ih =>
      intro part hpart suffix
      obtain ⟨hfirst, hrest⟩ := List.pairwise_cons.mp hapart
      rcases List.mem_cons.mp hpart with rfl | hpart
      · -- What is copied later goes to other regions.
        have hlater : Store.run new σ (s.partCopies v (part :: parts)) ⟨v, part.1 ++ suffix⟩ =
            σ.assign (new 0) ⟨s.source part, ⟨v, part.1⟩, .same⟩
              ((Selector.mk v part.1).extend suffix) :=
          Store.run_partCopies_of_not_prefix
            (fun _ part' hpart' => (hfirst part' hpart').not_prefix_append suffix) _ _
        rw [hlater, Store.assign_extend (a := ⟨s.source part, ⟨v, part.1⟩, .same⟩) hv suffix]
        split
        · exact ⟨0, rfl⟩
        · rfl
      · have hlater := ih (fun part' hpart' => hother part' (List.mem_cons_of_mem _ hpart')) hrest
          (fun k => new (k + 1)) (σ.assign (new 0) ⟨s.source first, ⟨v, first.1⟩, .same⟩) part
          hpart suffix
        split at hlater
        · rename_i hsource
          rw [if_pos hsource]
          obtain ⟨k, hk⟩ := hlater
          exact ⟨k + 1, hk⟩
        · rename_i hsource
          rw [if_neg hsource]
          refine hlater.trans (Store.assign_of_value_ne fun _ => ?_)
          exact hother part (List.mem_cons_of_mem _ hpart)

/-- Some path is apart from all parts that are no whole values. -/
theorem exists_apart (h : ∀ part ∈ parts, part.1 ≠ []) :
    ∃ path, ∀ part ∈ parts, FieldPath.Apart part.1 path := by
  obtain ⟨name, hname⟩ := Infinite.exists_notMem_finset (parts.filterMap (·.1.head?)).toFinset
  refine ⟨[name], fun part hpart => ?_⟩
  obtain ⟨key, path, hpath⟩ := List.exists_cons_of_ne_nil (h part hpart)
  rw [hpath]
  refine FieldPath.apart_of_ne ?_ _ _
  rintro rfl
  refine hname (List.mem_toFinset.mpr (List.mem_filterMap.mpr ⟨part, hpart, ?_⟩))
  rw [hpath, List.head?_cons]

/-- **The old contents are gone exactly if one part is the whole value.** -/
theorem Scopes.replaces_partCopies_iff :
    Replaces v parts (s.partCopies v parts) ↔ ∃ part ∈ parts, part.1 = [] := by
  constructor
  · intro h
    by_contra hnone
    obtain ⟨path, hpath⟩ := exists_apart fun part hpart hnil => hnone ⟨part, hpart, hnil⟩
    obtain ⟨k, hk⟩ := h Bool (fun _ _ => true) (fun _ => false) path hpath
    rw [Store.run_partCopies_of_not_prefix fun _ part hpart => (hpath part hpart).1] at hk
    cases hk
  · rintro ⟨part, hpart, hnil⟩ α new σ path hpath
    have hapart := (hpath part hpart).1
    rw [hnil] at hapart
    exact absurd List.nil_prefix hapart

end

/-! ## The walk over a literal -/

theorem Scopes.partEmbeds_below (s : Scopes) (key : String) (parts : List LiteralPart) :
    s.partEmbeds (parts.map (.below key)) = (s.partEmbeds parts).map (·.nest key) := by
  unfold partEmbeds
  rw [List.map_map, List.map_map]
  rfl

namespace Build

variable {registry : Registry} {s : BuildState} {parts : List LiteralPart}

mutual

/-- **A literal of variables is composed of its parts**, and nothing happens. -/
theorem run_evaluate_parts : ∀ {e : Expr} {parts : List LiteralPart}, e.parts? = some parts →
    (evaluate registry e 1).run s = .ok ([⟨s.scopes.partEmbeds parts⟩], s)
  | .ident name _, _, h => by
      cases h
      rw [evaluate]
      rfl
  | .paren inner _, _, h => by
      rw [Expr.parts?] at h
      rw [evaluate]
      exact run_evaluate_parts h
  | .composite .struct [] _, _, h => by
      cases h
      rw [evaluate, evaluateElements]
      rfl
  | .composite .struct (element :: elements) _, parts, h => by
      rw [Expr.parts?] at h
      have hembeds : ofEmbeds (s.scopes.partEmbeds parts) = ⟨s.scopes.partEmbeds parts⟩ := by
        have hne := Expr.partsOfElements_ne_nil h
        rw [ofEmbeds, if_neg]
        simpa [Scopes.partEmbeds] using hne
      rw [evaluate, run_bind_of_ok (run_evaluateElements_parts h), hembeds]
      rfl
  | .composite .sequence .., _, h | .composite .map .., _, h | .select .., _, h | .call .., _, h
  | .slice .., _, h | .unary .., _, h | .binary .., _, h | .index .., _, h | .typeAssert .., _, h
  | .literal _, _, h | .funcLit _, _, h | .other _, _, h | .bad _, _, h => by
      simp [Expr.parts?] at h

theorem run_evaluateElements_parts : ∀ {elements : List Element} {parts : List LiteralPart},
    Expr.partsOfElements? elements = some parts →
      (evaluateElements registry .struct elements).run s = .ok (s.scopes.partEmbeds parts, s)
  | [], _, h => by
      cases h
      rw [evaluateElements]
      rfl
  | ⟨_, value⟩ :: elements, _, h => by
      obtain ⟨key, inner, rest, rfl, hvalue, hrest, rfl⟩ := Expr.partsOfElements?_cons h
      have hknown : (Composition.mk (s.scopes.partEmbeds inner)).isUnknown = false := by
        have hne := Expr.parts_ne_nil hvalue
        simpa [Composition.isUnknown, Scopes.partEmbeds] using hne
      have hembeds : elementEmbeds .struct (some key) ⟨s.scopes.partEmbeds inner⟩ =
          s.scopes.partEmbeds (inner.map (.below key)) := by
        rw [elementEmbeds, hknown, if_neg Bool.false_ne_true, Scopes.partEmbeds_below]
        rfl
      have hall : s.scopes.partEmbeds (inner.map (.below key) ++ rest) =
          s.scopes.partEmbeds (inner.map (.below key)) ++ s.scopes.partEmbeds rest :=
        List.map_append
      rw [evaluateElements, run_bind_of_ok (run_evaluate_parts hvalue),
        run_bind_of_ok (run_single _ _ s), run_bind_of_ok (run_evaluateElements_parts hrest), hall,
        ← hembeds]
      rfl

end

/-- A literal is stored by the copies of its parts. -/
theorem run_store_parts {v : ValueId} (hv : v.isBlank = false) (hne : parts ≠ []) (span : Span)
    (scopes : Scopes) :
    (store (.whole v) ⟨scopes.partEmbeds parts⟩ span).run s =
      .ok ((), ⟨s.cursor.copyAll span (scopes.partCopies v parts), s.scopes⟩) := by
  have hknown : (Composition.mk (scopes.partEmbeds parts)).isUnknown = false := by
    simpa [Composition.isUnknown, Scopes.partEmbeds] using hne
  rw [store, hknown, if_neg Bool.false_ne_true]
  clear hne hknown
  induction parts generalizing s with
  | nil => rfl
  | cons part parts ih =>
      have hcopy : (copy (scopes.source part) ((Selector.whole v).extend part.1) span).run s =
          .ok ((), ⟨s.cursor.append (.assign (scopes.source part) ⟨v, part.1⟩) (some span),
            s.scopes⟩) := by
        have hboth : ((scopes.source part).isBlank &&
            ((Selector.whole v).extend part.1).isBlank) = false := by
          rw [Selector.isBlank, Selector.isBlank]
          exact (congrArg _ hv).trans (Bool.and_false _)
        rw [copy, hboth]
        rfl
      show (do
        copy (scopes.source part) ((Selector.whole v).extend part.1) span
        (scopes.partEmbeds parts).forM fun e => copy e.selector ((Selector.whole v).extend e.path)
          span : Build Unit).run s = _
      rw [run_bind_of_ok hcopy]
      exact ih

/-- The statement stores the expression in the variable `x`, which then has the value `v`: it is the
definition of the variable, or an assignment to it with other variables in the literal. -/
inductive Puts (s : Scopes) (x : String) (e : Expr) (parts : List LiteralPart) (span : Span) :
    Stmt → ValueId → Prop
  | define (hx : x ≠ Scopes.blankName) :
      Puts s x e parts span (.define [x] [e] span) (.tracked s.allocated)
  | assign {target : Expr} (htarget : target.name? = some x)
      (hx : (s.lookup x).isBlank = false) (hother : ∀ part ∈ parts, part.2 ≠ some x) :
      Puts s x e parts span (.assign [target] [e] span) (s.lookup x)

namespace Puts

variable {x : String} {e : Expr} {span : Span} {stmt : Stmt} {v : ValueId}

theorem isBlank_eq_false {scopes : Scopes} (h : Puts scopes x e parts span stmt v) :
    v.isBlank = false := by
  cases h with
  | define hx => rfl
  | assign htarget hx hother => exact hx

/-- The literal is made of other values. -/
theorem value_source_ne {scopes : Scopes} (h : Puts scopes x e parts span stmt v)
    (hs : scopes.Separate) : ∀ part ∈ parts, (scopes.source part).value ≠ v := by
  rintro ⟨path, name⟩ hpart heq
  cases name with
  | none =>
      have hblank := h.isBlank_eq_false
      rw [← heq] at hblank
      cases hblank
  | some name =>
      have hlookup : scopes.lookup name = v := heq
      cases h with
      | define hx => exact Nat.lt_irrefl _ (hs.below_lookup name _ hlookup)
      | assign htarget hx hother =>
          have hname := hs.eq_of_lookup_eq hx hlookup.symm
          exact hother _ hpart (congrArg some hname.symm)

/-- **The walk over the statement appends the copies of the parts and nothing else.** -/
theorem run_statement (ctx : BuildContext) (h : Puts s.scopes x e parts span stmt v)
    (hs : s.scopes.Separate) (hparts : e.parts? = some parts) : ∃ scopes,
      (statement ctx stmt).run s =
        .ok ((), ⟨s.cursor.copyAll span (s.scopes.partCopies v parts), scopes⟩) ∧
      scopes.lookup x = v ∧ scopes.Separate := by
  have hv := h.isBlank_eq_false
  have hne := Expr.parts_ne_nil hparts
  have hvalue : (evaluateValues ctx.registry span [e] 1).run s =
      .ok ([⟨s.scopes.partEmbeds parts⟩], s) :=
    run_evaluateValues_single span (run_evaluate_parts hparts)
  cases h with
  | define hx =>
      have hdeclare : (declare x).run s =
          .ok (.tracked s.scopes.allocated, ⟨s.cursor, (s.scopes.declare x).2⟩) := by
        have hnew : (s.scopes.declare x).1 = .tracked s.scopes.allocated := by
          rw [Scopes.declare_eq _ hx]
        rw [← hnew]
        rfl
      refine ⟨(s.scopes.declare x).2, ?_, ?_, hs.declare⟩
      · rw [statement]
        show (evaluateValues ctx.registry span [e] 1 >>= _).run s = _
        rw [run_bind_of_ok hvalue]
        show (defineNames span [(x, ⟨s.scopes.partEmbeds parts⟩)]).run s = _
        rw [defineNames, run_bind_of_ok hdeclare,
          run_bind_of_ok (run_store_parts hv hne span s.scopes), defineNames]
        rfl
      · rw [Scopes.declare_eq _ hx, Scopes.lookup, Scopes.lookup?, if_neg hx, Scopes.bind]
        split <;> simp
  | @assign target htarget hx hother =>
      have hplace : (evaluateOne ctx.registry target).run s =
          .ok (.of (.whole (s.scopes.lookup x)), s) := by
        rw [evaluateOne, run_bind_of_ok (run_evaluate_place (Expr.place?_of_name? htarget)),
          Scopes.region_name]
        rfl
      refine ⟨s.scopes, ?_, rfl, hs⟩
      rw [statement]
      show (evaluateValues ctx.registry span [e] 1 >>= _).run s = _
      rw [run_bind_of_ok hvalue]
      show (assignTargets ctx span [(target, ⟨s.scopes.partEmbeds parts⟩)]).run s = _
      rw [assignTargets, run_bind_of_ok hplace]
      show ((do
        store (.whole (s.scopes.lookup x)) ⟨s.scopes.partEmbeds parts⟩ span
        assignTargets ctx span [] : Build Unit)).run s = _
      rw [run_bind_of_ok (run_store_parts hv hne span s.scopes), assignTargets]
      rfl

end Puts

end Build

/-! ## Literals in a function -/

namespace FunctionDecl

variable {registry : Registry} {f : FunctionDecl} {g : FlowGraph} {enter : Build Unit}
  {s : BuildState} {x : String} {e : Expr} {parts : List LiteralPart} {span : Span} {stmt : Stmt}
  {v : ValueId} {rest : List Stmt}

/-- **A struct literal fills the fields that it lists, and the other ones keep what they held.** At
every position in a function where a literal of variables without repeated keys is defined to be, or
assigned to, a variable, the graph gets one copy for each part of the literal, in order. In every
store these copies bring to each part what its variable held before and leave every other region
alone, also in the variable itself. So what the variable held before is gone exactly if one of the
parts is the whole variable, that is, if the literal has no elements. -/
theorem struct_literal_fills (h : f.graph registry = .ok g)
    (hleads : Build.Leads (f.context registry) f.body.stmts enter (stmt :: rest))
    (henter : enter.run f.bodyState = .ok ((), s))
    (hputs : Build.Puts s.scopes x e parts span stmt v) (hparts : e.parts? = some parts)
    (hkeys : e.distinctKeys = true) :
    ∃ scopes before after,
      (Build.statement (f.context registry) stmt).run s =
        .ok ((), ⟨s.cursor.copyAll span (s.scopes.partCopies v parts), scopes⟩) ∧
      scopes.lookup x = v ∧
      g.history = before ++ ((s.scopes.partCopies v parts).map BoundAssignment.op ++ after) ∧
      Fills s.scopes v parts (s.scopes.partCopies v parts) ∧
      (Replaces v parts (s.scopes.partCopies v parts) ↔ ∃ part ∈ parts, part.1 = []) := by
  obtain ⟨final, hrun, rfl⟩ := f.exists_run_of_graph h
  obtain ⟨s₁, s₂, _, _, henter', hlist, -, ⟨before, _, hbefore⟩, ⟨after, _, hafter⟩, hs, -⟩ :=
    hleads.stops f.bodyState final f.separate_bodyState hrun
  obtain rfl : s₁ = s := congrArg Prod.snd (Except.ok.inj (henter'.symm.trans henter))
  obtain ⟨scopes, hstmt, hlookup, hscopes⟩ :=
    hputs.run_statement (f.context registry) hs hparts
  rw [Build.statements, run_bind_of_ok hstmt] at hlist
  obtain ⟨-, ⟨middle, _, hmiddle⟩, -⟩ := Build.logs_statements rest _
    ⟨s₁.cursor.copyAll span (s₁.scopes.partCopies v parts), scopes⟩ () s₂ rfl hscopes
    hlist
  have hrecords := hafter.records _ (hmiddle.records _ (Cursor.records_copyAll span
    (s₁.scopes.partCopies v parts) (hbefore.records [] (Cursor.records_start (some f.span)))))
  refine ⟨scopes, before, middle ++ after, hstmt, hlookup, ?_, ?_, Scopes.replaces_partCopies_iff⟩
  · rw [hrecords.history_eq]
    simp
  · exact Scopes.fills_partCopies hputs.isBlank_eq_false (hputs.value_source_ne hs)
      (Expr.apart_parts hparts hkeys)

/-- A nested literal is assigned to a variable. -/
def refill : Stmt :=
  .assign [.ident "x" default] [.composite .struct [⟨some "a", .ident "p" default⟩,
    ⟨some "b", .composite .struct [⟨some "c", .ident "q" default⟩] default⟩] default] default

/-- The assignment stands in a loop. -/
def refilled : FunctionDecl :=
  ⟨"refill", ["x", "p", "q"], [], ⟨[.forLoop none none none ⟨[refill], default⟩ default], default⟩,
    default⟩

theorem refilled_fills :
    ∃ g before after, refilled.graph .builtin = .ok g ∧
      g.history = before ++ ([
        .assign ⟨.tracked 1, []⟩ ⟨.tracked 0, ["a"]⟩,
        .assign ⟨.tracked 2, []⟩ ⟨.tracked 0, ["b", "c"]⟩] ++ after) ∧
      ∀ (α : Type) (new : Nat → Store α) (σ : Store α),
        Store.run new σ [⟨⟨.tracked 1, []⟩, ⟨.tracked 0, ["a"]⟩, .same⟩,
            ⟨⟨.tracked 2, []⟩, ⟨.tracked 0, ["b", "c"]⟩, .same⟩] ⟨.tracked 0, ["b", "c", "d"]⟩ =
          σ ⟨.tracked 2, ["d"]⟩ ∧
        Store.run new σ [⟨⟨.tracked 1, []⟩, ⟨.tracked 0, ["a"]⟩, .same⟩,
            ⟨⟨.tracked 2, []⟩, ⟨.tracked 0, ["b", "c"]⟩, .same⟩] ⟨.tracked 0, ["b", "d"]⟩ =
          σ ⟨.tracked 0, ["b", "d"]⟩ := by
  obtain ⟨enter, hleads, hstate⟩ : ∃ enter,
      Build.Leads (refilled.context .builtin) refilled.body.stmts enter [refill] ∧
      (enter.run refilled.bodyState).map (["x", "p", "q"].map ·.2.scopes.lookup) =
        .ok [.tracked 0, .tracked 1, .tracked 2] := by
    refine ⟨_, .inside _ .forBody (.here _), ?_⟩
    cbv
  have hbuilt : (refilled.graph .builtin).map FlowGraph.pointCount = .ok 4 := by cbv
  cases hg : refilled.graph .builtin with
  | error e =>
      rw [hg] at hbuilt
      cases hbuilt
  | ok g =>
      cases henter : enter.run refilled.bodyState with
      | error e =>
          rw [henter] at hstate
          cases hstate
      | ok result =>
          obtain ⟨_, s⟩ := result
          rw [henter] at hstate
          simp only [Except.map, List.map_cons, List.map_nil, Except.ok.injEq, List.cons.injEq,
            and_true] at hstate
          obtain ⟨hx, hp, hq⟩ := hstate
          have hputs : Build.Puts s.scopes "x" _ [(["a"], some "p"), (["b", "c"], some "q")] default
              refill (s.scopes.lookup "x") := .assign rfl (by rw [hx]; rfl) (by simp)
          obtain ⟨scopes, before, after, -, -, hhistory, hfills, -⟩ :=
            struct_literal_fills hg hleads henter hputs (by cbv) (by cbv)
          have hcopies : s.scopes.partCopies (s.scopes.lookup "x")
              [(["a"], some "p"), (["b", "c"], some "q")] =
              [⟨⟨.tracked 1, []⟩, ⟨.tracked 0, ["a"]⟩, .same⟩,
                ⟨⟨.tracked 2, []⟩, ⟨.tracked 0, ["b", "c"]⟩, .same⟩] := by
            simp [Scopes.partCopies, Scopes.source, Selector.whole, hx, hp, hq]
          rw [hcopies] at hhistory hfills
          refine ⟨g, before, after, rfl, hhistory, fun α new σ => ?_⟩
          obtain ⟨hparts, hothers⟩ := hfills α new σ
          rw [hx] at hparts hothers
          have hsource : s.scopes.source (["b", "c"], some "q") = ⟨.tracked 2, []⟩ := by
            simp [Scopes.source, Selector.whole, hq]
          have hpart := hparts (["b", "c"], some "q") (by simp) ["d"]
          rw [hsource, if_neg (by decide)] at hpart
          exact ⟨hpart, hothers ⟨.tracked 0, ["b", "d"]⟩ (by simp)⟩

/-- In a loop, a literal defines a variable, and a field that it leaves out is grown. -/
def grownField : FunctionDecl :=
  ⟨"grow", ["v"], [], ⟨[.forLoop none none none ⟨[
    .define ["x"] [.composite .struct [⟨some "a", .ident "v" default⟩] default] default,
    .define ["y"] [.callNamed "append" [.select (.ident "x" default) "b" default] default] default],
    default⟩ default], default⟩, default⟩

/-- The literal writes one field of the variable. What its other field held in the last round is
still there, and is what the growth reads. -/
theorem grownField_survives :
    (grownField.graph .builtin).map FlowGraph.history =
      .ok [.assign ⟨.tracked 0, []⟩ ⟨.tracked 1, ["a"]⟩,
        .call ⟨1⟩ [.of ⟨.tracked 1, ["b"]⟩] [.tracked 2],
        .assign ⟨.tracked 2, []⟩ ⟨.tracked 3, []⟩] ∧
    FieldPath.Apart ["a"] ["b"] ∧
    (∀ (α : Type) (new : Nat → Store α) (σ : Store α),
      Store.run new σ [⟨⟨.tracked 0, []⟩, ⟨.tracked 1, ["a"]⟩, .same⟩] ⟨.tracked 1, ["b"]⟩ =
        σ ⟨.tracked 1, ["b"]⟩) ∧
    ¬ Replaces (.tracked 1) [(["a"], some "v")]
      [⟨⟨.tracked 0, []⟩, ⟨.tracked 1, ["a"]⟩, .same⟩] := by
  have hapart : FieldPath.Apart ["a"] ["b"] := FieldPath.apart_of_ne (by decide) _ _
  refine ⟨by cbv, hapart, fun _ _ _ => rfl, fun h => ?_⟩
  obtain ⟨_, hnew⟩ := h Bool (fun _ _ => true) (fun _ => false) ["b"] (by simpa using hapart)
  cases hnew

end FunctionDecl

end SliceLineage
