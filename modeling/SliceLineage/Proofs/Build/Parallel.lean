import SliceLineage.Proofs.Build.EvaluationLogic
import SliceLineage.Proofs.Build.Extension

/-!
# Building a function and its renamed copy side by side

While the graphs of a function and of a renamed copy are built, the states are alike at every place:
the graphs are the same, and the frames hold the same values under names that differ in the renamed
declaration only. So an identifier and its renamed copy have the same value, and one that refers to
a declaration is never taken for a modelled function.

* `Scopes.Alike`, `Build.Alike`: states that are alike.
* `Build.Parallel`: two steps that fail with the same error, or keep states alike.
* `Build.Ready`: what is asked of identifiers.
* `Build.parallelLogic`: the rules by which expressions are evaluated in the same way.
-/

namespace SliceLineage

/-- A declaration with the value that it got. -/
structure Binding where
  name : String
  index : Nat
  value : ValueId

namespace Scopes

/-- The scopes of a function and of the renamed one at the same place: the same frames with the same
values, of which the names that are seen there are the declarations. -/
structure Alike (r : Renaming) (ns : Names) (frames : List (List Binding)) (s s' : Scopes) :
    Prop where
  allocated : s'.allocated = s.allocated
  old : s.frames = frames.map (·.map fun b => (b.name, b.value))
  new : s'.frames = frames.map (·.map fun b => (r.apply (some b.index) b.name, b.value))
  visible : ns.visible = frames.flatten.map fun b => (b.name, b.index)
  sound : ns.Sound

theorem findSome?_lookup {β : Type} (frames : List (List (String × β))) (name : String) :
    frames.findSome? (·.lookup name) = frames.flatten.lookup name := by
  induction frames with
  | nil => rfl
  | cons frame frames ih =>
      rw [List.findSome?_cons, List.flatten_cons, List.lookup_append, ← ih]
      cases frame.lookup name <;> rfl

namespace Alike

variable {r : Renaming} {ns : Names} {frames : List (List Binding)} {s s' : Scopes}

theorem lookup?_old (h : Alike r ns frames s s') {name : String} (hname : name ≠ blankName) :
    s.lookup? name = (frames.flatten.map fun b => (b.name, b.value)).lookup name := by
  rw [lookup?, if_neg hname, h.old, findSome?_lookup, ← List.map_flatten]

theorem lookup?_new (h : Alike r ns frames s s') {name : String} (hname : name ≠ blankName) :
    s'.lookup? name =
      (frames.flatten.map fun b => (r.apply (some b.index) b.name, b.value)).lookup name := by
  rw [lookup?, if_neg hname, h.new, findSome?_lookup, ← List.map_flatten]

theorem mem_visible (h : Alike r ns frames s s') {b : Binding} (hb : b ∈ frames.flatten) :
    (b.name, b.index) ∈ ns.visible := by
  rw [h.visible]
  exact List.mem_map_of_mem hb

/-- **A renamed identifier has the value that it had before.** -/
theorem lookup?_identifier (h : Alike r ns frames s s') (hblank : r.name ≠ blankName)
    (hr : r.name ∉ ns.declared) {name : String} (hname : name ≠ r.name) :
    s'.lookup? (r.identifier ns name) = s.lookup? name := by
  by_cases hb : name = blankName
  · -- the blank name is no declaration
    have hnone : ns.resolve name = none :=
      List.lookup_eq_none_iff.mpr fun d hd => by
        rw [hb]
        simpa using (h.sound d hd).2.symm
    rw [Renaming.identifier, hnone, hb]
    rfl
  · rw [h.lookup?_old hb, Renaming.identifier, h.lookup?_new (r.apply_ne_blank hblank hb _),
      Names.resolve, h.visible]
    exact Renaming.lookup_apply Binding.name Binding.index Binding.value hname frames.flatten
      (fun b hb => h.sound.name_ne hr (h.mem_visible hb))
      fun b hb b' hb' heq => h.sound.name_eq (h.mem_visible hb) (h.mem_visible hb') heq

/-- An identifier without a value refers to no declaration. -/
theorem resolve_eq_none (h : Alike r ns frames s s') {name : String}
    (hnone : s.lookup? name = none) :
    ns.resolve name = none := by
  have hname : name ≠ blankName := by
    rintro rfl
    cases hnone
  rw [h.lookup?_old hname, List.lookup_eq_none_iff] at hnone
  rw [Names.resolve, h.visible, List.lookup_eq_none_iff]
  intro d hd
  obtain ⟨b, hb, rfl⟩ := List.mem_map.mp hd
  exact hnone _ (List.mem_map_of_mem hb)

theorem use (h : Alike r ns frames s s') (es : List Expr) : Alike r (ns.use es) frames s s' :=
  ⟨h.allocated, h.old, h.new, h.visible, h.sound⟩

theorem record (h : Alike r ns frames s s') (d : Option (String × Nat)) :
    Alike r (ns.record d) frames s s' :=
  ⟨h.allocated, h.old, h.new, h.visible, (Names.Grows.record ns d).sound h.sound⟩

theorem push (h : Alike r ns frames s s') : Alike r ns ([] :: frames) s.push s'.push :=
  ⟨h.allocated, congrArg ([] :: ·) h.old, congrArg ([] :: ·) h.new, h.visible, h.sound⟩

/-- After the innermost frame is closed, the names outside of it are seen again. -/
theorem pop (h : Alike r ns frames s s') {ns' : Names} {frame : List Binding} {t t' : Scopes}
    (ht : Alike r ns' (frame :: frames) t t') : Alike r (ns'.leave ns) frames t.pop t'.pop where
  allocated := ht.allocated
  old := congrArg List.tail ht.old
  new := congrArg List.tail ht.new
  visible := h.visible
  sound d hd := by
    refine ht.sound d ?_
    rw [ht.visible, List.flatten_cons, List.map_append, ← h.visible]
    exact List.mem_append_right _ hd

/-- A name gets the same value under its new name. -/
theorem bring {frame : List Binding} (h : Alike r ns (frame :: frames) s s')
    (hblank : r.name ≠ blankName) {outer : Names} {name : String}
    (hd : ∀ d ∈ outer.next? name, ns.Declares d) :
    (s'.declare (r.binder outer name)).1 = (s.declare name).1 ∧ ∃ frame',
      Alike r (ns.bring (outer.next? name)) (frame' :: frames) (s.declare name).2
        (s'.declare (r.binder outer name)).2 := by
  by_cases hname : name = blankName
  · subst hname
    rw [Renaming.binder_blank]
    have hnone : outer.next? blankName = none := if_pos rfl
    rw [hnone]
    exact ⟨rfl, frame, h⟩
  · have hsome : outer.next? name = some (name, outer.declared.length) := if_neg hname
    rw [hsome] at hd ⊢
    rw [r.binder_eq outer hname, declare, declare, if_neg hname,
      if_neg (r.apply_ne_blank hblank hname _)]
    refine ⟨congrArg ValueId.tracked h.allocated,
      ⟨name, outer.declared.length, .tracked s.allocated⟩ :: frame, ?_⟩
    exact {
      allocated := by simp [fresh, bind, h.old, h.new, h.allocated]
      old := by simp [fresh, bind, h.old]
      new := by simp [fresh, bind, h.new, h.allocated]
      visible := by simp [Names.bring, h.visible]
      sound := (Names.Grows.bring hd).sound h.sound }

theorem declare {frame : List Binding} (h : Alike r ns (frame :: frames) s s')
    (hblank : r.name ≠ blankName) (name : String) :
    (s'.declare (r.binder ns name)).1 = (s.declare name).1 ∧ ∃ frame',
      Alike r (ns.declare name) (frame' :: frames) (s.declare name).2
        (s'.declare (r.binder ns name)).2 :=
  (h.record (ns.next? name)).bring hblank (Names.declares_record ns name)

theorem declareAll {frame : List Binding} (h : Alike r ns (frame :: frames) s s')
    (hblank : r.name ≠ blankName) (names : List String) :
    (s'.declareAll (r.binders ns names)).1 = (s.declareAll names).1 ∧ ∃ frame',
      Alike r (ns.declareAll names) (frame' :: frames) (s.declareAll names).2
        (s'.declareAll (r.binders ns names)).2 := by
  induction names generalizing ns frame s s' with
  | nil => exact ⟨rfl, frame, h⟩
  | cons name names ih =>
      obtain ⟨hvalue, frame', hname⟩ := h.declare hblank name
      obtain ⟨hvalues, hrest⟩ := ih hname
      refine ⟨?_, hrest⟩
      show (s'.declare (r.binder ns name)).1 :: _ = (s.declare name).1 :: _
      rw [hvalue]
      exact congrArg _ hvalues

end Alike

end Scopes

namespace Build

variable {α β : Type}

/-- The states of two constructions at the same place: the same graph, and scopes that are alike. -/
structure Alike (r : Renaming) (ns : Names) (frames : List (List Binding)) (s s' : BuildState) :
    Prop where
  cursor : s'.cursor = s.cursor
  scopes : Scopes.Alike r ns frames s.scopes s'.scopes

/-- From states that are alike where the names are `ns`, both steps fail with the same error, or
they give the same value and states that are alike where the names are `ns'`. Frames around the
innermost one stay as they are. -/
def Parallel (r : Renaming) (ns ns' : Names) (m m' : Build α) (post : α → Prop) : Prop :=
  ∀ frame outer s s', Alike r ns (frame :: outer) s s' →
    (∃ e, m.run s = .error e ∧ m'.run s' = .error e) ∨
    ∃ a t t', m.run s = .ok (a, t) ∧ m'.run s' = .ok (a, t') ∧ post a ∧
      ∃ frame', Alike r ns' (frame' :: outer) t t'

/-- Parallel steps of which only the effect matters. -/
abbrev ParallelBy (r : Renaming) (ns ns' : Names) (m m' : Build α) : Prop :=
  Parallel r ns ns' m m' fun _ => True

variable {r : Renaming} {ns ns₁ ns₂ : Names} {m m' : Build α} {post : α → Prop}

namespace Parallel

theorem pure {a : α} (h : post a) : Parallel r ns ns (Pure.pure a) (Pure.pure a) post :=
  fun frame _ s s' hs => Or.inr ⟨a, s, s', rfl, rfl, h, frame, hs⟩

theorem throw (e : AnalysisError) :
    Parallel r ns ns₁ (MonadExcept.throw e) (MonadExcept.throw e) post :=
  fun _ _ _ _ _ => Or.inl ⟨e, rfl, rfl⟩

theorem bind {k k' : α → Build β} {post' : β → Prop} (hm : Parallel r ns ns₁ m m' post)
    (hk : ∀ a, post a → Parallel r ns₁ ns₂ (k a) (k' a) post') :
    Parallel r ns ns₂ (m >>= k) (m' >>= k') post' := by
  intro frame outer s s' hs
  rw [StateT.run_bind, StateT.run_bind]
  rcases hm frame outer s s' hs with ⟨e, he, he'⟩ | ⟨a, t, t', ht, ht', ha, frame', hs'⟩
  · exact Or.inl ⟨e, by rw [he]; rfl, by rw [he']; rfl⟩
  · rw [ht, ht']
    exact hk a ha frame' outer t t' hs'

theorem mono {post' : α → Prop} (hm : Parallel r ns ns₁ m m' post) (h : ∀ a, post a → post' a) :
    Parallel r ns ns₁ m m' post' := by
  intro frame outer s s' hs
  exact (hm frame outer s s' hs).imp id fun ⟨a, t, t', ht, ht', ha, hrest⟩ =>
    ⟨a, t, t', ht, ht', h a ha, hrest⟩

theorem discard (hm : Parallel r ns ns₁ m m' post) :
    ParallelBy r ns ns₁ (Functor.discard m) (Functor.discard m') :=
  hm.bind fun _ _ => .pure trivial

/-- What is known about names may change where scopes do not. -/
theorem imp (hm : Parallel r ns ns₁ m m' post)
    (h : ∀ frames s s', Scopes.Alike r ns₁ frames s s' → Scopes.Alike r ns₂ frames s s') :
    Parallel r ns ns₂ m m' post := by
  intro frame outer s s' hs
  rcases hm frame outer s s' hs with he | ⟨a, t, t', ht, ht', ha, frame', hs'⟩
  · exact Or.inl he
  · exact Or.inr ⟨a, t, t', ht, ht', ha, frame', hs'.cursor, h _ _ _ hs'.scopes⟩

theorem use (hm : Parallel r ns ns₁ m m' post) (es : List Expr) :
    Parallel r ns (ns₁.use es) m m' post :=
  hm.imp fun _ _ _ hs => hs.use es

theorem record (hm : Parallel r ns ns₁ m m' post) (d : Option (String × Nat)) :
    Parallel r ns (ns₁.record d) m m' post :=
  hm.imp fun _ _ _ hs => hs.record d

theorem ite {c : Prop} [Decidable c] {k k' : Build α} (hm : Parallel r ns ns₁ m m' post)
    (hk : Parallel r ns ns₁ k k' post) :
    Parallel r ns ns₁ (if c then m else k) (if c then m' else k') post := by
  split
  · exact hm
  · exact hk

theorem forM {xs : List β} {f : β → Build PUnit} (hf : ∀ x, ParallelBy r ns ns (f x) (f x)) :
    ParallelBy r ns ns (xs.forM f) (xs.forM f) := by
  induction xs with
  | nil => exact pure trivial
  | cons x xs ih => exact (hf x).bind fun _ _ => ih

/-- A step on the graph alone. -/
theorem cursor {f : Cursor → Except AnalysisError (α × Cursor)}
    (h : ∀ s, m.run s = (f s.cursor).map fun x => (x.1, { s with cursor := x.2 })) :
    ParallelBy r ns ns m m := by
  intro frame outer s s' hs
  rw [h, h, hs.cursor]
  cases f s.cursor with
  | error e => exact Or.inl ⟨e, rfl, rfl⟩
  | ok x => exact Or.inr ⟨x.1, _, _, rfl, rfl, trivial, frame, rfl, hs.scopes⟩

/-- A step that hands out values. -/
theorem allocate {f : Nat → α × Nat}
    (h : ∀ s, m.run s = .ok ((f s.scopes.allocated).1,
      { s with scopes := { s.scopes with allocated := (f s.scopes.allocated).2 } }))
    (hf : ∀ n, post (f n).1) : Parallel r ns ns m m post := by
  intro frame outer s s' hs
  rw [h, h, hs.scopes.allocated]
  exact Or.inr ⟨_, _, _, rfl, rfl, hf _, frame, hs.cursor, rfl, hs.scopes.old, hs.scopes.new,
    hs.scopes.visible, hs.scopes.sound⟩

end Parallel

/-! ## Basic steps -/

theorem parallel_current : ParallelBy r ns ns current current :=
  .cursor (f := fun c => .ok (c.current, c)) fun _ => rfl

theorem parallel_moveTo (p : PointId) : ParallelBy r ns ns (moveTo p) (moveTo p) :=
  .cursor (f := fun c => .ok ((), c.moveTo p)) fun _ => rfl

theorem parallel_append (op : Operation) (span : Span) :
    ParallelBy r ns ns (append op span) (append op span) :=
  .cursor (f := fun c => .ok ((), c.append op (some span))) fun _ => rfl

theorem parallel_reserve (span : Span) : ParallelBy r ns ns (reserve span) (reserve span) :=
  .cursor (f := fun c => .ok (c.reserve (some span))) fun _ => rfl

theorem parallel_detach : ParallelBy r ns ns detach detach :=
  .cursor (f := fun c => .ok ((), c.detach)) fun _ => rfl

theorem parallel_join (p : PointId) : ParallelBy r ns ns (join p) (join p) := by
  refine .cursor (f := fun c => (c.join p).1.map fun _ => ((), (c.join p).2)) fun s => ?_
  rcases hjoin : s.cursor.join p with ⟨answer, c⟩
  rw [run_join hjoin]
  cases answer <;> rfl

theorem parallel_closeLoop (anchor : PointId) :
    ParallelBy r ns ns (closeLoop anchor) (closeLoop anchor) :=
  parallel_current.bind fun _ _ => .ite (.pure trivial) (parallel_join anchor)

theorem parallel_fresh : ParallelBy r ns ns fresh fresh :=
  .allocate (f := fun n => (.tracked n, n + 1)) (fun _ => rfl) fun _ => trivial

/-- **A frame of its own hides what is declared in it**, in both constructions. -/
theorem parallel_inFrame {step step' : Build Unit} (h : ParallelBy r ns ns₁ step step') :
    ParallelBy r ns (ns₁.leave ns) (inFrame step) (inFrame step') := by
  intro frame outer s s' hs
  have hrun : ∀ (step : Build Unit) (s : BuildState), (inFrame step).run s =
      (step.run { s with scopes := s.scopes.push } >>= fun x =>
        .ok ((), { x.2 with scopes := x.2.scopes.pop })) := fun _ _ => rfl
  rw [hrun, hrun]
  have hpush : Alike r ns ([] :: frame :: outer) { s with scopes := s.scopes.push }
      { s' with scopes := s'.scopes.push } := ⟨hs.cursor, hs.scopes.push⟩
  rcases h [] (frame :: outer) _ _ hpush with
    ⟨e, he, he'⟩ | ⟨a, t, t', ht, ht', -, frame', hs'⟩
  · exact Or.inl ⟨e, by rw [he]; rfl, by rw [he']; rfl⟩
  · rw [ht, ht']
    exact Or.inr ⟨(), _, _, rfl, rfl, trivial, frame, hs'.cursor, hs.scopes.pop hs'.scopes⟩

/-- A declaration that was counted before comes into sight. -/
theorem parallel_bring (hblank : r.name ≠ Scopes.blankName) {outer : Names} {name : String}
    (hd : ∀ d ∈ outer.next? name, ns.Declares d) :
    ParallelBy r ns (ns.bring (outer.next? name)) (declare name)
      (declare (r.binder outer name)) := by
  intro frame frames s s' hs
  obtain ⟨hvalue, frame', hscopes⟩ := hs.scopes.bring hblank hd
  exact Or.inr ⟨_, { s with scopes := _ }, { s' with scopes := _ }, rfl,
    congrArg (fun value => Except.ok (value, _)) hvalue, trivial, frame', hs.cursor, hscopes⟩

theorem parallel_declare (hblank : r.name ≠ Scopes.blankName) (name : String) :
    ParallelBy r ns (ns.declare name) (declare name) (declare (r.binder ns name)) := by
  intro frame outer s s' hs
  have hrecord : Alike r (ns.record (ns.next? name)) (frame :: outer) s s' :=
    ⟨hs.cursor, hs.scopes.record _⟩
  exact parallel_bring hblank (Names.declares_record ns name) frame outer s s' hrecord

theorem parallel_copy (source target : Selector) (span : Span) :
    ParallelBy r ns ns (copy source target span) (copy source target span) :=
  .ite (.pure trivial) (parallel_append _ span)

theorem parallel_store (target : Selector) (c : Composition) (span : Span) :
    ParallelBy r ns ns (store target c span) (store target c span) :=
  .ite (parallel_copy _ _ _) (.forM fun _ => parallel_copy _ _ _)

theorem parallel_arm (after : PointId) {setup setup' body body' : Build Unit}
    (hs : ParallelBy r ns ns₁ setup setup') (hb : ParallelBy r ns₁ ns₂ body body') :
    ParallelBy r ns ns₂ (arm after setup body) (arm after setup' body') :=
  hs.bind fun _ _ => parallel_current.bind fun fork _ => hb.bind fun _ _ =>
    (parallel_join after).bind fun _ _ => parallel_moveTo fork

/-! ## Expressions -/

/-- The identifiers can be renamed where the names are `ns`: none of them is the new name, which is
neither blank nor declared, and functions of those that refer to no declaration are modelled in the
same way. -/
structure Ready (r : Renaming) (registry registry' : Registry) (ns : Names)
    (names : List String) : Prop where
  blank : r.name ≠ Scopes.blankName
  slice : registry'.slice? = registry.slice?
  declared : r.name ∉ ns.declared
  name_ne : ∀ name ∈ names, name ≠ r.name
  free : ∀ name ∈ names, ns.resolve name = none →
    registry'.lookup? name = registry.lookup? name

variable {registry registry' : Registry}

theorem Ready.mono {names names' : List String} (h : Ready r registry registry' ns names')
    (hsub : names ⊆ names') : Ready r registry registry' ns names :=
  { h with
    name_ne := fun name hname => h.name_ne name (hsub hname)
    free := fun name hname => h.free name (hsub hname) }

theorem Ready.left {names names' : List String}
    (h : Ready r registry registry' ns (names ++ names')) : Ready r registry registry' ns names :=
  h.mono (List.subset_append_left _ _)

theorem Ready.right {names names' : List String}
    (h : Ready r registry registry' ns (names ++ names')) : Ready r registry registry' ns names' :=
  h.mono (List.subset_append_right _ _)

theorem parallel_lookup {name : String} (h : Ready r registry registry' ns [name]) :
    ParallelBy r ns ns (lookup name) (lookup (r.identifier ns name)) := by
  intro frame outer s s' hs
  have hvalue := hs.scopes.lookup?_identifier h.blank h.declared (h.name_ne name (.head _))
  have hrun : (lookup (r.identifier ns name)).run s' = .ok (s.scopes.lookup name, s') :=
    congrArg (fun value : Option ValueId => Except.ok (value.getD .blank, s')) hvalue
  exact Or.inr ⟨s.scopes.lookup name, s, s', rfl, hrun, trivial, frame, hs⟩

/-- **A callee that refers to a declaration is not modelled**, whatever its name is. -/
theorem parallel_modelled? {callee : Expr} (h : Ready r registry registry' ns callee.names) :
    ParallelBy r ns ns (modelled? registry callee)
      (modelled? registry' (callee.mapNames (r.identifier ns))) := by
  unfold modelled?
  rw [Expr.name?_mapNames]
  cases hcallee : callee.name? with
  | none => exact .pure trivial
  | some name =>
      intro frame outer s s' hs
      have hmem := Expr.mem_names_of_name? hcallee
      have hvalue := hs.scopes.lookup?_identifier h.blank h.declared (h.name_ne name hmem)
      have hrun : ∀ (name : String) (s : BuildState),
          (lookup? name).run s = .ok (s.scopes.lookup? name, s) := fun _ _ => rfl
      simp only [Option.map_some, StateT.run_bind, hrun, hvalue]
      cases hfound : s.scopes.lookup? name with
      | some value => exact Or.inr ⟨none, s, s', rfl, rfl, trivial, frame, hs⟩
      | none =>
          have hfree := hs.scopes.resolve_eq_none hfound
          have hsame : registry'.lookup? (r.identifier ns name) = registry.lookup? name := by
            rw [Renaming.identifier, hfree]
            exact h.free name hmem hfree
          exact Or.inr ⟨registry.lookup? name, s, s', rfl,
            congrArg (fun func => Except.ok (func, s')) hsame, trivial, frame, hs⟩

theorem parallel_callIfModelled (func : Option FuncId) (inputs : List Composition) (span : Span)
    (count : Nat) : Parallel r ns ns (callIfModelled func inputs span count)
      (callIfModelled func inputs span count) (Gives count fun _ => True) := by
  cases func with
  | none => exact .pure (gives_blanks count)
  | some func =>
      intro frame outer s s' hs
      rw [callIfModelled, run_callModelled, run_callModelled, hs.cursor, hs.scopes.allocated]
      exact Or.inr ⟨_, _, _, rfl, rfl, ⟨by simp, fun _ _ _ _ => trivial⟩, frame, rfl, rfl,
        hs.scopes.old, hs.scopes.new, hs.scopes.visible, hs.scopes.sound⟩

/-- An expression and its renamed copy are evaluated side by side. -/
def parallelLogic (r : Renaming) (registry registry' : Registry) (ns : Names) :
    EvaluationLogic registry registry' (r.identifier ns) Unit where
  func? _ := none
  means _ _ := True
  since _ _ := True
  good _ _ _ _ := True
  judge reading _ _ m m' post :=
    Ready r registry registry' ns reading.names → Parallel r ns ns m m' fun a => post a ()
  since_refl _ := trivial
  good_later h _ := h
  good_earlier h _ := h
  good_plain h := h
  pure h _ := .pure h
  throw _ _ _ _ _ := .throw _
  bind hm hk h := (hm h.left).bind fun a ha => hk a () trivial ha h.right
  rebase _ hm h := (hm h).mono fun _ ha => ⟨trivial, ha⟩
  lookup _ _ h := (parallel_lookup h).mono fun _ _ _ => trivial
  modelled _ _ h := parallel_modelled? h
  call span count _ _ _ _ := parallel_callIfModelled _ _ span count
  slice span count _ _ h := by
    rw [h.slice]
    exact parallel_callIfModelled _ _ span count

section

variable {e : Expr} {values : List Expr}

/-- **A renamed expression is evaluated like the old one.** -/
theorem parallel_effect (h : Ready r registry registry' ns e.names) :
    ParallelBy r ns ns (discard (evaluate registry e 0))
      (discard (evaluate registry' (r.expr ns e) 0)) :=
  ((parallelLogic r registry registry' ns).evaluate e 0 (b := ()) (w := ()) trivial h).discard

theorem parallel_evaluateOne (h : Ready r registry registry' ns e.names) :
    ParallelBy r ns ns (evaluateOne registry e) (evaluateOne registry' (r.expr ns e)) :=
  ((parallelLogic r registry registry' ns).evaluateOne e (b := ()) (w := ()) trivial h).mono
    fun _ _ => trivial

theorem parallel_evaluateValues (span : Span) (targets : Nat)
    (h : Ready r registry registry' ns (values.flatMap Expr.names)) :
    Parallel r ns ns (evaluateValues registry span values targets)
      (evaluateValues registry' span (values.map (r.expr ns)) targets) (·.length = targets) := by
  rw [← Expr.namesOfEach_eq_flatMap] at h
  exact (parallelLogic r registry registry' ns).evaluateValues span values targets
    (b := ()) (w := ()) trivial h

end

end Build

end SliceLineage
