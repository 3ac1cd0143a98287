import Mathlib.Data.List.Forall2
import SliceLineage.Proofs.Followed
import SliceLineage.Proofs.Runs
import SliceLineage.Proofs.Source.Readings

/-!
# Logics of evaluation

Whatever is proved about evaluation is proved in the same way: by recursion on the expression, with
a rule for one step after another and a rule for each of the few things that evaluation does, such
as looking names up and calling modelled functions. The recursion is done here, once for all such
rules. So what evaluation keeps, what it makes, whether it succeeds and how it depends on names each
take the rules alone, and a change of one case of evaluation is a change of one case here.

* `EvaluationLogic`: a judgement about steps, with its rules.
* `EvaluationLogic.evaluate`: evaluation as every logic judges it, one case for each construct;
  `evaluateEach`, `evaluateFor`, `evaluateElements`, `evaluateOne`, `evaluateValues` go with it.
-/

namespace SliceLineage

namespace Build

variable {p q : ValueId → Prop}

/-- As many compositions as were requested, made of values with the property. -/
def Gives (count : Nat) (p : ValueId → Prop) (cs : List Composition) : Prop :=
  cs.length = count ∧ ∀ c ∈ cs, c.All p

theorem gives_blanks (count : Nat) : Gives count p (blanks count) := by
  refine ⟨List.length_replicate, fun c hc => ?_⟩
  rw [List.eq_of_mem_replicate hc]
  exact Composition.all_blank

/-- What an element adds to a literal is made of the values of the element. -/
theorem all_elementEmbeds (kind : CompositeKind) (key : Option String) {c : Composition}
    (hc : c.All p) : (Composition.mk (elementEmbeds kind key c)).All p := by
  unfold elementEmbeds
  split
  · refine Composition.All.nest ?_ _
    split
    · exact Composition.all_blank
    · exact hc
  · exact fun _ hv => by cases hv

theorem all_ofEmbeds {embeds : List Embed} (h : (Composition.mk embeds).All p) :
    (ofEmbeds embeds).All p := by
  unfold ofEmbeds
  split
  · exact Composition.all_blank
  · exact h

end Build

open Build

/-- A judgement about steps of evaluation, with the rules that the recursion on expressions needs.
Steps come in pairs, of which the second one evaluates with other modelled functions and renamed
identifiers; a judgement about one step leaves the second one out of account. Steps lead from one
world to another, where a world is whatever the judgement keeps track of. -/
structure EvaluationLogic (registry registry' : Registry) (rename : String → String) (W : Type)
    where
  /-- The functions that names mean. -/
  func? : String → Option FuncId
  /-- What is known about the function that a callee means. -/
  means : Expr → Option FuncId → Prop
  /-- The second world may come after the first one. -/
  since : W → W → Prop
  /-- What is known in a world about the values of an expression whose evaluation began in another
  one, and which is a bounded slice expression or not. -/
  good : W → Bool → W → ValueId → Prop
  /-- The steps evaluate what the reading says. They begin in the second world, as a part of what
  began in the first one, and the property holds of their result and the world that they end in. -/
  judge : {α : Type} → Expr.Reading → W → W → Build α → Build α → (α → W → Prop) → Prop
  since_refl : ∀ w, since w w
  good_later : ∀ {b w w' bounded v}, good b bounded w v → since w w' → good b bounded w' v
  good_earlier : ∀ {b b' w bounded v}, good b bounded w v → since b' b → good b' bounded w v
  good_plain : ∀ {b w bounded v}, good b bounded w v → good b false w v
  pure : ∀ {α : Type} {b w : W} {a : α} {post : α → W → Prop}, post a w →
    judge .nothing b w (pure a) (pure a) post
  throw : ∀ {α : Type} {r : Expr.Reading} {b w : W} {post : α → W → Prop} (span : Span)
    {fault : InputFault}, fault.ofTree = true → ¬ r.fits →
    judge r b w (throw (.input span fault)) (throw (.input span fault)) post
  bind : ∀ {α β : Type} {r r' : Expr.Reading} {b w : W} {m m' : Build α} {k k' : α → Build β}
    {mid : α → W → Prop} {post : β → W → Prop}, judge r b w m m' mid →
    (∀ a w', since b w' → mid a w' → judge r' b w' (k a) (k' a) post) →
    judge (r ++ r') b w (m >>= k) (m' >>= k') post
  /-- What begins by itself may be a part of something that began before. -/
  rebase : ∀ {α : Type} {r : Expr.Reading} {b w : W} {m m' : Build α} {post : α → W → Prop},
    since b w → judge r w w m m' post → judge r b w m m' fun a w' => since w w' ∧ post a w'
  lookup : ∀ {b w : W} (name : String), since b w →
    judge ⟨True, [name], [], []⟩ b w (lookup name) (lookup (rename name)) fun v w' =>
      v ≠ .blank → good b false w' v
  modelled : ∀ {b w : W} (callee : Expr), since b w →
    judge ⟨True, callee.names, [], []⟩ b w (modelled? registry callee)
      (modelled? registry' (callee.mapNames rename)) fun func _ => means callee func
  call : ∀ {b w : W} {callee : Expr} {func : Option FuncId} {args : List Expr}
    {inputs : List Composition} (span : Span) (count : Nat), since b w → means callee func →
    List.Forall₂ (fun e c => c.All (good b e.isBounded w)) args inputs →
    judge ⟨True, [], CallSite.of (callee.name?.bind func?) span,
        if callee.name? = some Registry.appendName then [args] else []⟩ b w
      (callIfModelled func inputs span count) (callIfModelled func inputs span count)
      fun cs w' => Gives count (good b false w') cs
  /-- A bounded slice expression. -/
  slice : ∀ {b w : W} {c : Composition} {bounded : Bool} (span : Span) (count : Nat), since b w →
    c.All (good b bounded w) →
    judge ⟨True, [], CallSite.of registry.slice? span, []⟩ b w
      (callIfModelled registry.slice? [c] span count)
      (callIfModelled registry'.slice? [c] span count) fun cs w' => Gives count (good b true w') cs

namespace EvaluationLogic

variable {registry registry' : Registry} {rename : String → String} {W : Type}
  (L : EvaluationLogic registry registry' rename W) {α β : Type} {r r' : Expr.Reading} {b w : W}
  {m m' : Build α} {k k' : α → Build β} {mid : α → W → Prop} {post : β → W → Prop}

/-! ## Derived rules -/

theorem of_eq (hm : L.judge r b w m m' mid) (hr : r' = r) : L.judge r' b w m m' mid := hr ▸ hm

theorem followedBy (hm : L.judge r b w m m' mid)
    (hk : ∀ a w', L.since b w' → mid a w' → L.judge .nothing b w' (k a) (k' a) post) :
    L.judge r b w (m >>= k) (m' >>= k') post := by
  have h := L.bind hm hk
  rwa [Expr.Reading.append_nothing] at h

theorem imp {mid' : α → W → Prop} (hm : L.judge r b w m m' mid)
    (h : ∀ a w', mid a w' → mid' a w') : L.judge r b w m m' mid' := by
  have hboth := L.followedBy hm fun a w' _ ha => L.pure (h a w' ha)
  rwa [bind_pure, bind_pure] at hboth

theorem discard (hm : L.judge r b w m m' mid) :
    L.judge r b w (discard m) (discard m') fun _ _ => True :=
  L.followedBy hm fun _ _ _ _ => L.pure trivial

/-- What was evaluated before is held on to. -/
theorem holding (hw : L.since b w) (hm : L.judge r w w m m' mid) {c : Composition} {v : W}
    {bounded : Bool} (hc : c.All (L.good v bounded w)) :
    L.judge r b w m m' fun a w' => c.All (L.good v bounded w') ∧ mid a w' :=
  L.imp (L.rebase hw hm) fun _ _ h => ⟨hc.imp fun _ hv => L.good_later hv h.1, h.2⟩

/-- The only value goes on to the next step. -/
theorem single_bind {p : ValueId → Prop} {cs : List Composition} (span : Span)
    (h : Gives 1 p cs) {k k' : Composition → Build β}
    (hk : ∀ c, c.All p → L.judge r b w (k c) (k' c) post) :
    L.judge r b w (single span cs >>= k) (single span cs >>= k') post := by
  obtain ⟨c, rfl⟩ := List.length_eq_one_iff.mp h.1
  show L.judge r b w (Pure.pure c >>= k) (Pure.pure c >>= k') post
  rw [pure_bind, pure_bind]
  exact hk c (h.2 c List.mem_cons_self)

theorem accept {a : α} {fits : Prop} (h : fits) (ha : mid a w) :
    L.judge (.shape fits) b w (Pure.pure a) (Pure.pure a) mid := by
  rw [eq_true h]
  exact L.pure ha

/-- A single value cannot be asked for twice. -/
theorem oneOf (span : Span) {bounded : Bool} {c : Composition} (hc : c.All (L.good b bounded w))
    (count : Nat) :
    L.judge (.shape (count < 2)) b w (oneOf span c count) (oneOf span c count)
      fun cs w' => Gives count (L.good b bounded w') cs := by
  unfold Build.oneOf
  split
  · exact L.accept (by decide) ⟨rfl, by simp⟩
  · exact L.accept (by decide) ⟨rfl, by simpa using hc⟩
  · rename_i hzero hone
    exact L.throw span rfl fun hlt => by
      have hcount : count = 0 ∨ count = 1 := by
        have hlt : count < 2 := hlt
        omega
      exact hcount.elim hzero hone

theorem blanks (bounded : Bool) (count : Nat) :
    L.judge .nothing b w (return blanks count : Build (List Composition)) (return blanks count)
      fun cs w' => Gives count (L.good b bounded w') cs := L.pure (gives_blanks count)

/-! ## Expressions -/

mutual

/-- **Evaluation, as every logic judges it.** -/
theorem evaluate : ∀ (e : Expr) (count : Nat) {b w : W}, L.since b w →
    L.judge (e.reading L.func? registry.slice? count) b w (evaluate registry e count)
      (evaluate registry' (e.mapNames rename) count)
      fun cs w' => Gives count (L.good b e.isBounded w') cs
  | .ident name span, count, b, w, hw => by
      rw [Expr.mapNames, Build.evaluate, Build.evaluate]
      refine L.of_eq (L.bind (L.lookup name hw) fun v _ _ hv =>
        L.oneOf span (Composition.all_whole hv) count) ?_
      simp [Expr.reading, Expr.wellShaped, Expr.manyValued, Expr.unparen, Expr.names, Expr.sites,
        Expr.growths]
  | .paren inner _, count, b, w, hw => by
      rw [Expr.mapNames, Build.evaluate, Build.evaluate]
      refine L.of_eq (evaluate inner count hw) ?_
      simp [Expr.reading, Expr.wellShaped, Expr.manyValued, Expr.unparen, Expr.names, Expr.sites,
        Expr.growths]
  | .select operand field span, count, b, w, hw => by
      rw [Expr.mapNames, Build.evaluate, Build.evaluate, Expr.span_mapNames]
      refine L.of_eq (L.bind (evaluate operand 1 hw) fun _ _ _ hcs =>
        L.single_bind _ hcs fun c hc =>
          L.oneOf span ((hc.select field).imp fun _ => L.good_plain) count) ?_
      simp [Expr.reading, Expr.wellShaped, Expr.manyValued, Expr.unparen, Expr.names, Expr.sites,
        Expr.growths]
  | .call callee args span, count, b, w, hw => by
      rw [Expr.mapNames, Build.evaluate, Build.evaluate]
      refine L.of_eq (L.bind (L.modelled callee hw) fun func _ hw₁ hfunc =>
        L.bind (evaluateEach args hw₁) fun inputs _ hw₂ hinputs =>
          L.call span count hw₂ hfunc hinputs) ?_
      simp [Expr.reading, Expr.readingOfEach, Expr.wellShaped, Expr.manyValued, Expr.unparen,
        Expr.names, Expr.sites, Expr.growths]
  | .slice operand low high max span, count, b, w, hw => by
      rw [Expr.mapNames, Build.evaluate, Build.evaluate, Expr.span_mapNames]
      -- the operand is evaluated before the indices, and is held on to meanwhile
      have hindices {r : Expr.Reading} {post : List Composition → W → Prop}
          {k k' : Composition → Build (List Composition)}
          (hk : ∀ c w', L.since b w' → c.All (L.good b operand.isBounded w') →
            L.judge r b w' (k c) (k' c) post) :=
        L.bind (evaluate operand 1 hw) fun _ w₁ hw₁ hcs =>
          L.single_bind operand.span hcs fun c hc =>
          L.bind (L.holding hw₁ (evaluateFor low (L.since_refl w₁)) hc) fun _ w₂ hw₂ h₂ =>
          L.bind (L.holding hw₂ (evaluateFor high (L.since_refl w₂)) h₂.1) fun _ w₃ hw₃ h₃ =>
          L.bind (L.holding hw₃ (evaluateFor max (L.since_refl w₃)) h₃.1) fun _ w₄ hw₄ h₄ =>
            hk c w₄ hw₄ h₄.1
      cases max with
      | none =>
          refine L.of_eq (hindices fun c w' hw' hc =>
            L.oneOf span (hc.imp fun _ => L.good_plain) count) ?_
          simp [Expr.reading, Expr.readingIfAny, Expr.wellShaped, Expr.manyValued, Expr.unparen,
            Expr.names, Expr.sites, Expr.growths, and_assoc]
      | some max =>
          refine L.of_eq (hindices fun c w' hw' hc => L.slice span count hw' hc) ?_
          simp [Expr.reading, Expr.readingIfAny, Expr.wellShaped, Expr.manyValued, Expr.unparen,
            Expr.names, Expr.sites, Expr.growths, and_assoc]
  | .composite kind elements span, count, b, w, hw => by
      rw [Expr.mapNames, Build.evaluate, Build.evaluate]
      refine L.of_eq (L.bind (evaluateElements kind elements hw) fun embeds _ _ hembeds =>
        L.oneOf span (all_ofEmbeds hembeds) count) ?_
      simp [Expr.reading, Expr.readingOfElements, Expr.wellShaped, Expr.manyValued, Expr.unparen,
        Expr.names, Expr.sites, Expr.growths]
  | .unary operand _, count, b, w, hw | .typeAssert operand _, count, b, w, hw => by
      rw [Expr.mapNames, Build.evaluate, Build.evaluate]
      refine L.of_eq (L.followedBy (L.discard (evaluate operand 0 hw)) fun _ _ _ _ =>
        L.blanks _ count) ?_
      simp [Expr.reading, Expr.wellShaped, Expr.manyValued, Expr.unparen, Expr.names, Expr.sites,
        Expr.growths]
  | .binary left right _, count, b, w, hw | .index left right _, count, b, w, hw => by
      rw [Expr.mapNames, Build.evaluate, Build.evaluate]
      refine L.of_eq (L.bind (L.discard (evaluate left 0 hw)) fun _ _ hw₁ _ =>
        L.followedBy (L.discard (evaluate right 0 hw₁)) fun _ _ _ _ => L.blanks _ count) ?_
      simp [Expr.reading, Expr.wellShaped, Expr.manyValued, Expr.unparen, Expr.names, Expr.sites,
        Expr.growths]
  | .literal _, count, b, w, _ | .funcLit _, count, b, w, _ | .other _, count, b, w, _ => by
      rw [Expr.mapNames, Build.evaluate, Build.evaluate]
      refine L.of_eq (L.blanks _ count) ?_
      simp [Expr.reading, Expr.wellShaped, Expr.manyValued, Expr.unparen, Expr.names, Expr.sites,
        Expr.growths]
  | .bad span, _, b, w, _ => by
      rw [Expr.mapNames, Build.evaluate, Build.evaluate]
      exact L.throw span rfl (by simp [Expr.reading, Expr.wellShaped])

theorem evaluateEach : ∀ (es : List Expr) {b w : W}, L.since b w →
    L.judge (Expr.readingOfEach L.func? registry.slice? es) b w (evaluateEach registry es)
      (evaluateEach registry' (Expr.mapNamesOfEach rename es))
      fun cs w' => List.Forall₂ (fun e c => c.All (L.good b e.isBounded w')) es cs
  | [], b, w, _ => by
      rw [Expr.mapNamesOfEach, Build.evaluateEach, Build.evaluateEach]
      refine L.of_eq (L.pure .nil) ?_
      simp [Expr.readingOfEach, Expr.allWellShaped, Expr.namesOfEach, Expr.sitesOfEach,
        Expr.growthsOfEach]
  | e :: es, b, w, hw => by
      rw [Expr.mapNamesOfEach, Build.evaluateEach, Build.evaluateEach, Expr.span_mapNames]
      refine L.of_eq (L.bind (evaluate e 1 hw) fun _ w₁ hw₁ hcs => L.single_bind _ hcs fun c hc =>
        L.followedBy (L.holding hw₁ (evaluateEach es (L.since_refl w₁)) hc) fun _ _ _ h =>
          L.pure (.cons h.1 (h.2.imp fun _ _ hall => hall.imp fun _ hv =>
            L.good_earlier hv hw₁))) ?_
      simp [Expr.readingOfEach, Expr.reading, Expr.allWellShaped, Expr.namesOfEach,
        Expr.sitesOfEach, Expr.growthsOfEach]

theorem evaluateFor : ∀ (e : Option Expr) {b w : W}, L.since b w →
    L.judge (Expr.readingIfAny L.func? registry.slice? e) b w (evaluateFor registry e)
      (evaluateFor registry' (Expr.mapNamesIfAny rename e)) fun _ _ => True
  | none, b, w, _ => by
      rw [Expr.mapNamesIfAny, Build.evaluateFor, Build.evaluateFor]
      refine L.of_eq (L.pure trivial) ?_
      simp [Expr.readingIfAny, Expr.wellShapedIfAny, Expr.namesIfAny, Expr.sitesOfAny,
        Expr.growthsOfAny]
  | some e, b, w, hw => by
      rw [Expr.mapNamesIfAny, Build.evaluateFor, Build.evaluateFor]
      refine L.of_eq (L.discard (evaluate e 0 hw)) ?_
      simp [Expr.readingIfAny, Expr.reading, Expr.wellShapedIfAny, Expr.namesIfAny,
        Expr.sitesOfAny, Expr.growthsOfAny]

theorem evaluateElements (kind : CompositeKind) : ∀ (es : List Element) {b w : W}, L.since b w →
    L.judge (Expr.readingOfElements L.func? registry.slice? es) b w
      (evaluateElements registry kind es)
      (evaluateElements registry' kind (Expr.mapNamesOfElements rename es))
      fun embeds w' => (Composition.mk embeds).All (L.good b false w')
  | [], b, w, _ => by
      rw [Expr.mapNamesOfElements, Build.evaluateElements, Build.evaluateElements]
      refine L.of_eq (L.pure fun _ hv => by cases hv) ?_
      simp [Expr.readingOfElements, Expr.elementsWellShaped, Expr.namesOfElements,
        Expr.sitesOfElements, Expr.growthsOfElements]
  | ⟨key, value⟩ :: es, b, w, hw => by
      rw [Expr.mapNamesOfElements, Build.evaluateElements, Build.evaluateElements,
        Expr.span_mapNames]
      refine L.of_eq (L.bind (evaluate value 1 hw) fun _ w₁ hw₁ hcs =>
        L.single_bind _ hcs fun c hc =>
        L.followedBy (L.holding hw₁ (evaluateElements kind es (L.since_refl w₁)) hc) fun _ _ _ h =>
          L.pure (Composition.all_append
            (all_elementEmbeds kind key (h.1.imp fun _ => L.good_plain))
            (h.2.imp fun _ hv => L.good_earlier hv hw₁))) ?_
      simp [Expr.readingOfElements, Expr.reading, Expr.elementsWellShaped, Expr.namesOfElements,
        Expr.sitesOfElements, Expr.growthsOfElements]

end

/-! ## Values -/

theorem evaluateOne (e : Expr) (hw : L.since b w) :
    L.judge (e.reading L.func? registry.slice? 1) b w (evaluateOne registry e)
      (evaluateOne registry' (e.mapNames rename)) fun c w' => c.All (L.good b e.isBounded w') := by
  rw [Build.evaluateOne, Build.evaluateOne, Expr.span_mapNames]
  refine L.followedBy (L.evaluate e 1 hw) fun cs w' _ hcs => ?_
  obtain ⟨c, rfl⟩ := List.length_eq_one_iff.mp hcs.1
  exact L.pure (hcs.2 c List.mem_cons_self)

/-- Values that fit their targets give one composition for each of them. -/
theorem resolveValues (span : Span) (values : List Expr) (targets : Nat) (hw : L.since b w) :
    L.judge (Expr.readingOfValues L.func? registry.slice? values targets) b w
      (resolveValues registry span values targets)
      (resolveValues registry' span (values.map (Expr.mapNames rename)) targets)
      fun cs _ => cs.length = targets := by
  cases values with
  | nil =>
      refine L.of_eq (L.imp (L.blanks false targets) fun _ _ h => h.1) ?_
      simp [Expr.readingOfValues, Expr.allWellShaped, Expr.fitTargets, Expr.namesOfEach,
        Expr.sitesOfEach, Expr.growthsOfEach]
  | cons e rest =>
      cases rest with
      | nil =>
          refine L.of_eq (L.imp (L.evaluate e targets hw) fun _ _ h => h.1) ?_
          simp [Expr.readingOfValues, Expr.reading, Expr.allWellShaped, Expr.fitTargets,
            Expr.namesOfEach, Expr.sitesOfEach, Expr.growthsOfEach]
      | cons e' es =>
          have heach := L.evaluateEach (e :: e' :: es) hw
          rw [Expr.mapNamesOfEach_eq_map] at heach
          have hlength : ((e :: e' :: es).map (Expr.mapNames rename)).length =
            (e :: e' :: es).length := List.length_map _
          simp only [List.map_cons] at heach hlength ⊢
          simp only [Build.resolveValues, hlength]
          split
          · rename_i htargets
            refine L.of_eq (L.imp heach fun _ _ h => h.length_eq.symm.trans htargets) ?_
            simp [Expr.readingOfValues, Expr.readingOfEach, Expr.fitTargets, ← htargets]
          · rename_i htargets
            exact L.throw span rfl fun h => htargets (by simpa [Expr.fitTargets] using h.2)

/-- The values that are there are as many as the targets, so they are never refused for their number
once they are evaluated. -/
theorem evaluateValues (span : Span) (values : List Expr) (targets : Nat) (hw : L.since b w) :
    L.judge (Expr.readingOfValues L.func? registry.slice? values targets) b w
      (evaluateValues registry span values targets)
      (evaluateValues registry' span (values.map (Expr.mapNames rename)) targets)
      fun cs _ => cs.length = targets := by
  refine L.followedBy (L.resolveValues span values targets hw) fun cs w' _ hcs => ?_
  rw [if_pos hcs]
  exact L.pure hcs

end EvaluationLogic

end SliceLineage
