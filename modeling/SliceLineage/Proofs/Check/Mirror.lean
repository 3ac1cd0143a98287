import Mathlib.Logic.Relator
import SliceLineage.Flow.Trace
import SliceLineage.Proofs.Check.History

/-!
# Replays that mirror each other

Take two traces, and let some cells of the one correspond to cells of the other. If corresponding
cells are moved alike, and moves never lead from the other cells to these or back, then the two
replays agree about them: the same growths are reported, up to the names of cells and the numbers of
unknown origins. What else the traces do makes no difference.

* `CellPairing`: cells of two replays that correspond.
* `History.Mirrors`: two histories agree about corresponding cells.
* `Along`: operations move corresponding cells alike; either side may do other things in between.
* `Along.mirrors`: going along such traces keeps the histories in step, and a growth of the
  corresponding cells is reported in both or in none.
* `AlongAll.inStep`: the same for all growths, if the cells can be paired in several ways that leave
  out none.
-/

namespace SliceLineage

/-- Cells of two replays correspond, at most one to one. -/
structure CellPairing (E : ValueId → ValueId → Prop) : Prop where
  unique : Relator.BiUnique E
  followed : ∀ c d, E c d → c ≠ .blank ∧ d ≠ .blank

/-- Origins correspond if they are cells that do, or unknown ones whose numbers do. -/
inductive OriginPair (E : ValueId → ValueId → Prop) (F : Nat → Nat → Prop) : Origin → Origin → Prop
  | value {c d : ValueId} (h : E c d) : OriginPair E F (.value c) (.value d)
  | fresh {m n : Nat} (h : F m n) : OriginPair E F (.fresh m) (.fresh n)

/-- The cells with a partner on the other side. -/
def Paired (E : ValueId → ValueId → Prop) (c : ValueId) : Prop := ∃ d, E c d

variable {E : ValueId → ValueId → Prop} {F F' : Nat → Nat → Prop}

theorem CellPairing.symm (hE : CellPairing E) : CellPairing (flip E) :=
  ⟨⟨fun _ _ _ h h' => hE.unique.2 h h', fun _ _ _ h h' => hE.unique.1 h h'⟩,
    fun _ _ h => (hE.followed _ _ h).symm⟩

namespace OriginPair

theorem symm {o o' : Origin} (h : OriginPair E F o o') : OriginPair (flip E) (flip F) o' o := by
  cases h with
  | value h => exact .value h
  | fresh h => exact .fresh h

theorem mono (hF : ∀ m n, F m n → F' m n) {o o' : Origin} (h : OriginPair E F o o') :
    OriginPair E F' o o' := by
  cases h with
  | value h => exact .value h
  | fresh h => exact .fresh (hF _ _ h)

theorem biUnique (hE : Relator.BiUnique E) (hF : Relator.BiUnique F) :
    Relator.BiUnique (OriginPair E F) := by
  constructor
  · rintro a b c (h | h) (h' | h')
    · rw [hE.1 h h']
    · rw [hF.1 h h']
  · rintro a b c (h | h) (h' | h')
    · rw [hE.2 h h']
    · rw [hF.2 h h']

end OriginPair

namespace History

/-- The two histories agree about corresponding cells: they hold lineages of corresponding origins
and equal generations, no other cell holds a lineage of these origins, and of corresponding origins
the same generations were written. -/
structure Mirrors (E : ValueId → ValueId → Prop) (F : Nat → Nat → Prop) (h₀ h : History) :
    Prop where
  unique : Relator.BiUnique F
  bounds : ∀ m n, F m n → m < h₀.unknowns ∧ n < h.unknowns
  numbered : h₀.Numbered ∧ h.Numbered
  origins : ∀ c d, E c d → OriginPair E F (h₀.lineageOf c).origin (h.lineageOf d).origin
  levels : ∀ c d, E c d → (h₀.lineageOf c).generation = (h.lineageOf d).generation
  left : ∀ c o, OriginPair E F (h₀.lineageOf c).origin o → Paired E c
  right : ∀ d o, OriginPair E F o (h.lineageOf d).origin → Paired (flip E) d
  written : ∀ o o', OriginPair E F o o' → ∀ g, g ∈ h₀.generations o ↔ g ∈ h.generations o'

theorem mirrors_nil (E : ValueId → ValueId → Prop) : Mirrors E (fun _ _ => False) [] [] where
  unique := ⟨fun _ _ _ h => h.elim, fun _ _ _ h => h.elim⟩
  bounds _ _ h := h.elim
  numbered := ⟨fun _ h => absurd h List.not_mem_nil, fun _ h => absurd h List.not_mem_nil⟩
  origins _ _ h := .value h
  levels _ _ _ := rfl
  left c o h := by
    have hpair : OriginPair E (fun _ _ => False) (.value c) o := h
    cases hpair with
    | value hE => exact ⟨_, hE⟩
  right d o h := by
    have hpair : OriginPair E (fun _ _ => False) o (.value d) := h
    cases hpair with
    | value hE => exact ⟨_, hE⟩
  written _ _ _ _ := Iff.rfl

variable {h₀ h : History}

theorem Mirrors.symm (hm : Mirrors E F h₀ h) : Mirrors (flip E) (flip F) h h₀ where
  unique := ⟨fun _ _ _ h h' => hm.unique.2 h h', fun _ _ _ h h' => hm.unique.1 h h'⟩
  bounds _ _ h := (hm.bounds _ _ h).symm
  numbered := hm.numbered.symm
  origins c d h := (hm.origins d c h).symm
  levels c d h := (hm.levels d c h).symm
  left c o h := hm.right c o h.symm
  right d o h := hm.left d o h.symm
  written o o' h g := (hm.written o' o h.symm g).symm

/-- An unknown origin that is yet to come has no partner. -/
theorem Mirrors.not_fresh (hm : Mirrors E F h₀ h) {o : Origin} :
    ¬ OriginPair E F (.fresh h₀.unknowns) o := by
  intro hpair
  cases hpair with
  | fresh hF => exact Nat.lt_irrefl _ (hm.bounds _ _ hF).1

/-- What is read from a cell without a partner has no partner. -/
theorem Mirrors.not_candidate (hm : Mirrors E F h₀ h) {source : ValueId} (hs : ¬ Paired E source)
    (step : GenStep) (o : Origin) : ¬ OriginPair E F (h₀.candidate source step).origin o := by
  intro hpair
  unfold candidate at hpair
  split at hpair
  · exact hm.not_fresh hpair
  · exact hs (hm.left source o hpair)

end History

/-! ## One transition -/

namespace Operation

/-- The operation writes one of the cells. -/
def Writes (op : Operation) (cells : ValueId → Prop) : Prop :=
  ∃ source target step, op = .move source target step ∧ cells target

/-- The operation writes none of the cells, and passes on the content of none. -/
def Avoids (op : Operation) (cells : ValueId → Prop) : Prop :=
  ∀ source target step, op = .move source target step → target.isBlank = false →
    ¬ cells source ∧ ¬ cells target

/-- The operations move corresponding cells, or something unknown into corresponding cells. -/
def Copies (E : ValueId → ValueId → Prop) (op₀ op : Operation) : Prop :=
  ∃ source₀ target₀ source target step, op₀ = .move source₀ target₀ step ∧
    op = .move source target step ∧ E target₀ target ∧
    (source₀ = .blank ∧ source = .blank ∨ E source₀ source)

theorem Copies.symm {op₀ op : Operation} (h : Copies E op₀ op) : Copies (flip E) op op₀ := by
  obtain ⟨source₀, target₀, source, target, step, hop₀, hop, htarget, hsource⟩ := h
  exact ⟨source, target, source₀, target₀, step, hop, hop₀, htarget, hsource.imp And.symm id⟩

theorem avoids_of_not_isMove {op : Operation} (h : op.isMove = false) (cells : ValueId → Prop) :
    op.Avoids cells := by
  rintro source target step rfl
  cases h

end Operation

namespace History

variable {h₀ h : History} {t₀ t : Transition}

/-- What one side does with other cells changes nothing. -/
theorem Mirrors.extend_left (hm : Mirrors E F h₀ h) (ht : t₀.op.Avoids (Paired E)) :
    Mirrors E F (h₀.extend t₀) h := by
  rcases h₀.extend_eq_or t₀ with ⟨hsame, -⟩ | ⟨source, target, step, hop, hb⟩
  · rw [hsame]
    exact hm
  obtain ⟨hsource, htarget⟩ := ht source target step hop hb
  have hnone := hm.not_candidate hsource step
  have hother : ∀ c d, E c d → target ≠ c := by
    rintro c d hcd rfl
    exact htarget ⟨d, hcd⟩
  have hnew : ∀ o o', OriginPair E F o o' → (h₀.candidate source step).origin ≠ o := by
    rintro o o' hpair rfl
    exact hnone o' hpair
  rw [extend_move hop hb]
  refine ⟨hm.unique, fun m n hF => ?_, ⟨hm.numbered.1.cons _ _ _, hm.numbered.2⟩,
    fun c d hcd => ?_, fun c d hcd => ?_, fun c o hpair => ?_, hm.right, fun o o' hpair g => ?_⟩
  · have hlt := hm.bounds m n hF
    rw [unknowns_cons]
    omega
  · rw [lineageOf_cons, if_neg (hother c d hcd)]
    exact hm.origins c d hcd
  · rw [lineageOf_cons, if_neg (hother c d hcd)]
    exact hm.levels c d hcd
  · rw [lineageOf_cons] at hpair
    split at hpair
    · exact absurd hpair (hnone o)
    · exact hm.left c o hpair
  · rw [generations_cons, if_neg (hnew o o' hpair)]
    exact hm.written o o' hpair g

theorem Mirrors.extend_right (hm : Mirrors E F h₀ h) (ht : t.op.Avoids (Paired (flip E))) :
    Mirrors E F h₀ (h.extend t) := (hm.symm.extend_left ht).symm

/-- Writing corresponding lineages to corresponding cells. The numbers of unknown origins may be
extended by a pair of new ones. -/
theorem Mirrors.write (hE : CellPairing E) (hm : Mirrors E F h₀ h) {w₀ w : Writing}
    (hF : ∀ m n, F m n → F' m n) (hunique : Relator.BiUnique F')
    (hnew : ∀ m n, F' m n → F m n ∨ m = h₀.unknowns ∧ n = h.unknowns)
    (hbounds : ∀ m n, F' m n → m < unknowns (w₀ :: h₀) ∧ n < unknowns (w :: h))
    (hnumbered : Numbered (w₀ :: h₀) ∧ Numbered (w :: h)) (htarget : E w₀.target w.target)
    (horigin : OriginPair E F' w₀.lineage.origin w.lineage.origin)
    (hlevel : w₀.lineage.generation = w.lineage.generation) :
    Mirrors E F' (w₀ :: h₀) (w :: h) := by
  have hpairs := OriginPair.biUnique hE.unique hunique
  -- a pair of new numbers belongs to nothing that was written before
  have hold : ∀ {o o'}, OriginPair E F' o o' → OriginPair E F o o' ∨
      o = .fresh h₀.unknowns ∧ o' = .fresh h.unknowns := by
    intro o o' hpair
    cases hpair with
    | value hcd => exact Or.inl (.value hcd)
    | fresh hF' =>
        rcases hnew _ _ hF' with hF | ⟨rfl, rfl⟩
        · exact Or.inl (.fresh hF)
        · exact Or.inr ⟨rfl, rfl⟩
  have hnone : ∀ {h : History}, h.Numbered → ∀ g, g ∉ h.generations (.fresh h.unknowns) := by
    intro h hn g hg
    obtain ⟨w, hw, ho, -⟩ := mem_generations.mp hg
    exact Nat.lt_irrefl _ (hn w hw _ ho)
  have htargets : ∀ {c d}, E c d → (w₀.target = c ↔ w.target = d) := by
    intro c d hcd
    constructor
    · rintro rfl
      exact hE.unique.2 htarget hcd
    · rintro rfl
      exact hE.unique.1 htarget hcd
  have horigins : ∀ {o o'}, OriginPair E F' o o' →
      (w₀.lineage.origin = o ↔ w.lineage.origin = o') := by
    intro o o' hpair
    constructor
    · rintro rfl
      exact hpairs.2 horigin hpair
    · rintro rfl
      exact hpairs.1 horigin hpair
  refine ⟨hunique, hbounds, hnumbered, fun c d hcd => ?_, fun c d hcd => ?_, fun c o hpair => ?_,
    fun d o hpair => ?_, fun o o' hpair g => ?_⟩
  · rw [lineageOf_cons, lineageOf_cons]
    simp only [htargets hcd]
    split
    · exact horigin
    · exact (hm.origins c d hcd).mono hF
  · rw [lineageOf_cons, lineageOf_cons]
    simp only [htargets hcd]
    split
    · exact hlevel
    · exact hm.levels c d hcd
  · by_cases hc : w₀.target = c
    · exact hc ▸ ⟨_, htarget⟩
    · rw [lineageOf_cons, if_neg hc] at hpair
      rcases hold hpair with hpair | ⟨hfresh, -⟩
      · exact hm.left c o hpair
      · exact absurd (hm.numbered.1.lineageOf hfresh) (Nat.lt_irrefl _)
  · by_cases hd : w.target = d
    · exact hd ▸ ⟨_, htarget⟩
    · rw [lineageOf_cons, if_neg hd] at hpair
      rcases hold hpair with hpair | ⟨-, hfresh⟩
      · exact hm.right d o hpair
      · exact absurd (hm.numbered.2.lineageOf hfresh) (Nat.lt_irrefl _)
  · have hbefore : g ∈ h₀.generations o ↔ g ∈ h.generations o' := by
      rcases hold hpair with hpair | ⟨rfl, rfl⟩
      · exact hm.written o o' hpair g
      · exact iff_of_false (hnone hm.numbered.1 g) (hnone hm.numbered.2 g)
    rw [generations_cons, generations_cons]
    simp only [horigins hpair]
    split
    · rw [List.mem_cons, List.mem_cons, hlevel, hbefore]
    · exact hbefore

/-- Moving corresponding cells on both sides keeps the histories in step. Unknown origins that
correspond go on to do so. -/
theorem Mirrors.extend_both (hE : CellPairing E) (hm : Mirrors E F h₀ h)
    (ht : t₀.op.Copies E t.op) :
    ∃ F' : Nat → Nat → Prop, (∀ m n, F m n → F' m n) ∧
      Mirrors E F' (h₀.extend t₀) (h.extend t) := by
  obtain ⟨source₀, target₀, source, target, step, hop₀, hop, htarget, hsource⟩ := ht
  obtain ⟨hb₀, hb⟩ := hE.followed _ _ htarget
  rw [extend_move hop₀ (ValueId.isBlank_eq_false_iff.mpr hb₀),
    extend_move hop (ValueId.isBlank_eq_false_iff.mpr hb)]
  have hnumbered := And.intro (hm.numbered.1.cons source₀ target₀ step)
    (hm.numbered.2.cons source target step)
  rcases hsource with ⟨rfl, rfl⟩ | hsource
  · refine ⟨fun m n => F m n ∨ m = h₀.unknowns ∧ n = h.unknowns, fun _ _ => Or.inl,
      hm.write hE (fun _ _ => Or.inl) ?_ (fun _ _ hF => hF) (fun m n hF => ?_) hnumbered htarget
        (.fresh (Or.inr ⟨rfl, rfl⟩)) rfl⟩
    · constructor
      · rintro m m' n (hF | ⟨rfl, rfl⟩) (hF' | ⟨rfl, hn⟩)
        · exact hm.unique.1 hF hF'
        · exact absurd (hm.bounds _ _ hF).2 (by omega)
        · exact absurd (hm.bounds _ _ hF').2 (by omega)
        · rfl
      · rintro m n n' (hF | ⟨rfl, rfl⟩) (hF' | ⟨hm', rfl⟩)
        · exact hm.unique.2 hF hF'
        · exact absurd (hm.bounds _ _ hF).1 (by omega)
        · exact absurd (hm.bounds _ _ hF').1 (by omega)
        · rfl
    · simp only [unknowns_cons, ValueId.isBlank, if_true]
      rcases hF with hF | ⟨rfl, rfl⟩
      · have hlt := hm.bounds m n hF
        omega
      · omega
  · obtain ⟨hs₀, hs⟩ := hE.followed _ _ hsource
    rw [Ne, ← ValueId.isBlank_iff] at hs₀ hs
    refine ⟨F, fun _ _ hF => hF, hm.write hE (fun _ _ hF => hF) hm.unique (fun _ _ => Or.inl)
      (fun m n hF => ?_) hnumbered htarget ?_ ?_⟩
    · have hlt := hm.bounds m n hF
      simp only [unknowns_cons]
      omega
    · simp only [candidate, hs₀, hs]
      exact hm.origins _ _ hsource
    · simp only [candidate, hs₀, hs]
      exact congrArg (· + step.delta) (hm.levels _ _ hsource)

/-- A growth of corresponding cells that is reported on one side is reported on the other. -/
theorem Mirrors.exists_repeats (hE : CellPairing E) (hm : Mirrors E F h₀ h)
    (ht : t₀.op.Copies E t.op) (hrepeats : ∃ c, h₀.Repeats t₀ c) : ∃ c, h.Repeats t c := by
  obtain ⟨source₀, target₀, source, target, step, hop₀, hop, htarget, hsource⟩ := ht
  obtain ⟨_, _, _, hop', hs₀, -, ⟨w, hw, horigin, hle⟩, -⟩ := hrepeats
  cases hop₀.symm.trans hop'
  have hsource : E source₀ source := hsource.resolve_left fun hblank => hs₀ hblank.1
  obtain ⟨-, hs⟩ := hE.followed _ _ hsource
  rw [Ne, ← ValueId.isBlank_iff] at hs₀
  have hs' := hs
  rw [Ne, ← ValueId.isBlank_iff] at hs'
  simp only [candidate, hs₀] at horigin hle
  have hmem : w.lineage.generation ∈ h₀.generations (h₀.lineageOf source₀).origin :=
    mem_generations.mpr ⟨w, hw, horigin, rfl⟩
  rw [hm.written _ _ (hm.origins _ _ hsource)] at hmem
  obtain ⟨w', hw', horigin', hgeneration⟩ := mem_generations.mp hmem
  refine ⟨_, source, target, hop, hs, (hE.followed _ _ htarget).2, ⟨w', hw', ?_, ?_⟩, rfl⟩
  · simp only [candidate, hs']
    exact horigin'
  · simp only [candidate, hs', hgeneration, ← hm.levels _ _ hsource]
    exact hle

end History

/-! ## Traces -/

/-- The two lists of operations move corresponding cells alike, in the same order. In between each
of them may do other things. -/
inductive Along (E : ValueId → ValueId → Prop) : List Operation → List Operation → Prop
  | nil : Along E [] []
  | left {op₀ : Operation} {rest₀ rest : List Operation} (hop : op₀.Avoids (Paired E))
      (h : Along E rest₀ rest) : Along E (op₀ :: rest₀) rest
  | right {op : Operation} {rest₀ rest : List Operation} (hop : op.Avoids (Paired (flip E)))
      (h : Along E rest₀ rest) : Along E rest₀ (op :: rest)
  | both {op₀ op : Operation} {rest₀ rest : List Operation} (hop : op₀.Copies E op)
      (h : Along E rest₀ rest) : Along E (op₀ :: rest₀) (op :: rest)

namespace Along

variable {a₀ a b₀ b : List Operation}

theorem append (h : Along E a₀ a) (h' : Along E b₀ b) : Along E (a₀ ++ b₀) (a ++ b) := by
  induction h with
  | nil => exact h'
  | left hop _ ih => exact .left hop ih
  | right hop _ ih => exact .right hop ih
  | both hop _ ih => exact .both hop ih

theorem of_left (h : ∀ op ∈ a₀, op.Avoids (Paired E)) : Along E a₀ [] := by
  induction a₀ with
  | nil => exact .nil
  | cons op rest ih =>
      exact .left (h op List.mem_cons_self) (ih fun o ho => h o (List.mem_cons_of_mem _ ho))

theorem of_right (h : ∀ op ∈ a, op.Avoids (Paired (flip E))) : Along E [] a := by
  induction a with
  | nil => exact .nil
  | cons op rest ih =>
      exact .right (h op List.mem_cons_self) (ih fun o ho => h o (List.mem_cons_of_mem _ ho))

/-- Operations that have nothing to do with corresponding cells. -/
theorem of_avoids (h₀ : ∀ op ∈ a₀, op.Avoids (Paired E))
    (h : ∀ op ∈ a, op.Avoids (Paired (flip E))) : Along E a₀ a := by
  have happend := (of_left h₀).append (of_right h)
  rwa [List.append_nil, List.nil_append] at happend

end Along

namespace History

/-- Along the trace, after what the history knows, a transition that writes one of the cells is
reported. -/
def Clashes (cells : ValueId → Prop) (h : History) : Trace → Prop
  | [] => False
  | t :: rest => t.op.Writes cells ∧ (∃ c, h.Repeats t c) ∨ Clashes cells (h.extend t) rest

theorem clashes_cons_of_avoids {cells : ValueId → Prop} {h : History} {t : Transition}
    {rest : Trace} (ht : t.op.Avoids cells) :
    h.Clashes cells (t :: rest) ↔ (h.extend t).Clashes cells rest := by
  refine or_iff_right ?_
  rintro ⟨⟨source, target, step, hop, hcell⟩, c, _, _, hop', -, hne, -⟩
  cases hop.symm.trans hop'
  rw [Ne, ← ValueId.isBlank_iff, Bool.not_eq_true] at hne
  exact (ht _ _ _ hop hne).2 hcell

end History

/-- **Traces that move corresponding cells alike keep two replays in step.** A growth of these cells
is reported on both sides or on none. -/
theorem Along.mirrors (hE : CellPairing E) {ops₀ ops : List Operation} (ha : Along E ops₀ ops) :
    ∀ {ts₀ ts : Trace} {F : Nat → Nat → Prop} {h₀ h : History}, ts₀.map Transition.op = ops₀ →
      ts.map Transition.op = ops → h₀.Mirrors E F h →
      (∃ F', (ts₀.foldl History.extend h₀).Mirrors E F' (ts.foldl History.extend h)) ∧
        (h₀.Clashes (Paired E) ts₀ ↔ h.Clashes (Paired (flip E)) ts) := by
  induction ha with
  | nil =>
      intro ts₀ ts F h₀ h hops₀ hops hm
      obtain rfl := List.map_eq_nil_iff.mp hops₀
      obtain rfl := List.map_eq_nil_iff.mp hops
      exact ⟨⟨F, hm⟩, Iff.rfl⟩
  | left hop _ ih =>
      intro ts₀ ts F h₀ h hops₀ hops hm
      obtain ⟨t₀, rest₀, rfl, rfl, hrest₀⟩ := List.map_eq_cons_iff.mp hops₀
      obtain ⟨hafter, hiff⟩ := ih hrest₀ hops (hm.extend_left hop)
      exact ⟨hafter, (History.clashes_cons_of_avoids hop).trans hiff⟩
  | right hop _ ih =>
      intro ts₀ ts F h₀ h hops₀ hops hm
      obtain ⟨t, rest, rfl, rfl, hrest⟩ := List.map_eq_cons_iff.mp hops
      obtain ⟨hafter, hiff⟩ := ih hops₀ hrest (hm.extend_right hop)
      exact ⟨hafter, hiff.trans (History.clashes_cons_of_avoids hop).symm⟩
  | both hop _ ih =>
      intro ts₀ ts F h₀ h hops₀ hops hm
      obtain ⟨t₀, rest₀, rfl, rfl, hrest₀⟩ := List.map_eq_cons_iff.mp hops₀
      obtain ⟨t, rest, rfl, rfl, hrest⟩ := List.map_eq_cons_iff.mp hops
      obtain ⟨F', -, hm'⟩ := hm.extend_both hE hop
      obtain ⟨hafter, hiff⟩ := ih hrest₀ hrest hm'
      refine ⟨hafter, or_congr (and_congr ?_ ⟨?_, ?_⟩) hiff⟩
      · obtain ⟨source₀, target₀, source, target, step, hop₀, hop, htarget, -⟩ := hop
        exact iff_of_true ⟨_, _, _, hop₀, _, htarget⟩ ⟨_, _, _, hop, _, htarget⟩
      · exact hm.exists_repeats hE hop
      · exact hm.symm.exists_repeats hE.symm hop.symm

/-! ## Several ways to pair cells -/

section

variable {ι : Type} {E : ι → ValueId → ValueId → Prop}

/-- The operations go along each other for every way of pairing cells, and each cell that is written
has a partner in one of them. -/
structure AlongAll (E : ι → ValueId → ValueId → Prop) (ops₀ ops : List Operation) : Prop where
  along : ∀ i, Along (E i) ops₀ ops
  left : ∀ op ∈ ops₀, ∀ source target step, op = .move source target step → target ≠ .blank →
    ∃ i, Paired (E i) target
  right : ∀ op ∈ ops, ∀ source target step, op = .move source target step → target ≠ .blank →
    ∃ i, Paired (flip (E i)) target

namespace AlongAll

variable {a₀ a b₀ b : List Operation}

theorem of_not_isMove (h₀ : ∀ op ∈ a₀, op.isMove = false) (h : ∀ op ∈ a, op.isMove = false) :
    AlongAll E a₀ a where
  along i := .of_avoids (fun op hop => Operation.avoids_of_not_isMove (h₀ op hop) _)
    fun op hop => Operation.avoids_of_not_isMove (h op hop) _
  left op hop source target step hmove := by
    have hnot := h₀ op hop
    rw [hmove] at hnot
    cases hnot
  right op hop source target step hmove := by
    have hnot := h op hop
    rw [hmove] at hnot
    cases hnot

theorem append (h : AlongAll E a₀ a) (h' : AlongAll E b₀ b) :
    AlongAll E (a₀ ++ b₀) (a ++ b) where
  along i := (h.along i).append (h'.along i)
  left op hop := (List.mem_append.mp hop).elim (h.left op) (h'.left op)
  right op hop := (List.mem_append.mp hop).elim (h.right op) (h'.right op)

theorem flatMap {α : Type} {ms : List α} {f : α → Operation} {g : α → List Operation}
    (h : ∀ m ∈ ms, AlongAll E [f m] (g m)) : AlongAll E (ms.map f) (ms.flatMap g) := by
  induction ms with
  | nil => exact of_not_isMove (by simp) (by simp)
  | cons m rest ih =>
      rw [List.map_cons, List.flatMap_cons]
      exact (h m List.mem_cons_self).append (ih fun x hx => h x (List.mem_cons_of_mem _ hx))

end AlongAll

/-- If each cell that is written is one of the cells of some kind, then what is reported concerns
the cells of some kind. -/
theorem History.clashes_iff_exists {cells : ι → ValueId → Prop} {trace : Trace} :
    ∀ {h : History}, (∀ op ∈ trace.map Transition.op, ∀ source target step,
        op = .move source target step → target ≠ .blank → ∃ i, cells i target) →
      (h.Clashes (fun _ => True) trace ↔ ∃ i, h.Clashes (cells i) trace) := by
  induction trace with
  | nil => exact fun _ => ⟨False.elim, fun ⟨_, hfalse⟩ => hfalse⟩
  | cons t rest ih =>
      intro h hcells
      have hrest := ih (h := h.extend t) fun op hop => hcells op (List.mem_cons_of_mem _ hop)
      constructor
      · rintro (⟨-, c, hc⟩ | hlater)
        · obtain ⟨source, target, hop, -, hne, -⟩ := id hc
          obtain ⟨i, hi⟩ := hcells t.op List.mem_cons_self source target .next hop hne
          exact ⟨i, Or.inl ⟨⟨source, target, .next, hop, hi⟩, c, hc⟩⟩
        · obtain ⟨i, hi⟩ := hrest.mp hlater
          exact ⟨i, Or.inr hi⟩
      · rintro ⟨i, ⟨⟨source, target, step, hop, -⟩, hc⟩ | hlater⟩
        · exact Or.inl ⟨⟨source, target, step, hop, trivial⟩, hc⟩
        · exact Or.inr (hrest.mpr ⟨i, hlater⟩)

/-- The histories agree about all cells that have partners, whichever way these are paired. -/
def History.InStep (E : ι → ValueId → ValueId → Prop) (h₀ h : History) : Prop :=
  ∀ i, ∃ F, h₀.Mirrors (E i) F h

/-- **Operations that go along each other keep two replays in step**, and something is reported on
both sides or on none. -/
theorem AlongAll.inStep (hE : ∀ i, CellPairing (E i)) {ts₀ ts : Trace} {h₀ h : History}
    (ha : AlongAll E (ts₀.map Transition.op) (ts.map Transition.op)) (hm : h₀.InStep E h) :
    (ts₀.foldl History.extend h₀).InStep E (ts.foldl History.extend h) ∧
      (h₀.Clashes (fun _ => True) ts₀ ↔ h.Clashes (fun _ => True) ts) := by
  have hall := fun i => (ha.along i).mirrors (hE i) rfl rfl (hm i).choose_spec
  refine ⟨fun i => (hall i).1, ?_⟩
  rw [History.clashes_iff_exists ha.left, History.clashes_iff_exists ha.right]
  exact exists_congr fun i => (hall i).2

end

end SliceLineage
