import SliceLineage.Proofs.Build.DeadCode
import SliceLineage.Proofs.Build.Ends
import SliceLineage.Proofs.Build.Positions

/-!
# Nothing follows a return

A return leads to a point of its own, which the walk leaves at once and for good; it goes on at a
point that nothing leads to. Whatever is walked over after a return in the same statement list
hangs at that point. The end of the list may well be joined to what stands around the list, but
nothing from there leads back.

* `Cursor.Course.ended`: nothing leaves a point behind a return.
* `Build.spares_of_ret`: what is made after a return is entered from there only.
* `FunctionDecl.exists_unreachable_of_leads`: so it cannot be reached, at whatever depth the list is.
-/

namespace SliceLineage

namespace Cursor

variable {loops : Prop} {hub : Option PointId} {anchor p : PointId} {c c' : Cursor}

/-- Nothing leaves a point behind a return, and the cursor is not there. -/
def Ended (c : Cursor) : Prop :=
  ∀ p, c.graph.ReturnsTo p → c.graph.successors p = [] ∧ p ≠ c.current

theorem returnsTo_of_join {q : PointId} (hjoin : c.join q = (.ok (), c'))
    (hp : c'.graph.ReturnsTo p) : c.graph.ReturnsTo p := by
  obtain ⟨o, values, ht⟩ := hp
  rcases mem_successors_of_join hjoin ht with ht | ⟨hop, -⟩
  · exact ⟨o, values, ht⟩
  · cases hop

/-- The returns of a course lead to new points. -/
theorem Course.returnsTo (h : Course loops hub c c') (hp : c'.graph.ReturnsTo p) :
    c.graph.ReturnsTo p ∨ c.graph.pointCount ≤ p.index := by
  obtain ⟨q, values, ht⟩ := hp
  rcases h.mem_successors ht with ht | hnew | ⟨hop, -⟩
  · exact Or.inl ⟨q, values, ht⟩
  · exact Or.inr hnew
  · cases hop

theorem Bounded.known_of_returnsTo (hb : c.Bounded) (hp : c.graph.ReturnsTo p) :
    p.index < c.graph.pointCount := by
  obtain ⟨q, values, ht⟩ := hp
  exact hb.targets q _ ht

/-- Where the walk is no return leads to, then or later. -/
theorem Ended.ne_current (hc : c.Ended) (hb : c.Bounded)
    (hp : c.graph.ReturnsTo p ∨ c.graph.pointCount ≤ p.index) : p ≠ c.current := by
  rcases hp with hret | hnew
  · exact (hc p hret).2
  · rintro rfl
    exact Nat.not_lt_of_le hnew hb.inside

theorem Ended.join {q : PointId} (hc : c.Ended) (hjoin : c.join q = (.ok (), c'))
    (hp : c'.graph.ReturnsTo p) : c'.graph.successors p = [] := by
  obtain ⟨hnone, hne⟩ := hc p (returnsTo_of_join hjoin hp)
  rw [successors_join hjoin hne, hnone]

theorem Ended.closes (hc : c.Ended) (h : Closes anchor c c') (hp : c'.graph.ReturnsTo p) :
    c.graph.ReturnsTo p ∧ c'.graph.successors p = [] := by
  rcases h with ⟨-, rfl⟩ | ⟨-, hjoin⟩
  · exact ⟨hp, (hc p hp).1⟩
  · exact ⟨returnsTo_of_join hjoin hp, hc.join hjoin hp⟩

/-- Points behind earlier returns stay as they are when something is appended. -/
theorem Ended.successors_append (hc : c.Ended) (op : Operation) (span : Option Span)
    (hp : c.graph.ReturnsTo p) : (c.append op span).graph.successors p = [] := by
  obtain ⟨hnone, hne⟩ := hc p hp
  rw [Cursor.successors_append, if_neg (Ne.symm hne), hnone]

theorem Ended.append (hc : c.Ended) (hb : c.Bounded) {op : Operation}
    (hop : ∀ values, op ≠ .ret values) (span : Option Span) : (c.append op span).Ended := by
  rintro p ⟨q, values, ht⟩
  rcases mem_successors_of_append ht with ht | ⟨-, heq⟩
  · have hp : c.graph.ReturnsTo p := ⟨q, values, ht⟩
    refine ⟨hc.successors_append op span hp, ?_⟩
    rintro rfl
    exact Nat.lt_irrefl _ (hb.known_of_returnsTo hp)
  · exact absurd (congrArg Transition.op heq).symm (hop values)

theorem Ended.ret (hc : c.Ended) (hb : c.Bounded) (values : List ValueId) (span : Option Span) :
    (c.append (.ret values) span).detach.Ended := by
  rintro p ⟨q, others, ht⟩
  have ht : ⟨p, .ret others⟩ ∈ (c.append (.ret values) span).graph.successors q :=
    FlowGraph.successors_allocate _ none q ▸ ht
  have hcount : (c.append (.ret values) span).detach.current.index = c.graph.pointCount + 1 :=
    pointCount_append c (.ret values) span
  have hsucc : (c.append (.ret values) span).detach.graph.successors p =
      (c.append (.ret values) span).graph.successors p := FlowGraph.successors_allocate _ none p
  rw [hsucc]
  rcases mem_successors_of_append ht with ht | ⟨-, heq⟩
  · have hp : c.graph.ReturnsTo p := ⟨q, others, ht⟩
    refine ⟨hc.successors_append _ span hp, ?_⟩
    rintro rfl
    have hlt := hb.known_of_returnsTo hp
    omega
  · -- the new point behind the return
    obtain rfl : p = ⟨c.graph.pointCount⟩ := congrArg Transition.target heq
    have hne : c.current ≠ ⟨c.graph.pointCount⟩ := by
      intro he
      have hlt : c.current.index < c.graph.pointCount := hb.inside
      rw [he] at hlt
      exact Nat.lt_irrefl _ hlt
    refine ⟨?_, fun he => ?_⟩
    · rw [Cursor.successors_append, if_neg hne, hb.successors_new (Nat.le_refl _)]
    · rw [← he] at hcount
      exact absurd hcount (Nat.ne_of_lt (Nat.lt_succ_self _))

/-- **Nothing leaves a point behind a return.** -/
theorem Course.ended (h : Course loops hub c c')
    (hhub : ∀ after ∈ hub, after.index < c.graph.pointCount) (hb : c.Bounded) (hc : c.Ended) :
    c'.Ended := by
  induction h with
  | stay c => exact hc
  | trans h _ ih ih' =>
      exact ih' (fun after ha => Nat.lt_of_lt_of_le (hhub after ha) h.grows.points)
        (h.bounded hhub hb) (ih hhub hb hc)
  | append c hop span =>
      refine hc.append hb (fun values he => ?_) span
      rw [he] at hop
      cases hop
  | ret c values span => exact hc.ret hb values span
  | @arm _ _ _ c₂ h hjoin ih =>
      intro p hp
      have hp : c₂.graph.ReturnsTo p := hp
      have hnone := (ih (by simp) hb hc).join hjoin hp
      exact ⟨hnone, hc.ne_current hb (h.returnsTo (returnsTo_of_join hjoin hp))⟩
  | @branch _ c c₁ c₂ span h hjoin ih =>
      intro p hp
      have hafter : (c.reserve span).1.index < (c.reserve span).2.graph.pointCount := by
        rw [pointCount_reserve]
        exact Nat.lt_succ_self _
      have hreserve : (c.reserve span).2.Ended := by
        rintro p ⟨q, values, ht⟩
        have hp := hc p ⟨q, values, FlowGraph.successors_allocate _ _ q ▸ ht⟩
        exact ⟨(FlowGraph.successors_allocate _ _ p).trans hp.1, hp.2⟩
      have harms := ih (fun after ha => Option.mem_some.mp ha ▸ hafter) (hb.reserve span) hreserve
      refine ⟨harms.join hjoin hp, ?_⟩
      rw [(join_cases hjoin).1]
      rintro rfl
      -- the hub is a reserved point, to which no return can lead
      rcases h.returnsTo (returnsTo_of_join hjoin hp) with ⟨q, values, ht⟩ | hnew
      · have hlt := hb.targets q _ (FlowGraph.successors_allocate _ _ q ▸ ht)
        exact Nat.lt_irrefl _ hlt
      · exact Nat.not_lt_of_le hnew hafter
  | @loop _ c c₁ _ _ _ span hhead hround hclose ihhead ihround =>
      intro p hp
      have hb₁ := hhead.bounded (by simp) (hb.append .noop span)
      have hanchor : (c.append .noop span).Ended :=
        hc.append hb (fun values he => by cases he) span
      have hended := ihhead (by simp) (hb.append .noop span) hanchor
      obtain ⟨hp₂, hnone⟩ := (ihround (by simp) hb₁ hended).closes hclose hp
      exact ⟨hnone, hended.ne_current hb₁ (hround.returnsTo hp₂)⟩

end Cursor

namespace Build

variable {ctx : BuildContext} {s s₁ s₂ : BuildState} {lo hi n : Nat}

/-- **What is made after a return is entered from there only.** -/
theorem spares_of_ret {results : List Expr} {span : Span} {post : List Stmt} (hs : Within n s)
    (hret : (statement ctx (.ret results span)).run s = .ok ((), s₁))
    (hpost : (statements ctx post).run s₁ = .ok ((), s₂)) :
    n ≤ s₁.cursor.current.index ∧ s₁.cursor.Inside ∧
      Spares s₁.cursor.current.index s₂.cursor.graph.pointCount s₂ := by
  have hl : Local n (Within n) := local_within (Nat.le_refl _)
  obtain ⟨s₀, hs₀, rfl⟩ := exists_detach_of_ret hl.appends
    (fun s values span hs => hl.append s (.ret values) span hs) hs hret
  have hcourse : Cursor.Course True none s₀.cursor.detach s₂.cursor :=
    (follows_statements ctx post fun _ => trivial).of_run hpost
  have hinside := hs₀.2.detach.inside
  have hextends := hcourse.extends hinside (by simp)
  have hbounded := hcourse.bounded (by simp) hs₀.2.detach
  refine ⟨hs₀.1, hinside, Nat.le_refl _, fun q t ht hlo _ => ⟨?_, hbounded.sources q t ht⟩⟩
  by_contra hold
  have hlt : q.index < s₀.cursor.graph.pointCount := Nat.not_le.mp hold
  have hne : q ≠ s₀.cursor.detach.current := by
    rintro rfl
    exact Nat.lt_irrefl _ hlt
  rw [hextends.frame.edges q (Nat.lt_succ_of_lt hlt) hne] at ht
  have htarget := hs₀.2.targets q t (FlowGraph.successors_allocate _ none q ▸ ht)
  exact Nat.not_lt_of_le hlo htarget

/-- What is entered from itself only, and not from the root, cannot be reached. -/
theorem Spares.not_reaches (h : Spares lo hi s) (hroot : s.cursor.graph.root.index < lo)
    {p : PointId} (hp : s.cursor.graph.Reaches p) : ¬ (lo ≤ p.index ∧ p.index < hi) := by
  induction hp with
  | refl => exact fun hin => Nat.not_lt_of_le hin.1 hroot
  | tail _ hq ih =>
      rintro ⟨hlo, hhi⟩
      obtain ⟨t, ht, rfl⟩ := List.mem_map.mp hq
      exact ih (h.2 _ t ht hlo hhi)

end Build

namespace FunctionDecl

variable {registry : Registry} {f : FunctionDecl} {g : FlowGraph}

theorem ended_of_course {loops : Prop} {c : Cursor}
    (hcourse : Cursor.Course loops none (.start (some f.span)) c) : c.Ended := by
  refine hcourse.ended (by simp) (Cursor.bounded_start _) ?_
  rintro p ⟨q, values, ht⟩
  rw [Cursor.successors_start] at ht
  cases ht

/-- **Nothing leaves a point behind a return.** -/
theorem successors_of_returnsTo (h : f.graph registry = .ok g) {p : PointId}
    (hp : g.ReturnsTo p) : g.successors p = [] := by
  obtain ⟨s, -, rfl, hcourse⟩ := f.exists_course True h fun _ => trivial
  exact (ended_of_course hcourse p hp).1

/-- The walk over the statements of the body. -/
theorem exists_run_of_graph (h : f.graph registry = .ok g) :
    ∃ s, (Build.statements (f.context registry) f.body.stmts).run f.bodyState =
      .ok ((), s) ∧ s.cursor.graph = g := by
  rw [← f.withBody_stmts, graph_withBody] at h
  cases hrun : (Build.statements (f.context registry) f.body.stmts).run f.bodyState with
  | error e =>
      rw [hrun] at h
      cases h
  | ok result =>
      rw [hrun] at h
      exact ⟨result.2, rfl, Except.ok.inj h⟩

/-- **What is made after a return, at whatever depth, cannot be reached.** The walk comes to the
list. Where it goes on after the return is not reached, and nothing that the rest of the list
makes. -/
theorem exists_unreachable_of_leads (h : f.graph registry = .ok g) {enter : Build Unit}
    {results : List Expr} {span : Span} {post : List Stmt}
    (hleads : Build.Leads (f.context registry) f.body.stmts enter
      (.ret results span :: post)) :
    ∃ s s₁ s₂, enter.run f.bodyState = .ok ((), s) ∧
      (Build.statement (f.context registry) (.ret results span)).run s = .ok ((), s₁) ∧
      (Build.statements (f.context registry) post).run s₁ = .ok ((), s₂) ∧
      ¬ g.Reaches s₁.cursor.current ∧
      ∀ p : PointId, s₁.cursor.graph.pointCount ≤ p.index →
        p.index < s₂.cursor.graph.pointCount → ¬ g.Reaches p := by
  obtain ⟨s', hrun, rfl⟩ := exists_run_of_graph h
  have hstart : Build.Within 1 f.bodyState := ⟨Nat.le_refl _, Cursor.bounded_start (some f.span)⟩
  obtain ⟨s, s₂, henter, hlist, hs, hspares⟩ := hleads.passes 1 _ _ (Nat.zero_le _) hstart hrun
  rw [Build.statements] at hlist
  obtain ⟨_, s₁, hret, hpost⟩ := exists_of_run_bind hlist
  obtain ⟨hle, hinside, hsealed⟩ :=
    Build.spares_of_ret ⟨Nat.le_refl s.cursor.graph.pointCount, hs.2⟩ hret hpost
  have hcourse : Cursor.Course True none f.bodyState.cursor s'.cursor :=
    (Build.follows_statements _ f.body.stmts fun _ => trivial).of_run hrun
  have hrest : Cursor.Course True none s₁.cursor s₂.cursor :=
    (Build.follows_statements _ post fun _ => trivial).of_run hpost
  have hdead : ∀ p : PointId, s₁.cursor.current.index ≤ p.index →
      p.index < s₂.cursor.graph.pointCount → ¬ s'.cursor.graph.Reaches p := by
    intro p hlo hhi hp
    refine (hspares _ _ hle hsealed).not_reaches ?_ hp ⟨hlo, hhi⟩
    rw [hcourse.grows.root]
    exact Nat.lt_of_lt_of_le hs.1 hle
  refine ⟨s, s₁, s₂, henter, hret, hpost, ?_, fun p hlo hhi => ?_⟩
  · exact hdead _ (Nat.le_refl _) (Nat.lt_of_lt_of_le hinside hrest.grows.points)
  · exact hdead p (Nat.le_of_lt (Nat.lt_of_lt_of_le hinside hlo)) hhi

end FunctionDecl

end SliceLineage
