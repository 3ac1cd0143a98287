import SliceLineage.Build.Monad
import SliceLineage.Proofs.Flow.Growth
import SliceLineage.Proofs.Source.Readings

/-!
# What a construction step can touch

A part of the walk over a function begins where the cursor stands. It may add edges there and at the
points that it makes itself, and it ends where it began or at a point of its own; everything else
was settled before and stays as it is. That is also why the walk never joins a point to itself: the
point where the arms of a statement meet is made for them, so none of them can end there already.

* `Cursor.Frame`: edges were added at one old point only. `Cursor.Extends`: what a part of the walk
  does to the cursor.
* `Build.Decides`: a step succeeds or refuses its input, and which of the two happens was decided
  before the walk began.
* `Build.Walks`: a step that is part of the walk; the combinators of construction keep this.
-/

namespace SliceLineage

namespace FlowGraph

theorem reference?_allocate {g : FlowGraph} {q : PointId} (hq : q.index < g.pointCount)
    (span : Option Span) : (g.allocate span).2.reference? q = g.reference? q := by
  cases span with
  | none => rfl
  | some span =>
      have hne : (⟨g.pointCount⟩ : PointId) ≠ q := by
        rintro rfl
        exact Nat.lt_irrefl _ hq
      exact (reference?_setReference _ _ _ _).trans (if_neg hne)

end FlowGraph

namespace Cursor

variable {c₀ c c' c'' : Cursor} {p q after : PointId}

/-- The cursor stands at a point of its graph. -/
def Inside (c : Cursor) : Prop := c.current.index < c.graph.pointCount

/-- Of the points that were there, only `p` may have got new edges, and none another span. -/
structure Frame (p : PointId) (c c' : Cursor) : Prop where
  root : c'.graph.root = c.graph.root
  points : c.graph.pointCount ≤ c'.graph.pointCount
  edges : ∀ q, q.index < c.graph.pointCount → q ≠ p →
    c'.graph.successors q = c.graph.successors q
  spans : ∀ q, q.index < c.graph.pointCount → c'.graph.reference? q = c.graph.reference? q

/-- What a part of the walk does to the cursor: it adds edges where the cursor stood and at new
points, and ends at one of these. -/
structure Extends (c c' : Cursor) : Prop where
  frame : Frame c.current c c'
  current : c'.current = c.current ∨ c.graph.pointCount ≤ c'.current.index
  inside : c'.Inside

/-- The point exists and can be joined from where the cursor stands. -/
structure Apart (after : PointId) (c : Cursor) : Prop where
  inside : c.Inside
  known : after.index < c.graph.pointCount
  ne : after ≠ c.current

theorem Frame.refl (p : PointId) (c : Cursor) : Frame p c c :=
  ⟨rfl, Nat.le_refl _, fun _ _ _ => rfl, fun _ _ => rfl⟩

/-- Frames follow each other if the second one is about the same point or a new one. -/
theorem Frame.trans (h : Frame p c c') (h' : Frame q c' c'')
    (hq : q = p ∨ c.graph.pointCount ≤ q.index) : Frame p c c'' where
  root := h'.root.trans h.root
  points := Nat.le_trans h.points h'.points
  edges o ho hne := by
    have hoq : o ≠ q := by
      rintro rfl
      rcases hq with rfl | hnew
      · exact hne rfl
      · exact Nat.not_lt_of_le hnew ho
    exact (h'.edges o (Nat.lt_of_lt_of_le ho h.points) hoq).trans (h.edges o ho hne)
  spans o ho := (h'.spans o (Nat.lt_of_lt_of_le ho h.points)).trans (h.spans o ho)

theorem Frame.moveTo (h : Frame p c c') (q : PointId) : Frame p c (c'.moveTo q) :=
  ⟨h.root, h.points, h.edges, h.spans⟩

theorem Extends.refl (h : c.Inside) : Extends c c := ⟨.refl _ c, Or.inl rfl, h⟩

/-- A point that is new, or where the first part ended, was so for the first part. -/
theorem Extends.since (h : Extends c c')
    (hq : q = c'.current ∨ c'.graph.pointCount ≤ q.index) :
    q = c.current ∨ c.graph.pointCount ≤ q.index := by
  rcases hq with rfl | hnew
  · exact h.current
  · exact Or.inr (Nat.le_trans h.frame.points hnew)

theorem Extends.trans (h : Extends c c') (h' : Extends c' c'') : Extends c c'' :=
  ⟨h.frame.trans h'.frame h.current, h.since h'.current, h'.inside⟩

/-- A part of the walk and what happens at its end are framed by its beginning. -/
theorem Extends.frame_trans (h : Extends c c') (h' : Frame c'.current c' c'') :
    Frame c.current c c'' :=
  h.frame.trans h' h.current

/-- The walk can come back to where a part of it began. -/
theorem Frame.extends (h : Frame c.current c c') (hc : c.Inside) :
    Extends c (c'.moveTo c.current) :=
  ⟨h.moveTo _, Or.inl rfl, Nat.lt_of_lt_of_le hc h.points⟩

theorem Apart.extends (ha : Apart after c) (h : Extends c c') : Apart after c' where
  inside := h.inside
  known := Nat.lt_of_lt_of_le ha.known h.frame.points
  ne := by
    rcases h.current with hsame | hnew
    · exact hsame ▸ ha.ne
    · rintro rfl
      exact Nat.not_lt_of_le hnew ha.known

theorem extends_append (c : Cursor) (op : Operation) (span : Option Span) :
    Extends c (c.append op span) where
  frame := {
    root := (grows_append c op span).root
    points := (grows_append c op span).points
    edges := fun q _ hne => by rw [successors_append, if_neg (Ne.symm hne)]
    spans := fun _ hq => FlowGraph.reference?_allocate hq span }
  current := Or.inr (Nat.le_refl _)
  inside := by
    show c.graph.pointCount < (c.append op span).graph.pointCount
    rw [pointCount_append]
    omega

theorem frame_reserve (p : PointId) (c : Cursor) (span : Option Span) :
    Frame p c (c.reserve span).2 where
  root := (c.graph.grows_allocate span).root
  points := (c.graph.grows_allocate span).points
  edges q _ _ := FlowGraph.successors_allocate _ _ q
  spans _ hq := FlowGraph.reference?_allocate hq span

theorem pointCount_reserve (c : Cursor) (span : Option Span) :
    (c.reserve span).2.graph.pointCount = c.graph.pointCount + 1 :=
  FlowGraph.pointCount_allocate _ _

theorem extends_detach (c : Cursor) : Extends c c.detach where
  frame := (frame_reserve _ c none).moveTo _
  current := Or.inr (Nat.le_refl _)
  inside := Nat.lt_succ_self _

/-- A reserved point can be joined from where the cursor stands. -/
theorem apart_reserve (h : c.Inside) (span : Option Span) :
    Apart (c.reserve span).1 (c.reserve span).2 where
  inside := by
    show c.current.index < (c.reserve span).2.graph.pointCount
    rw [pointCount_reserve]
    exact Nat.lt_succ_of_lt h
  known := by
    rw [pointCount_reserve]
    exact Nat.lt_succ_self _
  ne := by
    intro he
    have hlt : (c.reserve span).1.index < c.graph.pointCount := he ▸ h
    exact Nat.lt_irrefl _ hlt

theorem successors_join {o : PointId} (h : c.join q = (.ok (), c')) (hne : o ≠ c.current) :
    c'.graph.successors o = c.graph.successors o := by
  obtain ⟨-, ⟨hg, -⟩ | ⟨hg, -⟩⟩ := join_cases h
  · rw [hg]
  · rw [hg, FlowGraph.successors_insert, if_neg (Ne.symm hne)]

theorem frame_join (h : c.join q = (.ok (), c')) : Frame c.current c c' where
  root := (grows_join h).root
  points := (grows_join h).points
  edges _ _ hne := successors_join h hne
  spans o _ := by
    obtain ⟨-, ⟨hg, -⟩ | ⟨hg, -⟩⟩ := join_cases h <;> rw [hg]
    rfl

end Cursor

namespace Build

/-! ## Steps whose success is decided beforehand -/

/-- In every state whose cursor has the property `pre`, the step succeeds if `ok` holds and refuses
the tree otherwise. -/
structure Decides {α : Type} (pre : Cursor → Prop) (ok : Prop) (m : Build α)
    (post : α → Cursor → Prop) : Prop where
  accepts : ok → ∀ s, pre s.cursor → ∃ a s', m.run s = .ok (a, s') ∧ post a s'.cursor
  refuses : ¬ ok → ∀ s, pre s.cursor →
    ∃ span fault, fault.ofTree = true ∧ m.run s = .error (.input span fault)

variable {α β : Type} {pre pre' : Cursor → Prop} {ok ok' : Prop} {m : Build α}
  {mid post post' : α → Cursor → Prop}

namespace Decides

theorem bind {k : α → Build β} {post : β → Cursor → Prop} (hm : Decides pre ok m mid)
    (hk : ∀ a, Decides (mid a) ok' (k a) post) : Decides pre (ok ∧ ok') (m >>= k) post where
  accepts h s hs := by
    obtain ⟨a, s₁, hrun, hmid⟩ := hm.accepts h.1 s hs
    obtain ⟨b, s₂, hrun', hpost⟩ := (hk a).accepts h.2 s₁ hmid
    refine ⟨b, s₂, ?_, hpost⟩
    rw [StateT.run_bind, hrun]
    exact hrun'
  refuses hno s hs := by
    rw [StateT.run_bind]
    by_cases h : ok
    · obtain ⟨a, s₁, hrun, hmid⟩ := hm.accepts h s hs
      rw [hrun]
      exact (hk a).refuses (fun h' => hno ⟨h, h'⟩) s₁ hmid
    · obtain ⟨span, fault, htree, hrun⟩ := hm.refuses h s hs
      rw [hrun]
      exact ⟨span, fault, htree, rfl⟩

theorem congr (hm : Decides pre ok m post) (hok : ok ↔ ok') : Decides pre ok' m post :=
  ⟨fun h => hm.accepts (hok.mpr h), fun h => hm.refuses fun h' => h (hok.mp h')⟩

theorem imp (hm : Decides pre ok m post) (hpre : ∀ c, pre' c → pre c)
    (hpost : ∀ a c, post a c → post' a c) : Decides pre' ok m post' where
  accepts h s hs := by
    obtain ⟨a, s', hrun, hp⟩ := hm.accepts h s (hpre _ hs)
    exact ⟨a, s', hrun, hpost a _ hp⟩
  refuses h s hs := hm.refuses h s (hpre _ hs)

/-- What a step that succeeded has done. -/
theorem of_run (hm : Decides pre ok m post) {s s' : BuildState} {a : α} (hs : pre s.cursor)
    (hrun : m.run s = .ok (a, s')) : post a s'.cursor := by
  by_cases h : ok
  · obtain ⟨b, s₁, hrun', hpost⟩ := hm.accepts h s hs
    cases hrun.symm.trans hrun'
    exact hpost
  · obtain ⟨span, fault, -, herror⟩ := hm.refuses h s hs
    cases hrun.symm.trans herror

/-- The cursor at the beginning can be fixed. -/
theorem fix (h : ∀ c, pre c → Decides (· = c) ok m post) : Decides pre ok m post :=
  ⟨fun hok s hs => (h _ hs).accepts hok s rfl, fun hno s hs => (h _ hs).refuses hno s rfl⟩

theorem pure (a : α) (h : ∀ c, pre c → post a c) :
    Decides pre True (Pure.pure a : Build α) post :=
  ⟨fun _ s hs => ⟨a, s, rfl, h _ hs⟩, fun hno => absurd trivial hno⟩

theorem throw (span : Span) {fault : InputFault} (h : fault.ofTree = true) :
    Decides pre False (MonadExcept.throw (.input span fault) : Build α) post :=
  ⟨fun h => absurd h id, fun _ _ _ => ⟨span, fault, h, rfl⟩⟩

/-- A step that cannot fail. -/
theorem of_run_eq {f : BuildState → α × BuildState} (hrun : ∀ s, m.run s = .ok (f s))
    (h : ∀ s, pre s.cursor → post (f s).1 (f s).2.cursor) : Decides pre True m post :=
  ⟨fun _ s hs => ⟨(f s).1, (f s).2, hrun s, h s hs⟩, fun hno => absurd trivial hno⟩

theorem update {f : BuildState → BuildState} {post : PUnit → Cursor → Prop}
    (h : ∀ s, pre s.cursor → post ⟨⟩ (f s).cursor) :
    Decides pre True (modify f : Build PUnit) post := .of_run_eq (fun _ => rfl) h

theorem discard (hm : Decides pre ok m mid) {post : Unit → Cursor → Prop}
    (h : ∀ a c, mid a c → post () c) : Decides pre ok (Functor.discard m) post where
  accepts hok s hs := by
    obtain ⟨a, s', hrun, hmid⟩ := hm.accepts hok s hs
    refine ⟨(), s', ?_, h a _ hmid⟩
    show (m.run s >>= fun result => Except.ok ((), result.2)) = _
    rw [hrun]
    rfl
  refuses hno s hs := by
    obtain ⟨span, fault, htree, hrun⟩ := hm.refuses hno s hs
    refine ⟨span, fault, htree, ?_⟩
    show (m.run s >>= fun result => Except.ok ((), result.2)) = _
    rw [hrun]
    rfl

end Decides

/-- The point where the cursor stands can be remembered. -/
theorem decides_current_bind {k : PointId → Build α}
    (h : ∀ c, pre c → Decides (· = c) ok (k c.current) post) :
    Decides pre ok (current >>= k) post :=
  ⟨fun hok s hs => (h _ hs).accepts hok s rfl, fun hno s hs => (h _ hs).refuses hno s rfl⟩

theorem decides_moveTo {p : PointId} {post : Unit → Cursor → Prop}
    (h : ∀ c, pre c → post () (c.moveTo p)) : Decides pre True (moveTo p) post :=
  .update fun s hs => h s.cursor hs

theorem run_join {s : BuildState} {p : PointId} {answer : Except AnalysisError Unit} {c : Cursor}
    (h : s.cursor.join p = (answer, c)) :
    (join p).run s = answer.map fun _ => ((), { s with cursor := c }) := by
  show ((s.cursor.join p).1 >>= fun a =>
    Except.ok (a, { s with cursor := (s.cursor.join p).2 })) = _
  rw [h]
  cases answer <;> rfl

theorem decides_join {after : PointId} {post : Unit → Cursor → Prop}
    (hne : ∀ c, pre c → after ≠ c.current)
    (h : ∀ c c', pre c → c.join after = (.ok (), c') → post () c') :
    Decides pre True (join after) post where
  accepts _ s hs := by
    obtain ⟨c', hjoin⟩ := Cursor.exists_join (hne _ hs)
    exact ⟨(), { s with cursor := c' }, run_join hjoin, h _ c' hs hjoin⟩
  refuses hno := absurd trivial hno

/-! ## Parts of the walk -/

/-- The step is a part of a walk that began at `c₀`: it succeeds exactly if `ok` holds, and the walk
extends `c₀` as before. -/
def Walks (c₀ : Cursor) (ok : Prop) (m : Build α) (post : α → Prop) : Prop :=
  Decides c₀.Extends ok m fun a c => c₀.Extends c ∧ post a

/-- A part of a walk of which only the effect matters. -/
abbrev WalksBy (c₀ : Cursor) (ok : Prop) (m : Build α) : Prop := Walks c₀ ok m fun _ => True

variable {c₀ : Cursor} {post : α → Prop}

namespace Walks

theorem bind {k : α → Build β} {post' : β → Prop} (hm : Walks c₀ ok m post)
    (hk : ∀ a, post a → Walks c₀ ok' (k a) post') : Walks c₀ (ok ∧ ok') (m >>= k) post' :=
  Decides.bind hm fun a =>
    ⟨fun h s hs => (hk a hs.2).accepts h s hs.1, fun h s hs => (hk a hs.2).refuses h s hs.1⟩

theorem congr (hm : Walks c₀ ok m post) (hok : ok ↔ ok') : Walks c₀ ok' m post :=
  Decides.congr hm hok

theorem pure {a : α} (h : post a) : Walks c₀ True (Pure.pure a : Build α) post :=
  Decides.pure a fun _ hc => ⟨hc, h⟩

theorem throw (span : Span) {fault : InputFault} (h : fault.ofTree = true) :
    Walks c₀ False (MonadExcept.throw (.input span fault) : Build α) post :=
  Decides.throw span h

theorem discard (hm : Walks c₀ ok m post) : WalksBy c₀ ok (Functor.discard m) :=
  Decides.discard hm fun _ _ h => ⟨h.1, trivial⟩

/-- A step on the names in scope. -/
theorem scopes {f : BuildState → α × Scopes} (h : ∀ s, post (f s).1) :
    Walks c₀ True (modifyGet fun s => ((f s).1, { s with scopes := (f s).2 }) : Build α) post :=
  Decides.of_run_eq (fun _ => rfl) fun s hs => ⟨hs, h s⟩

/-- Reading the state and going on with a function of it. -/
theorem reads (f : BuildState → α) : WalksBy c₀ True (do return f (← get) : Build α) :=
  Decides.of_run_eq (fun _ => rfl) fun _ hs => ⟨hs, trivial⟩

theorem forM {xs : List β} {f : β → Build PUnit} (hf : ∀ x, WalksBy c₀ True (f x)) :
    WalksBy c₀ True (xs.forM f) := by
  induction xs with
  | nil => exact .pure trivial
  | cons x xs ih => exact ((hf x).bind fun _ _ => ih).congr (and_self_iff)

end Walks

theorem walks_append (op : Operation) (span : Span) : WalksBy c₀ True (append op span) :=
  Decides.update fun s hs => ⟨hs.trans (s.cursor.extends_append op (some span)), trivial⟩

theorem walks_detach : WalksBy c₀ True detach :=
  Decides.update fun s hs => ⟨hs.trans s.cursor.extends_detach, trivial⟩

theorem walks_declare (name : String) : WalksBy c₀ True (declare name) :=
  .scopes (f := fun s => s.scopes.declare name) fun _ => trivial

theorem walks_inFrame {step : Build Unit} (h : WalksBy c₀ ok step) :
    WalksBy c₀ ok (inFrame step) := by
  have hpush : WalksBy c₀ True (modify fun s => { s with scopes := s.scopes.push } : Build PUnit) :=
    Decides.update fun _ hs => ⟨hs, trivial⟩
  have hpop : WalksBy c₀ True (modify fun s => { s with scopes := s.scopes.pop } : Build PUnit) :=
    Decides.update fun _ hs => ⟨hs, trivial⟩
  exact (hpush.bind fun _ _ => h.bind fun _ _ => hpop).congr (by simp only [true_and, and_true])

theorem walks_copy (source target : Selector) (span : Span) :
    WalksBy c₀ True (copy source target span) := by
  unfold copy
  split
  · exact .pure trivial
  · exact walks_append _ span

theorem walks_store (target : Selector) (c : Composition) (span : Span) :
    WalksBy c₀ True (store target c span) := by
  unfold store
  split
  · exact walks_copy _ _ _
  · exact .forM fun _ => walks_copy _ _ _

/-- An arm to a point that can be joined from where the walk began. The walk is back where the arm
left it. -/
theorem walks_arm {after : PointId} {setup body : Build Unit} (hafter : c₀.Apart after)
    (hs : WalksBy c₀ ok setup) (hb : ∀ c, WalksBy c ok' body) :
    WalksBy c₀ (ok ∧ ok') (arm after setup body) := by
  refine Decides.bind hs fun _ => decides_current_bind fun c hc => ?_
  have hbody : Decides (· = c) ok' body fun _ => c.Extends :=
    (hb c).imp (fun _ h => h.symm ▸ .refl hc.1.inside) fun _ _ h => h.1
  have hjoin : Decides c.Extends True (join after) fun _ => c.Frame c.current :=
    decides_join (fun _ h => ((hafter.extends hc.1).extends h).ne) fun _ _ h hjoined =>
      h.frame_trans (Cursor.frame_join hjoined)
  have hback : Decides (c.Frame c.current) True (moveTo c.current)
      fun _ c' => c₀.Extends c' ∧ True :=
    decides_moveTo fun _ h => ⟨hc.1.trans (h.extends hc.1.inside), trivial⟩
  exact (hbody.bind fun _ => hjoin.bind fun _ => hback).congr (by simp only [and_true])

/-- The arms of a statement meet at a reserved point, where the walk goes on. -/
theorem walks_reserve_bind {k : PointId → Build Unit} (span : Span)
    (hk : ∀ (after : PointId) (c : Cursor), c.Apart after → Decides c.Extends ok (k after)
      fun _ c' => c.Frame c.current c' ∧ c'.current = after) :
    WalksBy c₀ ok (reserve span >>= k) := by
  refine Decides.fix fun c hc => ?_
  have hreserve : Decides (· = c) True (reserve span) fun after c' =>
      (after, c') = c.reserve (some span) :=
    .of_run_eq (fun _ => rfl) fun s hs => by
      show (s.cursor.reserve (some span)) = _
      rw [hs]
  have hmeet : ∀ after, Decides (fun c' => (after, c') = c.reserve (some span)) ok (k after)
      fun _ c' => c₀.Extends c' ∧ True := by
    refine fun after => Decides.fix fun c₁ h₁ => ?_
    obtain ⟨rfl, rfl⟩ := Prod.mk.inj h₁
    have hapart := Cursor.apart_reserve hc.inside (some span)
    refine (hk _ _ hapart).imp (fun _ h => h.symm ▸ .refl hapart.inside) fun _ c' h => ⟨?_, trivial⟩
    refine hc.trans ⟨(c.frame_reserve _ _).trans h.1 (Or.inl rfl), Or.inr ?_, ?_⟩
    · rw [h.2]
      exact Nat.le_refl _
    · show c'.current.index < _
      rw [h.2]
      exact Nat.lt_of_lt_of_le hapart.known h.1.points
  exact (hreserve.bind hmeet).congr (by simp only [true_and])

/-- The end of a loop: whether or not the body ended at its anchor, the walk goes on from where the
loop is left. -/
theorem walks_closeLoop_bind {c : Cursor} (hc : c₀.Extends c) (anchor : PointId) :
    Decides c.Extends True (closeLoop anchor >>= fun _ => moveTo c.current)
      fun _ c' => c₀.Extends c' ∧ True := by
  have hclose : Decides c.Extends True (closeLoop anchor) fun _ => c.Frame c.current := by
    refine decides_current_bind fun c' h' => ?_
    split
    · exact .pure () fun _ h => h ▸ h'.frame
    · rename_i hne
      exact decides_join (fun _ h => h ▸ Ne.symm hne) fun _ c'' h hjoin =>
        h'.frame_trans (h ▸ Cursor.frame_join hjoin)
  exact (hclose.bind fun _ => decides_moveTo fun _ h =>
    ⟨hc.trans (h.extends hc.inside), trivial⟩).congr (and_self_iff)

end Build

end SliceLineage
