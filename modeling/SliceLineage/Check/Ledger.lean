import SliceLineage.Error

/-!
# Lineages and generations

Replaying a trace of cell operations follows where each cell's content came from. A `Lineage` is an
`Origin` and a generation: appending to a slice makes its next generation. Appending twice to the
same generation makes two slices that may share their storage, so a step to the next generation that
does not lead above every generation of its origin so far is a `Conflict`.

* `Ledger.step`: replays one transition.
* `Trace.conflicts`: the conflicts along a trace.
-/

namespace SliceLineage

/-- Where a content came from: a cell that was read before anything was written to it, or a source
that is not followed, numbered by its use. -/
inductive Origin where
  | value (cell : ValueId)
  | fresh (number : Nat)
  deriving DecidableEq

namespace Origin

def text : Origin → String
  | value cell => cell.text
  | fresh number => "fresh#" ++ number.repr

/-- Position in the order of origins. -/
def rank : Origin → Nat
  | value cell => 2 * cell.rank
  | fresh number => 2 * number + 1

theorem rank_inj {a b : Origin} (h : a.rank = b.rank) : a = b := by
  cases a <;> cases b <;> simp only [rank] at h
  · exact congrArg value (ValueId.rank_inj (by omega))
  · omega
  · omega
  · exact congrArg fresh (by omega)

instance : Ord Origin := ⟨fun a b => compare a.rank b.rank⟩

instance : Std.TransOrd Origin := inferInstanceAs (Std.TransCmp (compareOn rank))

instance : Std.LawfulEqOrd Origin where
  eq_of_compare h := rank_inj (Std.LawfulEqOrd.eq_of_compare (α := Nat) h)

end Origin

/-- An origin and the number of growths since. -/
structure Lineage where
  origin : Origin
  generation : Int
  deriving DecidableEq

/-- A growth that does not lead above an earlier one (`TraceConflict`). -/
structure Conflict where
  /-- Where the transition leads. -/
  point : PointId
  origin : Origin
  /-- The cell that was grown. -/
  source : ValueId
  deriving DecidableEq

/-- What a replay knows: the lineage of each cell, and the highest generation of each origin
(`GenerationValidator`). -/
structure Ledger where
  lineages : Std.TreeMap ValueId Lineage
  highest : Std.TreeMap Origin Int
  nextFresh : Nat

namespace Ledger

def empty : Ledger := ⟨∅, ∅, 0⟩

instance : Inhabited Ledger := ⟨empty⟩

def lineage? (l : Ledger) (cell : ValueId) : Option Lineage := l.lineages[cell]?

def highest? (l : Ledger) (origin : Origin) : Option Int := l.highest[origin]?

/-- The lineage of a cell; a cell that was never written is its own origin. -/
def lineage (l : Ledger) (cell : ValueId) : Lineage :=
  (l.lineage? cell).getD ⟨.value cell, 0⟩

/-- Reads a cell, or something unknown, and moves its generation. The ledger remembers what was
read. -/
def read (l : Ledger) (source : ValueId) (step : GenStep) : Lineage × Ledger :=
  if source.isBlank then (⟨.fresh l.nextFresh, 0⟩, { l with nextFresh := l.nextFresh + 1 })
  else
    let found := l.lineage source
    (⟨found.origin, found.generation + step.delta⟩,
      { l with lineages := l.lineages.insertIfNew source found })

/-- The lineage does not lead above its origin's highest generation. -/
def isStale (l : Ledger) (found : Lineage) : Bool :=
  (l.highest? found.origin).any (found.generation ≤ ·)

/-- Writes a lineage to a cell. -/
def write (l : Ledger) (target : ValueId) (found : Lineage) : Ledger :=
  { l with
    lineages := l.lineages.insert target found
    highest := if l.isStale found then l.highest
      else l.highest.insert found.origin found.generation }

/-- A move between cells on a transition to `point` (`GenerationValidator.assign`). Writing to blank
has no effect. -/
def move (l : Ledger) (source target : ValueId) (step : GenStep) (point : PointId) :
    Option Conflict × Ledger :=
  if target.isBlank then (none, l)
  else
    let (found, l) := l.read source step
    let conflict := if step == .next && l.isStale found
      then some ⟨point, found.origin, source⟩ else none
    (conflict, l.write target found)

/-- Replays one transition; field operations have no place in a primitive trace. There is a ledger
afterwards whatever the answer is (`GenerationValidator.step`). -/
def step (l : Ledger) (t : Transition) : Except AnalysisError (Option Conflict) × Ledger :=
  match t.op with
  | .move source target step =>
      let (conflict, l) := l.move source target step t.target
      (.ok conflict, l)
  | .noop | .ret _ => (.ok none, l)
  | .assign .. | .call .. => (.error (.internal (.regionOperation t.op)), l)

/-- The conflicts along a trace, after what the ledger knows already. -/
def conflicts (l : Ledger) : List Transition → Except AnalysisError (List Conflict)
  | [] => return []
  | t :: rest => do
      let (answer, l) := l.step t
      let conflict ← answer
      let later ← l.conflicts rest
      return conflict.toList ++ later

theorem conflicts_cons {l l' : Ledger} {t : Transition} {rest : List Transition}
    {found : Option Conflict} {later : List Conflict} (hstep : l.step t = (.ok found, l'))
    (hlater : l'.conflicts rest = .ok later) :
    l.conflicts (t :: rest) = .ok (found.toList ++ later) := by
  rw [conflicts, hstep]
  simp [hlater, bind, Except.bind, pure, Except.pure]

theorem exists_of_conflicts_cons {l : Ledger} {t : Transition} {rest : List Transition}
    {all : List Conflict} (h : l.conflicts (t :: rest) = .ok all) :
    ∃ found l' later, l.step t = (.ok found, l') ∧ l'.conflicts rest = .ok later ∧
      all = found.toList ++ later := by
  rcases hstep : l.step t with ⟨answer, l'⟩
  rw [conflicts, hstep] at h
  cases answer with
  | error e => cases h
  | ok found =>
      cases hlater : l'.conflicts rest with
      | error e => simp [bind, Except.bind, hlater] at h
      | ok later =>
          simp only [bind, Except.bind, hlater, pure, Except.pure] at h
          exact ⟨found, l', later, rfl, hlater, (Except.ok.inj h).symm⟩

end Ledger

/-- The conflicts along a trace of cell operations, in order (`validate_trace`). -/
def traceConflicts (trace : List Transition) : Except AnalysisError (List Conflict) :=
  Ledger.empty.conflicts trace

end SliceLineage
