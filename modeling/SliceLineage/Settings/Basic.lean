import SliceLineage.Settings.Error
import SliceLineage.Summary.Basic

/-!
# Settings of an analysis

The settings of each stage with their defaults and the ranges that make sense, presets that choose
among them, and the call summaries that a user adds.
-/

namespace SliceLineage

/-- A number is refused with a hint unless it lies between two bounds
(`ConfigError.range_with_hint`). -/
def requireRange (field : String) (value least most : Nat) (hint : String) :
    Except SettingsError Unit :=
  if least ≤ value ∧ value ≤ most then .ok () else .error (.range field value least most hint)

/-- How traces are enumerated (`TraceConfig`). -/
structure TraceSettings where
  /-- How often a trace may enter the same point. -/
  repeatLimit : UInt32 := 2
  /-- How many traces are visited at most. -/
  maxTraces : Option UInt64 := none
  deriving DecidableEq, Inhabited

def TraceSettings.check (s : TraceSettings) : Except SettingsError Unit := do
  requireRange "repeat_limit" s.repeatLimit.toNat 1 16
    "Each loop body must be visited at least once; large limits explode trace counts"
  if s.maxTraces = some 0 then
    throw (.invalid "max_traces must be positive when set (omit it for no budget)")

/-- How far field paths are followed (`FactorizationConfig`). -/
structure PathSettings where
  maxPathDepth : UInt64 := 16
  deriving DecidableEq, Inhabited

def PathSettings.check (s : PathSettings) : Except SettingsError Unit :=
  requireRange "max_path_depth" s.maxPathDepth.toNat 1 256
    "Bounds propagation through recursive field assignments"

/-- How a batch of functions is spread over workers (`ParallelConfig`). The result of a batch does
not depend on it. -/
structure ParallelSettings where
  enabled : Bool := true
  /-- Number of workers; zero leaves the choice to the program. -/
  workers : UInt64 := 0
  deriving DecidableEq, Inhabited

namespace ParallelSettings

def check (s : ParallelSettings) : Except SettingsError Unit :=
  requireRange "workers" s.workers.toNat 0 256 "Number of workers must be reasonable (0=auto)"

/-- The number of workers, if it is fixed (`ParallelConfig.effective_workers`). -/
def workerCount? (s : ParallelSettings) : Option UInt64 :=
  if s.workers = 0 then none else some s.workers

end ParallelSettings

/-- Settings for common uses. -/
inductive Preset where
  | fast
  | balanced
  | thorough
  deriving DecidableEq, Inhabited

namespace Preset

def name : Preset → String
  | fast => "fast"
  | balanced => "balanced"
  | thorough => "thorough"

def all : List Preset := [fast, balanced, thorough]

/-- The preset with exactly this name. -/
def ofName? (name : String) : Option Preset := all.find? (·.name == name)

/-- The preset with this name in any mixture of upper and lower case (`Preset.from_str`). No letter
outside ASCII has a lower case form that occurs in a preset's name. -/
def parse (name : String) : Except SettingsError Preset :=
  match ofName? (name.map Char.toLower) with
  | some preset => .ok preset
  | none => .error (.unknownPreset name)

def trace : Preset → TraceSettings
  | fast => { maxTraces := some 10000 }
  | balanced => {}
  | thorough => { repeatLimit := 3 }

end Preset

/-- All settings of an analysis (`AnalysisConfig`). -/
structure Settings where
  preset : Preset
  trace : TraceSettings
  paths : PathSettings
  parallel : ParallelSettings
  summaries : List Summary
  deriving DecidableEq

namespace Settings

/-- The settings of a preset (`AnalysisConfig.preset`). -/
def ofPreset (preset : Preset) : Settings := ⟨preset, preset.trace, {}, {}, []⟩

instance : Inhabited Settings := ⟨ofPreset .balanced⟩

/-- Refuses settings outside their ranges (`AnalysisConfig.validate`). -/
def check (s : Settings) : Except SettingsError Unit := do
  s.trace.check
  s.paths.check
  s.parallel.check

end Settings

end SliceLineage
