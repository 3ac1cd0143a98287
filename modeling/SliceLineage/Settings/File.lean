import SliceLineage.Settings.Document
import SliceLineage.Yaml.Document

/-!
# Settings files

Settings are kept in YAML. A file names the version of its format and a preset; the stages that it
gives replace those of the preset as a whole. How a document becomes a text and a text a document is
not decided here: a `SettingsFormat` does both.

* `Settings.toYaml`: the file for some settings.
* `Settings.ofYaml`: the settings of a file, which are refused unless they pass their check.
* `SettingsFormat.yaml`: the part of YAML that settings files are written in.
-/

namespace SliceLineage

/-- How documents are written and texts are read. Either may fail, and no reason is kept
(`serde_yaml`). -/
structure SettingsFormat where
  /-- `serde_yaml.from_str`. -/
  read? : String → Option SettingsDocument
  /-- `serde_yaml.to_string`. -/
  write? : SettingsDocument → Option String

/-- What the format can do nothing with is malformed. -/
def SettingsFormat.required {α : Type} : Option α → Except SettingsError α
  | some a => .ok a
  | none => .error .malformed

namespace SettingsDocument

/-- The version of the format (`SUPPORTED_VERSIONS`). -/
def currentVersion : UInt32 := 1

/-- The settings of a document (`AnalysisConfig.from_file_schema`). -/
def settings (d : SettingsDocument) : Except SettingsError Settings := do
  match d.version with
  | none => throw .missingVersion
  | some version => if version ≠ currentVersion then throw (.unsupportedVersion version)
  let preset ← Preset.parse d.preset
  let base := Settings.ofPreset preset
  let settings : Settings := {
    preset
    trace := d.trace.getD base.trace
    paths := d.paths.getD base.paths
    parallel := d.parallel.getD base.parallel
    summaries := d.summaries }
  settings.check
  return settings

end SettingsDocument

/-- The part of YAML that settings files are written in: one document without directives, tags and
anchors. -/
def SettingsFormat.yaml : SettingsFormat where
  read? text := (Yaml.Node.parse text).bind SettingsDocument.ofNode?
  write? d := some d.toNode.render

namespace Settings

/-- The document that gives every stage. -/
def document (s : Settings) : SettingsDocument where
  version := some SettingsDocument.currentVersion
  preset := s.preset.name
  trace := some s.trace
  paths := some s.paths
  parallel := some s.parallel
  summaries := s.summaries

/-- The text of the settings (`AnalysisConfig.to_yaml`). -/
def toYaml (format : SettingsFormat) (s : Settings) : Except SettingsError String :=
  SettingsFormat.required (format.write? s.document)

/-- The settings of a text (`AnalysisConfig.from_yaml_str`). -/
def ofYaml (format : SettingsFormat) (text : String) : Except SettingsError Settings := do
  let d ← SettingsFormat.required (format.read? text)
  d.settings

/-- The settings of a file with these contents, if it exists (`AnalysisConfig.from_yaml_file`). -/
def ofFile (format : SettingsFormat) : Option ByteArray → Except SettingsError Settings
  | none => .error (.unreadable .notFound)
  | some bytes =>
      match String.fromUTF8? bytes with
      | none => .error (.unreadable .notUtf8)
      | some text => ofYaml format text

end Settings

end SliceLineage
