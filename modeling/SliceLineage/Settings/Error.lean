/-!
# What can be wrong with the settings

One constructor for each cause; `SettingsError.message` has the wording.
-/

namespace SliceLineage

/-- Why the text of a file cannot be had. -/
inductive ReadFault where
  | notFound
  | notUtf8
  deriving DecidableEq

def ReadFault.message : ReadFault → String
  | notFound => "No such file or directory (os error 2)"
  | notUtf8 => "stream did not contain valid UTF-8"

/-- Why a configuration is refused (`ConfigError`). -/
inductive SettingsError where
  /-- A number outside the range that makes sense, with advice. -/
  | range (field : String) (value least most : Nat) (hint : String)
  | missingVersion
  | unsupportedVersion (found : UInt32)
  | unknownPreset (name : String)
  /-- The file could not be read. -/
  | unreadable (fault : ReadFault)
  /-- The text is not a configuration document. -/
  | malformed
  | invalid (reason : String)
  deriving DecidableEq

def SettingsError.message : SettingsError → String
  | range field value least most hint =>
      "Invalid range for field '" ++ field ++ "': " ++ value.repr ++ " not in " ++ least.repr
        ++ "..=" ++ most.repr ++ ". " ++ hint
  | missingVersion =>
      "Missing 'version' field in configuration file. "
        ++ "Add 'version: 1' to the top of your YAML file."
  | unsupportedVersion found =>
      "Unsupported configuration version " ++ found.toNat.repr ++ ". Supported versions: 1"
  | unknownPreset name =>
      "Unknown preset '" ++ name ++ "'. Valid presets: fast, balanced, thorough"
  | unreadable fault => "IO error: " ++ fault.message
  | malformed => "YAML error"
  | invalid reason => "Validation error: " ++ reason

end SliceLineage
