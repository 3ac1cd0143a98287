import Mathlib
import SliceLineage.Settings.File
import SliceLineage.Proofs.Settings.Documents

/-!
# Exported settings can be loaded again

The document of some settings names their preset and gives every stage, so that nothing is left for
the preset to fill in. Loading it gives the settings back, if they pass their check; settings that
do not pass are refused for the same reason as before.

* `Preset.parse_name`: a preset is known by its name.
* `SettingsDocument.settings_document`: the settings of the document of some settings.
* `SettingsFormat.Survives`: a document survives being written and read;
  `SettingsFormat.yaml_survives`: for YAML that is up to its node.
* `Settings.exported_settings_reload`: what loading an export comes to, for every format.
-/

namespace SliceLineage

theorem Preset.parse_name (p : Preset) : parse p.name = .ok p := by
  cases p <;> cbv

namespace SettingsDocument

/-- **The document of some settings stands for just these settings.** What the preset would choose
plays no part. -/
theorem settings_document (s : Settings) : s.document.settings = s.check.map fun _ => s := by
  have hversion : ¬ currentVersion ≠ currentVersion := not_not.mpr rfl
  simp only [settings, Settings.document, if_neg hversion, Preset.parse_name, Option.getD_some]
  show (s.check >>= fun _ => .ok s) = _
  cases s.check <;> rfl

end SettingsDocument

/-- The document survives being written and read. -/
def SettingsFormat.Survives (format : SettingsFormat) (d : SettingsDocument) : Prop :=
  (format.write? d).bind format.read? = some d

instance (format : SettingsFormat) (d : SettingsDocument) : Decidable (format.Survives d) :=
  inferInstanceAs (Decidable (_ = _))

/-- For the format of settings files it is enough that the node of the document survives. -/
theorem SettingsFormat.yaml_survives {d : SettingsDocument}
    (h : Yaml.Node.parse d.toNode.render = some d.toNode) : yaml.Survives d := by
  show (Yaml.Node.parse d.toNode.render).bind SettingsDocument.ofNode? = some d
  rw [h]
  exact SettingsDocument.ofNode?_toNode d

namespace Settings

/-- **An export loads exactly if the settings are valid.** Whatever the format, if the document of
the settings survives being written and read: loading the export of valid settings gives these
settings, and loading the export of others fails with the error of their check. -/
theorem exported_settings_reload {format : SettingsFormat} {s : Settings}
    (hformat : format.Survives s.document) :
    (s.check = .ok () → s.toYaml format >>= ofYaml format = .ok s) ∧
    ∀ e, s.check = .error e → s.toYaml format >>= ofYaml format = .error e := by
  have hload : s.toYaml format >>= ofYaml format = s.check.map fun _ => s := by
    obtain ⟨text, hwrite, hread⟩ := Option.bind_eq_some_iff.mp hformat
    have htext : s.toYaml format = .ok text := by
      rw [toYaml, hwrite]
      rfl
    rw [htext]
    show (SettingsFormat.required (format.read? text) >>= SettingsDocument.settings) = _
    rw [hread]
    exact SettingsDocument.settings_document s
  refine ⟨fun hok => ?_, fun e herror => ?_⟩
  · rw [hload, hok]
    rfl
  · rw [hload, herror]
    rfl

/-- Settings that differ from their preset in every stage, with a summary of an odd name. -/
def tuned : Settings where
  preset := .fast
  trace := { repeatLimit := 16, maxTraces := none }
  paths := { maxPathDepth := 3 }
  parallel := { enabled := false, workers := 7 }
  summaries := [⟨"a: 'b'\n", [⟨[["f", "1"], []]⟩], [⟨[⟨[⟨["x y"], some ⟨0, 1⟩, .next⟩]⟩]⟩]⟩]

/-- Settings with paths that are too long; the number of workers is too large as well, but paths are
checked before. -/
def overreaching : Settings where
  preset := .thorough
  trace := Preset.thorough.trace
  paths := { maxPathDepth := 257 }
  parallel := { enabled := true, workers := 1000 }
  summaries := []

theorem tuned_overreaching_reload :
    SettingsFormat.yaml.Survives tuned.document ∧
      SettingsFormat.yaml.Survives overreaching.document ∧
      tuned.toYaml .yaml >>= ofYaml .yaml = .ok tuned ∧
      overreaching.toYaml .yaml >>= ofYaml .yaml = .error (.range "max_path_depth" 257 1 256
        "Bounds propagation through recursive field assignments") := by
  have htuned : SettingsFormat.yaml.Survives tuned.document := by decide +kernel
  have hover : SettingsFormat.yaml.Survives overreaching.document := by decide +kernel
  exact ⟨htuned, hover, (exported_settings_reload htuned).1 (by decide),
    (exported_settings_reload hover).2 _ (by decide)⟩

end Settings

end SliceLineage
