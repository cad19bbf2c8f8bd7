import Bitemporal.Config.File
import Bitemporal.Proofs.FileTree
import Bitemporal.Proofs.Master.Settings
import Bitemporal.Proofs.Toml.Documents

/-!
# Configuration files round-trip

Settings are written as a document of four lines (`Config.lines`), which is read back as the same
settings whatever the scheme is (`Config.ofEntries?_text`).  What is read is checked before it is
used (`Config.usable_of_ofText`), and masters keep the settings that they are opened with, so none
ever works with settings that it cannot work with (`Config.files_round_trip`).
-/

namespace Bitemporal

namespace Config

variable {c : Config} {tree : FileTree} {path text : String}

/-! ## Settings that a master can work with -/

/-- Settings that a master can work with: its identities can be read back, and pages and lists of
replacements may hold something. -/
structure Usable (c : Config) : Prop where
  scheme_ne : c.scheme ≠ ""
  idSeparator_not_mem : idSeparator ∉ c.scheme.toList
  pageSize_pos : 0 < c.historyPageSize
  replacements_pos : 0 < c.maxReplacements

/-- Settings have no defect exactly if a master can work with them. -/
theorem defect?_eq_none_iff : c.defect? = none ↔ c.Usable := by
  unfold defect?
  constructor
  · intro sound
    split_ifs at sound with empty separated noPage noReplacement
    refine ⟨?_, ?_, Nat.pos_of_ne_zero noPage, Nat.pos_of_ne_zero noReplacement⟩
    · simpa using empty
    · simpa using separated
  · rintro ⟨scheme, free, page, replacement⟩
    simp [scheme, free, page.ne', replacement.ne']

theorem validate_eq_ok_iff : c.validate = .ok () ↔ c.Usable := by
  rw [← defect?_eq_none_iff, validate]
  cases c.defect? <;> simp

theorem usable_default : default.Usable := validate_eq_ok_iff.mp rfl

/-! ## Texts -/

/-- A switch is read back from its text. -/
theorem reads_switchText (b : Bool) : Toml.Reads (switchText b).toList (.boolean b) where
  exists_cons := by cases b <;> exact ⟨_, _, rfl, rfl⟩
  value?_append levels rest := by cases b <;> simp [switchText, Toml.value?]

/-- The lines of the text of a configuration. -/
def lines (c : Config) (page : c.historyPageSize ≤ maxWritten)
    (replacements : c.maxReplacements ≤ maxWritten) : List Toml.Setting :=
  [⟨"scheme", Toml.quote c.scheme,
    .string c.scheme, by simp, by simp [Toml.isBareKeyChar], .string c.scheme⟩,
      ⟨"history_page_size", Nat.toDigits 10 c.historyPageSize,
        .integer c.historyPageSize, by simp,
      by simp [Toml.isBareKeyChar], .integer page⟩,
    ⟨"max_replacements", Nat.toDigits 10 c.maxReplacements, .integer c.maxReplacements, by simp,
      by simp [Toml.isBareKeyChar], .integer replacements⟩,
    ⟨"verify_commits", (switchText c.verifyCommits).toList, .boolean c.verifyCommits, by simp,
      by simp [Toml.isBareKeyChar], reads_switchText c.verifyCommits⟩]

theorem toList_text (page : c.historyPageSize ≤ maxWritten)
    (replacements : c.maxReplacements ≤ maxWritten) (written : c.text? = some text) :
    text.toList = (c.lines page replacements).flatMap Toml.Setting.line := by
  rw [text?, if_pos ⟨page, replacements⟩] at written
  cases written
  simp [lines, Toml.Setting.line, Nat.repr]

/-- What is written is read back, whether a master can work with it or not. -/
theorem ofEntries?_text (written : c.text? = some text) :
    (Toml.parse? text).bind ofEntries? = some c := by
  have fits : c.historyPageSize ≤ maxWritten ∧ c.maxReplacements ≤ maxWritten := by
    by_contra large
    rw [text?, if_neg large] at written
    cases written
  have shape := toList_text fits.1 fits.2 written
  have distinct : ((c.lines fits.1 fits.2).map Toml.Setting.name).Nodup := by simp [lines]
  rw [Toml.Setting.parse?_settings shape distinct]
  rfl

/-- Settings that a master can work with are read back from their text. -/
theorem ofText_text (usable : c.Usable) (written : c.text? = some text) :
    ofText text = .ok c := by
  simp only [ofText, ofEntries?_text written, defect?_eq_none_iff.mpr usable]

/-- What is read is checked. -/
theorem usable_of_ofText (read : ofText text = .ok c) : c.Usable := by
  unfold ofText at read
  split at read
  · cases read
  · split at read
    · cases read
    · rename_i sound
      cases read
      exact defect?_eq_none_iff.mp sound

/-! ## Files -/

theorem load_of_text (found : tree.text? path = some text) (read : ofText text = .ok c) :
    load tree path = .ok c := by
  simp only [load, found, read]

/-- What is read of a file is checked. -/
theorem usable_of_load (read : load tree path = .ok c) : c.Usable := by
  unfold load at read
  split at read
  · cases read
  · split at read
    · rename_i loaded
      cases read
      exact usable_of_ofText loaded
    · cases read

/-- A file that can be read is left alone. -/
theorem run_ensureFile_of_load (read : load tree path = .ok c) :
    (ensureFile path).run tree = .ok () tree := by
  have there : tree.has path = true := by
    cases found : (tree.locate? path).bind tree.node? with
    | none => simp [load, FileTree.text?, FileTree.bytes?, found] at read
    | some node => rw [FileTree.has, found, Option.isSome_some]
  rw [EStateM.run, ensureFile, if_pos there]

/-- Settings that can be written are written, and read back from where they are written. -/
theorem run_save_of_written (usable : c.Usable) (written : c.text? = some text)
    (writable : tree.Writable path) :
    ∃ location tree', (c.save path).run tree = .ok () tree' ∧ load tree' path = .ok c ∧
      ∀ other, other ≠ location → tree'.node? other = tree.node? other := by
  obtain ⟨location, tree', done, found, frame⟩ := FileTree.exists_write? writable text
  refine ⟨location, tree', ?_, load_of_text found (ofText_text usable written), frame⟩
  simp only [EStateM.run, save, written, done]

/-- Settings without a text are not written, and nothing changes. -/
theorem run_save_of_unwritten (large : c.text? = none) :
    (c.save path).run tree = .error (.config .unwritten) tree := by
  simp only [EStateM.run, save, large]

/-- Settings have a text unless a size has more than 63 bits. -/
theorem isSome_text?_iff :
    c.text?.isSome = true ↔ c.historyPageSize ≤ maxWritten ∧ c.maxReplacements ≤ maxWritten := by
  unfold text?
  split <;> simp_all

/-- A path that cannot be written, or settings without a text, are the only
reasons not to write. -/
theorem exists_run_save_iff :
    (∃ tree', (c.save path).run tree = .ok () tree') ↔
      c.text?.isSome = true ∧ tree.Writable path := by
  simp only [EStateM.run, save]
  cases c.text? with
  | none => simp
  | some text =>
    dsimp only
    rw [← FileTree.isSome_write?_iff text.toUTF8]
    cases tree.write? path text.toUTF8 <;> simp

/-- Nothing changes if the settings are not written. -/
theorem eq_of_run_save_eq_error {fault : Fault} {tree' : FileTree}
    (fails : (c.save path).run tree = .error fault tree') : tree' = tree := by
  simp only [EStateM.run, save] at fails
  split at fails
  · cases fails
    rfl
  · split at fails
    · cases fails
    · cases fails
      rfl

end Config

namespace Master

variable {σ α : Type} {now : Instant}

/-- A master is opened only with settings that it can work with. -/
theorem usable_of_ofStore {store : σ} {config : Config} {m : Master σ}
    (made : ofStore store now config = .ok m) : config.Usable ∧ m.config = config := by
  obtain ⟨_, valid, rest⟩ := Program.exists_of_bind_eq_ok made
  cases rest
  exact ⟨Config.validate_eq_ok_iff.mp valid, rfl⟩

/-- A file that can be read opens a master with its settings and stays as it is. -/
theorem run_ofConfigFile_of_load {config : Config} {path : String} {tree : FileTree}
    (read : Config.load tree path = .ok config) :
    (ofConfigFile path now : Program FileTree (Master (Store α))).run tree =
      .ok (opened config now) tree := by
  have valid : config.validate = .ok () :=
    Config.validate_eq_ok_iff.mpr (Config.usable_of_load read)
  have reads : (Program.read (Config.load · path)).run tree = .ok config tree :=
    Program.run_read_of_ok read
  rw [ofConfigFile, Program.run_bind_of_ok (Config.run_ensureFile_of_load read),
    Program.run_bind_of_ok reads, ofStore_empty valid, Program.run_ofExcept_ok]

/-- The settings of a master that is opened from a file are those that the file holds then. -/
theorem load_of_ofConfigFile {path : String} {tree tree' : FileTree} {m : Master (Store α)}
    (run : (ofConfigFile path now).run tree = .ok m tree') :
    Config.load tree' path = .ok m.config ∧ m.config.Usable := by
  obtain ⟨-, tree₁, -, rest⟩ := Program.exists_of_run_bind_eq_ok run
  obtain ⟨config, tree₂, reads, opens⟩ := Program.exists_of_run_bind_eq_ok rest
  obtain ⟨loaded, rfl⟩ := Program.eq_of_run_read_eq_ok reads
  obtain ⟨made, rfl⟩ := Program.eq_of_run_ofExcept_eq_ok opens
  obtain ⟨usable, rfl⟩ := usable_of_ofStore made
  exact ⟨loaded, usable⟩

end Master

namespace Config

/-- Whatever characters a scheme holds, settings that a master can work with are the same after
they are written to a file and read from it, unless a size has more than 63 bits: then nothing is
written.  A path that cannot be written is the only other reason not to write, and a write that
fails changes nothing.

Only settings that a master can work with are ever read, and the default ones are such.  A file
that can be read opens a master with its settings and stays as it is.  Whatever a master is asked,
and whatever its store does, it works with the settings that it was opened with. -/
theorem files_round_trip {σ α : Type} [DocumentStore σ α] (c : Config) (tree : FileTree)
    (path : String) :
    (c.validate = .ok () ↔ c.Usable) ∧ default.Usable ∧
    (c.validate = .ok () → c.historyPageSize ≤ maxWritten → c.maxReplacements ≤ maxWritten →
      tree.Writable path →
      ∃ tree', (c.save path).run tree = .ok () tree' ∧ load tree' path = .ok c) ∧
    (maxWritten < c.historyPageSize ∨ maxWritten < c.maxReplacements →
      (c.save path).run tree = .error (.config .unwritten) tree) ∧
    ((∃ tree', (c.save path).run tree = .ok () tree') ↔
      (c.historyPageSize ≤ maxWritten ∧ c.maxReplacements ≤ maxWritten) ∧ tree.Writable path) ∧
    (∀ fault tree', (c.save path).run tree = .error fault tree' → tree' = tree) ∧
    (∀ text, ofText text = .ok c → c.validate = .ok ()) ∧
    (load tree path = .ok c → c.validate = .ok ()) ∧
    (load tree path = .ok c → ∀ now,
      (Master.ofConfigFile path now).run tree =
        .ok (Master.opened c now : Master (Store α)) tree) ∧
    (∀ now (m : Master (Store α)) tree', (Master.ofConfigFile path now).run tree = .ok m tree' →
      load tree' path = .ok m.config ∧ ∀ script, (m.served script).config.Usable) ∧
    (∀ (store : σ) now m, Master.ofStore store now c = .ok m →
      ∀ script, (m.served script).config = c ∧ c.Usable) := by
  refine ⟨validate_eq_ok_iff, usable_default, fun valid page replacements writable => ?_,
    fun large => ?_, ?_, fun fault tree' => eq_of_run_save_eq_error, fun text read => ?_,
    fun read => ?_, fun read now => Master.run_ofConfigFile_of_load read,
    fun now m tree' run => ?_, fun store now m made script => ?_⟩
  · obtain ⟨text, written⟩ : ∃ text, c.text? = some text := ⟨_, if_pos ⟨page, replacements⟩⟩
    obtain ⟨-, tree', done, loaded, -⟩ :=
      run_save_of_written (validate_eq_ok_iff.mp valid) written writable
    exact ⟨tree', done, loaded⟩
  · refine run_save_of_unwritten (if_neg fun fits => ?_)
    rcases large with large | large
    · exact absurd fits.1 (Nat.not_le.mpr large)
    · exact absurd fits.2 (Nat.not_le.mpr large)
  · rw [exists_run_save_iff, isSome_text?_iff]
  · exact validate_eq_ok_iff.mpr (usable_of_ofText read)
  · exact validate_eq_ok_iff.mpr (usable_of_load read)
  · obtain ⟨loaded, usable⟩ := Master.load_of_ofConfigFile run
    refine ⟨loaded, fun script => ?_⟩
    rwa [Master.config_served]
  · obtain ⟨usable, same⟩ := Master.usable_of_ofStore made
    exact ⟨(Master.config_served m script).trans same, usable⟩

/-- A scheme with quotes and a line break, written to a new file and read back by the
master that it opens. -/
theorem files_round_trip_quotes :
    let c : Config := { default with scheme := "flat \"2\" of 'B'\n" }
    ∃ tree', (c.save "masterdb.toml").run .empty = .ok () tree' ∧
      load tree' "masterdb.toml" = .ok c ∧
      (Master.ofConfigFile "masterdb.toml" .epoch).run tree' =
        .ok (Master.opened c .epoch : Master (Store String)) tree' := by
  intro c
  have writable : FileTree.empty.Writable "masterdb.toml" :=
    ⟨["masterdb.toml"], by decide +kernel, rfl⟩
  obtain ⟨-, -, written, -⟩ :=
    files_round_trip (σ := Store String) (α := String) c .empty "masterdb.toml"
  obtain ⟨tree', done, loaded⟩ :=
    written (by decide +kernel) (by decide +kernel) (by decide +kernel) writable
  obtain ⟨-, -, -, -, -, -, -, -, opens, -⟩ :=
    files_round_trip (σ := Store String) (α := String) c tree' "masterdb.toml"
  exact ⟨tree', done, loaded, opens loaded .epoch⟩

end Config

end Bitemporal
