import Bitemporal.FileTree

/-!
# Files that are written are read back

Where a path leads depends on the directories alone (`follow?_congr`), so it leads to the same
place after a file is written.  A text that is written at a path is the text that is read there,
and nothing else changes.
-/

namespace Bitemporal.FileTree

variable {t t' : FileTree} {location other : List String} {node : FileNode} {content : ByteArray}
    {path : String}

/-- A file can be written at a path that leads to a file or to nothing yet. -/
def Writable (t : FileTree) (path : String) : Prop :=
  ∃ location, t.locate? path = some location ∧ t.isDirectory location = false

/-- A file is written exactly if its path can be written. -/
theorem isSome_write?_iff (content : ByteArray) :
    (t.write? path content).isSome = true ↔ t.Writable path := by
  unfold write? Writable
  cases t.locate? path with
  | none => simp
  | some location => cases directory : t.isDirectory location <;> simp [directory]

/-- A new file can be written in the root. -/
example : FileTree.empty.Writable "masterdb.toml" := ⟨["masterdb.toml"], by decide +kernel, rfl⟩

/-! ## One place -/

theorem ne_nil_of_isDirectory (free : t.isDirectory location = false) : location ≠ [] := by
  rintro rfl
  cases free

theorem node?_put_self (solid : location ≠ []) :
    (t.put location node).node? location = some node := by
  simp [node?, put, solid]

/-- What is put in one place leaves all others alone. -/
theorem node?_put_of_ne (apart : other ≠ location) :
    (t.put location node).node? other = t.node? other := by
  simp [node?, put, apart]

/-- Writing a file makes no directory and removes none. -/
theorem isDirectory_put_file (free : t.isDirectory location = false) (other : List String) :
    (t.put location (.file content)).isDirectory other = t.isDirectory other := by
  by_cases same : other = location
  · rw [same, free, isDirectory, node?_put_self (ne_nil_of_isDirectory free)]
  · rw [isDirectory, node?_put_of_ne same, isDirectory]

/-! ## Paths -/

/-- Where a path leads depends on the directories alone. -/
theorem follow?_congr (same : ∀ location, t'.isDirectory location = t.isDirectory location)
    (location parts : List String) : t'.follow? location parts = t.follow? location parts := by
  induction parts generalizing location with
  | nil => rfl
  | cons part rest ih => simp only [follow?, same, ih]

theorem locate?_congr (same : ∀ location, t'.isDirectory location = t.isDirectory location)
    (path : String) : t'.locate? path = t.locate? path := by
  have follow : t'.follow? [] = t.follow? [] := funext (follow?_congr same [])
  rw [locate?, follow, locate?]

/-! ## Texts -/

theorem fromUTF8?_toUTF8 (s : String) : String.fromUTF8? s.toUTF8 = some s := by
  rw [String.fromUTF8?, String.toUTF8_eq_toByteArray, dif_pos s.isValidUTF8]
  rfl

/-- What is written at a path that can be written is read there, and
everything else is as before. -/
theorem exists_write? (writable : t.Writable path) (s : String) :
    ∃ location t', t.write? path s.toUTF8 = some t' ∧ t'.text? path = some s ∧
      ∀ other, other ≠ location → t'.node? other = t.node? other := by
  obtain ⟨location, found, free⟩ := writable
  have found' : (t.put location (.file s.toUTF8)).locate? path = some location := by
    rw [locate?_congr (isDirectory_put_file free), found]
  refine ⟨location, t.put location (.file s.toUTF8), ?_, ?_,
    fun other apart => node?_put_of_ne apart⟩
  · rw [write?, found]
    exact if_neg (by simp [free])
  · rw [text?, bytes?, found', Option.bind_some, node?_put_self (ne_nil_of_isDirectory free)]
    exact fromUTF8?_toUTF8 s

end Bitemporal.FileTree
