import Bitemporal.Config.Text
import Bitemporal.FileTree
import Bitemporal.Master.Basic
import Bitemporal.Store

/-!
Configuration files, and masters that take their settings from one.

Where no file exists, the default text is written first, so that there is something to edit;
whatever exists already is left alone.
-/

namespace Bitemporal

namespace Config

/-- The usual name of a configuration file. -/
def fileName : String := "masterdb.toml"

/-- The settings in the file at a path. -/
def load (tree : FileTree) (path : String) : Except Fault Config :=
  match tree.text? path with
  | none => .error (.config (.unreadableFile path))
  | some text =>
    match ofText text with
    | .ok c => .ok c
    | .error defect => .error (.config (.inFile defect path))

/-- Writes the default text at a path, unless something is there. -/
def ensureFile (path : String) : Program FileTree Unit := fun tree =>
  if tree.has path then .ok () tree
  else
    match tree.write? path defaultText.toUTF8 with
    | some tree => .ok () tree
    | none => .error (.config (.unwritableDefault path)) tree

/-- Writes the settings at a path, over a file that is there. -/
def save (c : Config) (path : String) : Program FileTree Unit := fun tree =>
  match c.text? with
  | none => .error (.config .unwritten) tree
  | some text =>
    match tree.write? path text.toUTF8 with
    | some tree => .ok () tree
    | none => .error (.config (.unwritableFile path)) tree

end Config

/-- The master over an empty store with the settings in the file at a path, which is written if it
is missing. -/
def Master.ofConfigFile {α : Type} (path : String) (now : Instant) :
    Program FileTree (Master (Store α)) := do
  Config.ensureFile path
  let config ← Program.read (Config.load · path)
  Program.ofExcept (Master.ofStore .empty now config)

end Bitemporal
