import Bitemporal.Fault

/-!
Configurations of a master.
-/

namespace Bitemporal

/-- The settings of a master. -/
@[ext]
structure Config where
  /-- The scheme of the identities that the master draws. -/
  scheme : String
  /-- The size of a history page for requests that name none. -/
  historyPageSize : Nat
  /-- The longest list of replacements that one edit takes. -/
  maxReplacements : Nat
  /-- Whether the current slice is read again and checked after every commit. -/
  verifyCommits : Bool
deriving DecidableEq

namespace Config

/-- The settings of a master that is given none. -/
def default : Config := ⟨"DbDoc", 20, 10000, true⟩

instance : Inhabited Config := ⟨default⟩

/-- The default settings with another scheme. -/
def withScheme (scheme : String) : Config := { default with scheme := scheme }

/-- The first setting that no master can work with. -/
def defect? (c : Config) : Option ConfigDefect :=
  if c.scheme.toList.isEmpty then some .emptyScheme
  else if c.scheme.toList.contains idSeparator then some (.separatorInScheme c.scheme)
  else if c.historyPageSize = 0 then some .zeroPageSize
  else if c.maxReplacements = 0 then some .zeroReplacements
  else none

/-- Refuses settings that no master can work with. -/
def validate (c : Config) : Except Fault Unit :=
  match c.defect? with
  | some defect => .error (.config defect)
  | none => .ok ()

end Config

end Bitemporal
