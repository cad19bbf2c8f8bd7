import Bitemporal.Config
import Bitemporal.Toml.Parse
import Bitemporal.Toml.Text

/-!
The text of configurations: TOML documents with one key per setting.

A document may leave out settings, which then have their default value, and may hold keys besides.
What is read from a text is always a configuration that a master can work with; what is written
need not be.
-/

namespace Bitemporal.Config

/-! ## Reading -/

/-- The string of a setting that may be missing. -/
def stringSetting? (default : String) : Option Toml → Option String
  | none => some default
  | some (.string s) => some s
  | some _ => none

/-- The size of a setting that may be missing. -/
def sizeSetting? (default : Nat) : Option Toml → Option Nat
  | none => some default
  | some (.integer (.ofNat n)) => some n
  | some _ => none

/-- The truth value of a setting that may be missing. -/
def switchSetting? (default : Bool) : Option Toml → Option Bool
  | none => some default
  | some (.boolean b) => some b
  | some _ => none

/-- The settings that a table holds, whether a master can work with them or not. -/
def ofEntries? (entries : Toml.Entries) : Option Config := do
  return {
    scheme := ← stringSetting? default.scheme (entries.get? "scheme")
    historyPageSize := ← sizeSetting? default.historyPageSize (entries.get? "history_page_size")
    maxReplacements := ← sizeSetting? default.maxReplacements (entries.get? "max_replacements")
    verifyCommits := ← switchSetting? default.verifyCommits (entries.get? "verify_commits") }

/-- The settings that a text holds, refused if no master can work with them. -/
def ofText (text : String) : Except ConfigDefect Config :=
  match (Toml.parse? text).bind ofEntries? with
  | none => .error .malformed
  | some c =>
    match c.defect? with
    | some defect => .error defect
    | none => .ok c

/-! ## Writing -/

/-- The largest size that a document holds: TOML integers are signed. -/
def maxWritten : Nat := 9223372036854775807

/-- The word for a truth value. -/
def switchText : Bool → String
  | true => "true"
  | false => "false"

/-- The text of a configuration, if its sizes can be written. -/
def text? (c : Config) : Option String :=
  if c.historyPageSize ≤ maxWritten ∧ c.maxReplacements ≤ maxWritten then
    some ("scheme = " ++ String.ofList (Toml.quote c.scheme) ++
      "\nhistory_page_size = " ++ Nat.repr c.historyPageSize ++
      "\nmax_replacements = " ++ Nat.repr c.maxReplacements ++
      "\nverify_commits = " ++ switchText c.verifyCommits ++ "\n")
  else none

/-- The text of the default configuration, with a comment for each setting. -/
def defaultText : String :=
  "# MasterDB configuration\n" ++
  "#\n" ++
  "# Scheme for object ids generated on add, rendered as \"<scheme>~<value>\".\n" ++
  "# Must not contain '~'.\n" ++
  "scheme = \"DbDoc\"\n" ++
  "\n" ++
  "# Page size used when a history request does not set one (default: 20)\n" ++
  "history_page_size = 20\n" ++
  "\n" ++
  "# Largest number of replacements accepted by one splice (default: 10000)\n" ++
  "max_replacements = 10000\n" ++
  "\n" ++
  "# Re-read the active slice after every commit and check that it still\n" ++
  "# partitions version time (default: true)\n" ++
  "verify_commits = true\n"

end Bitemporal.Config
