import Bitemporal.Tiling

/-!
Faults: why an operation did not succeed, and the one text of each.

A fault names its cause by values; `Fault.message` is the only place that words it. A fault is a
defect of the system only if a timeline is corrupt, a commit conflicts or the configuration is bad
(`Fault.isCallerError`). Each cause that an outside store or caller may word itself has a
constructor `other`.
-/

namespace Bitemporal

/-- What does not line up with the boundaries of a timeline. -/
inductive RangeDefect where
  /-- No record starts where the target starts. -/
  | startOffBoundary (start : Instant)
  /-- No record of the run ends where the target ends. -/
  | stopOffBoundary (stop : Boundary)
  /-- The first replacement starts elsewhere than the record. -/
  | startMismatch (given : Instant) (record : RecordId) (start : Instant)
  /-- The edit would leave a gap. -/
  | gap (left right : Interval)
  | other (reason : String)
deriving DecidableEq

namespace RangeDefect

def text : RangeDefect → String
  | startOffBoundary start => "target start " ++ start.text ++ " is not a version boundary"
  | stopOffBoundary stop => "target end " ++ stop.text ++ " is not a version boundary"
  | startMismatch given record start =>
    "first replacement starts at " ++ given.text ++ " but " ++ record.text ++ " starts at " ++
      start.text
  | gap left right => "result would leave a gap between " ++ left.text ++ " and " ++ right.text
  | other reason => reason

end RangeDefect

/-- What is wrong with the order of a list of replacements. -/
inductive SequenceDefect where
  /-- A replacement does not start after the one before it. -/
  | notAfter (start previous : Instant)
  /-- A replacement does not end where the next one starts. -/
  | misfit (kind : Misfit) (stop next : Instant)
  | other (reason : String)
deriving DecidableEq

namespace SequenceDefect

def text : SequenceDefect → String
  | notAfter start previous => "version_from " ++ start.text ++ " is not after " ++ previous.text
  | misfit kind stop next =>
    kind.text ++ ": version_to " ++ stop.text ++ " but next version_from " ++ next.text
  | other reason => reason

end SequenceDefect

/-- What could not be found. -/
inductive Missing where
  /-- An object without any record. -/
  | object (id : ObjectId)
  /-- A record. -/
  | record (id : RecordId)
  /-- A record of the object that covers the version instant, as believed at the
  correction instant. -/
  | point (object : ObjectId) (version : Instant) (correction : Option Instant)
  | other (what : String)
deriving DecidableEq

namespace Missing

def text : Missing → String
  | .object id => id.text
  | .record id => id.text
  | .point lineage version correction =>
    lineage.text ++ " has no record at version " ++ version.text ++ " (correction " ++
      (match correction with
        | some instant => instant.text
        | none => "LATEST") ++ ")"
  | .other what => what

end Missing

/-- Which invariant of a timeline fails. -/
inductive Corruption where
  /-- Two neighbours of a slice do not meet. -/
  | misfit (kind : Misfit) (left right : Tile)
  /-- A planned edit overlaps. -/
  | plannedOverlap (left right : Interval)
  /-- A record was never believed. -/
  | emptyCorrection (record : RecordId)
  /-- An edit that always inserts inserted nothing. -/
  | insertedNothing (edit : String)
  | other (reason : String)
deriving DecidableEq

namespace Corruption

def text : Corruption → String
  | misfit kind left right => kind.text ++ " between " ++ left.text ++ " and " ++ right.text
  | plannedOverlap left right => "planned overlap between " ++ left.text ++ " and " ++ right.text
  | emptyCorrection record => record.text ++ " has an empty correction window"
  | insertedNothing edit => edit ++ " inserted nothing"
  | other reason => reason

end Corruption

/-- Why a batch does not fit the state of its timeline. -/
inductive ConflictCause where
  /-- The stamp is not after the newest one. -/
  | staleStamp (stamp latest : Instant)
  /-- A record to close was never written. -/
  | unknownRecord (record : RecordId)
  /-- A record to close is closed already. -/
  | superseded (record : RecordId)
  /-- There is no timeline to close records of. -/
  | unknownObject
  | other (reason : String)
deriving DecidableEq

namespace ConflictCause

def text : ConflictCause → String
  | staleStamp stamp latest =>
    "correction " ++ stamp.text ++ " is not after latest correction " ++ latest.text
  | unknownRecord record => record.text ++ " does not exist"
  | superseded record => record.text ++ " is already superseded"
  | unknownObject => "object does not exist"
  | other reason => reason

end ConflictCause

/-- Why a request makes no sense, whatever the state. -/
inductive RequestDefect where
  /-- A batch for one object closes a record of another. -/
  | foreignClose (record : RecordId) (object : ObjectId)
  /-- A batch for one object meets the timeline of another. -/
  | foreignBatch (batch timeline : ObjectId)
  /-- A batch neither closes nor inserts. -/
  | emptyBatch
  /-- There are no replacements. -/
  | noReplacements
  /-- There are more replacements than allowed. -/
  | tooManyReplacements (count limit : Nat)
  /-- The lineage that should end has an end. -/
  | alreadyEnded (object : ObjectId) (stop : Boundary)
  /-- The lineage would end before its last version starts. -/
  | endTooEarly (object : ObjectId) (stop latest : Instant)
  /-- The lineage that should be created exists. -/
  | alreadyExists (object : ObjectId)
  /-- An update starts no later than the last version. -/
  | updateTooEarly (object : ObjectId) (start latest : Instant)
  /-- A page would hold nothing. -/
  | emptyPage
  | other (reason : String)
deriving DecidableEq

namespace RequestDefect

def text : RequestDefect → String
  | foreignClose record object =>
    "cannot close " ++ record.text ++ " in a batch for " ++ object.text
  | foreignBatch batch timeline =>
    "batch for " ++ batch.text ++ " applied to timeline of " ++ timeline.text
  | emptyBatch => "empty correction batch"
  | noReplacements => "replacement list is empty"
  | tooManyReplacements count limit =>
    Nat.repr count ++ " replacements exceeds the limit of " ++ Nat.repr limit
  | alreadyEnded object stop => object.text ++ " already ends at " ++ stop.text
  | endTooEarly object stop latest =>
    "cannot end " ++ object.text ++ " at " ++ stop.text ++ ", latest version starts at " ++
      latest.text
  | alreadyExists object => object.text ++ " already has versions"
  | updateTooEarly object start latest =>
    "update of " ++ object.text ++ " at " ++ start.text ++
      " must start after latest version_from " ++ latest.text
  | emptyPage => "page size must be positive"
  | other reason => reason

end RequestDefect

/-- What is wrong with a configuration or its file. -/
inductive ConfigDefect where
  /-- The scheme is empty. -/
  | emptyScheme
  /-- The scheme holds the separator of identifiers. -/
  | separatorInScheme (scheme : String)
  /-- History pages would hold nothing. -/
  | zeroPageSize
  /-- No edit could hold a replacement. -/
  | zeroReplacements
  /-- The text is not a configuration. -/
  | malformed
  /-- The configuration has no text. -/
  | unwritten
  /-- The file cannot be read. -/
  | unreadableFile (path : String)
  /-- The file cannot be written. -/
  | unwritableFile (path : String)
  /-- The file with the default configuration cannot be written. -/
  | unwritableDefault (path : String)
  /-- The file holds a defect. -/
  | inFile (defect : ConfigDefect) (path : String)
  | other (reason : String)
deriving DecidableEq

namespace ConfigDefect

def text : ConfigDefect → String
  | emptyScheme => "scheme must not be empty"
  | separatorInScheme scheme =>
    "scheme '" ++ scheme ++ "' must not contain '" ++ String.singleton idSeparator ++ "'"
  | zeroPageSize => "history_page_size must be positive"
  | zeroReplacements => "max_replacements must be positive"
  | malformed => "Failed to parse config"
  | unwritten => "Failed to serialize config"
  | unreadableFile path => "Failed to read config file '" ++ path ++ "'"
  | unwritableFile path => "Failed to write config file '" ++ path ++ "'"
  | unwritableDefault path => "Failed to write default config file '" ++ path ++ "'"
  | inFile defect path => defect.text ++ " (" ++ path ++ ")"
  | other reason => reason

end ConfigDefect

/-- Why an operation did not succeed. -/
inductive Fault where
  /-- An interval would be empty or inverted. -/
  | invalidInterval (start : Instant) (stop : Boundary)
  /-- A target does not line up with the boundaries of the timeline. -/
  | nonExactRange (object : ObjectId) (defect : RangeDefect)
  /-- The record to replace is no longer believed. -/
  | staleVersion (record : RecordId) (supersededAt : Instant)
  /-- The replacements end elsewhere than the record they replace. -/
  | boundaryMismatch (expected actual : Boundary)
  /-- The replacements do not follow one another. -/
  | nonContiguous (index : Nat) (defect : SequenceDefect)
  /-- Nothing is there. -/
  | notFound (missing : Missing)
  /-- An invariant of a timeline fails. -/
  | corruptTimeline (object : ObjectId) (defect : Corruption)
  /-- A batch does not fit the state of its timeline. -/
  | conflict (object : ObjectId) (cause : ConflictCause)
  /-- A text or a pair of parts is no identifier. -/
  | invalidId (text : String)
  /-- The request makes no sense. -/
  | invalidInput (defect : RequestDefect)
  /-- The configuration is bad or out of reach. -/
  | config (defect : ConfigDefect)
deriving DecidableEq

namespace Fault

/-- The text of a fault. -/
def message : Fault → String
  | invalidInterval start stop => "Invalid interval: " ++ Interval.boundsText start stop
  | nonExactRange object defect => "Non-exact range for " ++ object.text ++ ": " ++ defect.text
  | staleVersion record supersededAt =>
    "Stale version " ++ record.text ++ ": superseded at " ++ supersededAt.text
  | boundaryMismatch expected actual =>
    "Boundary mismatch: expected " ++ expected.text ++ ", got " ++ actual.text
  | nonContiguous index defect =>
    "Replacements not contiguous at index " ++ Nat.repr index ++ ": " ++ defect.text
  | notFound missing => "Not found: " ++ missing.text
  | corruptTimeline object defect => "Corrupt timeline for " ++ object.text ++ ": " ++ defect.text
  | conflict object cause => "Commit conflict for " ++ object.text ++ ": " ++ cause.text
  | invalidId text => "Invalid identifier: '" ++ text ++ "'"
  | invalidInput defect => "Invalid input: " ++ defect.text
  | config defect => "Configuration error: " ++ defect.text

/-- Whether an invariant of a timeline fails. -/
def isFatal : Fault → Bool
  | corruptTimeline .. => true
  | _ => false

/-- Whether the same request may succeed when it is made again. -/
def isRetryable : Fault → Bool
  | conflict .. => true
  | _ => false

/-- Whether the request is at fault, and not the system. -/
def isCallerError : Fault → Bool
  | corruptTimeline .. | conflict .. | config .. => false
  | _ => true

end Fault

namespace Interval

/-- The interval between two ends, refused if it is empty. -/
def between (start : Instant) (stop : Boundary) : Except Fault Interval :=
  match between? start stop with
  | some i => .ok i
  | none => .error (.invalidInterval start stop)

/-- The part of the interval from `lower` up to `upper`, refused if nothing is left. -/
def clamp (i : Interval) (lower : Instant) (upper : Boundary) : Except Fault Interval :=
  between (max i.start lower) (min i.stop upper)

/-- The interval with another start. -/
def withStart (i : Interval) (start : Instant) : Except Fault Interval := between start i.stop

/-- The interval with another end. -/
def withStop (i : Interval) (stop : Boundary) : Except Fault Interval := between i.start stop

end Interval

namespace ObjectId

/-- Refuses an identity whose text would not be read back. -/
def validate (o : ObjectId) : Except Fault Unit :=
  if o.isValid then .ok () else .error (.invalidId o.text)

/-- The identity of two parts, refused if its text would not be read back. -/
def make (scheme value : String) : Except Fault ObjectId := do
  validate ⟨scheme, value⟩
  return ⟨scheme, value⟩

/-- The identity that a text names: two parts with one separator between them. -/
def ofText (text : String) : Except Fault ObjectId :=
  match separatedFields idSeparator text.toList with
  | [scheme, value] => make (String.ofList scheme) (String.ofList value)
  | _ => .error (.invalidId text)

/-- The identity that a text names, if it names one. -/
def ofText? (text : String) : Option ObjectId := (ofText text).toOption

end ObjectId

namespace RecordId

/-- The identity that a text names: the version follows the last separator, and the text before it
names the lineage. -/
def ofText (text : String) : Except Fault RecordId :=
  match cutAtLast? idSeparator text.toList with
  | some (lineage, version) =>
    if isIdPart (String.ofList version) then
      match ObjectId.ofText (String.ofList lineage) with
      | .ok o => .ok (o.atVersion (String.ofList version))
      | .error _ => .error (.invalidId text)
    else .error (.invalidId text)
  | none => .error (.invalidId text)

/-- The identity that a text names, if it names one. -/
def ofText? (text : String) : Option RecordId := (ofText text).toOption

end RecordId

end Bitemporal
