import Bitemporal.Record

/-!
History queries and their pages.
-/

namespace Bitemporal

/-- A query for the history of one object. -/
structure HistoryRequest where
  /-- The object. -/
  object : ObjectId
  /-- The window that version intervals overlap, if there is one. -/
  versions : Option Interval
  /-- The window that correction intervals overlap, if there is one. -/
  corrections : Option Interval
  /-- The place of the first record of the page. -/
  firstItem : Nat
  /-- The size of the page, if it is not the configured one. -/
  pageSize : Option Nat
deriving DecidableEq

namespace HistoryRequest

/-- The first page of every record of an object. -/
def all (object : ObjectId) : HistoryRequest := ⟨object, none, none, 0, none⟩

/-- The query for records whose version interval overlaps a window. -/
def withVersions (request : HistoryRequest) (window : Interval) : HistoryRequest :=
  { request with versions := some window }

/-- The query for records whose correction interval overlaps a window. -/
def withCorrections (request : HistoryRequest) (window : Interval) : HistoryRequest :=
  { request with corrections := some window }

/-- The query for records that were believed at or after an instant. -/
def withCorrectionsFrom (request : HistoryRequest) (instant : Instant) : HistoryRequest :=
  request.withCorrections (.openFrom instant)

/-- The query for another page. -/
def page (request : HistoryRequest) (firstItem : Nat) (pageSize : Option Nat) : HistoryRequest :=
  { request with firstItem := firstItem, pageSize := pageSize }

/-- The query for all records on one page, which is as long as a page can be. -/
def unpaged (request : HistoryRequest) : HistoryRequest :=
  request.page 0 (some 18446744073709551615)

end HistoryRequest

/-- Where a page lies in the whole result. -/
@[ext]
structure Paging where
  /-- The place of the first record of the page. -/
  firstItem : Nat
  /-- The size of the page. -/
  pageSize : Nat
  /-- The number of records on all pages. -/
  totalItems : Nat
deriving DecidableEq

namespace Paging

/-- The largest count of 64 bits. -/
def maxCount : Nat := 18446744073709551615

/-- The place after the page, as far as it can be counted: up to the largest count, or to the end
of a result that is longer still. -/
def nextItem (p : Paging) : Nat := min (p.firstItem + p.pageSize) (max maxCount p.totalItems)

/-- Whether there are records after the page. -/
def hasMore (p : Paging) : Bool := p.nextItem < p.totalItems

end Paging

/-- One page of history. -/
@[ext]
structure HistoryPage (α : Type) where
  /-- Where the page lies. -/
  paging : Paging
  /-- The records of the page. -/
  documents : List (Record α)
deriving DecidableEq

/-- The page of a result that starts at `firstItem` and has `pageSize` places. -/
def HistoryPage.cut {α : Type} (result : List (Record α)) (firstItem pageSize : Nat) :
    HistoryPage α :=
  ⟨⟨firstItem, pageSize, result.length⟩, (result.drop firstItem).take pageSize⟩

end Bitemporal
