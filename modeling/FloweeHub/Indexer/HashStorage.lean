import FloweeHub.Lib.Table
import FloweeHub.Lib.TipMerge
import FloweeHub.Primitives.Compare

/-! The storage of hashes of the indexer. A hash gets a row in the last database: first in its
cache, which a log backs, then in a sorted part, and after `finalize` in one sorted file. The files
stand beside the memory here: what is mapped is the file. -/

namespace FloweeHub.Indexer

open Lib

/-- The bytes of a record of the sorted files: a hash and an `int`. -/
def RECORD : ℕ := 36

/-- The size of the cache above which it becomes a part. -/
def CACHE_LIMIT : ℕ := 932064

abbrev Record := Uint256 × ℕ

/-- The comparison that the rows are sorted with. -/
def sortPairs (a b : Record) : Prop := a.1.Compare b.1 ≠ .gt

instance : DecidableRel sortPairs := fun _ _ => inferInstanceAs (Decidable (_ ≠ _))

/-- The places of the records in the order of their rows, as in `m_revertLookup`. -/
def revertLookup (records : List Record) : List ℕ :=
  ((records.zipIdx.map fun e => (e.1.2, e.2)).insertionSort fun a b => a.1 ≤ b.1).map Prod.snd

/-- A sorted part: its records, and the places of its rows. -/
structure HashListPart where
  sorted : List Record
  reverseLookup : List ℕ

/-- The info file of a database. -/
structure Info where
  nextId : ℕ
  partCount : ℕ
  offsets : ℕ → ℕ

/-- A database. It is finalised when there is a sorted file. -/
structure HashList where
  nextId : ℕ
  cacheMap : Table Uint256 ℕ
  parts : List HashListPart
  sorted : Option (List Record)
  reverseLookup : Option (List ℕ)
  offsets : ℕ → ℕ
  log : Option (List Uint256)
  info : Option Info

def setOffsets (offsets : ℕ → ℕ) (data x offset : ℕ) : ℕ → ℕ := fun i =>
    if data < i ∧ i ≤ x then offset else offsets i

/-- The loop of `fillOffsetsTable` from a record on, with the byte and the offset reached. -/
def fillOffsetsFrom (offsets : ℕ → ℕ) (data offset : ℕ) : List Record → ℕ → ℕ
  | [] => setOffsets offsets data 255 offset
  | r :: records =>
    let x := r.1.lastByte
    if data < x then fillOffsetsFrom (setOffsets offsets data x offset) x (offset + RECORD) records
    else fillOffsetsFrom offsets data (offset + RECORD) records

def fillOffsetsTable (offsets : ℕ → ℕ) (sorted : List Record) : ℕ → ℕ :=
  fillOffsetsFrom offsets 0 0 sorted

namespace HashList

variable (l : HashList)

def createEmpty : HashList := ⟨0, ∅, [], none, none, fun _ => 0, some [], none⟩

/-- `insert` on the cache does not replace an entry. -/
def cacheInsert (cacheMap : Table Uint256 ℕ) (hash : Uint256) (id : ℕ) : Table Uint256 ℕ :=
  if hash ∈ cacheMap then cacheMap else cacheMap.insert hash id

def append (hash : Uint256) : HashList × ℕ :=
  ({ l with
    nextId := l.nextId + 1
    cacheMap := cacheInsert l.cacheMap hash l.nextId
    log := l.log.map (· ++ [hash]) }, l.nextId)

/-- The binary search between two places of a sorted file. -/
def search (sorted : List Record) (hash : Uint256) (pos endpos : ℕ) : Option ℕ :=
  match Bisect.bisect (Bisect.at? (fun r => r.1.Compare hash) sorted) sorted.length pos endpos with
  | .found m => sorted[m]?.map Prod.snd
  | .missing _ => none

/-- The search in the merged file, between two entries of the jump table. -/
def lookupSorted (sorted : List Record) (hash : Uint256) : Option ℕ :=
  let firstByte := hash.lastByte
  let endpos := if firstByte = 255 then RECORD * sorted.length else l.offsets (firstByte + 1)
  search sorted hash (l.offsets firstByte / RECORD) (endpos / RECORD)

def lookup (hash : Uint256) : Option ℕ :=
  (l.cacheMap.lookup hash).or <|
    (l.sorted.bind fun sorted => l.lookupSorted sorted hash).or <|
      l.parts.findSome? fun part => search part.sorted hash 0 part.sorted.length

/-- The hash of a row: none if the file has no such row, null if the cache does not hold it. -/
def at? (index : ℕ) : Option Uint256 :=
  match l.reverseLookup with
  | some rows => (rows[index]?).bind fun row => (l.sorted.getD [])[row]?.map Prod.fst
  | none => some (((l.cacheMap.entries.find? fun e => e.2 = index).map fun e => e.1).getD 0)

def writeInfoFile : HashList := { l with info := some ⟨l.nextId, l.parts.length, l.offsets⟩ }

def cacheRecords : List Record := l.cacheMap.entries.map fun e => (e.1, e.2)

def stabilize : HashList :=
  let sorted := l.cacheRecords.insertionSort sortPairs
  writeInfoFile { l with
    parts := l.parts ++ [⟨sorted, revertLookup sorted⟩]
    cacheMap := ∅
    log := some [] }

/-- There is no result when the collector meets an entry twice, or a part without rows. -/
def finalize : Option HashList :=
  let l := if l.cacheMap.entries.isEmpty then l else l.stabilize
  (TipMerge.merge (fun a b : Record => a.1.Compare b.1) (l.parts.map (·.sorted))).map fun sorted =>
    writeInfoFile { l with
      parts := []
      log := none
      sorted := some sorted
      reverseLookup := some (revertLookup sorted)
      offsets := fillOffsetsTable l.offsets sorted }

/-- The constructor, on the files of a database that was closed. -/
def reopen : HashList :=
  let nextId := l.info.elim 0 (·.nextId)
  let offsets := l.info.elim (fun _ => 0) (·.offsets)
  match l.sorted with
  | some sorted =>
    let opened : HashList := { l with nextId := nextId, cacheMap := ∅, parts := [], offsets := offsets }
    if offsets 100 = 0 then writeInfoFile { opened with offsets := fillOffsetsTable offsets sorted }
    else opened
  | none =>
    let log := l.log.getD []
    { l with
      nextId := nextId + log.length
      cacheMap := (log.zipIdx nextId).foldl (fun cacheMap e => cacheInsert cacheMap e.1 e.2) ∅
      parts := l.parts.take (l.info.elim 0 (·.partCount))
      offsets := offsets
      log := some log }

end HashList

/-- A database and a row in it; -1 stands for none. -/
structure HashIndexPoint where
  db : ℤ := -1
  row : ℤ := -1
deriving DecidableEq, Repr

/-- The databases in front of the last one, and the last one. -/
structure HashStorage where
  front : List HashList
  last : HashList

namespace HashStorage

variable (s : HashStorage)

def create : HashStorage := ⟨[], .createEmpty⟩

def dbs : List HashList := s.front ++ [s.last]

def finalize : Option HashStorage := s.last.finalize.map fun db => ⟨s.front ++ [db], .createEmpty⟩

def append (hash : Uint256) : Option (HashStorage × HashIndexPoint) :=
  let (db, index) := s.last.append hash
  let point : HashIndexPoint := ⟨s.front.length, index⟩
  if CACHE_LIMIT < db.cacheMap.entries.length then some ({ s with last := db.stabilize }, point)
  else if 7 < db.parts.length then (finalize { s with last := db }).map fun s => (s, point)
  else some ({ s with last := db }, point)

/-- There is no result for a point outside of the storage. -/
def find (point : HashIndexPoint) : Option Uint256 :=
  if point.db < 0 ∨ point.row < 0 then none
  else if s.dbs.length < point.db then some 0
  else s.dbs[point.db.toNat]?.bind (·.at? point.row.toNat)

/-- The loop of `lookup` over the databases from the last one on. -/
def lookupFrom (hash : Uint256) : List HashList → HashIndexPoint
  | [] => {}
  | db :: dbs =>
    match db.lookup hash with
    | some result => ⟨dbs.length, result⟩
    | none => lookupFrom hash dbs

def lookup (hash : Uint256) : HashIndexPoint := lookupFrom hash s.dbs.reverse

/-- The constructor: the databases up to the first with neither sorted file nor log. -/
def reopen : HashStorage :=
  let dbs := (s.dbs.takeWhile fun db => db.sorted.isSome || db.log.isSome).map HashList.reopen
  ⟨dbs.dropLast, dbs.getLast?.getD .createEmpty⟩

end HashStorage

end FloweeHub.Indexer
