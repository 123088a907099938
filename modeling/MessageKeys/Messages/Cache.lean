import MessageKeys.Messages.Locale
import MessageKeys.Messages.Store

/-!
# The cache of defined keys

The cache keeps the keys of a document for as long as the time of the file's last change
stays the same.  It counts the look-ups that it answered and those for which the document
was loaded.
-/

namespace MessageKeys

/-- The keys of a document at a time. -/
structure CacheEntry where
  modified : Int
  keys : KeySet

/-- Cached keys by absolute path, and the counts since the last reset. -/
structure KeyCache where
  entries : List (AbsolutePath × CacheEntry) := []
  hits : Nat := 0
  misses : Nat := 0

/-- Load the keys of a document, without a cache. -/
def FileSystem.readKeys [Json.Limits] (fs : FileSystem) (path : Path) : Except LoadError KeySet :=
  (fs.readMessages path).map Document.keys

namespace KeyCache

/-- Keep the keys of a document for the time of its file. -/
def store (cache : KeyCache) (place : AbsolutePath) (entry : Entry) (keys : KeySet) : KeyCache :=
  match entry.modified? with
  | some modified =>
      { cache with entries := Assoc.insert place ⟨modified, keys⟩ cache.entries }
  | none => cache

section

variable [Json.Limits]

/-- The keys of the document at an absolute path, which was asked for as `path`. -/
def getAt (cache : KeyCache) (fs : FileSystem) (path : Path) (place : AbsolutePath) :
    Except LoadError KeySet × KeyCache :=
  match fs.locate (Path.ofAbsolute place) with
  | .error (.path fault) => (.error (.path fault), cache)
  | .error (.os .notFound) =>
      (.error (.unusable ⟨path.toText, .notFound⟩),
        { cache with entries := Assoc.erase place cache.entries })
  | .error (.os e) =>
      (.error (.unusable ⟨path.toText, .invalid (e.message (AbsolutePath.toText place))⟩), cache)
  | .ok (_, entry) =>
      let cached := (Assoc.get? place cache.entries).filter fun found =>
        decide (some found.modified = entry.modified?)
      match cached with
      | some found => (.ok found.keys, { cache with hits := cache.hits + 1 })
      | none =>
          let missed := { cache with misses := cache.misses + 1 }
          match fs.readKeys (Path.ofAbsolute place) with
          | .error e => (.error e, missed)
          | .ok keys => (.ok keys, missed.store place entry keys)

/-- The keys of the document at a path, from the cache or from its file.  A document that
is gone is forgotten; a failure to load changes nothing else. -/
def get (cache : KeyCache) (fs : FileSystem) (path : Path) : Except LoadError KeySet × KeyCache :=
  match fs.resolve? path with
  | .error fault => (.error (.path fault), cache)
  | .ok place => cache.getAt fs path place

end

/-- Forget the document at a path. -/
def invalidate (cache : KeyCache) (fs : FileSystem) (path : Path) : Except PathFault KeyCache :=
  (fs.resolve? path).map fun place =>
    { cache with entries := Assoc.erase place cache.entries }

/-- Forget everything, the counts included. -/
def clear (_ : KeyCache) : KeyCache := {}

/-- The number of documents in the cache. -/
def size (cache : KeyCache) : Nat :=
  cache.entries.length

/-- The share of look-ups answered from the cache, in hundredths of a percent.  The
percentage is computed in double precision before it is rounded, a tie going to the even
hundredth. -/
def hitRate (cache : KeyCache) : Nat :=
  let total := cache.hits + cache.misses
  if total = 0 then 0
  else
    let share := Binary64.nearest false cache.hits total
    match share.shape with
    | .finite _ mantissa exponent =>
        let (n, d) := Binary64.fraction mantissa exponent
        (Binary64.nearest false (n * 100) d).roundedUnits 2
    | _ => 0

end KeyCache

end MessageKeys
