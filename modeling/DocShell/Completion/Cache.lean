import DocShell.Completion.Suggestion

/-!
The names of collections, kept for completion. Who asks for a path for the first time starts a
fetch and does not wait for it. A fetch that fails may be started again; a name that is known is
never fetched again.
-/

namespace DocShell.Completion

open DocShell.Query

structure Cache where
  /-- The names that are known below each path, the latest first. -/
  known : List (String × List String)
  /-- The paths of which a fetch was started and has not failed, or whose names were given. -/
  marked : List String
  inFlight : List String
  /-- The paths of the fetches that are over, one for each fetch. -/
  finished : List String
deriving DecidableEq, Repr

namespace Cache

def empty : Cache := ⟨[], [], [], []⟩

def ofEntries (entries : List (String × List String)) : Cache :=
  ⟨entries.reverse, entries.map Prod.fst, [], []⟩

def cached (cache : Cache) (path : String) : List String := (cache.known.lookup path).getD []

def isStarted (cache : Cache) (path : String) : Bool := cache.marked.contains path

def calls (cache : Cache) (path : String) : Nat :=
  (cache.inFlight ++ cache.finished).count path

/-- Start the fetch of a path, unless that was done. -/
def request (cache : Cache) (path : String) : Cache :=
  if cache.isStarted path then cache
  else { cache with marked := path :: cache.marked, inFlight := cache.inFlight ++ [path] }

/-- The names that are known below a path, and the cache that fetches them if they are not. -/
def get (cache : Cache) (path : String) : List String × Cache :=
  let cache := cache.request path
  (cache.cached path, cache)

def succeed (cache : Cache) (path : String) (names : List String) : Cache :=
  { cache with
    known := (path, names) :: cache.known
    inFlight := cache.inFlight.erase path
    finished := cache.finished ++ [path] }

def fail (cache : Cache) (path : String) : Cache :=
  { cache with
    marked := cache.marked.filter (· != path)
    inFlight := cache.inFlight.erase path
    finished := cache.finished ++ [path] }

def finish (lister : String → Option (List String)) (cache : Cache) (path : String) : Cache :=
  match lister path with
  | some names => cache.succeed path names
  | none => cache.fail path

/-- The end of every fetch that was started. -/
def settle (lister : String → Option (List String)) (cache : Cache) : Cache :=
  cache.inFlight.foldl (finish lister) cache

def namesFor (cache : Cache) (context : Context) : List String × Cache :=
  match context.base? with
  | some base => cache.get base
  | none => ([], cache)

def suggest (cache : Cache) (text : List Char) : List Offer × Cache :=
  let context := Context.ofText text
  let (names, cache) := cache.namesFor context
  (context.suggestions names, cache)

end Cache

end DocShell.Completion
