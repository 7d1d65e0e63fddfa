import Esmetrics.Lib.KeyedList

/-!
# The Kubernetes watcher

Model of `esmagent/src/scrape/kubernetes/watcher.rs`: what a page of a LIST, a line of a WATCH and
the end of a WATCH do to the position of the thread and to the cache. The position is that of the
next answer: the thread is between two requests only inside a step. The waits between the requests
are left out, with the counters that set their lengths, and so is the fallback to `v1beta1`, which
changes the path of a request.

A resource version is a number that the watcher passes on, and a `continue` token is what the server
reads from it. The reader of the JSON, `fromStr`, is a parameter; the cache is a list with distinct
keys.
-/

namespace Esmetrics.Esmagent.Kubernetes

variable {β : Type}

/-! ### Objects and events -/

/-- An object: what its key is made of, and the rest of it. -/
structure K8sObject (β : Type) where
  name : String
  «namespace» : String
  body : β
deriving DecidableEq

def K8sObject.key (o : K8sObject β) : String := o.namespace ++ "/" ++ o.name

/-- The JSON object of an event; the rest of it is there if it is one of the role. -/
structure Value (β : Type) where
  name : Option String
  «namespace» : Option String
  resourceVersion : Option ℕ
  code : Option ℕ
  body : Option β
deriving DecidableEq

structure WatchEvent (β : Type) where
  eventType : String
  object : Value β
deriving DecidableEq

def parseObject (value : Value β) : Option (K8sObject β) :=
  value.body.map fun body => ⟨value.name.getD "", value.namespace.getD "", body⟩

def objectKey (value : Value β) : String := value.namespace.getD "" ++ "/" ++ value.name.getD ""

/-! ### Lines -/

/-- The white space of Unicode. -/
def isWhitespace (c : Char) : Bool :=
  (9 ≤ c.toNat && c.toNat ≤ 13) || c.toNat == 0x20 || c.toNat == 0x85 || c.toNat == 0xA0 ||
  c.toNat == 0x1680 ||
    (0x2000 ≤ c.toNat && c.toNat ≤ 0x200A) || c.toNat == 0x2028 || c.toNat == 0x2029 ||
    c.toNat == 0x202F || c.toNat == 0x205F || c.toNat == 0x3000

def trim (s : List Char) : List Char :=
  ((s.dropWhile isWhitespace).reverse.dropWhile isWhitespace).reverse

/-- The characters up to the first line feed, with it, and the ones after it. -/
def readLine (s : List Char) : List Char × List Char :=
  match s.span (· ≠ '\n') with
  | (line, []) => (line, [])
  | (line, c :: rest) => (line ++ [c], rest)

/-! ### The cache -/

/-- Puts the objects into an empty cache. -/
def replaceCache (objects : List (K8sObject β)) : List (K8sObject β) :=
  objects.foldl (fun map obj => setByKey K8sObject.key obj map) []

def applyUpsert (cache : List (K8sObject β)) (value : Value β) : List (K8sObject β) :=
  match parseObject value with
  | some obj => setByKey K8sObject.key obj cache
  | none => cache

def applyDelete (cache : List (K8sObject β)) (value : Value β) : List (K8sObject β) :=
  dropByKey K8sObject.key (objectKey value) cache

/-! ### The thread -/

/-- What the server reads from a `continue` token: the empty text, or where a list goes on, with its
version and the pages to come. -/
inductive Token (β : Type) where
  | empty
  | cursor (version : ℕ) (rest : List (List (K8sObject β)))

/-- Where the thread is. -/
inductive Pc (β : Type) where
  /-- In `list_pages`, with the objects of the pages so far and the token of the next request. -/
  | listing (objects : List (K8sObject β)) (cont : Option (Token β))
  /-- In `watch_once`, before the answer. -/
  | connecting (resourceVersion : ℕ)
  /-- In `watch_once`, reading the stream. -/
  | watching (latestRv : ℕ) (hadEvents : Bool)
  | stopped

/-- What an in-band `ERROR` event tells the loop to do. -/
inductive ErrorEvent where
  | gone
  | errored

/-- How a watch ends. -/
inductive WatchEnd where
  | stopped
  | gone (hadEvents : Bool)
  | closed (latestRv : ℕ)
  | errored (latestRv : ℕ)

/-- The top of the loop of `run`: a LIST, unless there is a version to watch from. -/
def loopTop : Option ℕ → Pc β
  | some rv => .connecting rv
  | none => .listing [] none

/-- What `run` does after a watch. -/
def afterWatch : WatchEnd → Pc β
  | .stopped => .stopped
  | .gone _ => loopTop none
  | .closed latest => loopTop (some latest)
  | .errored latest => loopTop (some latest)

/-- A page of a LIST: the next request, or the end of the LIST with the new cache. -/
def listPage (objects page : List (K8sObject β)) (resourceVersion : ℕ)
    (nextContinue : Option (Token β))
    (cache : List (K8sObject β)) : Pc β × List (K8sObject β) :=
  match nextContinue with
  | some c => (.listing (objects ++ page) (some c), cache)
  | none => (.connecting resourceVersion, replaceCache (objects ++ page))

/-- What one event changes: the tracked version, whether there were events, and the cache. -/
def applyEvent (event : WatchEvent β) (latestRv : ℕ) (hadEvents : Bool)
    (cache : List (K8sObject β)) :
    (ℕ × Bool × List (K8sObject β)) × Option ErrorEvent :=
  let latestRv := event.object.resourceVersion.getD latestRv
  if event.eventType = "ADDED" ∨ event.eventType = "MODIFIED" then
    ((latestRv, true, applyUpsert cache event.object), none)
  else if event.eventType = "DELETED" then ((latestRv, true, applyDelete cache event.object), none)
  else if event.eventType = "BOOKMARK" then ((latestRv, true, cache), none)
  else if event.eventType = "ERROR" then
    ((latestRv, hadEvents, cache), some (if event.object.code = some 410 then .gone else .errored))
  else ((latestRv, hadEvents, cache), none)

variable (fromStr : List Char → Option (WatchEvent β))

/-- One line of the stream; one that is not an event is skipped. -/
def applyWatchLine (line : List Char) (latestRv : ℕ) (hadEvents : Bool)
    (cache : List (K8sObject β)) :
    (ℕ × Bool × List (K8sObject β)) × Option ErrorEvent :=
  match fromStr line with
  | none => ((latestRv, hadEvents, cache), none)
  | some event => applyEvent event latestRv hadEvents cache

/-- One round of the loop of `watch_once`, with what `read_line` returns. -/
def watchLine (line : List Char) (latestRv : ℕ) (hadEvents : Bool) (cache : List (K8sObject β)) :
    Pc β × List (K8sObject β) :=
  if trim line = [] then (.watching latestRv hadEvents, cache)
  else
    match applyWatchLine fromStr (trim line) latestRv hadEvents cache with
    | ((latestRv, hadEvents, cache), none) => (.watching latestRv hadEvents, cache)
    | ((_, hadEvents, cache), some .gone) => (afterWatch (.gone hadEvents), cache)
    | ((latestRv, _, cache), some .errored) => (afterWatch (.errored latestRv), cache)

end Esmetrics.Esmagent.Kubernetes
