import Esmetrics.Esmagent.Kubernetes.Watcher
import Esmetrics.Lib.VersionedLog

/-!
# The watcher and the API server

The API server is a history of created, updated and deleted objects with increasing versions. It
answers a LIST with the objects at one version, in pages; a WATCH with the changes after a version,
one line each, with bookmarks and errors between them; and it may refuse both as expired. A
connection can be cut after any byte of what is on its way: a character that is cut in two makes the
read fail, like an error of the transport. An action is an answer, a write to the history, or a read
of the watcher.

A LIST with an empty `continue` is a LIST from the beginning.
-/

namespace Esmetrics.Esmagent.Kubernetes

variable {β : Type}

/-! ### The history -/

inductive Change (β : Type) where
  | create (o : K8sObject β)
  | update (o : K8sObject β)
  /-- With the object as it was. -/
  | delete (o : K8sObject β)

def Change.apply (objects : List (K8sObject β)) : Change β → List (K8sObject β)
  | .create o => setByKey K8sObject.key o objects
  | .update o => setByKey K8sObject.key o objects
  | .delete o => dropByKey K8sObject.key o.key objects

/-- New objects are created, and existing ones updated and deleted. -/
def Change.Allowed (objects : List (K8sObject β)) : Change β → Prop
  | .create o => o.key ∉ objects.map K8sObject.key
  | .update o => o.key ∈ objects.map K8sObject.key
  | .delete o => o.key ∈ objects.map K8sObject.key

instance (objects : List (K8sObject β)) (c : Change β) : Decidable (c.Allowed objects) :=
  match c with
  | .create o => inferInstanceAs (Decidable (o.key ∉ objects.map K8sObject.key))
  | .update o => inferInstanceAs (Decidable (o.key ∈ objects.map K8sObject.key))
  | .delete o => inferInstanceAs (Decidable (o.key ∈ objects.map K8sObject.key))

/-- The objects that exist at a version. -/
def objectsAt (history : List (ℕ × Change β)) (v : ℕ) : List (K8sObject β) :=
  stateAt Change.apply [] history v

/-- The event of a change. -/
def Announces (e : WatchEvent β) (v : ℕ) : Change β → Prop
  | .create o => e.eventType = "ADDED" ∧ e.object.resourceVersion = some v ∧
    parseObject e.object = some o
  | .update o => e.eventType = "MODIFIED" ∧ e.object.resourceVersion = some v ∧
    parseObject e.object = some o
  | .delete o => e.eventType = "DELETED" ∧ e.object.resourceVersion = some v ∧
    objectKey e.object = o.key

instance [DecidableEq β] (e : WatchEvent β) (v : ℕ) (c : Change β) : Decidable (Announces e v c) :=
  match c with
  | .create o => inferInstanceAs (Decidable (e.eventType = "ADDED" ∧ _ = some v ∧
    parseObject e.object = some o))
  | .update o => inferInstanceAs (Decidable (e.eventType = "MODIFIED" ∧ _ = some v ∧
    parseObject e.object = some o))
  | .delete o => inferInstanceAs (Decidable (e.eventType = "DELETED" ∧ _ = some v ∧
    objectKey e.object = o.key))

/-! ### The system -/

/-- A WATCH: what is on its way, the version up to which it was sent, and how the connection ended,
with an error or not. -/
structure Stream where
  unread : List Char
  sent : ℕ
  ended : Option Bool

structure State (β : Type) where
  history : List (ℕ × Change β)
  /-- The version of the server, which other resources advance too. -/
  current : ℕ
  pc : Pc β
  stream : Stream
  cache : List (K8sObject β)

def start : State β where
  history := []
  current := 0
  pc := loopTop none
  stream := ⟨[], 0, some true⟩
  cache := []

/-- The resource version that the watcher tracks. -/
def State.tracked (s : State β) : Option ℕ :=
  match s.pc with
  | .connecting rv => some rv
  | .watching latest _ => some latest
  | .listing .. => none
  | .stopped => none

inductive Act (β : Type) where
  | commit (v : ℕ) (c : Change β)
  | advance (v : ℕ)
  /-- The first page of a LIST, whose last page has an empty or no `continue`. -/
  | listFirst (v : ℕ) (pages : List (List (K8sObject β))) (emptyContinue : Bool)
  | listNext (emptyContinue : Bool)
  | listGone
  | listFailed
  | watchOk
  | watchGone
  | watchFailed
  | send (text : List Char)
  | bookmark (text : List Char) (v : ℕ)
  | sendError (text : List Char)
  /-- The end of a connection, after some of what is on its way. -/
  | cut (n : ℕ) (failed : Bool)
  | read
  | stop

/-- The answer to a request of `list_pages`: the first of the pages to come. -/
def State.answerPage (s : State β) (objects : List (K8sObject β)) (v : ℕ)
    (pages : List (List (K8sObject β)))
    (emptyContinue : Bool) : Option (State β) :=
  match pages with
  | [] => none
  | [page] =>
    let (pc, cache) := listPage objects page v (if emptyContinue then some .empty else none) s.cache
    some { s with pc, cache }
  | page :: rest =>
    let (pc, cache) := listPage objects page v (some (.cursor v rest)) s.cache
    some { s with pc, cache }

variable (fromStr : List Char → Option (WatchEvent β))

/-- A line that the server writes. -/
def State.write (s : State β) (text : List Char) (v : ℕ) : State β :=
  { s with stream := { s.stream with unread := s.stream.unread ++ text ++ ['\n'], sent := v } }

/-- The watcher takes a line from the stream. -/
def State.take (s : State β) (latest : ℕ) (hadEvents : Bool) (line rest : List Char) : State β :=
  let (pc, cache) := watchLine fromStr line latest hadEvents s.cache
  { s with pc, cache, stream := { s.stream with unread := rest } }

/-- A round of the loop of `watch_once`; it waits where there is no line yet. -/
def State.read (s : State β) (latest : ℕ) (hadEvents : Bool) : Option (State β) :=
  if '\n' ∈ s.stream.unread then
    let (line, rest) := readLine s.stream.unread
    some (s.take fromStr latest hadEvents line rest)
  else
    match s.stream.ended with
    | none => none
    | some true => some { s with pc := afterWatch (.errored latest) }
    | some false =>
      if s.stream.unread = [] then some { s with pc := afterWatch (.closed latest) }
      else some (s.take fromStr latest hadEvents s.stream.unread [])

variable [DecidableEq β]

/-- One step of the server, of the connection or of the watcher. -/
def step (s : State β) : Act β → Option (State β)
  | .commit v c =>
    if s.current < v ∧ c.Allowed (objectsAt s.history s.current) then
      some { s with history := s.history ++ [(v, c)], current := v }
    else none
  | .advance v => if s.current < v then some { s with current := v } else none
  | .listFirst v pages emptyContinue =>
    match s.pc with
    | .listing _ (some (.cursor ..)) => none
    | .listing objects _ =>
      if v ≤ s.current ∧ pages.flatten.Perm (objectsAt s.history v) then
        s.answerPage objects v pages emptyContinue
      else none
    | _ => none
  | .listNext emptyContinue =>
    match s.pc with
    | .listing objects (some (.cursor v rest)) => s.answerPage objects v rest emptyContinue
    | _ => none
  | .listGone =>
    match s.pc with
    | .listing .. => some { s with pc := .listing [] none }
    | _ => none
  | .listFailed =>
    match s.pc with
    | .listing .. => some { s with pc := .listing [] none }
    | _ => none
  | .watchOk =>
    match s.pc with
    | .connecting rv => some { s with pc := .watching rv false, stream := ⟨[], rv, none⟩ }
    | _ => none
  | .watchGone =>
    match s.pc with
    | .connecting _ => some { s with pc := afterWatch (.gone false) }
    | _ => none
  | .watchFailed =>
    match s.pc with
    | .connecting rv => some { s with pc := afterWatch (.errored rv) }
    | _ => none
  | .send text =>
    match s.stream.ended, nextEntry s.history s.stream.sent, fromStr (trim text) with
    | none, some (v, c), some e => if Announces e v c ∧ '\n' ∉
      text then some (s.write text v) else none
    | _, _, _ => none
  | .bookmark text v =>
    match s.stream.ended, fromStr (trim text) with
    | none, some e =>
      if e.eventType = "BOOKMARK" ∧ e.object.resourceVersion = some v ∧ '\n' ∉ text ∧
        s.stream.sent ≤ v ∧
          v ≤ s.current ∧ Quiet s.history s.stream.sent v then
        some (s.write text v)
      else none
    | _, _ => none
  | .sendError text =>
    match s.stream.ended, fromStr (trim text) with
    | none, some e =>
      if e.eventType = "ERROR" ∧ e.object.resourceVersion = none ∧ '\n' ∉ text then
        some (s.write text s.stream.sent)
      else none
    | _, _ => none
  | .cut n failed =>
    some { s with
      stream := { s.stream with unread := s.stream.unread.take n, ended := some failed } }
  | .read =>
    match s.pc with
    | .watching latest hadEvents => s.read fromStr latest hadEvents
    | _ => none
  | .stop => some { s with pc := .stopped }

end Esmetrics.Esmagent.Kubernetes
