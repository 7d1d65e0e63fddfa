import Esmetrics.Esmagent.Kubernetes.ApiServer
import Mathlib.Data.List.TakeDrop
import Mathlib.Data.Nat.Init

/-!
# The watch cache is the objects of the tracked version

The cache of the watcher is a replica of the history of the server (`Inv`): at the tracked version
it is the map of the objects that exist there, what is on its way are the lines from there on, of
which the last one may be cut, and the pages of a LIST that is under way add up to the objects at
its version. Every step keeps this (`Inv.step`), as long as the last page of a LIST has no
`continue`: with an empty one the watcher asks for the first page again.
-/

namespace Esmetrics.Esmagent.Kubernetes

open List

variable {β : Type}

/-! ### Objects as maps -/

/-- The map with the given objects. -/
structure Matches (cache objects : List (K8sObject β)) : Prop where
  nodup : (cache.map K8sObject.key).Nodup
  find : ∀ k, findByKey K8sObject.key k cache = findByKey K8sObject.key k objects

variable {cache objects : List (K8sObject β)} {history : List (ℕ × Change β)} {v current w sent : ℕ}
  {c : Change β} {e : WatchEvent β} {text line : List Char} {s s' : State β} {pc : Pc β}

theorem Matches.set (h : Matches cache objects) (o : K8sObject β) :
    Matches (setByKey K8sObject.key o cache) (setByKey K8sObject.key o objects) where
  nodup := nodup_setByKey h.nodup o
  find k := by rw [findByKey_setByKey, findByKey_setByKey, h.find]

theorem Matches.drop (h : Matches cache objects) (k : String) :
    Matches (dropByKey K8sObject.key k cache) (dropByKey K8sObject.key k objects) where
  nodup := nodup_filter h.nodup _
  find k' := by rw [findByKey_dropByKey, findByKey_dropByKey, h.find]

theorem nodup_objectsAt (history : List (ℕ × Change β)) (v : ℕ) :
    ((objectsAt history v).map K8sObject.key).Nodup := by
  refine stateAt_invariant (P := fun objects : List (K8sObject β) =>
    (objects.map K8sObject.key).Nodup)
    (by simp) ?_ v
  intro objects c h
  cases c with
  | create o => exact nodup_setByKey h o
  | update o => exact nodup_setByKey h o
  | delete o => exact nodup_filter h _

/-- A full list of the objects makes the cache. -/
theorem matches_replaceCache (h : objects.Perm (objectsAt history v)) :
    Matches (replaceCache objects) (objectsAt history v) where
  nodup := nodup_foldl_setByKey (l := []) nodup_nil objects
  find k := by
    have hnodup : (objects.map K8sObject.key).Nodup :=
      (h.map K8sObject.key).nodup_iff.mpr (nodup_objectsAt history v)
    rw [replaceCache, findByKey_foldl_setByKey hnodup, findByKey_perm h hnodup]
    exact Option.or_none

theorem Matches.mem_iff (h : Matches cache (objectsAt history v)) (o : K8sObject β) :
    o ∈ cache ↔ o ∈ objectsAt history v :=
  mem_iff_of_findByKey h.nodup (nodup_objectsAt history v) h.find o

/-! ### The history -/

/-- The history of a server: the versions increase up to the current one, and every change was
allowed. -/
structure History (history : List (ℕ × Change β)) (current : ℕ) : Prop where
  versioned : Versioned history
  le : ∀ e ∈ history, e.1 ≤ current
  allowed : ∀ e ∈ history, e.2.Allowed (objectsAt history (e.1 - 1))

theorem History.advance (h : History history current) (hv : current < v) : History history v where
  versioned := h.versioned
  le e he := Nat.le_trans (h.le e he) (Nat.le_of_lt hv)
  allowed := h.allowed

theorem objectsAt_append (h : v < w) :
    objectsAt (history ++ [(w, c)]) v = objectsAt history v :=
  stateAt_append h

theorem History.commit (h : History history current) (hv : current < v)
    (hc : c.Allowed (objectsAt history current)) :
    History (history ++ [(v, c)]) v where
  versioned := h.versioned.append fun e he => Nat.lt_of_le_of_lt (h.le e he) hv
  le e he := by
    obtain he | he := mem_append.mp he
    · exact (h.advance hv).le e he
    · exact Nat.le_of_eq (congrArg Prod.fst (mem_singleton.mp he))
  allowed e he := by
    obtain he | he := mem_append.mp he
    · have hle := h.le e he
      rw [objectsAt_append (by omega)]
      exact h.allowed e he
    · obtain rfl := mem_singleton.mp he
      have hquiet : objectsAt history (v - 1) = objectsAt history current := by
        refine stateAt_of_quiet (by omega) fun e he => ?_
        exact .inl (h.le e he)
      rw [objectsAt_append (by omega), hquiet]
      exact hc

/-- An object that comes into being was created. -/
theorem History.exists_create (h : History history current) (hvw : v ≤ w) {k : String}
    (hv : k ∉ (objectsAt history v).map K8sObject.key)
    (hw : k ∈ (objectsAt history w).map K8sObject.key) :
    ∃ u o, (u, Change.create o) ∈ history ∧ v < u ∧ u ≤ w ∧ o.key = k := by
  induction w, hvw using Nat.le_induction with
  | base => exact absurd hw hv
  | succ w hvw ih =>
    by_cases hmem : k ∈ (objectsAt history w).map K8sObject.key
    · obtain ⟨u, o, hu, hvu, huw, hk⟩ := ih hmem
      exact ⟨u, o, hu, hvu, Nat.le_succ_of_le huw, hk⟩
    · obtain hquiet | ⟨⟨u, c⟩, he, hu, hnext⟩ := quiet_or_nextEntry h.versioned w
      · rw [objectsAt, stateAt_of_quiet (Nat.le_succ w) hquiet] at hw
        exact absurd hw hmem
      · obtain rfl : u = w + 1 := hu
        have hallowed := h.allowed _ he
        rw [objectsAt, stateAt_next h.versioned hnext] at hw
        have hset : ∀ o : K8sObject β, k ∈ (setByKey K8sObject.key o (objectsAt history w)).map
            K8sObject.key →
            o.key = k := fun o ho => by
          obtain ⟨x, hx, rfl⟩ := mem_map.mp ho
          obtain rfl | hx := mem_setByKey hx
          · rfl
          · exact absurd (mem_map_of_mem hx) hmem
        cases c with
        | create o => exact ⟨w + 1, o, he, by omega, Nat.le_refl _, hset o hw⟩
        | update o =>
          have hk := hset o hw
          exact absurd (hk ▸ hallowed) hmem
        | delete o =>
          obtain ⟨x, hx, rfl⟩ := mem_map.mp hw
          exact absurd (mem_map_of_mem (mem_of_mem_filter hx)) hmem

/-! ### Lines on the way -/

/-- What is relied on of the JSON reader: nothing is no event, and what goes on behind an event,
with white space, is that event. -/
structure Reads (fromStr : List Char → Option (WatchEvent β)) : Prop where
  nil : fromStr [] = none
  complete : ∀ s t e e', s <+: t → fromStr (trim s) = some e → fromStr (trim t) = some e' → e = e'

/-- An event takes a replica from one version to another. -/
inductive Carries (history : List (ℕ × Change β)) (e : WatchEvent β) : ℕ → ℕ → Prop where
  | change {v w : ℕ} {c : Change β} (next : nextEntry history v = some (w, c))
    (announces : Announces e w c) :
      Carries history e v w
  | bookmark {v w : ℕ} (quiet : Quiet history v w) (le : v ≤ w) (type : e.eventType = "BOOKMARK")
      (version : e.object.resourceVersion = some w) : Carries history e v w
  | error {v : ℕ} (type : e.eventType = "ERROR") (version : e.object.resourceVersion = none) :
      Carries history e v v

theorem Carries.le (hlog : Versioned history) (h : Carries history e v w) : v ≤ w := by
  cases h with
  | change next => exact Nat.le_of_lt (nextEntry_spec hlog next).2.1
  | bookmark _ le => exact le
  | error => exact Nat.le_refl v

theorem Carries.append {u : ℕ} (h : Carries history e v w) (hu : w < u) :
    Carries (history ++ [(u, c)]) e v w := by
  cases h with
  | change next announces => exact .change (nextEntry_append next) announces
  | bookmark quiet le type version => exact .bookmark (quiet.append hu) le type version
  | error type version => exact .error type version

variable (fromStr : List Char → Option (WatchEvent β))

/-- Lines from one version to another. -/
inductive Streams (history : List (ℕ × Change β)) : ℕ → List Char → ℕ → Prop where
  | nil (v : ℕ) : Streams history v [] v
  | line {v w sent : ℕ} {text rest : List Char} {e : WatchEvent β} (newline : '\n' ∉ text)
      (parses : fromStr (trim text) = some e) (carries : Carries history e v w)
      (after : Streams history w rest sent) : Streams history v (text ++ '\n' :: rest) sent

variable {fromStr}

theorem Streams.le (hlog : Versioned history) (h : Streams fromStr history v text sent) :
    v ≤ sent := by
  induction h with
  | nil => exact Nat.le_refl _
  | line _ _ carries _ ih => exact Nat.le_trans (carries.le hlog) ih

theorem Streams.append (hlog : Versioned history) {u : ℕ} (h : Streams fromStr history v text sent)
    (hu : sent < u) :
    Streams fromStr (history ++ [(u, c)]) v text sent := by
  induction h with
  | nil v => exact .nil v
  | line newline parses carries after ih =>
    exact .line newline parses (carries.append (Nat.lt_of_le_of_lt (after.le hlog) hu)) (ih hu)

/-- The server writes one more line. -/
theorem Streams.write (h : Streams fromStr history v text sent) (hline : '\n' ∉ line)
    (hparse : fromStr (trim line) = some e) (hcarries : Carries history e sent w) :
    Streams fromStr history v (text ++ line ++ ['\n']) w := by
  induction h with
  | nil v => exact .line hline hparse hcarries (.nil w)
  | line newline parses carries _ ih =>
    rw [append_assoc, append_assoc, cons_append, ← append_assoc _ line]
    exact .line newline parses carries (ih hcarries)

/-! ### Reading a line -/

theorem readLine_append (h : '\n' ∉ text) (rest : List Char) :
    readLine (text ++ '\n' :: rest) = (text ++ ['\n'], rest) := by
  have hspan : (text ++ '\n' :: rest).span (· ≠ '\n') = (text, '\n' :: rest) := by
    have htext : ∀ c ∈ text, decide (c ≠ '\n') = true := fun c hc =>
      decide_eq_true fun heq => h (heq ▸ hc)
    rw [span_eq_takeWhile_dropWhile, takeWhile_append_of_pos htext,
      dropWhile_append_of_pos htext, takeWhile_cons_of_neg (by simp), append_nil,
      dropWhile_cons_of_neg (by simp)]
  rw [readLine, hspan]

theorem trim_append_newline (text : List Char) : trim (text ++ ['\n']) = trim text := by
  have hnewline : isWhitespace '\n' = true := by decide
  rw [trim, trim, dropWhile_append]
  by_cases hempty : (text.dropWhile isWhitespace).isEmpty
  · rw [if_pos hempty, isEmpty_iff.mp hempty, dropWhile_cons_of_pos hnewline]
    rfl
  · rw [if_neg hempty, reverse_append, reverse_singleton, singleton_append,
      dropWhile_cons_of_pos hnewline]

/-- What is left of some lines that are cut: a whole line and what is left of the others, or a part
of the first line. -/
theorem prefix_line {unread rest : List Char} (h : unread <+: text ++ '\n' :: rest)
    (htext : '\n' ∉ text) :
    (∃ u, unread = text ++ '\n' :: u ∧ u <+: rest) ∨ '\n' ∉ unread ∧ unread <+: text := by
  obtain hle | ⟨u, rfl⟩ := prefix_or_prefix_of_prefix h (prefix_append text ('\n' :: rest))
  · exact .inr ⟨fun hmem => htext (hle.subset hmem), hle⟩
  · rw [prefix_append_right_inj] at h
    cases u with
    | nil => exact .inr ⟨by rwa [append_nil], by simp⟩
    | cons c u =>
      obtain ⟨rfl, hu⟩ := cons_prefix_cons.mp h
      exact .inl ⟨u, rfl, hu⟩

/-- An event that takes a replica from one version to another does so with the cache. -/
theorem Carries.applyEvent (hlog : Versioned history) (h : Carries history e v w)
    (hcache : Matches cache (objectsAt history v)) (hadEvents : Bool) :
    ∃ hadEvents' cache' err, applyEvent e v hadEvents cache = ((w, hadEvents', cache'), err) ∧
      Matches cache' (objectsAt history w) := by
  cases h with
  | @change _ c next announces =>
    have hnext : objectsAt history w = c.apply (objectsAt history v) := stateAt_next hlog next
    rw [hnext]
    cases c with
    | create o =>
      obtain ⟨htype, hversion, hparse⟩ := announces
      refine ⟨true, setByKey K8sObject.key o cache, none, ?_, hcache.set o⟩
      simp [Kubernetes.applyEvent, applyUpsert, htype, hversion, hparse]
    | update o =>
      obtain ⟨htype, hversion, hparse⟩ := announces
      refine ⟨true, setByKey K8sObject.key o cache, none, ?_, hcache.set o⟩
      simp [Kubernetes.applyEvent, applyUpsert, htype, hversion, hparse]
    | delete o =>
      obtain ⟨htype, hversion, hkey⟩ := announces
      refine ⟨true, dropByKey K8sObject.key o.key cache, none, ?_, hcache.drop o.key⟩
      simp [Kubernetes.applyEvent, applyDelete, htype, hversion, hkey]
  | bookmark quiet le type version =>
    refine ⟨true, cache, none, ?_, ?_⟩
    · simp [Kubernetes.applyEvent, type, version]
    · rw [objectsAt, stateAt_of_quiet le quiet]
      exact hcache
  | error type version =>
    refine ⟨hadEvents, cache, some (if e.object.code = some 410 then .gone else .errored),
      ?_, hcache⟩
    simp [Kubernetes.applyEvent, type, version]

/-! ### The invariant -/

variable (fromStr)

/-- What holds at a place of the thread. -/
def Holds (history : List (ℕ × Change β)) (current : ℕ) (stream : Stream)
    (cache : List (K8sObject β)) :
    Pc β → Prop
  | .listing objects none => objects = []
  | .listing _ (some .empty) => False
  | .listing objects (some (.cursor v rest)) =>
    v ≤ current ∧ (objects ++ rest.flatten).Perm (objectsAt history v)
  | .connecting rv => rv ≤ current ∧ Matches cache (objectsAt history rv)
  | .watching latest _ =>
    Matches cache (objectsAt history latest) ∧ stream.sent ≤ current ∧
      ∃ full, Streams fromStr history latest full stream.sent ∧ stream.unread <+: full ∧
        (stream.ended = none → stream.unread = full)
  | .stopped => True

/-- The cache is a replica of the history. -/
structure Inv (s : State β) : Prop where
  history : History s.history s.current
  holds : Holds fromStr s.history s.current s.stream s.cache s.pc

theorem start_inv : Inv fromStr (start : State β) where
  history := ⟨Pairwise.nil, nofun, nofun⟩
  holds := rfl

variable {fromStr}

theorem Inv.holds_at (hinv : Inv fromStr s) (hpc : s.pc = pc) :
    Holds fromStr s.history s.current s.stream s.cache pc :=
  hpc ▸ hinv.holds

/-- The top of the loop with a version that the cache is at. -/
theorem holds_loopTop {stream : Stream} (hv : v ≤ current)
    (hcache : Matches cache (objectsAt history v)) :
    Holds fromStr history current stream cache (loopTop (some v)) :=
  ⟨hv, hcache⟩

/-- The server goes on. -/
theorem Holds.advance {stream : Stream} (h : Holds fromStr history current stream cache pc)
    (hv : current < v) : Holds fromStr history v stream cache pc := by
  match pc, h with
  | .listing _ none, h => exact h
  | .listing _ (some (.cursor ..)), ⟨hle, h⟩ => exact ⟨by omega, h⟩
  | .connecting _, ⟨hle, h⟩ => exact ⟨by omega, h⟩
  | .watching .., ⟨h, hle, hstream⟩ => exact ⟨h, by omega, hstream⟩
  | .stopped, _ => trivial

theorem Holds.commit {stream : Stream} (hhistory : History history current)
    (h : Holds fromStr history current stream cache pc) (hv : current < v) (c : Change β) :
    Holds fromStr (history ++ [(v, c)]) v stream cache pc := by
  match pc, h with
  | .listing _ none, h => exact h
  | .listing _ (some (.cursor ..)), ⟨hle, h⟩ =>
    exact ⟨by omega, by rwa [objectsAt_append (by omega)]⟩
  | .connecting _, ⟨hle, h⟩ => exact ⟨by omega, by rwa [objectsAt_append (by omega)]⟩
  | .watching .., ⟨h, hle, full, hfull, hstream⟩ =>
    have hlatest := hfull.le hhistory.versioned
    refine ⟨by rwa [objectsAt_append (by omega)], by omega, full, ?_, hstream⟩
    exact hfull.append hhistory.versioned (by omega)
  | .stopped, _ => trivial

/-- Only the reader of a stream sees it. -/
theorem Holds.stream {stream stream' : Stream} (h : Holds fromStr history current stream cache pc)
    (hwatching : ∀ latest hadEvents, pc = .watching latest hadEvents →
      Holds fromStr history current stream' cache (.watching latest hadEvents)) :
    Holds fromStr history current stream' cache pc := by
  match pc, h with
  | .listing _ none, h => exact h
  | .listing _ (some (.cursor ..)), h => exact h
  | .connecting _, h => exact h
  | .watching latest hadEvents, _ => exact hwatching latest hadEvents rfl
  | .stopped, _ => trivial

/-- A line that is an event: the watcher goes on with the lines after it, or from the top of its
loop. -/
theorem watchLine_event (stream : Stream) {full : List Char} (hlog : Versioned history)
    (hnil : fromStr [] = none) (hparse : fromStr (trim line) = some e)
    (hcarries : Carries history e v w)
    (hcache : Matches cache (objectsAt history v))
    (hfull : Streams fromStr history w full stream.sent)
    (hsent : stream.sent ≤ current) (hunread : stream.unread <+: full)
    (hopen : stream.ended = none → stream.unread = full) (hadEvents : Bool) :
    Holds fromStr history current stream (watchLine fromStr line v hadEvents cache).2
      (watchLine fromStr line v hadEvents cache).1 := by
  have hne : trim line ≠ [] := by
    rintro heq
    rw [heq, hnil] at hparse
    exact nomatch hparse
  obtain ⟨hadEvents', cache', err, happly, hcache'⟩ := hcarries.applyEvent hlog hcache hadEvents
  have hline : applyWatchLine fromStr (trim line) v hadEvents cache =
      ((w, hadEvents', cache'), err) := by
    rw [applyWatchLine, hparse]
    exact happly
  rw [watchLine, if_neg hne, hline]
  match err with
  | none => exact ⟨hcache', hsent, full, hfull, hunread, hopen⟩
  | some .gone => exact rfl
  | some .errored => exact holds_loopTop (Nat.le_trans (hfull.le hlog) hsent) hcache'

/-- A part of a line that is not an event is skipped. -/
theorem watchLine_skip (h : fromStr (trim line) = none) (v : ℕ) (hadEvents : Bool)
    (cache : List (K8sObject β)) :
    watchLine fromStr line v hadEvents cache = (.watching v hadEvents, cache) := by
  rw [watchLine, applyWatchLine, h]
  exact ite_self _

/-- **Reading the stream.** -/
theorem Inv.read (hreads : Reads fromStr) (hinv : Inv fromStr s) {latest : ℕ} {hadEvents : Bool}
    (hpc : s.pc = .watching latest hadEvents) (h : s.read fromStr latest hadEvents = some s') :
    Inv fromStr s' := by
  have hlog := hinv.history.versioned
  obtain ⟨hcache, hsent, full, hfull, hunread, hopen⟩ := hinv.holds_at hpc
  have hlatest : latest ≤ s.current := Nat.le_trans (hfull.le hlog) hsent
  rw [State.read] at h
  cases hfull with
  | nil =>
    -- everything was read
    have hnil : s.stream.unread = [] := prefix_nil.mp hunread
    rw [hnil, if_neg not_mem_nil] at h
    match hended : s.stream.ended with
    | none =>
      rw [hended] at h
      exact nomatch h
    | some true =>
      rw [hended] at h
      rw [← Option.some.inj h]
      exact ⟨hinv.history, holds_loopTop hlatest hcache⟩
    | some false =>
      rw [hended] at h
      rw [← Option.some.inj h]
      exact ⟨hinv.history, holds_loopTop hlatest hcache⟩
  | @line _ w _ text rest e newline parses carries after =>
    obtain ⟨u, hu, hrest⟩ | ⟨hno, hpart⟩ := prefix_line hunread newline
    · -- a whole line
      rw [hu, if_pos (by simp), readLine_append newline] at h
      rw [← Option.some.inj h]
      refine ⟨hinv.history, ?_⟩
      have hparse : fromStr (trim (text ++ ['\n'])) = some e := by rwa [trim_append_newline]
      refine watchLine_event { s.stream with unread := u } hlog hreads.nil hparse carries hcache
        after hsent hrest ?_ hadEvents
      intro hended
      have heq := hopen hended
      rw [hu, append_cancel_left_eq] at heq
      exact (List.cons.inj heq).2
    · rw [if_neg hno] at h
      match hended : s.stream.ended with
      | none =>
        rw [hended] at h
        exact nomatch h
      | some true =>
        rw [hended] at h
        rw [← Option.some.inj h]
        exact ⟨hinv.history, holds_loopTop hlatest hcache⟩
      | some false =>
        rw [hended] at h
        dsimp only at h
        split_ifs at h with hempty
        · rw [← Option.some.inj h]
          exact ⟨hinv.history, holds_loopTop hlatest hcache⟩
        · rw [← Option.some.inj h]
          refine ⟨hinv.history, ?_⟩
          -- half a line: not an event, or already the whole event
          cases hhalf : fromStr (trim s.stream.unread) with
          | none =>
            rw [State.take, watchLine_skip hhalf]
            refine ⟨hcache, hsent, text ++ '\n' :: rest, .line newline parses carries after, ?_, ?_⟩
            · exact nil_prefix
            · intro hnone
              exact nomatch hended.symm.trans hnone
          | some e' =>
            obtain rfl := hreads.complete _ _ _ _ hpart hhalf parses
            refine watchLine_event { s.stream with unread := [] } hlog hreads.nil hhalf carries
              hcache after hsent nil_prefix ?_ hadEvents
            intro hnone
            exact nomatch hended.symm.trans hnone

/-- The server writes a line. -/
theorem Inv.write (hinv : Inv fromStr s) (hopen : s.stream.ended = none) (hline : '\n' ∉ text)
    (hparse : fromStr (trim text) = some e) (hcarries : Carries s.history e s.stream.sent w)
    (hw : w ≤ s.current) : Inv fromStr (s.write text w) := by
  refine ⟨hinv.history, hinv.holds.stream fun latest hadEvents hpc => ?_⟩
  obtain ⟨hcache, _, full, hfull, _, heq⟩ := hinv.holds_at hpc
  have hunread := heq hopen
  refine ⟨hcache, hw, full ++ text ++ ['\n'], hfull.write hline hparse hcarries, ?_, ?_⟩
  · exact hunread ▸ prefix_refl _
  · intro _
    exact hunread ▸ rfl

/-- **A page of a LIST.** The last one has no `continue`. -/
theorem Inv.answerPage (hinv : Inv fromStr s) {pages : List (List (K8sObject β))}
    {emptyContinue : Bool}
    (hv : v ≤ s.current) (hperm : (objects ++ pages.flatten).Perm (objectsAt s.history v))
    (hlast : ¬ (pages.length = 1 ∧ emptyContinue = true))
    (h : s.answerPage objects v pages emptyContinue = some s') : Inv fromStr s' := by
  match pages with
  | [] => exact nomatch h
  | [page] =>
    have hcontinue : emptyContinue = false := by
      rw [← Bool.not_eq_true]
      exact fun heq => hlast ⟨rfl, heq⟩
    rw [State.answerPage, hcontinue] at h
    rw [← Option.some.inj h]
    refine ⟨hinv.history, hv, matches_replaceCache ?_⟩
    rwa [flatten_cons, flatten_nil, append_nil] at hperm
  | page :: page' :: rest =>
    rw [← Option.some.inj h]
    refine ⟨hinv.history, hv, ?_⟩
    rwa [flatten_cons, ← append_assoc] at hperm

/-- The last page of a LIST has an empty `continue`. -/
def EmptyContinue (s : State β) : Act β → Prop
  | .listFirst _ pages emptyContinue => pages.length = 1 ∧ emptyContinue = true
  | .listNext emptyContinue =>
    emptyContinue = true ∧ ∃ objects v page, s.pc = .listing objects (some (.cursor v [page]))
  | _ => False

variable [DecidableEq β]

/-- The answer to the first request of a LIST. -/
theorem Inv.listFirst (hinv : Inv fromStr s) {pages : List (List (K8sObject β))}
    {emptyContinue : Bool}
    (h : Kubernetes.step fromStr s (.listFirst v pages emptyContinue) = some s') :
    s.pc = .listing [] none ∧ v ≤ s.current ∧ pages.flatten.Perm (objectsAt s.history v) ∧
      s.answerPage [] v pages emptyContinue = some s' := by
  have hholds := hinv.holds
  rw [Kubernetes.step] at h
  split at h
  · exact nomatch h
  · rename_i objects cont hcursor hpc
    rw [hpc] at hholds
    match cont, hcursor, hholds with
    | none, _, hnil =>
      obtain rfl : objects = [] := hnil
      split_ifs at h with hlist
      exact ⟨hpc, hlist.1, hlist.2, h⟩
    | some (.cursor ..), hcursor, _ => exact (hcursor _ _ rfl).elim
  · exact nomatch h

omit [DecidableEq β] in
/-- The end of a connection. -/
theorem Inv.cut (hinv : Inv fromStr s) (n : ℕ) (failed : Bool) :
    Inv fromStr { s with
      stream := { s.stream with unread := s.stream.unread.take n, ended := some failed } } := by
  refine ⟨hinv.history, hinv.holds.stream fun latest hadEvents hpc => ?_⟩
  obtain ⟨hcache, hsent, full, hfull, hunread, _⟩ := hinv.holds_at hpc
  exact ⟨hcache, hsent, full, hfull, (List.take_prefix n _).trans hunread, nofun⟩

/-- **One step.** -/
theorem Inv.step (hreads : Reads fromStr) (hinv : Inv fromStr s) {a : Act β}
    (ha : ¬ EmptyContinue s a)
    (h : step fromStr s a = some s') : Inv fromStr s' := by
  have hholds := hinv.holds
  cases a with
  | commit v c =>
    rw [Kubernetes.step] at h
    split_ifs at h with hc
    rw [← Option.some.inj h]
    exact ⟨hinv.history.commit hc.1 hc.2, hholds.commit hinv.history hc.1 c⟩
  | advance v =>
    rw [Kubernetes.step] at h
    split_ifs at h with hv
    rw [← Option.some.inj h]
    exact ⟨hinv.history.advance hv, hholds.advance hv⟩
  | listFirst v pages emptyContinue =>
    obtain ⟨_, hv, hperm, hanswer⟩ := hinv.listFirst h
    exact hinv.answerPage hv hperm ha hanswer
  | listNext emptyContinue =>
    rw [Kubernetes.step] at h
    split at h
    · rename_i objects v rest hpc
      obtain ⟨hv, hperm⟩ := hinv.holds_at hpc
      refine hinv.answerPage hv hperm ?_ h
      rintro ⟨hone, hempty⟩
      obtain ⟨page, rfl⟩ := length_eq_one_iff.mp hone
      exact ha ⟨hempty, objects, v, page, hpc⟩
    · exact nomatch h
  | listGone =>
    rw [Kubernetes.step] at h
    split at h
    · rw [← Option.some.inj h]
      exact ⟨hinv.history, rfl⟩
    · exact nomatch h
  | listFailed =>
    rw [Kubernetes.step] at h
    split at h
    · rw [← Option.some.inj h]
      exact ⟨hinv.history, rfl⟩
    · exact nomatch h
  | watchOk =>
    rw [Kubernetes.step] at h
    split at h
    · rename_i rv hpc
      rw [hpc] at hholds
      rw [← Option.some.inj h]
      exact ⟨hinv.history, hholds.2, hholds.1, [], .nil rv, nil_prefix, fun _ => rfl⟩
    · exact nomatch h
  | watchGone =>
    rw [Kubernetes.step] at h
    split at h
    · rw [← Option.some.inj h]
      exact ⟨hinv.history, rfl⟩
    · exact nomatch h
  | watchFailed =>
    rw [Kubernetes.step] at h
    split at h
    · rename_i rv hpc
      rw [hpc] at hholds
      rw [← Option.some.inj h]
      exact ⟨hinv.history, hholds⟩
    · exact nomatch h
  | send text =>
    rw [Kubernetes.step] at h
    split at h
    · rename_i v c e hopen hnext hparse
      split_ifs at h with hsend
      rw [← Option.some.inj h]
      have hv := hinv.history.le _ (nextEntry_spec hinv.history.versioned hnext).1
      exact hinv.write hopen hsend.2 hparse (.change hnext hsend.1) hv
    · exact nomatch h
  | bookmark text v =>
    rw [Kubernetes.step] at h
    split at h
    · rename_i e hopen hparse
      split_ifs at h with hmark
      obtain ⟨htype, hversion, hline, hle, hv, hquiet⟩ := hmark
      rw [← Option.some.inj h]
      exact hinv.write hopen hline hparse (.bookmark hquiet hle htype hversion) hv
    · exact nomatch h
  | sendError text =>
    rw [Kubernetes.step] at h
    split at h
    · rename_i e hopen hparse
      split_ifs at h with herror
      obtain ⟨htype, hversion, hline⟩ := herror
      rw [← Option.some.inj h]
      refine ⟨hinv.history, hholds.stream fun latest hadEvents hpc => ?_⟩
      obtain ⟨_, hsent, _⟩ := hinv.holds_at hpc
      exact hpc ▸ (hinv.write hopen hline hparse (.error htype hversion) hsent).holds
    · exact nomatch h
  | cut n failed =>
    rw [← Option.some.inj h]
    exact hinv.cut n failed
  | read =>
    rw [Kubernetes.step] at h
    split at h
    · rename_i hpc
      exact hinv.read hreads hpc h
    · exact nomatch h
  | stop =>
    rw [← Option.some.inj h]
    exact ⟨hinv.history, trivial⟩

end Esmetrics.Esmagent.Kubernetes
