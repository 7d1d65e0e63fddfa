import Esmetrics.Esmagent.Kubernetes.WatchCache
import Esmetrics.Lib.Runs

/-!
# The watcher converges to the objects of the server

In a behaviour whose LISTs end with pages that have no `continue`, the cache is the set of objects
of the tracked version, an object that comes back into the cache was created again, and a LIST whose
requests are answered ends: each answer leaves fewer pages (`converges`). The source takes an empty
`continue` for a token, and asks for the first page again. A server that always writes one keeps it
in the same LIST forever (`not_converges_emptyContinue`).
-/

namespace Esmetrics.Esmagent.Kubernetes

variable {β : Type} {fromStr : List Char → Option (WatchEvent β)} [DecidableEq β]

/-! ### The history of a run -/

omit [DecidableEq β] in
theorem answerPage_history {s s' : State β} {objects : List (K8sObject β)} {v : ℕ}
    {pages : List (List (K8sObject β))} {emptyContinue : Bool}
    (h : s.answerPage objects v pages emptyContinue = some s') :
    s'.history = s.history ∧ s'.current = s.current := by
  match pages with
  | [] => exact nomatch h
  | [_] => exact Option.some.inj h ▸ ⟨rfl, rfl⟩
  | _ :: _ :: _ => exact Option.some.inj h ▸ ⟨rfl, rfl⟩

omit [DecidableEq β] in
theorem read_history {s s' : State β} {latest : ℕ} {hadEvents : Bool}
    (h : s.read fromStr latest hadEvents = some s') : s'.history = s.history ∧
    s'.current = s.current := by
  rw [State.read] at h
  split at h
  · exact Option.some.inj h ▸ ⟨rfl, rfl⟩
  · split at h
    · cases h
    · exact Option.some.inj h ▸ ⟨rfl, rfl⟩
    · split at h <;> exact Option.some.inj h ▸ ⟨rfl, rfl⟩

/-- Only the server writes to its history. -/
theorem step_history {s s' : State β} {a : Act β} (h : step fromStr s a = some s') :
    s.current ≤ s'.current ∧
      (s'.history = s.history ∨ ∃ v c, s.current < v ∧ s'.history = s.history ++ [(v, c)]) := by
  have hsame : s'.history = s.history ∧ s'.current = s.current → s.current ≤ s'.current ∧
      (s'.history = s.history ∨ ∃ v c, s.current < v ∧ s'.history = s.history ++ [(v, c)]) :=
    fun heq => ⟨Nat.le_of_eq heq.2.symm, .inl heq.1⟩
  cases a with
  | commit v c =>
    rw [step] at h
    split_ifs at h with hc
    rw [← Option.some.inj h]
    exact ⟨Nat.le_of_lt hc.1, .inr ⟨v, c, hc.1, rfl⟩⟩
  | advance v =>
    rw [step] at h
    split_ifs at h with hv
    rw [← Option.some.inj h]
    exact ⟨Nat.le_of_lt hv, .inl rfl⟩
  | listFirst v pages emptyContinue =>
    rw [step] at h
    split at h
    · cases h
    · split_ifs at h
      exact hsame (answerPage_history h)
    · cases h
  | listNext emptyContinue =>
    rw [step] at h
    split at h
    · exact hsame (answerPage_history h)
    · cases h
  | listGone | listFailed | watchOk | watchGone | watchFailed =>
    rw [step] at h
    split at h
    · exact hsame (Option.some.inj h ▸ ⟨rfl, rfl⟩)
    · cases h
  | send | bookmark | sendError =>
    rw [step] at h
    split at h
    · split_ifs at h
      exact hsame (Option.some.inj h ▸ ⟨rfl, rfl⟩)
    · cases h
  | cut n failed => exact hsame (Option.some.inj h ▸ ⟨rfl, rfl⟩)
  | read =>
    rw [step] at h
    split at h
    · exact hsame (read_history h)
    · cases h
  | stop => exact hsame (Option.some.inj h ▸ ⟨rfl, rfl⟩)

theorem objectsAt_step {s s' : State β} {a : Act β} (h : step fromStr s a = some s') {v : ℕ}
    (hv : v ≤ s.current) : objectsAt s'.history v = objectsAt s.history v := by
  obtain ⟨_, heq | ⟨w, c, hw, heq⟩⟩ := step_history h
  · rw [heq]
  · rw [heq, objectsAt_append (by omega)]

/-- What a version means does not change any more. -/
theorem objectsAt_later (b : Behaviour (step fromStr) start) {n m v : ℕ} (hnm : n ≤ m)
    (hv : v ≤ (b.state n).current) :
    v ≤ (b.state m).current ∧ objectsAt (b.state m).history v =
    objectsAt (b.state n).history v := by
  induction m, hnm using Nat.le_induction with
  | base => exact ⟨hv, rfl⟩
  | succ m _ ih =>
    refine ⟨Nat.le_trans ih.1 (step_history (b.step_eq m)).1, ?_⟩
    rw [objectsAt_step (b.step_eq m) ih.1, ih.2]

/-! ### A LIST ends -/

/-- The watcher is in a LIST. -/
def State.Listing (s : State β) : Prop := ∃ objects cont, s.pc = .listing objects cont

/-- A page. -/
def IsPage : Act β → Prop
  | .listFirst .. => True
  | .listNext _ => True
  | _ => False

/-- A LIST attempt is over: it fails, is refused, or leaves the loop over the pages. -/
def AttemptEnds (a : Act β) (s' : State β) : Prop := a = .listGone ∨ a = .listFailed ∨ ¬ s'.Listing

/-- The pages to come. -/
def Pending (s : State β) (k : ℕ) : Prop :=
  ∃ objects v rest, s.pc = .listing objects (some (.cursor v rest)) ∧ rest.length = k

omit [DecidableEq β] in
theorem answerPage_pending {s s' : State β} {objects : List (K8sObject β)} {v : ℕ}
    {pages : List (List (K8sObject β))} {emptyContinue : Bool}
    (hlast : ¬ (pages.length = 1 ∧ emptyContinue = true))
    (h : s.answerPage objects v pages emptyContinue = some s') :
    ¬ s'.Listing ∨ Pending s' (pages.length - 1) := by
  obtain _ | ⟨page, _ | ⟨page', rest⟩⟩ := pages
  · cases h
  · have hcontinue : emptyContinue = false := by
      rw [← Bool.not_eq_true]
      exact fun heq => hlast ⟨rfl, heq⟩
    rw [State.answerPage, hcontinue] at h
    rw [← Option.some.inj h]
    refine .inl fun hlisting => ?_
    obtain ⟨_, _, hpc⟩ := hlisting
    cases hpc
  · rw [← Option.some.inj h]
    exact .inr ⟨objects ++ page, v, page' :: rest, rfl, rfl⟩

/-- A page of a LIST that goes on leaves fewer pages. -/
theorem page_pending {s s' : State β} (hinv : Inv fromStr s) {a : Act β} (ha : ¬ EmptyContinue s a)
    (h : step fromStr s a = some s') (hpage : IsPage a) (hend : ¬ AttemptEnds a s') :
    ∃ k, Pending s' k ∧ ∀ k', Pending s k' → k < k' := by
  have hlisting : s'.Listing := by
    by_contra hnot
    exact hend (.inr (.inr hnot))
  cases a with
  | listFirst v pages emptyContinue =>
    obtain ⟨hpc, _, _, hanswer⟩ := hinv.listFirst h
    obtain hnot | hpending := answerPage_pending ha hanswer
    · exact absurd hlisting hnot
    · refine ⟨_, hpending, ?_⟩
      rintro k' ⟨objects, v', rest, hpc', _⟩
      cases hpc.symm.trans hpc'
  | listNext emptyContinue =>
    rw [step] at h
    split at h
    · rename_i objects v rest hpc
      have hlast : ¬ (rest.length = 1 ∧ emptyContinue = true) := by
        rintro ⟨hone, hempty⟩
        obtain ⟨page, rfl⟩ := List.length_eq_one_iff.mp hone
        exact ha ⟨hempty, objects, v, page, hpc⟩
      obtain hnot | hpending := answerPage_pending hlast h
      · exact absurd hlisting hnot
      · refine ⟨_, hpending, ?_⟩
        rintro k' ⟨objects', v', rest', hpc', rfl⟩
        obtain ⟨rfl, hcont⟩ := Pc.listing.inj (hpc.symm.trans hpc')
        obtain ⟨rfl, rfl⟩ := Token.cursor.inj (Option.some.inj hcont)
        have hne : rest ≠ [] := by
          rintro rfl
          cases h
        have := List.length_pos_iff.mpr hne
        omega
    · cases h
  | _ => exact hpage.elim

/-- Between two pages the watcher waits. -/
theorem step_pc_of_listing {s s' : State β} {a : Act β} (h : step fromStr s a = some s')
    (hlisting : s.Listing)
    (hpage : ¬ IsPage a) (hend : ¬ AttemptEnds a s') : s'.pc = s.pc := by
  obtain ⟨objects, cont, hpc⟩ := hlisting
  cases a with
  | commit | advance =>
    rw [step] at h
    split_ifs at h
    rw [← Option.some.inj h]
  | listFirst | listNext => exact absurd trivial hpage
  | listGone => exact absurd (.inl rfl) hend
  | listFailed => exact absurd (.inr (.inl rfl)) hend
  | watchOk | watchGone | watchFailed | read =>
    rw [step, hpc] at h
    cases h
  | send | bookmark | sendError =>
    rw [step] at h
    split at h
    · split_ifs at h
      rw [← Option.some.inj h]
      rfl
    · cases h
  | cut n failed => rw [← Option.some.inj h]
  | stop =>
    refine absurd (.inr (.inr ?_)) hend
    rw [← Option.some.inj h]
    rintro ⟨_, _, hpc'⟩
    cases hpc'

/-- A LIST whose requests are answered ends: each page leaves fewer pages. -/
theorem attempt_ends (b : Behaviour (step fromStr) start) (hinv : ∀ n, Inv fromStr (b.state n))
    (hb : ∀ n, ¬ EmptyContinue (b.state n) (b.action n)) {n : ℕ} (hlisting : (b.state n).Listing)
    (hanswers : ∀ m, n ≤ m → ∃ k, m ≤ k ∧ IsPage (b.action k)) :
    ∃ m, n ≤ m ∧ AttemptEnds (b.action m) (b.state (m + 1)) := by
  by_contra hnever
  have hgoes : ∀ m, n ≤ m → ¬ AttemptEnds (b.action m) (b.state (m + 1)) := fun m hm hend =>
    hnever ⟨m, hm, hend⟩
  have hlist : ∀ m, n ≤ m → (b.state m).Listing := by
    intro m hm
    induction m, hm using Nat.le_induction with
    | base => exact hlisting
    | succ m hm _ =>
      by_contra hnot
      exact hgoes m hm (.inr (.inr hnot))
  have hpage : ∀ m, n ≤ m → IsPage (b.action m) →
      ∃ k, Pending (b.state (m + 1)) k ∧ ∀ k', Pending (b.state m) k' → k < k' := fun m hm h =>
    page_pending (hinv m) (hb m) (b.step_eq m) h (hgoes m hm)
  -- no answer adds pages
  have hkeep : ∀ m k, n ≤ m → Pending (b.state m) k → ∀ j, m ≤ j → ∃ k',
      k' ≤ k ∧ Pending (b.state j) k' := by
    intro m k hm hk j hj
    induction j, hj using Nat.le_induction with
    | base => exact ⟨k, Nat.le_refl k, hk⟩
    | succ j hj ih =>
      obtain ⟨k', hk', hpending⟩ := ih
      by_cases h : IsPage (b.action j)
      · obtain ⟨k'', hpending', hlt⟩ := hpage j (by omega) h
        have := hlt k' hpending
        exact ⟨k'', by omega, hpending'⟩
      · have hpc := step_pc_of_listing (b.step_eq j) (hlist j (by omega)) h (hgoes j (by omega))
        obtain ⟨objects, v, rest, hrest, hlength⟩ := hpending
        exact ⟨k', hk', objects, v, rest, hpc.trans hrest, hlength⟩
  have hnone : ∀ k m, n ≤ m → ¬ Pending (b.state m) k := by
    intro k
    induction k using Nat.strongRecOn with
    | ind k ih =>
      intro m hm hk
      obtain ⟨j, hj, h⟩ := hanswers m hm
      obtain ⟨k', hk', hpending⟩ := hkeep m k hm hk j hj
      obtain ⟨k'', hpending', hlt⟩ := hpage j (by omega) h
      have := hlt k' hpending
      exact ih k'' (by omega) (j + 1) (by omega) hpending'
  obtain ⟨j, hj, h⟩ := hanswers n (Nat.le_refl n)
  obtain ⟨k, hpending, _⟩ := hpage j hj h
  exact hnone k (j + 1) (by omega) hpending

/-! ### Convergence -/

/-- The cache follows the server. -/
structure Converges (b : Behaviour (step fromStr) start) : Prop where
  /-- At the tracked version the cache is the set of the objects, with one for each key. -/
  exact : ∀ n v, (b.state n).tracked = some v →
    ((b.state n).cache.map K8sObject.key).Nodup ∧ ∀ o, o ∈ (b.state n).cache ↔
    o ∈ objectsAt (b.state n).history v
  /-- What is not in the cache at one version and in it at a later one was created in between. -/
  created : ∀ n m v w k, n ≤ m → (b.state n).tracked = some v →
    (b.state m).tracked = some w → v ≤ w →
    k ∉ (b.state n).cache.map K8sObject.key → k ∈ (b.state m).cache.map K8sObject.key →
    ∃ u o, (u, Change.create o) ∈ (b.state m).history ∧ v < u ∧ u ≤ w ∧ o.key = k
  /-- A LIST attempt whose requests are answered ends. -/
  ends : ∀ n, (b.state n).Listing → (∀ m, n ≤ m → ∃ k, m ≤ k ∧ IsPage (b.action k)) →
    ∃ m, n ≤ m ∧ AttemptEnds (b.action m) (b.state (m + 1))

omit [DecidableEq β] in
theorem Inv.tracked {s : State β} (hinv : Inv fromStr s) {v : ℕ} (hv : s.tracked = some v) :
    v ≤ s.current ∧ Matches s.cache (objectsAt s.history v) := by
  rw [State.tracked] at hv
  split at hv
  · rename_i rv hpc
    obtain rfl := Option.some.inj hv
    exact hinv.holds_at hpc
  · rename_i latest hadEvents hpc
    obtain rfl := Option.some.inj hv
    obtain ⟨hcache, hsent, full, hfull, _⟩ := hinv.holds_at hpc
    exact ⟨Nat.le_trans (hfull.le hinv.history.versioned) hsent, hcache⟩
  · exact nomatch hv
  · exact nomatch hv

omit [DecidableEq β] in
theorem Matches.mem_key_iff {cache : List (K8sObject β)} {history : List (ℕ × Change β)} {v : ℕ}
    (h : Matches cache (objectsAt history v)) (k : String) :
    k ∈ cache.map K8sObject.key ↔ k ∈ (objectsAt history v).map K8sObject.key := by
  simp only [List.mem_map, h.mem_iff]

/-- **The watch cache converges to the objects of the server**, if no LIST ends with an empty
`continue`. -/
theorem converges (hreads : Reads fromStr) (b : Behaviour (step fromStr) start)
    (hb : ∀ n, ¬ EmptyContinue (b.state n) (b.action n)) : Converges b := by
  have hinv : ∀ n, Inv fromStr (b.state n) :=
    b.invariant (start_inv fromStr) fun n h => h.step hreads (hb n) (b.step_eq n)
  refine ⟨fun n v hv => ?_, fun n m v w k hnm hv hw hvw hn hm => ?_,
    fun n => attempt_ends b hinv hb⟩
  · obtain ⟨_, hcache⟩ := (hinv n).tracked hv
    exact ⟨hcache.nodup, hcache.mem_iff⟩
  · obtain ⟨hle, hcache⟩ := (hinv n).tracked hv
    obtain ⟨_, hcache'⟩ := (hinv m).tracked hw
    rw [hcache.mem_key_iff, ← (objectsAt_later b hnm hle).2] at hn
    rw [hcache'.mem_key_iff] at hm
    exact (hinv m).history.exists_create hvw hn hm

/-! ### A resumed watch -/

/-- A pod with its revision. -/
def web (revision : ℕ) : K8sObject ℕ := ⟨"web", "default", revision⟩

/-- The line of its creation at version 2. -/
def addedLine : List Char :=
  "\x7b\"type\":\"ADDED\",\"object\":\x7b\"metadata\":\x7b\"name\":\"web\",\"namespace\":\"default\",\"resourceVersion\":\"2\"\x7d\x7d\x7d".toList

def readAdded (s : List Char) : Option (WatchEvent ℕ) :=
  if s = addedLine then some ⟨"ADDED", ⟨some "web", some "default", some 2, none, some 0⟩⟩ else none

theorem readAdded_reads : Reads readAdded where
  nil := by decide
  complete s t e e' _ hs ht := by
    rw [readAdded] at hs ht
    split_ifs at hs ht
    rw [← Option.some.inj hs, ← Option.some.inj ht]

/-- A connection that is cut in the middle of a line, and a WATCH that goes on from there. -/
def resumed : List (Act ℕ) :=
  [.advance 1, .listFirst 1 [[], []] false, .listNext false, .watchOk, .commit 2 (.create (web 0)),
    .send addedLine, .cut 40 false, .read, .read, .watchOk, .send addedLine, .read,
    .commit 3 (.delete (web 0))]

theorem step_advance (s : State ℕ) :
    step readAdded s (.advance (s.current + 1)) = some { s with current := s.current + 1 } :=
  if_pos (Nat.lt_succ_self _)

instance : Inhabited (Act β) := ⟨.stop⟩

/-- The server goes on with other resources. -/
def resumedBehaviour : Behaviour (step readAdded) start :=
  (Run.ofActions resumed (by decide)).andThen (.iterate _ (fun s => .advance (s.current + 1))
    step_advance _)

theorem not_emptyContinue_resumed (n : ℕ) :
    ¬ EmptyContinue (resumedBehaviour.state n) (resumedBehaviour.action n) := by
  have hall : ∀ a ∈ resumed, ∀ s, ¬ EmptyContinue s a := by simp [resumed, EmptyContinue]
  generalize resumedBehaviour.state n = s
  rw [resumedBehaviour, Run.andThen]
  dsimp only
  split_ifs with hn
  · refine hall _ ?_ s
    have hget : (Run.ofActions resumed (by decide) : Run (step readAdded) start).action n =
        resumed.get ⟨n, hn⟩ := (List.getElem_eq_getD default).symm
    rw [hget]
    exact List.get_mem resumed ⟨n, hn⟩
  · exact id

theorem converges_resumed : (resumedBehaviour.state 13).tracked = some 2 ∧
    Converges resumedBehaviour :=
  ⟨by decide, converges readAdded_reads resumedBehaviour not_emptyContinue_resumed⟩

/-! ### An empty token -/

/-- A server without objects that always writes an empty `continue`. -/
def emptyTokens : Behaviour (step fun _ => none) (start : State ℕ) where
  action _ := .listFirst 0 [[]] true
  state n := n.casesOn start fun _ => { (start : State ℕ) with pc := .listing [] (some .empty) }
  state_zero := rfl
  step_eq n := by
    cases n with
    | zero => rfl
    | succ n => rfl

/-- **A LIST that never ends.** Every page is answered, and every answer is taken for the first of
many. -/
theorem not_converges_emptyContinue :
    ¬ ∀ fromStr : List Char → Option (WatchEvent ℕ), Reads fromStr →
      ∀ b : Behaviour (step fromStr) start, Converges b := by
  intro hconverges
  have hreads : Reads fun _ : List Char => (none : Option (WatchEvent ℕ)) :=
    ⟨rfl, fun _ _ _ _ _ h => nomatch h⟩
  have hanswers : ∀ m, 0 ≤ m → ∃ k, m ≤ k ∧ IsPage (emptyTokens.action k) :=
    fun m _ => ⟨m, Nat.le_refl m, trivial⟩
  obtain ⟨m, _, hend⟩ := (hconverges _ hreads emptyTokens).ends 0 ⟨[], none, rfl⟩ hanswers
  obtain hgone | hfailed | hnot := hend
  · exact nomatch hgone
  · exact nomatch hfailed
  · exact hnot ⟨[], some .empty, rfl⟩

end Esmetrics.Esmagent.Kubernetes
