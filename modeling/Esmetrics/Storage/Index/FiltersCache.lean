import Mathlib.Data.Finset.Card
import Mathlib.Tactic.IntervalCases
import Esmetrics.Lib.Runs

/-!
# The cache of tag filter results

Model of the cache of `IndexDb::search_metric_ids` in `esm-storage/src/index/mod.rs`, with the
threads that use and invalidate it: searches, flushes of pending items
(`esm-mergeset/src/table.rs`), the worker that calls the flush callback, and
`save_deleted_metric_ids`. The cache (`esm-storage/src/index/caches.rs`) has shards that a reset
empties one by one, and drops entries by itself when it grows.

A reset empties the cache, but it does nothing about a result that is being computed at that
moment and is stored afterwards: `stale_after_reset` is a run in which a search that starts after
a series was deleted returns it. When no result is stored over a reset, every search returns what
an uncached search returns (`search_current`).
-/

namespace Esmetrics.FiltersCache

/-- The number of shards of a cache. -/
def wscShards : ℕ := 16

variable {Query Item : Type}

/-- What a thread is doing. -/
inductive Phase (Query Item : Type) where
  | idle
  /-- A search that was not answered by the cache. -/
  | missed (q : Query) (maxMetrics : ℕ)
  /-- A search over the items that were visible when it was opened. -/
  | opened (q : Query) (maxMetrics : ℕ) (items : Finset Item)
  /-- A search that has its result, which is not in the cache yet. -/
  | found (q : Query) (ids : Finset UInt64)
  /-- A flush that has made its items visible and will set the flag. -/
  | flushed
  /-- A reset that will empty this shard next. -/
  | resetting (shard : ℕ)

/-- The steps of the threads; every step but the last names its thread. -/
inductive Action (Query Item : Type) where
  | lookup (t : ℕ) (q : Query) (maxMetrics : ℕ)
  | readItems (t : ℕ)
  | readDeleted (t : ℕ)
  | put (t : ℕ)
  | addToInmemoryParts (t : ℕ) (items : Finset Item) (isFinal : Bool)
  | setFlag (t : ℕ)
  | flushCallbackWorker (t : ℕ) (isShutdown : Bool)
  | saveDeletedMetricIds (t : ℕ) (ids : Finset UInt64)
  | clearShard (t : ℕ)
  /-- The cache drops an entry to stay below its size. -/
  | evict (q : Query)
  deriving Inhabited

/-- An index: the visible items, the deleted ids, the cache and the threads. -/
structure IndexDb (Query Item : Type) where
  items : Finset Item
  deletedMetricIds : Finset UInt64
  cache : Query → Option (Finset UInt64)
  needFlushCallbackCall : Bool
  phase : ℕ → Phase Query Item

/-- An index that has just been opened. -/
def IndexDb.init (items : Finset Item) (deletedMetricIds : Finset UInt64) : IndexDb Query Item :=
  ⟨items, deletedMetricIds, fun _ => none, false, fun _ => .idle⟩

section Model

variable [DecidableEq Query] [DecidableEq Item] (matching : Query → Finset Item → Finset UInt64)
  (hash : Query → UInt64)

/-- The shard of a cache key. -/
def shardOf (q : Query) : ℕ := (hash q).toNat % wscShards

/-- A thread goes to its next phase. -/
def IndexDb.goto (s : IndexDb Query Item) (t : ℕ) (p : Phase Query Item) : IndexDb Query Item :=
  { s with phase := Function.update s.phase t p }

/-- One step. The index search proper is `matching`; the deleted ids are removed from its result
afterwards, and the limit is checked before that. -/
def step (s : IndexDb Query Item) : Action Query Item → Option (IndexDb Query Item)
  | .lookup t q maxMetrics =>
    match s.phase t with
    | .idle =>
      match s.cache q with
      | some _ => some s
      | none => some (s.goto t (.missed q maxMetrics))
    | _ => none
  | .readItems t =>
    match s.phase t with
    | .missed q maxMetrics => some (s.goto t (.opened q maxMetrics s.items))
    | _ => none
  | .readDeleted t =>
    match s.phase t with
    | .opened q maxMetrics items =>
      let ids := matching q items
      if ids.card > maxMetrics then some (s.goto t .idle)
      else some (s.goto t (.found q (ids \ s.deletedMetricIds)))
    | _ => none
  | .put t =>
    match s.phase t with
    | .found q ids => some { s.goto t .idle with cache := Function.update s.cache q (some ids) }
    | _ => none
  | .addToInmemoryParts t items isFinal =>
    match s.phase t with
    | .idle =>
      some { s.goto t (if isFinal then .resetting 0 else .flushed) with items := s.items ∪ items }
    | _ => none
  | .setFlag t =>
    match s.phase t with
    | .flushed => some { s.goto t .idle with needFlushCallbackCall := true }
    | _ => none
  | .flushCallbackWorker t isShutdown =>
    match s.phase t with
    | .idle =>
      if isShutdown then some (s.goto t (.resetting 0))
      else if s.needFlushCallbackCall then
        some { s.goto t (.resetting 0) with needFlushCallbackCall := false }
      else some s
    | _ => none
  | .saveDeletedMetricIds t ids =>
    match s.phase t with
    | .idle =>
      if ids = ∅ then some s
      else some { s.goto t (.resetting 0) with deletedMetricIds := s.deletedMetricIds ∪ ids }
    | _ => none
  | .clearShard t =>
    match s.phase t with
    | .resetting n =>
      some { s.goto t (if n + 1 < wscShards then .resetting (n + 1) else .idle) with
        cache := fun q => if shardOf hash q = n then none else s.cache q }
    | _ => none
  | .evict q => some { s with cache := Function.update s.cache q none }

/-- The result of a search: the ids, or an error for too many of them. -/
inductive SearchResult where
  | ok (ids : Finset UInt64)
  | tooManyTimeseries (maxMetrics : ℕ)

/-- What a step returns to the caller of a search. -/
def returned (s : IndexDb Query Item) : Action Query Item → Option SearchResult
  | .lookup _ q maxMetrics =>
    match s.cache q with
    | some ids => some (if ids.card > maxMetrics then .tooManyTimeseries maxMetrics else .ok ids)
    | none => none
  | .readDeleted t =>
    match s.phase t with
    | .opened q maxMetrics items =>
      if (matching q items).card > maxMetrics then some (.tooManyTimeseries maxMetrics) else none
    | _ => none
  | .put t =>
    match s.phase t with
    | .found _ ids => some (.ok ids)
    | _ => none
  | _ => none

/-! ### What one step can do -/

/-- The step empties the shard `n` of the cache. -/
def Clears (s : IndexDb Query Item) (a : Action Query Item) (n : ℕ) : Prop :=
  ∃ t, a = .clearShard t ∧ s.phase t = .resetting n

variable {matching hash} {s s' : IndexDb Query Item} {a : Action Query Item}

/-- An entry of the cache was there before, and its shard was not emptied, or it was put. -/
theorem cache_of_step (h : step matching hash s a = some s') {q : Query} {ids : Finset UInt64}
    (hcache : s'.cache q = some ids) :
    (s.cache q = some ids ∧ ¬ Clears s a (shardOf hash q)) ∨
      ∃ t, a = .put t ∧ s.phase t = .found q ids := by
  cases a with
  | clearShard t =>
    simp only [step] at h
    split at h
    · rename_i n hphase
      cases h
      simp only at hcache
      split_ifs at hcache with hshard
      refine .inl ⟨hcache, ?_⟩
      rintro ⟨t', ht', hphase'⟩
      cases ht'
      rw [hphase] at hphase'
      cases hphase'
      exact hshard rfl
    · cases h
  | put t =>
    simp only [step] at h
    split at h
    · rename_i q' ids' hphase
      cases h
      simp only at hcache
      by_cases hq : q = q'
      · subst hq
        rw [Function.update_self] at hcache
        cases hcache
        exact .inr ⟨t, rfl, hphase⟩
      · rw [Function.update_of_ne hq] at hcache
        exact .inl ⟨hcache, by rintro ⟨_, ht, -⟩; cases ht⟩
    · cases h
  | evict q' =>
    simp only [step] at h
    cases h
    simp only at hcache
    by_cases hq : q = q'
    · subst hq
      simp at hcache
    · rw [Function.update_of_ne hq] at hcache
      exact .inl ⟨hcache, by rintro ⟨_, ht, -⟩; cases ht⟩
  | _ =>
    have hsame : s'.cache = s.cache := by
      simp only [step] at h
      split at h <;> grind [IndexDb.goto]
    rw [hsame] at hcache
    exact .inl ⟨hcache, by rintro ⟨_, ht, -⟩; cases ht⟩

omit [DecidableEq Query] [DecidableEq Item] in
@[simp]
theorem phase_goto (s : IndexDb Query Item) (t u : ℕ) (p : Phase Query Item) :
    (s.goto t p).phase u = if u = t then p else s.phase u := by
  exact Function.update_apply ..

/-- The thread that takes the step. -/
def Action.thread : Action Query Item → Option ℕ
  | .lookup t _ _ | .readItems t | .readDeleted t | .put t | .addToInmemoryParts t _ _ | .setFlag t
  | .flushCallbackWorker t _ | .saveDeletedMetricIds t _ | .clearShard t => some t
  | .evict _ => none

/-- The other threads stay where they are. -/
theorem phase_of_ne (h : step matching hash s a = some s') {t : ℕ} (ht : a.thread ≠ some t) :
    s'.phase t = s.phase t := by
  cases a with
  | evict q =>
    cases h
    rfl
  | _ u =>
    have htu : t ≠ u := fun h => ht (congrArg some h.symm)
    simp only [step] at h
    repeat' split at h
    all_goals cases h
    all_goals simp [htu]

/-- What a thread does in a step that moves it. -/
theorem phase_of_step (h : step matching hash s a = some s') (t : ℕ) :
    s'.phase t = s.phase t ∧ a ≠ .readItems t ∧ (∀ n, ¬ (a = .clearShard t ∧
        s.phase t = .resetting n)) ∨
      (∃ q max, a = .lookup t q max ∧ s.cache q = none ∧ s'.phase t = .missed q max) ∨
      (∃ q max, a = .readItems t ∧ s.phase t = .missed q max ∧
        s'.phase t = .opened q max s.items) ∨
      (∃ q max items, a = .readDeleted t ∧ s.phase t = .opened q max items ∧
        s'.phase t = if (matching q items).card > max then .idle
          else .found q (matching q items \ s.deletedMetricIds)) ∨
      (∃ n, a = .clearShard t ∧ s.phase t = .resetting n ∧
        s'.phase t = if n + 1 < wscShards then .resetting (n + 1) else .idle) ∨
      (s.phase t = .idle ∧ (s'.phase t = .resetting 0 ∨ s'.phase t = .flushed)) ∨
      ((s.phase t = .flushed ∨ ∃ q ids, s.phase t = .found q ids) ∧ s'.phase t = .idle) := by
  by_cases ht : a.thread = some t
  · cases a with
    | evict q' => cases ht
    | _ u =>
      obtain rfl : u = t := Option.some.inj ht
      simp only [step] at h
      repeat' split at h
      all_goals cases h
      all_goals simp_all
  · refine .inl ⟨phase_of_ne h ht, ?_, ?_⟩
    · rintro rfl
      exact ht rfl
    · rintro n ⟨rfl, -⟩
      exact ht rfl

theorem phase_of_lookup {t : ℕ} {q : Query} {max : ℕ}
    (h : step matching hash s (.lookup t q max) = some s') :
    s'.phase t = .idle ∨ s'.phase t = .missed q max := by
  simp only [step] at h
  repeat' split at h
  all_goals cases h
  all_goals simp_all

/-! ### Runs -/

variable {items₀ : Finset Item} {deleted₀ : Finset UInt64}

/-- The shard of `q` is not emptied between the moments `i` and `n`. -/
def NotCleared (r : Run (step matching hash) (.init items₀ deleted₀)) (q : Query)
    (i n : ℕ) : Prop :=
  ∀ m, i < m → m < n → ¬ Clears (r.state m) (r.action m) (shardOf hash q)

/-- The thread `t` last opened an index search at the moment `i`. -/
def OpenedAt (r : Run (step matching hash) (.init items₀ deleted₀)) (t i n : ℕ) : Prop :=
  i < n ∧ r.action i = .readItems t ∧ ∀ m, i < m → m < n → r.action m ≠ .readItems t

/-- No result is put over a reset: the shard of its key has not been emptied since the search read
the items. -/
def PutsFresh (r : Run (step matching hash) (.init items₀ deleted₀)) : Prop :=
  ∀ n, n < r.length → ∀ t q ids i, r.action n = .put t → (r.state n).phase t = .found q ids →
    OpenedAt r t i n → NotCleared r q i n

/-- The ids are those of a search that read the items at `i` and the deleted ids at `j`. -/
def FoundAt (r : Run (step matching hash) (.init items₀ deleted₀)) (q : Query) (ids : Finset UInt64)
    (i j : ℕ) : Prop :=
  ids = matching q (r.state i).items \ (r.state j).deletedMetricIds

/-- Where the result of a running search comes from. -/
theorem opened_of_phase (r : Run (step matching hash) (.init items₀ deleted₀)) (t : ℕ) :
    ∀ n, n ≤ r.length →
      (∀ q max items, (r.state n).phase t = .opened q max items →
        ∃ i, OpenedAt r t i n ∧ items = (r.state i).items) ∧
      ∀ q ids, (r.state n).phase t = .found q ids →
        ∃ i j, OpenedAt r t i n ∧ i < j ∧ j < n ∧ FoundAt r q ids i j := by
  have hkeep : ∀ {i n}, OpenedAt r t i n → r.action n ≠ .readItems t → OpenedAt r t i (n + 1) := by
    rintro i n ⟨hi, hread, hlast⟩ hne
    refine ⟨by omega, hread, fun m hm hmn => ?_⟩
    rcases Nat.lt_succ_iff_lt_or_eq.mp hmn with hmn | rfl
    · exact hlast m hm hmn
    · exact hne
  intro n hn
  induction n with
  | zero => simp [r.state_zero, IndexDb.init]
  | succ n ih =>
    obtain ⟨ihopened, ihfound⟩ := ih (by omega)
    have hphase := phase_of_step (r.step_eq n (by omega)) t
    refine ⟨fun q max items hq => ?_, fun q ids hq => ?_⟩
    · rcases hphase with ⟨heq, hne, -⟩ | ⟨_, _, -, -, h⟩ | ⟨_, _, hact, -, h⟩ | ⟨_, _, _, -, -, h⟩ |
        ⟨_, -, -, h⟩ | ⟨-, h | h⟩ | ⟨-, h⟩
      · obtain ⟨i, hi, hitems⟩ := ihopened q max items (heq ▸ hq)
        exact ⟨i, hkeep hi hne, hitems⟩
      · cases hq.symm.trans h
      · cases hq.symm.trans h
        exact ⟨n, ⟨by omega, hact, fun m hm hmn => by omega⟩, rfl⟩
      · split_ifs at h <;> cases hq.symm.trans h
      · split_ifs at h <;> cases hq.symm.trans h
      · cases hq.symm.trans h
      · cases hq.symm.trans h
      · cases hq.symm.trans h
    · rcases hphase with ⟨heq, hne, -⟩ | ⟨_, _, -, -, h⟩ | ⟨_, _, hact, -, h⟩ |
        ⟨_, _, _, hact, hopened, h⟩ | ⟨_, -, -, h⟩ | ⟨-, h | h⟩ | ⟨-, h⟩
      · obtain ⟨i, j, hi, hij, hj, hfound⟩ := ihfound q ids (heq ▸ hq)
        exact ⟨i, j, hkeep hi hne, hij, by omega, hfound⟩
      · cases hq.symm.trans h
      · cases hq.symm.trans h
      · obtain ⟨i, hi, hitems⟩ := ihopened _ _ _ hopened
        split_ifs at h
        · cases hq.symm.trans h
        · cases hq.symm.trans h
          refine ⟨i, n, hkeep hi (by rw [hact]; exact nofun), hi.1, by omega, ?_⟩
          rw [FoundAt, hitems]
      · split_ifs at h <;> cases hq.symm.trans h
      · cases hq.symm.trans h
      · cases hq.symm.trans h
      · cases hq.symm.trans h

/-- Where the entries of the cache come from, when no result is put over a reset. -/
theorem found_of_cache (r : Run (step matching hash) (.init items₀ deleted₀))
    (hfresh : PutsFresh r) :
    ∀ n, n ≤ r.length → ∀ q ids, (r.state n).cache q = some ids →
      ∃ i j, i < j ∧ j < n ∧ FoundAt r q ids i j ∧ NotCleared r q i n := by
  have hkeep : ∀ {q i n}, NotCleared r q i n →
      ¬ Clears (r.state n) (r.action n) (shardOf hash q) → NotCleared r q i (n + 1) := by
    intro q i n hnot hclear m hm hmn
    rcases Nat.lt_succ_iff_lt_or_eq.mp hmn with hmn | rfl
    · exact hnot m hm hmn
    · exact hclear
  intro n hn
  induction n with
  | zero => simp [r.state_zero, IndexDb.init]
  | succ n ih =>
    intro q ids hq
    rcases cache_of_step (r.step_eq n (by omega)) hq with ⟨hold, hclear⟩ | ⟨t, hput, hphase⟩
    · obtain ⟨i, j, hij, hj, hfound, hnot⟩ := ih (by omega) q ids hold
      exact ⟨i, j, hij, by omega, hfound, hkeep hnot hclear⟩
    · obtain ⟨i, j, hi, hij, hj, hfound⟩ := (opened_of_phase r t n (by omega)).2 q ids hphase
      have hnot := hfresh n (by omega) t q ids i hput hphase hi
      refine ⟨i, j, hij, by omega, hfound, hkeep hnot ?_⟩
      rintro ⟨u, hclear, -⟩
      rw [hput] at hclear
      cases hclear

/-- A reset by the thread `u` that begins with the step `k` and ends with the step `e`. -/
structure IsReset (r : Run (step matching hash) (.init items₀ deleted₀)) (u k e : ℕ) : Prop where
  lt : k < e
  lt_length : e < r.length
  begins : (r.state (k + 1)).phase u = .resetting 0
  between : ∀ m, k < m → m ≤ e → ∃ n, (r.state m).phase u = .resetting n
  ends : (r.state (e + 1)).phase u = .idle

/-- A reset empties every shard. -/
theorem IsReset.exists_clears {r : Run (step matching hash) (.init items₀ deleted₀)} {u k e : ℕ}
    (h : IsReset r u k e) {n : ℕ} (hn : n < wscShards) :
    ∃ c, k < c ∧ c ≤ e ∧ Clears (r.state c) (r.action c) n := by
  have hpast : ∀ m, k < m → m ≤ e → ∀ i, (r.state m).phase u = .resetting i → ∀ j, j < i →
      ∃ c, k < c ∧ c < m ∧ Clears (r.state c) (r.action c) j := by
    intro m hkm
    induction m, hkm using Nat.le_induction with
    | base =>
      intro hke i hi j hj
      rw [h.begins] at hi
      cases hi
      omega
    | succ m hkm ih =>
      intro hme i hi j hj
      have hlen := h.lt_length
      obtain ⟨i', hi'⟩ := h.between m hkm (by omega)
      rcases phase_of_step (r.step_eq m (by omega)) u with ⟨heq, -, -⟩ | ⟨_, _, -, -, h⟩ |
        ⟨_, _, -, h, -⟩ | ⟨_, _, _, -, h, -⟩ | ⟨i'', hact, hold, hnew⟩ | ⟨h, -⟩ | ⟨h | ⟨_, _, h⟩, -⟩
      · obtain ⟨c, hkc, hcm, hclear⟩ := ih (by omega) i (heq ▸ hi) j hj
        exact ⟨c, hkc, by omega, hclear⟩
      · cases hi.symm.trans h
      · cases hi'.symm.trans h
      · cases hi'.symm.trans h
      · cases hi'.symm.trans hold
        split_ifs at hnew
        · cases hi.symm.trans hnew
          rcases Nat.lt_succ_iff_lt_or_eq.mp hj with hj | rfl
          · obtain ⟨c, hkc, hcm, hclear⟩ := ih (by omega) _ hold j hj
            exact ⟨c, hkc, by omega, hclear⟩
          · exact ⟨m, hkm, by omega, u, hact, hold⟩
        · cases hi.symm.trans hnew
      · cases hi'.symm.trans h
      · cases hi'.symm.trans h
      · cases hi'.symm.trans h
  obtain ⟨i, hi⟩ := h.between e h.lt (Nat.le_refl e)
  rcases phase_of_step (r.step_eq e h.lt_length) u with ⟨heq, -, -⟩ | ⟨_, _, -, -, hm⟩ |
    ⟨_, _, -, hm, -⟩ | ⟨_, _, _, -, hm, -⟩ | ⟨i', hact, hold, hnew⟩ | ⟨hm, -⟩ | ⟨hm | ⟨_, _, hm⟩, -⟩
  · cases h.ends.symm.trans (heq.trans hi)
  · cases h.ends.symm.trans hm
  · cases hi.symm.trans hm
  · cases hi.symm.trans hm
  · cases hi.symm.trans hold
    split_ifs at hnew with hlast
    · cases h.ends.symm.trans hnew
    · rcases Nat.lt_or_ge n i with hlt | hge
      · obtain ⟨c, hkc, hce, hclear⟩ := hpast e h.lt (Nat.le_refl e) i hold n hlt
        exact ⟨c, hkc, by omega, hclear⟩
      · obtain rfl : n = i := by omega
        exact ⟨e, h.lt, Nat.le_refl e, u, hact, hold⟩
  · cases hi.symm.trans hm
  · cases hi.symm.trans hm
  · cases hi.symm.trans hm

/-- A search by the thread `t` that begins with the step `b` and returns with the step `e`. -/
structure IsSearch (r : Run (step matching hash) (.init items₀ deleted₀)) (t : ℕ) (q : Query)
    (maxMetrics b e : ℕ) (res : SearchResult) : Prop where
  le : b ≤ e
  lt_length : e < r.length
  begins : r.action b = .lookup t q maxMetrics
  between : ∀ m, b < m → m ≤ e → ∀ q' max', r.action m ≠ .lookup t q' max'
  thread_eq : (r.action e).thread = some t
  ends : returned matching (r.state e) (r.action e) = some res

variable (matching) in
/-- The result is that of an uncached search over the given items and deleted ids. The limit is a
matter of the call: a cached result is compared with it without the deleted ids. -/
def Agrees (q : Query) (maxMetrics : ℕ) (items : Finset Item) (deleted : Finset UInt64) :
    SearchResult → Prop
  | .ok ids => ids = matching q items \ deleted
  | .tooManyTimeseries max => max = maxMetrics ∧ (matching q items).card > maxMetrics

/-- A search that begins after a reset has ended returns what an uncached search returns over
items and deleted ids that held since that reset began. -/
def SearchesCurrent (r : Run (step matching hash) (.init items₀ deleted₀)) : Prop :=
  ∀ u k e, IsReset r u k e → ∀ t q maxMetrics b e' res, e < b →
    IsSearch r t q maxMetrics b e' res →
      ∃ i j, k < i ∧ i ≤ j ∧ j ≤ e' ∧
        Agrees matching q maxMetrics (r.state i).items (r.state j).deletedMetricIds res

/-- A search that the cache does not answer reads the items and the deleted ids itself. -/
theorem IsSearch.phase_spec {r : Run (step matching hash) (.init items₀ deleted₀)} {t : ℕ}
    {q : Query} {maxMetrics b e : ℕ} {res : SearchResult}
    (h : IsSearch r t q maxMetrics b e res) : ∀ m, b < m → m ≤ e →
      (∀ q' max, (r.state m).phase t = .missed q' max → q' = q ∧ max = maxMetrics) ∧
      (∀ q' max items, (r.state m).phase t = .opened q' max items → q' = q ∧ max = maxMetrics ∧
        ∃ i, b < i ∧ i < m ∧ items = (r.state i).items) ∧
      ∀ q' ids, (r.state m).phase t = .found q' ids → q' = q ∧
        ∃ i j, b < i ∧ i < j ∧ j < m ∧ FoundAt r q ids i j := by
  intro m hbm
  have hlen := h.lt_length
  induction m, hbm using Nat.le_induction with
  | base =>
    intro hbe
    have hstep := r.step_eq b (by omega)
    rw [h.begins] at hstep
    rcases phase_of_lookup hstep with hnew | hnew
    · rw [hnew]
      exact ⟨nofun, nofun, nofun⟩
    · rw [hnew]
      refine ⟨fun q' max hq => ?_, nofun, nofun⟩
      cases hq
      exact ⟨rfl, rfl⟩
  | succ m hbm ih =>
    intro hme
    obtain ⟨ihmissed, ihopened, ihfound⟩ := ih (by omega)
    have hphase := phase_of_step (r.step_eq m (by omega)) t
    rcases hphase with ⟨heq, -, -⟩ | ⟨q1, max1, hact, -, -⟩ | ⟨q1, max1, -, hold, hnew⟩ |
      ⟨q1, max1, items, -, hold, hnew⟩ | ⟨n, -, -, hnew⟩ | ⟨-, hnew | hnew⟩ | ⟨-, hnew⟩
    · rw [heq]
      refine ⟨ihmissed, fun q' max items hq => ?_, fun q' ids hq => ?_⟩
      · obtain ⟨hq', hmax, i, hbi, him, hitems⟩ := ihopened q' max items hq
        exact ⟨hq', hmax, i, hbi, by omega, hitems⟩
      · obtain ⟨hq', i, j, hbi, hij, hjm, hfound⟩ := ihfound q' ids hq
        exact ⟨hq', i, j, hbi, hij, by omega, hfound⟩
    · exact absurd hact (h.between m hbm (by omega) q1 max1)
    · obtain ⟨rfl, rfl⟩ := ihmissed q1 max1 hold
      rw [hnew]
      refine ⟨nofun, fun q' max items hq => ?_, nofun⟩
      cases hq
      exact ⟨rfl, rfl, m, hbm, by omega, rfl⟩
    · obtain ⟨rfl, rfl, i, hbi, him, hitems⟩ := ihopened q1 max1 items hold
      rw [hnew]
      split_ifs
      · exact ⟨nofun, nofun, nofun⟩
      · refine ⟨nofun, nofun, fun q' ids hq => ?_⟩
        cases hq
        exact ⟨rfl, i, m, hbi, him, by omega, by rw [FoundAt, hitems]⟩
    · rw [hnew]
      split_ifs <;> exact ⟨nofun, nofun, nofun⟩
    · rw [hnew]
      exact ⟨nofun, nofun, nofun⟩
    · rw [hnew]
      exact ⟨nofun, nofun, nofun⟩
    · rw [hnew]
      exact ⟨nofun, nofun, nofun⟩

/-- When no result is put over a reset, no search that begins after a reset sees a result from
before it. -/
theorem search_current (r : Run (step matching hash) (.init items₀ deleted₀)) (h : PutsFresh r) :
    SearchesCurrent r := by
  intro u k e hreset t q maxMetrics b e' res heb hsearch
  have hlen := hsearch.lt_length
  have hends := hsearch.ends
  have hthread := hsearch.thread_eq
  rcases Nat.eq_or_lt_of_le hsearch.le with rfl | hbe
  · -- answered by the cache
    rw [hsearch.begins] at hends
    simp only [returned] at hends
    split at hends
    · rename_i ids hcache
      obtain ⟨i, j, hij, hj, hfound, hnot⟩ := found_of_cache r h b (by omega) q ids hcache
      obtain ⟨c, hkc, hce, hclear⟩ :=
        hreset.exists_clears (Nat.mod_lt (hash q).toNat (by decide : 0 < wscShards))
      have hci : c ≤ i := by
        by_contra hlt
        exact hnot c (by omega) (by omega) hclear
      refine ⟨i, j, by omega, by omega, by omega, ?_⟩
      cases hends
      split_ifs with hmany
      · refine ⟨rfl, Nat.lt_of_lt_of_le hmany ?_⟩
        rw [hfound]
        exact Finset.card_le_card Finset.sdiff_subset
      · exact hfound
    · cases hends
  · obtain ⟨-, hopened, hfound⟩ := hsearch.phase_spec e' hbe (Nat.le_refl e')
    cases hact : r.action e' with
    | lookup t' q' max' =>
      rw [hact] at hthread
      cases hthread
      exact absurd hact (hsearch.between e' hbe (Nat.le_refl e') q' max')
    | readDeleted t' =>
      rw [hact] at hthread hends
      cases hthread
      simp only [returned] at hends
      split at hends
      · rename_i q' max' items hphase
        obtain ⟨rfl, rfl, i, hbi, hie, rfl⟩ := hopened q' max' items hphase
        split_ifs at hends with hmany
        cases hends
        have := hreset.lt
        exact ⟨i, e', by omega, by omega, Nat.le_refl e', rfl, hmany⟩
      · cases hends
    | put t' =>
      rw [hact] at hthread hends
      cases hthread
      simp only [returned] at hends
      split at hends
      · rename_i q' ids hphase
        obtain ⟨rfl, i, j, hbi, hij, hje, hids⟩ := hfound q' ids hphase
        cases hends
        have := hreset.lt
        exact ⟨i, j, by omega, by omega, by omega, hids⟩
      · cases hends
    | _ => rw [hact] at hends; simp [returned] at hends

end Model

/-! ### A stale entry -/

/-- An index whose items are the ids themselves, with one query that matches all of them. -/
def matchAll (_ : Unit) (items : Finset UInt64) : Finset UInt64 := items

/-- A search reads the items; the series is deleted and the cache reset; the search puts its
result; another search begins. -/
def staleActions : List (Action Unit UInt64) :=
  [.lookup 0 () 10, .readItems 0, .readDeleted 0, .saveDeletedMetricIds 1 {7}] ++
    List.replicate 16 (.clearShard 1) ++ [.put 0, .lookup 2 () 10]

def staleRun : Run (step matchAll fun _ => 0) (.init {7} ∅) :=
  .ofActions staleActions (by rfl)

/-- The deleted series is returned by a search that begins after the reset has ended. -/
theorem stale_after_reset : ¬ SearchesCurrent staleRun := by
  intro h
  have hreset : IsReset staleRun 1 3 19 := by
    refine ⟨by decide, by decide, rfl, fun m hm hm' => ?_, rfl⟩
    interval_cases m <;> exact ⟨_, rfl⟩
  have hsearch : IsSearch staleRun 2 () 10 21 21 (.ok {7}) :=
    ⟨Nat.le_refl _, by decide, rfl, fun m hm hm' => by omega, rfl, rfl⟩
  obtain ⟨i, j, hi, hij, hj, hagrees⟩ := h 1 3 19 hreset 2 () 10 21 21 _ (by decide) hsearch
  have hdeleted : (staleRun.state j).deletedMetricIds = {7} := by
    have hj3 : 3 < j := by omega
    interval_cases j <;> rfl
  have hitems : (staleRun.state i).items = {7} := by
    have hi21 : i ≤ 21 := by omega
    interval_cases i <;> rfl
  rw [Agrees, hdeleted, hitems] at hagrees
  exact absurd hagrees (by decide)

/-- A series is deleted, and a search begins after the reset. -/
def freshRun : Run (step matchAll fun _ => 0) (.init {7} ∅) :=
  .ofActions (.saveDeletedMetricIds 1 {7} :: List.replicate 16 (.clearShard 1) ++
    [.lookup 2 () 10, .readItems 2, .readDeleted 2, .put 2]) (by rfl)

theorem search_current_freshRun : SearchesCurrent freshRun := by
  refine search_current freshRun fun n hn t q ids i hput hphase hopened => ?_
  obtain rfl : n = 20 := by
    have hn : n < 21 := hn
    interval_cases n <;> first | rfl | cases hput
  obtain rfl : i = 18 := by
    have hi := hopened.1
    have hread := hopened.2.1
    interval_cases i <;> first | rfl | cases hread
  intro m him hmn
  obtain rfl : m = 19 := by omega
  rintro ⟨u, hclear, -⟩
  cases hclear

end Esmetrics.FiltersCache
