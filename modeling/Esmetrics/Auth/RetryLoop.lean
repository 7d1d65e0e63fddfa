import Esmetrics.Auth.Balance

/-!
# The retry loop of the proxy

Model of the loop of `Proxy::proxy` in `esm-auth/src/proxy.rs`, which makes as many attempts as the
pool has backends, for a request that runs alone. What the backends answer, whether an answer can be
streamed to the client and what the clock shows are inputs, for every attempt their own.

A failed attempt marks its backend broken for longer than the request takes. So every attempt is
made at another backend as long as there is one that works and that the scan of each selection
reaches (`retryLoop_finds`). The pools for which a request finds a working backend, whatever their
backends are busy with, are those that `ScansAll` lists (`finds_working_iff`).
-/

namespace Esmetrics.Auth

open List

open RotatedScan

/-! ### Attempts -/

/-- What the loop knows of a request. -/
structure RoutedRequest where
  path : Bytes
  query : Bytes
  fullRequestUri : Bytes
  dropSrcPathPrefixParts : ℕ
  mergeQueryArgs : List Bytes
  isDefault : Bool
  retryStatusCodes : List UInt16
  canRetry : Bool

/-- The clock, the answers to what is sent, and whether they can be streamed, by the number of the
attempt. -/
structure Network where
  selectAt : ℕ → ℕ
  failAt : ℕ → ℕ
  send : ℕ → Bytes → Except Bytes UInt16
  streams : ℕ → Bool

inductive AttemptOutcome where
  | success (status : UInt16)
  | clientCanceled (status : UInt16)
  | connectError (err : Bytes)
  | retryStatus (status : UInt16)
  deriving DecidableEq

/-- How a request ends. -/
inductive ProxyResponse where
  /-- The answer of a backend, streamed in full. -/
  | streamed (attempt : ℕ) (backend : Selected) (status : UInt16)
  /-- The answer of a backend, up to where the stream broke off. -/
  | canceled (attempt : ℕ) (backend : Selected) (status : UInt16)
  /-- Status 503, "cannot proxy the request to". -/
  | cannotProxy (target err : Bytes)
  /-- Status 503, "cannot retry the request at another backend". -/
  | cannotRetry (status : UInt16) (target : Bytes)
  /-- Status 502, "all the backends are unavailable". -/
  | unavailable (maxAttempts : ℕ)
  /-- Status 502, "no backends are configured for the resolved route". -/
  | notConfigured
  deriving DecidableEq

def RoutedRequest.target (r : RoutedRequest) (url : Bytes) : Bytes :=
  buildTargetUrl url r.path r.query r.dropSrcPathPrefixParts r.mergeQueryArgs r.isDefault
  r.fullRequestUri

def attempt (r : RoutedRequest) (net : Network) (j : ℕ) (target : Bytes) : AttemptOutcome :=
  match net.send j target with
  | .error err => .connectError err
  | .ok status =>
    if status ∈ r.retryStatusCodes then .retryStatus status
    else if net.streams j then .success status
    else .clientCanceled status

/-- The attempts from number `j` on. -/
def retryLoop (r : RoutedRequest) (net : Network) (maxAttempts : ℕ) :
    ℕ → ℕ → BackendPool → Outcome (ProxyResponse × BackendPool)
  | 0, _, pool => .ok (.unavailable maxAttempts, pool)
  | left + 1, j, pool => do
    let (selected, pool) ← pool.select (net.selectAt j)
    match selected with
    | none => .ok (.unavailable maxAttempts, pool)
    | some p =>
      let target := r.target p.1.url
      let outcome := attempt r net j target
      let pool := pool.release p.2
      match outcome with
      | .success status => .ok (.streamed j p status, pool)
      | .clientCanceled status => .ok (.canceled j p status, pool)
      | .connectError err =>
        let pool := pool.setBroken p.2 (net.failAt j + pool.failTimeout)
        if r.canRetry then retryLoop r net maxAttempts left (j + 1) pool
        else .ok (.cannotProxy target err, pool)
      | .retryStatus status =>
        if r.canRetry then
          retryLoop r net maxAttempts left (j + 1)
            (pool.setBroken p.2 (net.failAt j + pool.failTimeout))
        else .ok (.cannotRetry status target, pool)

def proxy (r : RoutedRequest) (net : Network) (pool : BackendPool) :
    Outcome (ProxyResponse × BackendPool) :=
  if pool.backends.length = 0 then .ok (.notConfigured, pool)
  else retryLoop r net pool.backends.length pool.backends.length 0 pool

/-! ### What is expected of a request -/

/-- The backend answers every attempt, with a status that is not retried. -/
def Answers (r : RoutedRequest) (net : Network) (b : Backend) : Prop :=
  ∀ j, ∃ status, net.send j (r.target b.url) = .ok status ∧ status ∉ r.retryStatusCodes

/-- The clock does not go back, and a failed backend stays broken until the last selection. -/
structure Network.Outlived (net : Network) (failTimeout : ℕ) : Prop where
  mono : Monotone net.selectAt
  longer : ∀ i j, net.selectAt j < net.failAt i + failTimeout

/-- A request ends with the answer of a backend that was not broken when it was selected. -/
structure EndsAt (r : RoutedRequest) (net : Network) (pool : BackendPool) (j : ℕ) (p : Selected)
    (status : UInt16) : Prop where
  response : ∃ pool', proxy r net pool =
    .ok (if net.streams j then .streamed j p status else .canceled j p status, pool')
  backend : (pool.backends[p.2]?).map Backend.url = some p.1.url
  unbroken : p.1.isBroken (net.selectAt j) = false
  answer : net.send j (r.target p.1.url) = .ok status ∧ status ∉ r.retryStatusCodes

/-- A request that can be retried finds a backend that works. -/
def FindsWorking (r : RoutedRequest) (net : Network) (pool : BackendPool) : Prop :=
  r.canRetry → net.Outlived pool.failTimeout →
    (∃ b ∈ pool.backends, b.isBroken (net.selectAt 0) = false ∧ Answers r net b) →
    ∃ j p status, EndsAt r net pool j p status

/-- A request leaves the backends with the counts that they had. -/
def RestoresInFlight (r : RoutedRequest) (net : Network) (pool : BackendPool) : Prop :=
  ∀ response pool', proxy r net pool = .ok (response, pool') →
    pool'.backends.map (fun b => (b.url, b.inFlight)) = pool.backends.map fun b =>
    (b.url, b.inFlight)

/-- The pools whose backends are all reached by the first selection and by those behind a failed
attempt. -/
def ScansAll (policy : LoadBalancingPolicy) (len : ℕ) (n : UInt32) : Prop :=
  policy = .firstAvailable ∨ len = 1 ∨ len ≤ 2 ^ 31 ∧ (n.toNat + len ≤ 2 ^ 32 ∨ len ∣ 2 ^ 32) ∨
    len + 1 = 2 ^ 32 ∧ n.toNat ≤ 1

/-- The pools at an instant between requests, of which one ends before the next one starts. -/
inductive Reachable (urls : List Bytes) (policy : LoadBalancingPolicy) (failTimeout : ℕ) :
    ℕ → BackendPool → Prop where
  | new (now : ℕ) : Reachable urls policy failTimeout now (BackendPool.new urls policy failTimeout)
  | request {now later : ℕ} {pool pool' : BackendPool} (r : RoutedRequest) (net : Network)
      {response : ProxyResponse} (h : Reachable urls policy failTimeout now pool)
      (hstart : now ≤ net.selectAt 0)
      (hclock : ∀ j, net.selectAt j ≤ net.failAt j ∧ net.failAt j ≤ net.selectAt (j + 1) ∧
        net.failAt j ≤ later)
      (hproxy : proxy r net pool = .ok (response, pool')) :
        Reachable urls policy failTimeout later pool'

/-! ### In-flight counts -/

theorem modify_release_acquire (backends : List Backend) (idx : ℕ) :
    (backends.modify idx Backend.acquire).modify idx Backend.release = backends := by
  rw [modify_modify_eq]
  have h : Backend.release ∘ Backend.acquire = id := funext Backend.release_acquire
  rw [h, modify_id]

/-- A selection and the release of what it gave change the counter only. -/
theorem release_select {pool pool' : BackendPool} {now : ℕ} {p : Selected}
    (h : pool.select now = .ok (some p, pool')) : pool'.release p.2 =
    { pool with n := pool'.n } := by
  obtain ⟨hnone, -⟩ | ⟨q, n, hq, rfl⟩ := select_cases h
  · cases hnone
  · cases hq
    rw [BackendPool.release]
    simp only [modify_release_acquire]

theorem map_setBroken (backends : List Backend) (idx deadline : ℕ) :
    (backends.modify idx (Backend.setBroken deadline)).map (fun b => (b.url, b.inFlight)) =
      backends.map fun b => (b.url, b.inFlight) := by
  apply ext_getElem?
  intro i
  simp only [getElem?_map, getElem?_modify]
  rcases backends[i]? with _ | b
  · rfl
  · split
    · rfl
    · rfl

theorem retryLoop_restores {r : RoutedRequest} {net : Network} {maxAttempts left j : ℕ}
    {pool pool' : BackendPool}
    {response : ProxyResponse} (h : retryLoop r net maxAttempts left j pool =
      .ok (response, pool')) :
    pool'.backends.map (fun b => (b.url, b.inFlight)) = pool.backends.map fun b =>
      (b.url, b.inFlight) := by
  induction left generalizing j pool with
  | zero =>
    cases h
    rfl
  | succ left ih =>
    rw [retryLoop] at h
    obtain ⟨⟨selected, pool₁⟩, hselect, hrest⟩ := Outcome.bind_eq_ok_iff.mp h
    dsimp only at hrest
    split at hrest
    · obtain ⟨-, rfl⟩ | ⟨q, n, hq, -⟩ := select_cases hselect
      · cases hrest
        rfl
      · cases hq
    · rename_i p
      rw [release_select hselect] at hrest
      split at hrest
      · cases hrest
        rfl
      · cases hrest
        rfl
      · split at hrest
        · rw [ih hrest]
          exact map_setBroken _ _ _
        · cases hrest
          exact map_setBroken _ _ _
      · split at hrest
        · rw [ih hrest]
          exact map_setBroken _ _ _
        · cases hrest
          rfl

theorem restoresInFlight (r : RoutedRequest) (net : Network) (pool : BackendPool) :
    RestoresInFlight r net pool := by
  intro response pool' h
  rw [proxy] at h
  split at h
  · cases h
    rfl
  · exact retryLoop_restores h

/-! ### A working backend is found -/

/-- The pools of which a scan that starts behind a selected backend leaves out that one at most. -/
def Steady (policy : LoadBalancingPolicy) (len : ℕ) : Prop :=
  policy = .firstAvailable ∨ len = 1 ∨ len ≤ 2 ^ 31 ∨ len + 1 = 2 ^ 32

/-- The state of the loop behind some failed attempts, while the backend at `good` works. -/
structure Progress (r : RoutedRequest) (net : Network) (good : ℕ) (tried : List ℕ)
    (pool : BackendPool) : Prop where
  outlived : net.Outlived pool.failTimeout
  steady : Steady pool.policy pool.backends.length
  works : ∃ b, pool.backends[good]? = some b ∧ b.isBroken (net.selectAt 0) = false ∧ Answers r net b
  nodup : tried.Nodup
  broken : ∀ x ∈ tried, ∃ b, pool.backends[x]? = some b ∧ ∀ j, b.isBroken (net.selectAt j) = true
  tries : ∀ x < pool.backends.length, x ∉ tried → pool.Tries x

section

variable {r : RoutedRequest} {net : Network} {good : ℕ} {tried : List ℕ} {pool pool' : BackendPool}

theorem Progress.good_not_mem (h : Progress r net good tried pool) : good ∉ tried := by
  intro hmem
  obtain ⟨b, hb, hunbroken, -⟩ := h.works
  obtain ⟨c, hc, hbroken⟩ := h.broken good hmem
  obtain rfl : b = c := Option.some.inj (hb.symm.trans hc)
  rw [hbroken 0] at hunbroken
  cases hunbroken

theorem Progress.good_lt (h : Progress r net good tried pool) : good < pool.backends.length := by
  obtain ⟨b, hb, -⟩ := h.works
  exact (List.getElem?_eq_some_iff.mp hb).1

/-- The failed backends and the good one are different places of the pool. -/
theorem Progress.length_lt (h : Progress r net good tried pool) :
    tried.length < pool.backends.length := by
  have hsub : good :: tried ⊆ List.range pool.backends.length := by
    intro x hx
    rw [mem_range]
    rcases mem_cons.mp hx with rfl | hx
    · exact h.good_lt
    · obtain ⟨b, hb, -⟩ := h.broken x hx
      exact (List.getElem?_eq_some_iff.mp hb).1
  have hnodup : (good :: tried).Nodup := nodup_cons.mpr ⟨h.good_not_mem, h.nodup⟩
  have hle := (subperm_of_subset hnodup hsub).length_le
  rwa [length_cons, length_range] at hle

theorem Progress.exists_selects (h : Progress r net good tried pool) (j : ℕ) :
    ∃ p pool', Selects pool (net.selectAt j) p pool' ∧ p.1.isBroken (net.selectAt j) = false ∧
      (pool.policy = .leastLoaded → pool.backends.length ≠ 1 → pool'.n = UInt32.ofNat p.2 + 1) := by
  obtain ⟨b, hb, hunbroken, -⟩ := h.works
  have hlater := Backend.isBroken_mono (h.outlived.mono (Nat.zero_le j)) hunbroken
  exact Auth.exists_selects ⟨b, hb, hlater⟩ (h.tries good h.good_lt h.good_not_mem)

/-- A scan that starts behind the place `idx` reaches the others. -/
theorem tries_behind {pool : BackendPool} {idx x : ℕ}
    (hsteady : Steady pool.policy pool.backends.length)
    (hidx : idx < pool.backends.length) (hx : x < pool.backends.length) (hne : x ≠ idx)
    (hn : pool.policy = .leastLoaded → pool.backends.length ≠ 1 → pool.n = UInt32.ofNat idx + 1) :
    pool.Tries x := by
  rcases hpolicy : pool.policy with _ | _
  · by_cases hone : pool.backends.length = 1
    · exact .inr (.inl hone)
    · obtain h | h | hlen := hsteady
      · rw [hpolicy] at h
        cases h
      · exact absurd h hone
      · have hsucc : pool.n.toNat = idx + 1 := by
          have hlt : idx < 2 ^ 32 := by omega
          rw [hn hpolicy hone, UInt32.toNat_add, UInt32.toNat_ofNat_of_lt' hlt, UInt32.toNat_one,
            Nat.mod_eq_of_lt (by omega)]
        refine .inr (.inr ⟨by omega, ?_⟩)
        rw [hsucc]
        rcases hlen with hlen | hlen
        · exact mem_visits_of_add_le (by omega) hx
        · exact mem_visits_of_succ hlen (by omega) hx (by omega)
  · exact .inl hpolicy

theorem Progress.fail {p : Selected} {j : ℕ} (h : Progress r net good tried pool)
    (hp : Selects pool (net.selectAt j) p pool') (hunbroken : p.1.isBroken (net.selectAt j) = false)
    (hn : pool.policy = .leastLoaded → pool.backends.length ≠ 1 → pool'.n = UInt32.ofNat p.2 + 1)
    (hgood : p.2 ≠ good) :
    Progress r net good (p.2 :: tried)
      (BackendPool.setBroken { pool with n := pool'.n } p.2 (net.failAt j + pool.failTimeout)) where
  outlived := h.outlived
  steady := by
    rw [BackendPool.backends_setBroken, length_modify]
    exact h.steady
  works := by
    obtain ⟨b, hb, hworks⟩ := h.works
    refine ⟨b, ?_, hworks⟩
    exact (getElem?_modify_ne _ _ hgood).trans hb
  nodup := by
    refine nodup_cons.mpr ⟨fun hmem => ?_, h.nodup⟩
    obtain ⟨b, hb, hbroken⟩ := h.broken p.2 hmem
    rw [hp.found] at hb
    rw [Option.some.inj hb, hbroken j] at hunbroken
    cases hunbroken
  broken := by
    intro x hx
    by_cases heq : p.2 = x
    · subst heq
      refine ⟨p.1.setBroken (net.failAt j + pool.failTimeout), ?_, fun i => ?_⟩
      · rw [BackendPool.backends_setBroken, getElem?_modify_eq, hp.found]
        rfl
      · exact decide_eq_true (h.outlived.longer j i)
    · obtain ⟨b, hb, hbroken⟩ := h.broken x ((mem_cons.mp hx).resolve_left (Ne.symm heq))
      refine ⟨b, ?_, hbroken⟩
      exact (getElem?_modify_ne _ _ heq).trans hb
  tries := by
    intro x hx hmem
    rw [BackendPool.backends_setBroken, length_modify] at hx
    have hidx := (List.getElem?_eq_some_iff.mp hp.found).1
    refine tries_behind ?_ ?_ ?_ (fun h => hmem (h ▸ mem_cons_self)) ?_
    all_goals rw [BackendPool.backends_setBroken, length_modify]
    · exact h.steady
    · exact hidx
    · exact hx
    · exact hn

end

theorem attempt_ok {r : RoutedRequest} {net : Network} {j : ℕ} {target : Bytes} {status : UInt16}
    (hsend : net.send j target = .ok status) (hstatus : status ∉ r.retryStatusCodes) :
    attempt r net j target = if net.streams j then .success status else .clientCanceled status := by
  rw [attempt, hsend]
  exact if_neg hstatus

theorem url_setBroken (backends : List Backend) (idx deadline i : ℕ) :
    ((backends.modify idx (Backend.setBroken deadline))[i]?).map Backend.url =
    (backends[i]?).map Backend.url := by
  have h := congrArg (fun l => (l[i]?).map Prod.fst) (map_setBroken backends idx deadline)
  simp only [getElem?_map, Option.map_map] at h
  exact h

/-- The attempts end with the answer of a backend that was not broken. -/
theorem retryLoop_finds {r : RoutedRequest} {net : Network} {good left : ℕ} {tried : List ℕ}
    {pool : BackendPool} (maxAttempts j : ℕ) (hretry : r.canRetry)
    (h : Progress r net good tried pool)
    (hleft : left + tried.length = pool.backends.length) :
    ∃ i p status pool', retryLoop r net maxAttempts left j pool =
        .ok (if net.streams i then .streamed i p status else .canceled i p status, pool') ∧
      (pool.backends[p.2]?).map Backend.url = some p.1.url ∧ p.1.isBroken (net.selectAt i) = false ∧
      net.send i (r.target p.1.url) = .ok status ∧ status ∉ r.retryStatusCodes := by
  induction left generalizing j tried pool with
  | zero =>
    have hlt := h.length_lt
    omega
  | succ left ih =>
    obtain ⟨p, pool', hp, hunbroken, hn⟩ := h.exists_selects j
    have hurl : (pool.backends[p.2]?).map Backend.url = some p.1.url := by rw [hp.found]; rfl
    have hrelease := release_select hp.select
    rw [retryLoop, hp.select]
    simp only [Outcome.ok_bind, hrelease, hretry, if_true]
    -- the failure marks a backend that was not tried before
    have hnext (hgood : p.2 ≠ good) := ih (j + 1) (h.fail hp hunbroken hn hgood) (by
      rw [BackendPool.backends_setBroken, length_modify, length_cons]
      show left + (tried.length + 1) = pool.backends.length
      omega)
    simp only [BackendPool.backends_setBroken, url_setBroken] at hnext
    have hfail (hbad : ∀ status, net.send j (r.target p.1.url) = .ok status →
        status ∈ r.retryStatusCodes) :
        p.2 ≠ good := by
      rintro rfl
      obtain ⟨b, hb, -, hanswers⟩ := h.works
      obtain rfl : p.1 = b := Option.some.inj (hp.found.symm.trans hb)
      obtain ⟨status, hsend, hstatus⟩ := hanswers j
      exact hstatus (hbad status hsend)
    rcases hsend : net.send j (r.target p.1.url) with err | status
    · rw [attempt, hsend]
      exact hnext (hfail fun status hok => by rw [hsend] at hok; cases hok)
    · by_cases hstatus : status ∈ r.retryStatusCodes
      · rw [attempt, hsend]
        simp only [if_pos hstatus]
        exact hnext (hfail fun status' hok => by rw [hsend] at hok; cases hok; exact hstatus)
      · rw [attempt_ok hsend hstatus]
        refine ⟨j, p, status, { pool with n := pool'.n }, ?_, hurl, hunbroken, hsend, hstatus⟩
        cases net.streams j with
        | false => rfl
        | true => rfl

variable {policy : LoadBalancingPolicy}

theorem ScansAll.steady {len : ℕ} {n : UInt32} (h : ScansAll policy len n) :
    Steady policy len := by
  obtain h | h | h | h := h
  · exact .inl h
  · exact .inr (.inl h)
  · exact .inr (.inr (.inl h.1))
  · exact .inr (.inr (.inr h.1))

theorem ScansAll.scans {len : ℕ} {n : UInt32} (h : ScansAll policy len n) :
    policy = .firstAvailable ∨ len = 1 ∨ len < 2 ^ 32 ∧
    (n.toNat + len ≤ 2 ^ 32 ∨ len ∣ 2 ^ 32) := by
  obtain h | h | ⟨hlen, h⟩ | ⟨hlen, h⟩ := h
  · exact .inl h
  · exact .inr (.inl h)
  · exact .inr (.inr ⟨by omega, h⟩)
  · exact .inr (.inr ⟨by omega, .inl (by omega)⟩)

theorem findsWorking (r : RoutedRequest) (net : Network) {pool : BackendPool}
    (hscans : ScansAll pool.policy pool.backends.length pool.n) : FindsWorking r net pool := by
  rintro hretry houtlived ⟨b, hb, hunbroken, hanswers⟩
  obtain ⟨good, hgood⟩ := getElem?_of_mem hb
  have htries : ∀ x < pool.backends.length, pool.Tries x := by
    intro x hx
    obtain h | h | ⟨hlt, h⟩ := hscans.scans
    · exact .inl h
    · exact .inr (.inl h)
    · exact .inr (.inr ⟨hlt, (forall_mem_visits_iff hlt.le pool.n.toNat_lt).mpr h x hx⟩)
  have hprogress : Progress r net good [] pool :=
    ⟨houtlived, hscans.steady, ⟨b, hgood, hunbroken, hanswers⟩, nodup_nil, nofun,
      fun x hx _ => htries x hx⟩
  obtain ⟨i, p, status, pool', hloop, hurl, hp, hanswer⟩ :=
    retryLoop_finds pool.backends.length 0 hretry hprogress (Nat.add_zero _)
  have hpos : pool.backends.length ≠ 0 := (Nat.zero_lt_of_lt hprogress.good_lt).ne'
  exact ⟨i, p, status, ⟨pool', by rw [proxy, if_neg hpos, hloop]⟩, hurl, hp, hanswer⟩

/-! ### Pools of more than half of the 32-bit numbers -/

section

variable {len : ℕ}

/-- The last backend is idle, the one before it works, and the others are broken. -/
def lastTwo (len i : ℕ) : Backend :=
  if i = len - 1 then ⟨[0], 0, none⟩ else if i = len - 2 then ⟨[], 1, none⟩ else ⟨[], 0, some 1⟩

/-- A request for which the last backend does not answer. -/
def plainRequest : RoutedRequest := ⟨[], [], [], 0, [], false, [], true⟩

def lastFails : Network :=
  ⟨fun _ => 0, fun _ => 0, fun _ target => if target = plainRequest.target [0] then .error []
    else .ok 200, fun _ => true⟩

/-- A backend that does not answer is marked, and the next attempt is made. -/
theorem retryLoop_error {r : RoutedRequest} {net : Network} {maxAttempts left j : ℕ}
    {pool pool' : BackendPool}
    {p : Selected} {err : Bytes} (hretry : r.canRetry)
    (hselect : pool.select (net.selectAt j) = .ok (some p, pool'))
    (hsend : net.send j (r.target p.1.url) = .error err) :
    retryLoop r net maxAttempts (left + 1) j pool =
      retryLoop r net maxAttempts left (j + 1)
        (BackendPool.setBroken { pool with n := pool'.n } p.2
          (net.failAt j + pool.failTimeout)) := by
  rw [retryLoop, hselect]
  simp only [Outcome.ok_bind, release_select hselect, attempt, hsend, hretry, if_true]

theorem retryLoop_streamed {r : RoutedRequest} {net : Network} {maxAttempts left j : ℕ}
    {pool pool' : BackendPool}
    {p : Selected} {status : UInt16} (hselect : pool.select (net.selectAt j) = .ok (some p, pool'))
    (hsend : net.send j (r.target p.1.url) = .ok status) (hstatus : status ∉ r.retryStatusCodes)
    (hstreams : net.streams j) :
    retryLoop r net maxAttempts (left + 1) j pool = .ok (.streamed j p status,
      { pool with n := pool'.n }) := by
  rw [retryLoop, hselect]
  simp only [Outcome.ok_bind, release_select hselect, attempt_ok hsend hstatus, hstreams, if_true]

theorem target_ne : plainRequest.target [] ≠ plainRequest.target [0] := by decide

theorem send_answers (j : ℕ) : lastFails.send j (plainRequest.target []) = .ok 200 := by
  simp only [lastFails, if_neg target_ne]

theorem send_fails (j : ℕ) : lastFails.send j (plainRequest.target [0]) = .error [] := by
  simp only [lastFails, if_true]

theorem lastTwo_last (len : ℕ) : lastTwo len (len - 1) = ⟨[0], 0, none⟩ := if_pos rfl

theorem lastTwo_of_ne {i : ℕ} (hlast : i ≠ len - 1) (hnext : i ≠ len - 2) :
    lastTwo len i = ⟨[], 0, some 1⟩ := by
  rw [lastTwo, if_neg hlast, if_neg hnext]

/-- The only idle backend that is not broken is the last one. -/
theorem eq_last_of_idle {i : ℕ} (hunbroken : (lastTwo len i).isBroken 0 = false)
    (hidle : (lastTwo len i).inFlight = 0) : i = len - 1 := by
  by_contra hlast
  rw [lastTwo, if_neg hlast] at hunbroken hidle
  split at hidle
  · cases hidle
  · rename_i hnext
    rw [if_neg hnext] at hunbroken
    cases hunbroken

theorem toNat_ofNat_len (hlt : len < 2 ^ 32) : (UInt32.ofNat len).toNat = len :=
  UInt32.toNat_ofNat_of_lt' hlt

/-- The first selection gives the last backend. -/
theorem select_lastTwo {n : UInt32} (hlen : 2 < len) (hlt : len < 2 ^ 32)
    (hn : n.toNat + len ≤ 2 ^ 32) :
    ∃ pool', (poolOf (lastTwo len) len n).select 0 = .ok (some (⟨[0], 0, none⟩, len - 1), pool') ∧
      pool'.n = UInt32.ofNat (len - 1) + 1 := by
  have hnat := toNat_ofNat_len hlt
  have hlength := length_poolOf (lastTwo len) len n
  have hzero : UInt32.ofNat len ≠ 0 := fun h => by
    rw [h, UInt32.toNat_zero] at hnat
    omega
  have hone : UInt32.ofNat len ≠ 1 := fun h => by
    rw [h, UInt32.toNat_one] at hnat
    omega
  obtain ⟨⟨b, idx⟩, m, hp⟩ := @exists_leastLoaded (poolOf (lastTwo len) len n).backends n 0
    (by rwa [hlength]) (by rwa [hlength])
  have hmem : ((⟨[0], 0, none⟩, len - 1) : Selected) ∈ scan (poolOf (lastTwo len) len n).backends n
      (UInt32.ofNat (poolOf (lastTwo len) len n).backends.length) := by
    refine mem_scan.mpr ⟨?_, ?_⟩
    · rw [getElem?_poolOf _ _ (by omega), lastTwo_last]
    · rw [hlength, hnat]
      exact mem_visits_of_add_le hn (by omega)
  obtain ⟨hunbroken, rfl⟩ := hp.unbroken ⟨_, hmem, rfl⟩
  have hidle := hp.idle ⟨_, hmem, rfl, rfl⟩
  have hfound := hp.found
  have hidx : idx < len := by
    have hget := (List.getElem?_eq_some_iff.mp hfound).1
    rwa [hlength] at hget
  rw [getElem?_poolOf _ _ hidx] at hfound
  obtain rfl : lastTwo len idx = b := Option.some.inj hfound
  obtain rfl := eq_last_of_idle hunbroken hidle
  rw [lastTwo_last] at hp
  exact ⟨_, hp.select rfl, rfl⟩

/-- The pool behind the failure of the last backend. -/
def lastBroken (len : ℕ) (n : UInt32) : BackendPool :=
  BackendPool.setBroken { poolOf (lastTwo len) len n with n := UInt32.ofNat (len - 1) + 1 }
  (len - 1) 1

/-- The second selection does not reach the backend that works. -/
theorem select_lastBroken {n : UInt32} (hhalf : 2 ^ 31 < len) (hlen : len + 1 < 2 ^ 32) :
    ∃ pool', (lastBroken len n).select 0 = .ok (some (⟨[], 0, some 1⟩, 0), pool') := by
  have hnat := toNat_ofNat_len (show len < 2 ^ 32 by omega)
  have hlength : (lastBroken len n).backends.length = len := by
    rw [lastBroken, BackendPool.backends_setBroken, length_modify]
    exact length_poolOf (lastTwo len) len n
  have hget {i : ℕ} (hi : i < len) : (lastBroken len n).backends[i]? =
      some (if len - 1 = i then (lastTwo len i).setBroken 1 else lastTwo len i) := by
    rw [lastBroken, BackendPool.backends_setBroken, getElem?_modify, getElem?_poolOf _ _ hi]
    rfl
  have hsucc : (lastBroken len n).n.toNat = len := by
    show (UInt32.ofNat (len - 1) + 1).toNat = len
    have hlt : len - 1 < 2 ^ 32 := by omega
    rw [UInt32.toNat_add, UInt32.toNat_ofNat_of_lt' hlt, UInt32.toNat_one,
      Nat.mod_eq_of_lt (by omega)]
    omega
  have hfirst : (lastBroken len n).backends[0]? = some ⟨[], 0, some 1⟩ := by
    rw [hget (by omega), if_neg (by omega), lastTwo_of_ne (by omega) (by omega)]
  refine ⟨_, select_missed hfirst rfl ?_ ?_ ?_⟩
  · rw [hlength]
    intro h
    rw [h, UInt32.toNat_zero] at hnat
    omega
  · rw [hlength]
    intro h
    rw [h, UInt32.toNat_one] at hnat
    omega
  · intro q hq
    obtain ⟨hq, hvisits⟩ := mem_scan.mp hq
    rw [hlength, hnat, hsucc] at hvisits
    rw [hget (lt_of_mem_visits hvisits)] at hq
    rw [← Option.some.inj hq]
    split
    · rfl
    · rename_i hne
      rw [lastTwo_of_ne (Ne.symm hne)]
      · rfl
      · intro h
        rw [h] at hvisits
        exact not_mem_visits_of_last (by omega) hlen hvisits

/-- Behind the failure of the last backend, the one before it is not reached. -/
theorem not_findsWorking_lastTwo {n : UInt32} (hhalf : 2 ^ 31 < len) (hlen : len + 1 < 2 ^ 32)
    (hn : n.toNat + len ≤ 2 ^ 32) : ¬ FindsWorking plainRequest lastFails
    (poolOf (lastTwo len) len n) := by
  intro h
  have hgood : (⟨[], 1, none⟩ : Backend) ∈ (poolOf (lastTwo len) len n).backends := by
    have hget := getElem?_poolOf (lastTwo len) n (show len - 2 < len by omega)
    rw [lastTwo, if_neg (by omega), if_pos rfl] at hget
    exact mem_of_getElem? hget
  have hanswers : Answers plainRequest lastFails ⟨[], 1, none⟩ :=
    fun j => ⟨200, send_answers j, not_mem_nil⟩
  obtain ⟨j, p, status, hends⟩ := h rfl ⟨monotone_const, fun _ _ => Nat.one_pos⟩ ⟨_, hgood,
    rfl, hanswers⟩
  obtain ⟨pool', hresponse⟩ := hends.response
  obtain ⟨left, hleft⟩ := Nat.exists_eq_add_of_le' (show 2 ≤ len by omega)
  obtain ⟨pool₂, hsecond⟩ := select_lastBroken (n := n) hhalf hlen
  obtain ⟨pool₁, hfirst, hcounter⟩ := select_lastTwo (show 2 < len by omega) (by omega) hn
  have hloop (m : ℕ) : retryLoop plainRequest lastFails m (left + 1 + 1) 0
      (poolOf (lastTwo len) len n) =
      .ok (.streamed 1 (⟨[], 0, some 1⟩, 0) 200, { lastBroken len n with n := pool₂.n }) := by
    have hstep := @retryLoop_error plainRequest lastFails m (left + 1) 0 _ _ _ _ rfl hfirst
      (send_fails 0)
    rw [hcounter] at hstep
    rw [hstep]
    exact @retryLoop_streamed plainRequest lastFails m left 1 (lastBroken len n) _ _ _ hsecond
      (send_answers 1) not_mem_nil rfl
  rw [proxy, if_neg (by rw [length_poolOf]; omega), length_poolOf] at hresponse
  nth_rewrite 2 [hleft] at hresponse
  rw [hloop] at hresponse
  have hunbroken := hends.unbroken
  cases hresponse
  cases hunbroken

end

/-- A request finds a working backend of a pool, whatever its backends are busy with and however
they are marked, if and only if its scans reach all of them; the in-flight counts are restored in
any case. -/
theorem finds_working_iff (policy : LoadBalancingPolicy) {len : ℕ} (n : UInt32) (hlen : 0 < len) :
    (∀ pool : BackendPool, pool.policy = policy → pool.backends.length = len → pool.n = n →
      (∀ now, pool.SelectsUnbroken now) ∧ ∀ r net, FindsWorking r net pool ∧
      RestoresInFlight r net pool) ↔
    ScansAll policy len n := by
  constructor
  · intro h
    have hscans := (selectsUnbroken_iff policy n hlen).mp fun pool hp hl hn now =>
      (h pool hp hl hn).1 now
    obtain hfirst | hone | ⟨hlt, hscans⟩ := hscans
    · exact .inl hfirst
    · exact .inr (.inl hone)
    · rcases Nat.lt_or_ge (2 ^ 31) len with hhalf | hhalf
      · have hle : n.toNat + len ≤ 2 ^ 32 := by
          refine hscans.resolve_right ?_
          rintro ⟨c, hc⟩
          rcases c with _ | _ | c
          · omega
          · omega
          · have := Nat.mul_le_mul_left len (show 2 ≤ c + 1 + 1 by omega)
            omega
        by_contra hnot
        simp only [ScansAll, not_or, not_and] at hnot
        rcases policy with _ | _
        · refine not_findsWorking_lastTwo hhalf ?_ hle
            ((h (poolOf (lastTwo len) len n) rfl (length_poolOf _ _ _) rfl).2 plainRequest
              lastFails).1
          rcases Nat.lt_or_ge (len + 1) (2 ^ 32) with hlast | hlast
          · exact hlast
          · exact absurd (show n.toNat ≤ 1 by omega) (hnot.2.2.2 (by omega))
        · exact hnot.1 rfl
      · exact .inr (.inr (.inl ⟨hhalf, hscans⟩))
  · rintro h pool rfl rfl rfl
    exact ⟨(selectsUnbroken_iff pool.policy pool.n hlen).mpr h.scans pool rfl rfl rfl,
      fun r net => ⟨findsWorking r net h, restoresInFlight r net pool⟩⟩

theorem finds_working_three :
    (∀ pool : BackendPool, pool.policy = .leastLoaded → pool.backends.length = 3 →
      pool.n = 4294967293 →
      (∀ now, pool.SelectsUnbroken now) ∧ ∀ r net, FindsWorking r net pool ∧
      RestoresInFlight r net pool) ∧
    ¬ ScansAll .leastLoaded 3 4294967294 :=
  ⟨(finds_working_iff .leastLoaded 4294967293 (by decide)).mpr (.inr (.inr (.inl (by decide)))), by
    simp only [ScansAll]
    decide⟩

/-! ### A counter in front of its wrap -/

theorem Reachable.wait {urls : List Bytes} {failTimeout now later : ℕ} {pool : BackendPool}
    (h : Reachable urls policy failTimeout now pool) (hle : now ≤ later) :
    Reachable urls policy failTimeout later pool := by
  cases h with
  | new => exact .new later
  | request r net h hstart hclock hproxy =>
    exact .request r net h hstart (fun j => ⟨(hclock j).1, (hclock j).2.1,
      (hclock j).2.2.trans hle⟩) hproxy

/-- Every attempt ends in the same way, one unit of time after the other. -/
def always (send : Except Bytes UInt16) (start length : ℕ) : Network :=
  ⟨fun j => start + min j length, fun j => start + min j length, fun _ _ => send, fun _ => true⟩

theorem always_clock (send : Except Bytes UInt16) (start length j : ℕ) :
    (always send start length).selectAt j ≤ (always send start length).failAt j ∧
      (always send start length).failAt j ≤ (always send start length).selectAt (j + 1) ∧
      (always send start length).failAt j ≤ start + length := by
  simp only [always]
  omega

/-- The pool when all backends are marked, the last one for the shortest time. -/
def allMarked (n : UInt32) : BackendPool :=
  ⟨[⟨[0], 0, some 11⟩, ⟨[1], 0, some 12⟩, ⟨[2], 0, some 10⟩], n, .leastLoaded, 10⟩

theorem reachable_allMarked : Reachable [[0], [1], [2]] .leastLoaded 10 2 (allMarked 2) := by
  have hnew : Reachable [[0], [1], [2]] .leastLoaded 10 0 _ := .new 0
  have hfirst := Reachable.request plainRequest (always (.ok 200) 0 0) hnew (Nat.zero_le _)
    (always_clock _ 0 0) rfl
  have hsecond := Reachable.request plainRequest (always (.ok 200) 0 0) hfirst (Nat.zero_le _)
    (always_clock _ 0 0) rfl
  exact Reachable.request plainRequest (always (.error []) 0 2) hsecond (Nat.zero_le _)
    (always_clock _ 0 2) rfl

/-- While all backends are marked, a request moves the counter by one. -/
theorem proxy_allMarked (n : UInt32) :
    ∃ response, proxy plainRequest (always (.ok 200) 5 0) (allMarked n) =
    .ok (response, allMarked (n + 1)) := by
  have hselect : ∃ pool', (allMarked n).select 5 = .ok (some (⟨[0], 0, some 11⟩, 0), pool') ∧
      pool'.n = n + 1 := by
    refine ⟨_, select_missed rfl rfl (show UInt32.ofNat 3 ≠ 0 by decide)
      (show UInt32.ofNat 3 ≠ 1 by decide) fun q hq => ?_, rfl⟩
    have hmem := mem_of_getElem? (mem_scan.mp hq).1
    have hall : ∀ b ∈ (allMarked n).backends, b.isBroken 5 = true := by
      simp [allMarked, Backend.isBroken]
    exact hall _ hmem
  obtain ⟨pool', hselect, hn⟩ := hselect
  have hloop := @retryLoop_streamed plainRequest (always (.ok 200) 5 0) 3 2 0 _ _ _ _ hselect rfl
    not_mem_nil rfl
  rw [hn] at hloop
  exact ⟨_, hloop⟩

theorem reachable_counter (j : ℕ) :
    Reachable [[0], [1], [2]] .leastLoaded 10 5 (allMarked (2 + UInt32.ofNat j)) := by
  induction j with
  | zero =>
    exact reachable_allMarked.wait (by decide)
  | succ j ih =>
    obtain ⟨response, hproxy⟩ := proxy_allMarked (2 + UInt32.ofNat j)
    have hsucc : 2 + UInt32.ofNat (j + 1) = 2 + UInt32.ofNat j + 1 := by
      rw [UInt32.ofNat_add, UInt32.add_assoc]
      rfl
    rw [hsucc]
    exact Reachable.request plainRequest _ ih (Nat.le_add_right _ _) (always_clock _ 5 0) hproxy

/-- The last backend is not broken any more, but the counter hides it. -/
theorem not_selectsUnbroken_wrapped :
    Reachable [[0], [1], [2]] .leastLoaded 10 5 (allMarked 4294967295) ∧
      ¬ (allMarked 4294967295).SelectsUnbroken 10 := by
  refine ⟨reachable_counter 4294967293, ?_⟩
  rintro ⟨p, pool', hp, h⟩
  have hselect : (allMarked 4294967295).select 10 =
      .ok (some (⟨[0], 0, some 11⟩, 0), ⟨[⟨[0], 1, some 11⟩, ⟨[1], 0, some 12⟩, ⟨[2], 0, some 10⟩],
        0, .leastLoaded, 10⟩) :=
    rfl
  rw [hselect] at hp
  cases hp
  have hbroken := h ⟨⟨[2], 0, some 10⟩, by simp [allMarked], rfl⟩
  cases hbroken

end Esmetrics.Auth
