import Esmetrics.Auth.Route
import Esmetrics.Lib.Outcome
import Esmetrics.Lib.RotatedScan

/-!
# Selection of a backend

Model of `esm-auth/src/balance.rs` for a request that runs alone. A backend counts the requests that
it is busy with and may be marked broken up to an instant; the pool has a round-robin counter. With
the policy of the least loaded backend, the pool is scanned from the place that the counter points
to, first for an idle backend, then for one with the fewest requests.

The sum of the counter and the step wraps at 32 bits before the remainder is taken. Where this
shifts the places, the scan leaves one out, and a broken backend is selected though that one is not
broken (`select_missed`).
-/

namespace Esmetrics.Auth

open List

open RotatedScan

/-! ### Backends -/

/-- A backend, with the instant up to which it is broken. -/
structure Backend where
  url : Bytes
  inFlight : Int32
  brokenUntil : Option ℕ
  deriving DecidableEq

namespace Backend

def new (url : Bytes) : Backend := ⟨url, 0, none⟩

def isBroken (b : Backend) (now : ℕ) : Bool :=
  match b.brokenUntil with
  | some deadline => now < deadline
  | none => false

def setBroken (deadline : ℕ) (b : Backend) : Backend := { b with brokenUntil := some deadline }

def acquire (b : Backend) : Backend := { b with inFlight := b.inFlight + 1 }

def release (b : Backend) : Backend := { b with inFlight := b.inFlight + (-1) }

@[simp]
theorem release_acquire (b : Backend) : b.acquire.release = b := by
  have h : b.inFlight + 1 + (-1) = b.inFlight := by
    rw [Int32.add_assoc, Int32.add_right_neg, Int32.add_zero]
  rw [release, acquire, h]

theorem isBroken_mono {b : Backend} {now later : ℕ} (hle : now ≤ later)
    (h : b.isBroken now = false) :
    b.isBroken later = false := by
  rcases hb : b.brokenUntil with _ | deadline
  · rw [isBroken, hb]
  · simp only [isBroken, hb, decide_eq_false_iff_not, Nat.not_lt] at h ⊢
    exact h.trans hle

end Backend

inductive LoadBalancingPolicy where
  | leastLoaded
  | firstAvailable
  deriving DecidableEq

structure BackendPool where
  backends : List Backend
  n : UInt32
  policy : LoadBalancingPolicy
  failTimeout : ℕ
  deriving DecidableEq

def BackendPool.new (urls : List Bytes) (policy : LoadBalancingPolicy) (failTimeout : ℕ) :
    BackendPool :=
  ⟨urls.map Backend.new, 0, policy, failTimeout⟩

/-! ### Selection -/

/-- A selected backend as it was found, with its index. -/
abbrev Selected := Backend × ℕ

/-- The first backend that is not broken, or the first one. -/
def getFirstAvailableBackend (backends : List Backend) (now : ℕ) :
    Outcome (Selected × List Backend) :=
  match backends with
  | [] => .panic "index out of bounds"
  | first :: rest =>
    let selected :=
      if !first.isBroken now then (first, 0)
      else ((rest.zipIdx 1).find? fun p => !p.1.isBroken now).getD (first, 0)
    .ok (selected, backends.modify selected.2 Backend.acquire)

/-- The backends in the order in which a scan meets them; no index is outside. -/
def scan (backends : List Backend) (n len : UInt32) : List Selected :=
  (List.range len.toNat).filterMap fun i =>
    let idx := ((n + UInt32.ofNat i) % len).toNat
    backends[idx]?.map (·, idx)

/-- One more backend in the search for the least loaded one. -/
def lessLoaded (now : ℕ) (min p : Selected) : Selected :=
  if p.1.isBroken now then min
  else if p.1.inFlight < min.1.inFlight ∨ min.1.isBroken now then p
  else min

/-- Stores `new` if the counter is still `expected`. -/
def compareExchange (counter expected new : UInt32) : UInt32 :=
  if counter = expected then new else counter

def getLeastLoadedBackend (backends : List Backend) (counter : UInt32) (now : ℕ) :
    Outcome (Selected × List Backend × UInt32) :=
  match backends with
  | [] => .panic "index out of bounds"
  | first :: _ =>
    let len := UInt32.ofNat backends.length
    if len = 1 then .ok ((first, 0), backends.modify 0 Backend.acquire, counter)
    else
      let n := counter
      let counter := counter + 1
      match (scan backends n len).find? fun p => !p.1.isBroken now && p.1.inFlight == 0 with
      | some p =>
        .ok (p, backends.modify p.2 fun b => { b with inFlight := 1 },
          compareExchange counter (n + 1) (UInt32.ofNat p.2 + 1))
      | none =>
        match scan backends n len with
        | [] => .panic "attempt to calculate the remainder with a divisor of zero"
        | start :: rest =>
          let min := rest.foldl (lessLoaded now) start
          if min.1.isBroken now then .ok ((first, 0), backends.modify 0 Backend.acquire, counter)
          else
            .ok (min, backends.modify min.2 Backend.acquire,
              compareExchange counter (n + 1) (UInt32.ofNat min.2 + 1))

namespace BackendPool

/-- Selects a backend, and counts the request there. -/
def select (pool : BackendPool) (now : ℕ) : Outcome (Option Selected × BackendPool) :=
  if pool.backends = [] then .ok (none, pool)
  else
    match pool.policy with
    | .firstAvailable => do
      let (selected, backends) ← getFirstAvailableBackend pool.backends now
      .ok (some selected, { pool with backends })
    | .leastLoaded => do
      let (selected, backends, n) ← getLeastLoadedBackend pool.backends pool.n now
      .ok (some selected, { pool with backends, n })

def release (pool : BackendPool) (idx : ℕ) : BackendPool :=
  { pool with backends := pool.backends.modify idx Backend.release }

def setBroken (pool : BackendPool) (idx deadline : ℕ) : BackendPool :=
  { pool with backends := pool.backends.modify idx (Backend.setBroken deadline) }

@[simp]
theorem backends_setBroken (pool : BackendPool) (idx deadline : ℕ) :
    (pool.setBroken idx deadline).backends = pool.backends.modify idx
    (Backend.setBroken deadline) := rfl

end BackendPool

/-! ### Scans -/

variable {i now idx : ℕ} {backends : List Backend} {first : Backend} {pool : BackendPool}

theorem toNat_visit (n len : UInt32) (hi : i < len.toNat) :
    ((n + UInt32.ofNat i) % len).toNat = (n.toNat + i) % 2 ^ 32 % len.toNat := by
  have hlt : i < 2 ^ 32 := hi.trans len.toNat_lt
  rw [UInt32.toNat_mod, UInt32.toNat_add, UInt32.toNat_ofNat_of_lt' hlt]

theorem mem_scan {n len : UInt32} {p : Selected} :
    p ∈ scan backends n len ↔ backends[p.2]? = some p.1 ∧
    p.2 ∈ visits (2 ^ 32) n.toNat len.toNat := by
  simp only [scan, mem_filterMap, mem_range, Option.map_eq_some_iff, mem_visits]
  constructor
  · rintro ⟨i, hi, b, hb, rfl⟩
    exact ⟨hb, i, hi, (toNat_visit n len hi).symm⟩
  · rintro ⟨hb, i, hi, hp⟩
    rw [← toNat_visit n len hi] at hp
    exact ⟨i, hi, p.1, by rw [hp, hb], by rw [hp]⟩

theorem scan_ne_nil {n len : UInt32} (hlen : 0 < len.toNat) (hle : len.toNat ≤ backends.length) :
    scan backends n len ≠ [] := by
  have hlt : n.toNat % 2 ^ 32 % len.toNat < len.toNat := Nat.mod_lt _ hlen
  have hlt' := hlt.trans_le hle
  have hmem : (backends[n.toNat % 2 ^ 32 % len.toNat], n.toNat % 2 ^ 32 % len.toNat) ∈
      scan backends n len := mem_scan.mpr ⟨getElem?_eq_getElem _, mem_visits.mpr ⟨0, hlen, rfl⟩⟩
  exact ne_nil_of_mem hmem

/-! ### The least loaded backend -/

theorem lessLoaded_eq (now : ℕ) (min p : Selected) : lessLoaded now min p = min ∨
    lessLoaded now min p = p := by
  rw [lessLoaded]
  split
  · exact .inl rfl
  · split
    · exact .inr rfl
    · exact .inl rfl

theorem lessLoaded_unbroken {min p : Selected}
    (h : min.1.isBroken now = false ∨ p.1.isBroken now = false) :
    (lessLoaded now min p).1.isBroken now = false := by
  rw [lessLoaded]
  split
  · rename_i hp
    exact h.resolve_right (by simp [hp])
  · rename_i hp
    split
    · simpa using hp
    · rename_i hmin
      simpa using (not_or.mp hmin).2

theorem foldl_lessLoaded_mem (now : ℕ) (rest : List Selected) (start : Selected) :
    rest.foldl (lessLoaded now) start ∈ start :: rest := by
  induction rest generalizing start with
  | nil => exact mem_singleton_self start
  | cons p rest ih =>
    rw [foldl_cons]
    rcases mem_cons.mp (ih (lessLoaded now start p)) with h | h
    · rcases lessLoaded_eq now start p with heq | heq
      · rw [h, heq]
        exact mem_cons_self
      · rw [h, heq]
        exact mem_cons_of_mem _ mem_cons_self
    · exact mem_cons_of_mem _ (mem_cons_of_mem _ h)

/-- The search ends with a broken backend only if all that it met are broken. -/
theorem foldl_lessLoaded_unbroken {rest : List Selected} {start : Selected}
    (h : ∃ p ∈ start :: rest, p.1.isBroken now = false) :
    (rest.foldl (lessLoaded now) start).1.isBroken now = false := by
  induction rest generalizing start with
  | nil =>
    obtain ⟨p, hp, hunbroken⟩ := h
    rw [mem_singleton] at hp
    rwa [foldl_nil, ← hp]
  | cons p rest ih =>
    rw [foldl_cons]
    apply ih
    obtain ⟨q, hq, hunbroken⟩ := h
    rcases mem_cons.mp hq with rfl | hq
    · exact ⟨_, mem_cons_self, lessLoaded_unbroken (.inl hunbroken)⟩
    · rcases mem_cons.mp hq with rfl | hq
      · exact ⟨_, mem_cons_self, lessLoaded_unbroken (.inr hunbroken)⟩
      · exact ⟨q, mem_cons_of_mem _ hq, hunbroken⟩

theorem modify_congr {b : Backend} {f g : Backend → Backend} (hb : backends[idx]? = some b)
    (h : f b = g b) : backends.modify idx f = backends.modify idx g := by
  apply ext_getElem?
  intro i
  rw [getElem?_modify, getElem?_modify]
  split
  · rename_i hi
    rw [← hi, hb]
    exact congrArg some h
  · rfl

theorem getLeastLoadedBackend_one {rest : List Backend} (counter : UInt32) (now : ℕ)
    (hone : UInt32.ofNat (first :: rest).length = 1) :
    getLeastLoadedBackend (first :: rest) counter now =
      .ok ((first, 0), (first :: rest).modify 0 Backend.acquire, counter) := if_pos hone

/-- What a search for the least loaded of several backends returns. -/
structure LeastLoaded (backends : List Backend) (counter : UInt32) (now : ℕ) (p : Selected)
    (n : UInt32) : Prop where
  eq : getLeastLoadedBackend backends counter now = .ok (p, backends.modify p.2 Backend.acquire, n)
  found : backends[p.2]? = some p.1
  unbroken : (∃ q ∈ scan backends counter (UInt32.ofNat backends.length),
    q.1.isBroken now = false) →
    p.1.isBroken now = false ∧ n = UInt32.ofNat p.2 + 1
  idle : (∃ q ∈ scan backends counter (UInt32.ofNat backends.length),
    q.1.isBroken now = false ∧ q.1.inFlight = 0) → p.1.inFlight = 0
  broken : (∀ q ∈ scan backends counter (UInt32.ofNat backends.length), q.1.isBroken now = true) →
    p.2 = 0 ∧ n = counter + 1

theorem exists_leastLoaded {backends : List Backend} (counter : UInt32) (now : ℕ)
    (hzero : UInt32.ofNat backends.length ≠ 0) (hone : UInt32.ofNat backends.length ≠ 1) :
    ∃ p n, LeastLoaded backends counter now p n := by
  cases backends with
  | nil => exact absurd rfl hzero
  | cons first tail =>
    set backends := first :: tail with hbackends
    have hlen : 0 < (UInt32.ofNat backends.length).toNat := by
      refine Nat.pos_of_ne_zero fun h => hzero (UInt32.toNat_inj.mp ?_)
      rw [h, UInt32.toNat_zero]
    have hle : (UInt32.ofNat backends.length).toNat ≤ backends.length := by
      rw [UInt32.toNat_ofNat']
      exact Nat.mod_le _ _
    rcases hfind : (scan backends counter (UInt32.ofNat backends.length)).find? fun p =>
        !p.1.isBroken now && p.1.inFlight == 0 with _ | p
    · have hbusy : (∃ q ∈ scan backends counter (UInt32.ofNat backends.length),
          q.1.isBroken now = false ∧ q.1.inFlight = 0) → False := by
        rintro ⟨q, hq, hunbroken, hzero⟩
        exact find?_eq_none.mp hfind q hq (by simp [hunbroken, hzero])
      rcases hscan : scan backends counter (UInt32.ofNat backends.length) with _ | ⟨start, rest⟩
      · exact absurd hscan (scan_ne_nil hlen hle)
      · have hmem := foldl_lessLoaded_mem now rest start
        rcases hmin : (rest.foldl (lessLoaded now) start).1.isBroken now with _ | _
        · -- the backend with the fewest requests
          refine ⟨rest.foldl (lessLoaded now) start,
            UInt32.ofNat (rest.foldl (lessLoaded now) start).2 + 1, ?_, ?_, ?_,
            fun h => (hbusy h).elim, ?_⟩
          · simp only [getLeastLoadedBackend, hbackends]
            rw [← hbackends, if_neg hone, hfind, hscan]
            simp only [hmin, Bool.false_eq_true, if_false, compareExchange, if_true]
          · rw [← hscan] at hmem
            exact (mem_scan.mp hmem).1
          · exact fun _ => ⟨hmin, rfl⟩
          · intro h
            rw [hscan] at h
            rw [h _ hmem] at hmin
            cases hmin
        · -- all that the scan met are broken
          refine ⟨(first, 0), counter + 1, ?_, ?_, ?_, fun h => (hbusy h).elim, ?_⟩
          · simp only [getLeastLoadedBackend, hbackends]
            rw [← hbackends, if_neg hone, hfind, hscan]
            simp only [hmin, if_true]
          · rfl
          · intro h
            rw [hscan] at h
            rw [foldl_lessLoaded_unbroken h] at hmin
            cases hmin
          · exact fun _ => ⟨rfl, rfl⟩
    · -- an idle backend
      have hidle := find?_some hfind
      have hmem := mem_of_find?_eq_some hfind
      simp only [Bool.and_eq_true, Bool.not_eq_true', beq_iff_eq] at hidle
      have hfound := (mem_scan.mp hmem).1
      refine ⟨p, UInt32.ofNat p.2 + 1, ?_, hfound, fun _ => ⟨hidle.1, rfl⟩, fun _ => hidle.2, ?_⟩
      · have hacquire : backends.modify p.2 (fun b => { b with inFlight := 1 }) =
            backends.modify p.2 Backend.acquire := by
          refine modify_congr hfound ?_
          rw [Backend.acquire, hidle.2, Int32.zero_add]
        simp only [getLeastLoadedBackend, hbackends]
        rw [← hbackends, if_neg hone, hfind]
        simp only [hacquire, compareExchange, if_true]
      · intro h
        rw [h p hmem] at hidle
        cases hidle.1

/-! ### What a selection returns -/

/-- The backend at an index is there and is not broken. -/
def BackendPool.Unbroken (pool : BackendPool) (now idx : ℕ) : Prop :=
  ∃ b, pool.backends[idx]? = some b ∧ b.isBroken now = false

/-- The index is among those that the policy tries. -/
def BackendPool.Tries (pool : BackendPool) (idx : ℕ) : Prop :=
  pool.policy = .firstAvailable ∨ pool.backends.length = 1 ∨
    pool.backends.length < 2 ^ 32 ∧ idx ∈ visits (2 ^ 32) pool.n.toNat pool.backends.length

/-- What a selection changes: a count, and the counter. -/
structure Selects (pool : BackendPool) (now : ℕ) (p : Selected) (pool' : BackendPool) : Prop where
  select : pool.select now = .ok (some p, pool')
  found : pool.backends[p.2]? = some p.1
  backends : pool'.backends = pool.backends.modify p.2 Backend.acquire
  policy : pool'.policy = pool.policy
  failTimeout : pool'.failTimeout = pool.failTimeout

theorem find_firstAvailable {rest : List Backend} {b : Backend} (hfirst : first.isBroken now = true)
    (hb : (first :: rest)[idx]? = some b) (hunbroken : b.isBroken now = false) :
    ∃ p, (rest.zipIdx 1).find? (fun p => !p.1.isBroken now) = some p ∧ p.1.isBroken now = false ∧
      (first :: rest)[p.2]? = some p.1 := by
  cases idx with
  | zero =>
    obtain rfl : first = b := by simpa using hb
    rw [hfirst] at hunbroken
    cases hunbroken
  | succ i =>
    have hmem : (b, 1 + i) ∈ rest.zipIdx 1 := by
      rw [mk_mem_zipIdx_iff_le_and_getElem?_sub]
      refine ⟨by omega, ?_⟩
      rw [Nat.add_sub_cancel_left]
      simpa using hb
    have hsome : ((rest.zipIdx 1).find? fun p => !p.1.isBroken now).isSome :=
      find?_isSome.mpr ⟨_, hmem, by simp [hunbroken]⟩
    obtain ⟨p, hp⟩ := Option.isSome_iff_exists.mp hsome
    refine ⟨p, hp, by simpa using find?_some hp, ?_⟩
    obtain ⟨hle, hget⟩ := mk_mem_zipIdx_iff_le_and_getElem?_sub.mp (mem_of_find?_eq_some hp)
    obtain ⟨j, hj⟩ := Nat.exists_eq_add_of_le hle
    rw [hj, Nat.add_sub_cancel_left] at hget
    rw [hj, Nat.add_comm, getElem?_cons_succ]
    exact hget

theorem LeastLoaded.select {p : Selected} {n : UInt32}
    (h : LeastLoaded pool.backends pool.n now p n)
    (hpolicy : pool.policy = .leastLoaded) :
    pool.select now =
      .ok (some p, { pool with backends := pool.backends.modify p.2 Backend.acquire, n }) := by
  have hne : pool.backends ≠ [] := fun hnil => by simpa [hnil] using h.found
  simp [BackendPool.select, hne, hpolicy, h.eq]

/-- A selection among several backends or with the other policy succeeds. -/
theorem exists_selects (hidx : pool.Unbroken now idx) (htries : pool.Tries idx) :
    ∃ p pool', Selects pool now p pool' ∧ p.1.isBroken now = false ∧
      (pool.policy = .leastLoaded → pool.backends.length ≠ 1 → pool'.n = UInt32.ofNat p.2 + 1) := by
  obtain ⟨b, hb, hunbroken⟩ := hidx
  have hne : pool.backends ≠ [] := fun h => by simp [h] at hb
  rcases hpolicy : pool.policy with _ | _
  · rcases eq_or_ne pool.backends.length 1 with hone | hone
    · obtain ⟨first, hfirst⟩ := length_eq_one_iff.mp hone
      have hget := (List.getElem?_eq_some_iff.mp hb).1
      obtain rfl : idx = 0 := by omega
      obtain rfl : first = b := by simpa [hfirst] using hb
      refine ⟨(first, 0), { pool with backends := pool.backends.modify 0 Backend.acquire },
        ?_, hunbroken, fun _ h => absurd hone h⟩
      refine ⟨?_, hb, rfl, rfl, rfl⟩
      simp [BackendPool.select, hfirst, hpolicy, getLeastLoadedBackend]
    · obtain h | h | ⟨hlt, hvisits⟩ := htries
      · rw [hpolicy] at h
        cases h
      · exact absurd h hone
      · have hlen : (UInt32.ofNat pool.backends.length).toNat = pool.backends.length :=
          UInt32.toNat_ofNat_of_lt' hlt
        obtain ⟨p, n, hp⟩ := exists_leastLoaded pool.n now
          (fun h => hne (length_eq_zero_iff.mp (by rw [← hlen, h, UInt32.toNat_zero])))
          (fun h => hone (by rw [← hlen, h, UInt32.toNat_one]))
        obtain ⟨hbroken, hn⟩ := hp.unbroken ⟨(b, idx), mem_scan.mpr ⟨hb, by rwa [hlen]⟩, hunbroken⟩
        refine ⟨p, { pool with backends := pool.backends.modify p.2 Backend.acquire, n },
          ?_, hbroken, fun _ _ => hn⟩
        exact ⟨hp.select hpolicy, hp.found, rfl, rfl, rfl⟩
  · rcases hpool : pool.backends with _ | ⟨first, rest⟩
    · exact absurd hpool hne
    · rw [hpool] at hb
      rcases hfirst : first.isBroken now with _ | _
      · refine ⟨(first, 0), { pool with backends := pool.backends.modify 0 Backend.acquire }, ?_,
          hfirst, nofun⟩
        refine ⟨?_, by rw [hpool]; rfl, rfl, rfl, rfl⟩
        simp [BackendPool.select, hpool, hpolicy, getFirstAvailableBackend, hfirst]
      · obtain ⟨p, hfind, hp, hget⟩ := find_firstAvailable hfirst hb hunbroken
        refine ⟨p, { pool with backends := pool.backends.modify p.2 Backend.acquire },
          ?_, hp, nofun⟩
        refine ⟨?_, by rw [hpool, hget], rfl, rfl, rfl⟩
        simp [BackendPool.select, hpool, hpolicy, getFirstAvailableBackend, hfirst, hfind]

/-- Where the scan meets broken backends only, the first backend is selected. -/
theorem select_missed (hfirst : pool.backends[0]? = some first)
    (hpolicy : pool.policy = .leastLoaded)
    (hzero : UInt32.ofNat pool.backends.length ≠ 0) (hone : UInt32.ofNat pool.backends.length ≠ 1)
    (h : ∀ q ∈ scan pool.backends pool.n (UInt32.ofNat pool.backends.length),
      q.1.isBroken now = true) :
    pool.select now = .ok (some (first, 0),
      { pool with backends := pool.backends.modify 0 Backend.acquire, n := pool.n + 1 }) := by
  obtain ⟨p, n, hp⟩ := exists_leastLoaded pool.n now hzero hone
  obtain ⟨hidx, rfl⟩ := hp.broken h
  have hfound := hp.found
  rw [hidx, hfirst] at hfound
  obtain rfl : p = (first, 0) := Prod.ext (Option.some.inj hfound).symm hidx
  exact hp.select hpolicy

/-- A pool of backends gives a backend, unless its length is zero in 32 bits. -/
theorem exists_select {pool : BackendPool} (now : ℕ) (hne : pool.backends ≠ [])
    (h : pool.policy = .firstAvailable ∨ UInt32.ofNat pool.backends.length ≠ 0) :
    ∃ p pool', pool.select now = .ok (some p, pool') := by
  rcases hpool : pool.backends with _ | ⟨first, rest⟩
  · exact absurd hpool hne
  · rcases hpolicy : pool.policy with _ | _
    · have hzero : UInt32.ofNat pool.backends.length ≠ 0 := h.resolve_left (by simp [hpolicy])
      rcases eq_or_ne (UInt32.ofNat pool.backends.length) 1 with hone | hone
      · rw [hpool] at hone
        rw [BackendPool.select, if_neg hne, hpolicy, hpool]
        simp only [getLeastLoadedBackend_one pool.n now hone, Outcome.ok_bind]
        exact ⟨_, _, rfl⟩
      · obtain ⟨p, n, hp⟩ := exists_leastLoaded pool.n now hzero hone
        exact ⟨_, _, hp.select hpolicy⟩
    · rw [BackendPool.select, if_neg hne, hpolicy, hpool]
      exact ⟨_, _, rfl⟩

/-- A length that is zero in 32 bits ends in a remainder by zero. -/
theorem getLeastLoadedBackend_zero {counter : UInt32} (hzero : UInt32.ofNat backends.length = 0)
    (result : Selected × List Backend × UInt32) :
    getLeastLoadedBackend backends counter now ≠ .ok result := by
  intro h
  cases backends with
  | nil => cases h
  | cons first rest =>
    simp only [getLeastLoadedBackend, hzero, scan] at h
    cases h

theorem getLeastLoadedBackend_backends {backends' : List Backend} {counter n : UInt32}
    {p : Selected}
    (h : getLeastLoadedBackend backends counter now = .ok (p, backends', n)) :
    backends' = backends.modify p.2 Backend.acquire := by
  by_cases hzero : UInt32.ofNat backends.length = 0
  · exact absurd h (getLeastLoadedBackend_zero hzero _)
  · rcases eq_or_ne (UInt32.ofNat backends.length) 1 with hone | hone
    · cases backends with
      | nil => cases hone
      | cons first rest =>
        rw [getLeastLoadedBackend_one counter now hone] at h
        cases h
        rfl
    · obtain ⟨q, m, hq⟩ := exists_leastLoaded counter now hzero hone
      rw [hq.eq] at h
      cases h
      rfl

/-- A selection changes one count, and the counter. -/
theorem select_cases {pool' : BackendPool} {selected : Option Selected}
    (h : pool.select now = .ok (selected, pool')) :
    selected = none ∧ pool' = pool ∨
      ∃ p n, selected = some p ∧
        pool' = { pool with backends := pool.backends.modify p.2 Backend.acquire, n } := by
  rw [BackendPool.select] at h
  split at h
  · cases h
    exact .inl ⟨rfl, rfl⟩
  · right
    split at h
    · obtain ⟨⟨p, backends⟩, hget, heq⟩ := Outcome.bind_eq_ok_iff.mp h
      cases heq
      rw [getFirstAvailableBackend.eq_def] at hget
      split at hget
      · cases hget
      · cases hget
        exact ⟨_, pool.n, rfl, rfl⟩
    · obtain ⟨⟨p, backends, n⟩, hget, heq⟩ := Outcome.bind_eq_ok_iff.mp h
      cases heq
      exact ⟨p, n, rfl, by rw [getLeastLoadedBackend_backends hget]⟩

/-- A broken backend is selected only if all are broken. -/
def BackendPool.SelectsUnbroken (pool : BackendPool) (now : ℕ) : Prop :=
  ∃ p pool', pool.select now = .ok (some p, pool') ∧
    ((∃ b ∈ pool.backends, b.isBroken now = false) → p.1.isBroken now = false)

theorem selectsUnbroken_of_tries (now : ℕ) (hne : pool.backends ≠ [])
    (h : ∀ idx < pool.backends.length, pool.Tries idx) : pool.SelectsUnbroken now := by
  by_cases hall : ∃ b ∈ pool.backends, b.isBroken now = false
  · obtain ⟨b, hb, hunbroken⟩ := hall
    obtain ⟨idx, hidx⟩ := getElem?_of_mem hb
    obtain ⟨p, pool', hp, hbroken, -⟩ :=
      exists_selects ⟨b, hidx, hunbroken⟩ (h idx (List.getElem?_eq_some_iff.mp hidx).1)
    exact ⟨p, pool', hp.select, fun _ => hbroken⟩
  · have hlen : 0 < pool.backends.length := length_pos_iff.mpr hne
    obtain ⟨p, pool', hp⟩ := @exists_select pool now hne (by
      obtain h | h | ⟨hlt, -⟩ := h 0 hlen
      · exact .inl h
      · exact .inr (by rw [h]; decide)
      · refine .inr fun hzero => hlen.ne' ?_
        rw [← UInt32.toNat_ofNat_of_lt' hlt, hzero, UInt32.toNat_zero])
    exact ⟨p, pool', hp, fun h => absurd h hall⟩

/-- A pool with the backends `f 0`, `f 1` and so on. -/
def poolOf (f : ℕ → Backend) (len : ℕ) (n : UInt32) : BackendPool :=
  ⟨(List.range len).map f, n, .leastLoaded, 1⟩

@[simp]
theorem length_poolOf (f : ℕ → Backend) (len : ℕ) (n : UInt32) :
    (poolOf f len n).backends.length = len := by
  simp [poolOf]

theorem getElem?_poolOf (f : ℕ → Backend) {len : ℕ} (n : UInt32) (hi : i < len) :
    (poolOf f len n).backends[i]? = some (f i) := by
  simp [poolOf, hi]

/-- All backends are broken up to the instant 1, but for that at `m`. -/
def brokenBut (m i : ℕ) : Backend := ⟨[], 0, if i = m then none else some 1⟩

theorem isBroken_brokenBut {m : ℕ} (h : i ≠ m) : (brokenBut m i).isBroken 0 = true := by
  simp [Backend.isBroken, brokenBut, h]

/-- A place that the scan leaves out is not selected. -/
theorem not_selectsUnbroken_of_missed {len m : ℕ} {n : UInt32} (hm : 0 < m) (hlen : m < len)
    (hzero : UInt32.ofNat len ≠ 0)
    (hmissed : m ∉ visits (2 ^ 32) n.toNat (UInt32.ofNat len).toNat) :
    ¬ (poolOf (brokenBut m) len n).SelectsUnbroken 0 := by
  have hfirst := getElem?_poolOf (brokenBut m) n (hm.trans hlen)
  have hselect : ∃ pool', (poolOf (brokenBut m) len n).select 0 =
      .ok (some (brokenBut m 0, 0), pool') := by
    rcases eq_or_ne (UInt32.ofNat len) 1 with hone | hone
    · rcases hpool : (poolOf (brokenBut m) len n).backends with _ | ⟨first, rest⟩
      · rw [hpool] at hfirst
        cases hfirst
      · have hlength : UInt32.ofNat (first :: rest).length = 1 := by
          rw [← hpool, length_poolOf, hone]
        rw [hpool] at hfirst
        cases hfirst
        rw [BackendPool.select, hpool]
        exact ⟨_, by simp only [poolOf, getLeastLoadedBackend_one n 0 hlength]; rfl⟩
    · refine ⟨_, select_missed hfirst rfl (by rwa [length_poolOf]) (by rwa [length_poolOf]) ?_⟩
      intro q hq
      rw [length_poolOf] at hq
      obtain ⟨hget, hvisits⟩ := mem_scan.mp hq
      have hlt : q.2 < len := by
        have := (List.getElem?_eq_some_iff.mp hget).1
        rwa [length_poolOf] at this
      rw [getElem?_poolOf _ _ hlt] at hget
      rw [← Option.some.inj hget]
      exact isBroken_brokenBut fun h => hmissed (h ▸ hvisits)
  rintro ⟨p, pool', hp, hunbroken⟩
  obtain ⟨pool₁, heq⟩ := hselect
  rw [heq] at hp
  cases hp
  have hgood : brokenBut m m ∈ (poolOf (brokenBut m) len n).backends :=
    mem_of_getElem? (getElem?_poolOf (brokenBut m) n hlen)
  have hfalse := hunbroken ⟨_, hgood, by simp [Backend.isBroken, brokenBut]⟩
  rw [isBroken_brokenBut hm.ne] at hfalse
  cases hfalse

/-- The pools that give a broken backend only where all are broken. -/
theorem selectsUnbroken_iff (policy : LoadBalancingPolicy) {len : ℕ} (n : UInt32) (hlen : 0 < len) :
    (∀ pool : BackendPool, pool.policy = policy → pool.backends.length = len → pool.n = n →
      ∀ now, pool.SelectsUnbroken now) ↔
    policy = .firstAvailable ∨ len = 1 ∨ len < 2 ^ 32 ∧
      (n.toNat + len ≤ 2 ^ 32 ∨ len ∣ 2 ^ 32) := by
  constructor
  · intro h
    rcases policy with _ | _
    · by_contra hnot
      simp only [reduceCtorEq, false_or, not_or, not_and] at hnot
      obtain ⟨hone, hscan⟩ := hnot
      have hmissed {m : ℕ} (hm : 0 < m) (hlt : m < len) (hzero : UInt32.ofNat len ≠ 0) :
          m ∈ visits (2 ^ 32) n.toNat (UInt32.ofNat len).toNat := by
        by_contra hmem
        exact not_selectsUnbroken_of_missed hm hlt hzero hmem
          (h (poolOf (brokenBut m) len n) rfl (length_poolOf _ _ _) rfl 0)
      rcases Nat.lt_or_ge len (2 ^ 32) with hlt | hge
      · obtain ⟨hle, hdvd⟩ := hscan hlt
        have hnat : (UInt32.ofNat len).toNat = len := UInt32.toNat_ofNat_of_lt' hlt
        have hbounds := missed_bounds n.toNat_lt (Nat.lt_of_not_le hle) hdvd
        refine missed_not_mem hlt.le n.toNat_lt (Nat.lt_of_not_le hle) hdvd ?_
        have hmem := hmissed hbounds.1 hbounds.2.1 fun hzero => by
          rw [hzero, UInt32.toNat_zero] at hnat
          omega
        rwa [hnat] at hmem
      · by_cases hzero : UInt32.ofNat len = 0
        · -- the remainder by zero
          obtain ⟨p, pool', hp, -⟩ := h (poolOf (brokenBut 0) len n) rfl (length_poolOf _ _ _) rfl 0
          rw [BackendPool.select] at hp
          split at hp
          · cases hp
          · obtain ⟨x, hx, -⟩ := Outcome.bind_eq_ok_iff.mp hp
            exact getLeastLoadedBackend_zero (by rwa [length_poolOf]) x hx
        · have hmem := hmissed (m := len - 1) (by omega) (by omega) hzero
          have hlt := lt_of_mem_visits hmem
          have := (UInt32.ofNat len).toNat_lt
          omega
    · exact .inl rfl
  · rintro h pool rfl rfl rfl now
    refine selectsUnbroken_of_tries now (length_pos_iff.mp hlen) fun idx hidx => ?_
    obtain h | h | ⟨hlt, h⟩ := h
    · exact .inl h
    · exact .inr (.inl h)
    · exact .inr (.inr ⟨hlt, (forall_mem_visits_iff hlt.le pool.n.toNat_lt).mpr h idx hidx⟩)

/-- A pool with the first of two backends broken, and one with both broken. -/
example :
    (⟨[⟨[0], 0, some 10⟩, ⟨[1], 3, none⟩], 0, .leastLoaded, 5⟩ : BackendPool).select 7 =
        .ok (some (⟨[1], 3, none⟩, 1), ⟨[⟨[0], 0, some 10⟩, ⟨[1], 4, none⟩], 2, .leastLoaded, 5⟩) ∧
      (⟨[⟨[0], 0, some 10⟩, ⟨[1], 3, some 10⟩], 0, .leastLoaded, 5⟩ : BackendPool).select 7 =
        .ok (some (⟨[0], 0, some 10⟩, 0),
          ⟨[⟨[0], 1, some 10⟩, ⟨[1], 3, some 10⟩], 1, .leastLoaded, 5⟩) := by
  decide

end Esmetrics.Auth
