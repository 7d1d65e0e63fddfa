import Esmetrics.Lib.Counting
import Esmetrics.Lib.Runs
import Esmetrics.Streamaggr.Aggregator
import Mathlib.Data.List.Chain

/-!
# The window of a flush contains its samples

At any moment the two buffers are due at the next flush and at the one after it (`Schedule`). A push
chooses the buffer whose window has the timestamp, as the schedule is when it reads the window
state; the sample is in that window still when it is added, unless there was a flush in between
(`BufferedSample.Prompt`). `Scheduled` carries this along a run, and `Accounted` that every accepted
sample is with its push, in a buffer, in a flush, or was discarded.
-/

namespace Esmetrics.Streamaggr

open List

variable {κ : Type}

/-! ### Schedules -/

/-- Which buffer is flushed next, and the window of this flush. -/
structure Schedule where
  /-- No flush follows. -/
  isOver : Bool
  nextGreen : Bool
  prevDeadline : ℤ
  nextDeadline : ℤ

/-- The timestamp is in the window for which the buffer is due; the window after the next one is as
long as an interval at least. -/
def Schedule.Contains (w : Schedule) (interval : ℤ) (isGreen : Bool) (t : ℤ) : Prop :=
  w.isOver = false →
    if isGreen = w.nextGreen then w.prevDeadline < t ∧ t ≤ w.nextDeadline
    else w.nextDeadline < t ∧ t ≤ w.nextDeadline + interval

def Aggregator.schedule (a : Aggregator κ) : Schedule :=
  match a.flusher with
  | .flushed cs => ⟨false, cs.isGreen, a.history.prevDeadline, cs.maxDeadline⟩
  | .shutdownFlushed _ | .exited => ⟨true, false, 0, 0⟩
  | _ => ⟨false, a.cs.isGreen, a.history.prevDeadline, a.cs.maxDeadline⟩

/-- The timestamp is after the previous deadline, and not beyond the next window. -/
def RoutedSample.InReach (interval : ℤ) (x : RoutedSample κ) : Prop :=
  x.prevDeadline < x.sample.timestamp ∧ x.sample.timestamp ≤ x.maxDeadline + interval

/-- There was no flush between the choice of the buffer and the addition to it. -/
def BufferedSample.Prompt (x : BufferedSample κ) : Prop := x.routed.flushes = x.flushes

/-! ### Where samples are -/

def PushCall.samples : PushCall κ → Bool → List (RoutedSample κ)
  | .routed _ blue green, isGreen => if isGreen then green else blue
  | .blueAdded _ green, isGreen => if isGreen then green else []
  | _, _ => []

/-- The samples in the buffers of an output key. -/
def entrySamples (entry : Option (AggrValues κ)) : List (KeyedSample κ) :=
  (entry.elim [] fun av => av.buffer false ++ av.buffer true).map fun x => x.routed.sample

namespace Aggregator

/-- The samples that a push accepted and has not added yet. -/
def inFlight (a : Aggregator κ) : List (KeyedSample κ) :=
  a.pushes.flatMap fun p => (p.samples false ++ p.samples true).map RoutedSample.sample

def bufferedSamples (a : Aggregator κ) (k : κ) : List (KeyedSample κ) :=
  entrySamples (a.outputs k)

def emittedSamples (a : Aggregator κ) (k : κ) : List (KeyedSample κ) :=
  (a.history.flushes.flatMap fun f => f.samples k).map fun x => x.routed.sample

def discardedSamples (a : Aggregator κ) (k : κ) : List (KeyedSample κ) :=
  (a.history.discarded k).map fun x => x.routed.sample

end Aggregator

/-! ### The flusher -/

theorem le_advanceFlushTime {interval : ℤ} (hpos : 0 < interval) (now : ℤ) (n : ℕ) (flushTime : ℤ) :
    flushTime ≤ advanceFlushTime interval now n flushTime := by
  induction n generalizing flushTime with
  | zero => exact le_refl _
  | succ n ih =>
    rw [advanceFlushTime]
    split
    · exact le_trans (by omega) (ih (flushTime + interval))
    · exact le_refl _

/-- The rounds that are counted are enough. -/
theorem now_le_advanceFlushTime {interval : ℤ} (hpos : 0 < interval) {now : ℤ} {n : ℕ}
    {flushTime : ℤ}
    (h : now ≤ flushTime + n) : now ≤ advanceFlushTime interval now n flushTime := by
  induction n generalizing flushTime with
  | zero =>
    rw [advanceFlushTime]
    omega
  | succ n ih =>
    rw [advanceFlushTime]
    split
    · exact ih (by omega)
    · next hle => exact not_lt.mp hle

theorem nextFlushTime_spec (params : AggregatorParams κ) (now flushTime : ℤ) :
    flushTime + params.intervalMs ≤ nextFlushTime params now flushTime ∧
      now ≤ nextFlushTime params now flushTime :=
  ⟨le_advanceFlushTime params.interval_pos _ _ _,
    now_le_advanceFlushTime params.interval_pos (by omega)⟩

/-- What the flusher has read and computed. -/
inductive FlusherOk (params : AggregatorParams κ) (a : Aggregator κ) : Prop
  | due (h : a.flusher = .waiting ∨ a.flusher = .read a.cs ∨ a.flusher = .minStored a.cs ∨
      ∃ flushTs, a.flusher = .shutdownRead a.cs flushTs ∨
      a.flusher = .shutdownMinStored a.cs flushTs)
      (htime : a.flushTime = a.cs.maxDeadline) (hlt : a.history.prevDeadline < a.cs.maxDeadline)
  | flushed {cs : CurrentState} (h : a.flusher = .flushed cs) (hgreen : cs.isGreen = !a.cs.isGreen)
      (hprev : a.history.prevDeadline = a.cs.maxDeadline) (htime : a.flushTime = cs.maxDeadline)
      (hnext : a.cs.maxDeadline + params.intervalMs ≤ cs.maxDeadline)
  | over (h : (∃ cs, a.flusher = .shutdownFlushed cs) ∨ a.flusher = .exited)

section Schedule

variable {a : Aggregator κ}

theorem schedule_due (h : a.flusher = .waiting ∨ a.flusher = .read a.cs ∨
    a.flusher = .minStored a.cs ∨
    ∃ flushTs, a.flusher = .shutdownRead a.cs flushTs ∨ a.flusher =
    .shutdownMinStored a.cs flushTs) :
    a.schedule = ⟨false, a.cs.isGreen, a.history.prevDeadline, a.cs.maxDeadline⟩ := by
  rw [Aggregator.schedule]
  obtain h | h | h | ⟨flushTs, h | h⟩ := h <;> rw [h]

theorem schedule_flushed {cs : CurrentState} (h : a.flusher = .flushed cs) :
    a.schedule = ⟨false, cs.isGreen, a.history.prevDeadline, cs.maxDeadline⟩ := by
  rw [Aggregator.schedule, h]

theorem schedule_over (h : (∃ cs, a.flusher = .shutdownFlushed cs) ∨ a.flusher = .exited) :
    a.schedule = ⟨true, false, 0, 0⟩ := by
  rw [Aggregator.schedule]
  obtain ⟨cs, h⟩ | h := h <;> rw [h]

end Schedule

/-- What a step of the flusher does: it reads and stores, or it flushes the buffer that is due. -/
theorem stepFlush_cases {params : AggregatorParams κ} {a a' : Aggregator κ} {now : ℤ}
    (hok : FlusherOk params a) (hstep : a.stepFlush params now = some a') :
    FlusherOk params a' ∧
    ((∃ f cs minDeadline, a' = { a with flusher := f, cs := cs, minDeadline := minDeadline } ∧
      a'.schedule = a.schedule) ∨
    ∃ push flushTs isLast f flushTime ignoreFirst,
      a' = { a.flushOutputs push flushTs a.cs isLast with
        flusher := f, flushTime := flushTime, ignoreFirst := ignoreFirst } ∧
      a.schedule = ⟨false, a.cs.isGreen, a.history.prevDeadline, a.cs.maxDeadline⟩ ∧
      a.history.prevDeadline < a.cs.maxDeadline ∧
      (a'.schedule = ⟨true, false, 0, 0⟩ ∨ isLast = false ∧
        a'.schedule = ⟨false, !a.cs.isGreen, a.cs.maxDeadline, flushTime⟩ ∧
        a.cs.maxDeadline + params.intervalMs ≤ flushTime)) := by
  rw [Aggregator.stepFlush] at hstep
  cases hok with
  | due hdue htime hlt =>
    have hschedule := schedule_due hdue
    obtain hf | hf | hf | ⟨flushTs, hf | hf⟩ := hdue
    all_goals
      rw [hf] at hstep
      dsimp only at hstep
    · obtain rfl := Option.some.inj hstep
      exact ⟨.due (.inr (.inl rfl)) htime hlt, .inl ⟨_, _, _, rfl, hschedule.symm⟩⟩
    · rw [if_pos (le_of_eq htime)] at hstep
      obtain rfl := Option.some.inj hstep
      exact ⟨.due (.inr (.inr (.inl rfl))) htime hlt, .inl ⟨_, _, _, rfl, hschedule.symm⟩⟩
    · obtain rfl := Option.some.inj hstep
      have htimes := (nextFlushTime_spec params now a.flushTime).1
      have hnext : a.cs.maxDeadline + params.intervalMs ≤ nextFlushTime params now a.flushTime := by
        omega
      exact ⟨.flushed rfl rfl rfl rfl hnext,
        .inr ⟨_, _, _, _, _, _, rfl, hschedule, hlt, .inr ⟨rfl, rfl, hnext⟩⟩⟩
    · obtain rfl := Option.some.inj hstep
      exact ⟨.due (.inr (.inr (.inr ⟨flushTs, .inr rfl⟩))) htime hlt,
        .inl ⟨_, _, _, rfl, hschedule.symm⟩⟩
    · obtain rfl := Option.some.inj hstep
      exact ⟨.over (.inl ⟨_, rfl⟩), .inr ⟨_, _, _, _, _, _, rfl, hschedule, hlt, .inl rfl⟩⟩
  | @flushed cs hf hgreen hprev htime hnext =>
    rw [hf] at hstep
    obtain rfl := Option.some.inj hstep
    have hpos := params.interval_pos
    refine ⟨.due (.inl rfl) htime ?_, .inl ⟨_, _, _, rfl, (schedule_flushed hf).symm⟩⟩
    dsimp only
    omega
  | «over» hover =>
    have hschedule := schedule_over hover
    obtain ⟨cs, hf⟩ | hf := hover
    · rw [hf] at hstep
      obtain rfl := Option.some.inj hstep
      exact ⟨.over (.inr rfl), .inl ⟨_, _, _, rfl, hschedule.symm⟩⟩
    · rw [hf] at hstep
      exact nomatch hstep

/-! ### The invariant -/

structure Scheduled (params : AggregatorParams κ) (a : Aggregator κ) : Prop where
  flusher : FlusherOk params a
  routed : ∀ p ∈ a.pushes, ∀ isGreen, ∀ x ∈ p.samples isGreen,
    x.flushes ≤ a.history.flushes.length ∧ (x.flushes = a.history.flushes.length →
      x.InReach params.intervalMs →
        a.schedule.Contains params.intervalMs isGreen x.sample.timestamp)
  buffered : ∀ k av, a.outputs k = some av → ∀ isGreen, ∀ x ∈ av.buffer isGreen,
    x.Prompt → x.routed.InReach params.intervalMs →
      a.schedule.Contains params.intervalMs isGreen x.routed.sample.timestamp
  records : ∀ f ∈ a.history.flushes, ∀ k, ∀ x ∈ f.samples k, x.Prompt →
    x.routed.InReach params.intervalMs →
      f.start < x.routed.sample.timestamp ∧ x.routed.sample.timestamp ≤ f.deadline

/-! ### Adding to a buffer -/

section Adding

variable {outputs : κ → Option (AggrValues κ)} {k : κ} {av : AggrValues κ} {deleteDeadline : ℤ}
  {isGreen : Bool} {n : ℕ}

theorem AggrValues.buffer_pushSample (av : AggrValues κ) (isGreen : Bool) (deleteDeadline : ℤ)
    (x : BufferedSample κ) (c : Bool) : (av.pushSample isGreen deleteDeadline x).buffer c =
      if c = isGreen then av.buffer c ++ [x] else av.buffer c := by
  cases c <;> cases isGreen <;> rfl

theorem AggrValues.buffer_clear (av : AggrValues κ) (isGreen c : Bool) :
    (av.clear isGreen).buffer c = if c = isGreen then [] else av.buffer c := by
  cases c <;> cases isGreen <;> rfl

variable [DecidableEq κ]

theorem mem_buffer_pushOutput {x : RoutedSample κ} {y : BufferedSample κ} {c : Bool}
    (h : pushOutput deleteDeadline isGreen n outputs x k = some av) (hy : y ∈ av.buffer c) :
    (∃ av', outputs k = some av' ∧ y ∈ av'.buffer c) ∨
      c = isGreen ∧ k = x.sample.key ∧ y = ⟨x, n⟩ := by
  rw [pushOutput] at h
  by_cases hk : k = x.sample.key
  · subst hk
    rw [Function.update_self] at h
    obtain rfl := Option.some.inj h
    rw [AggrValues.buffer_pushSample] at hy
    have hold : y ∈ ((outputs x.sample.key).getD ⟨[], [], deleteDeadline⟩).buffer c →
        ∃ av', outputs x.sample.key = some av' ∧ y ∈ av'.buffer c := by
      intro hy
      cases hentry : outputs x.sample.key with
      | none =>
        rw [hentry] at hy
        cases c <;> exact nomatch hy
      | some av' => exact ⟨av', rfl, by rwa [hentry] at hy⟩
    split at hy
    · next hc =>
      rcases mem_append.mp hy with hy | hy
      · exact .inl (hold hy)
      · exact .inr ⟨hc, rfl, mem_singleton.mp hy⟩
    · exact .inl (hold hy)
  · rw [Function.update_of_ne hk] at h
    exact .inl ⟨av, h, hy⟩

/-- What is in a buffer after a push was there before, or was pushed. -/
theorem mem_buffer_foldl_pushOutput {samples : List (RoutedSample κ)}
    {y : BufferedSample κ} {c : Bool}
    (h : samples.foldl (pushOutput deleteDeadline isGreen n) outputs k = some av)
    (hy : y ∈ av.buffer c) :
    (∃ av', outputs k = some av' ∧ y ∈ av'.buffer c) ∨
      c = isGreen ∧ ∃ x ∈ samples, k = x.sample.key ∧ y = ⟨x, n⟩ := by
  induction samples generalizing outputs with
  | nil => exact .inl ⟨av, h, hy⟩
  | cons x samples ih =>
    rcases ih h with ⟨av', h', hy'⟩ | ⟨hc, z, hz, hzy⟩
    · rcases mem_buffer_pushOutput h' hy' with hold | ⟨hc, hnew⟩
      · exact .inl hold
      · exact .inr ⟨hc, x, mem_cons_self, hnew⟩
    · exact .inr ⟨hc, z, mem_cons_of_mem x hz, hzy⟩

end Adding

/-! ### Steps -/

namespace Scheduled

variable {params : AggregatorParams κ} {a a' : Aggregator κ}

theorem new (params : AggregatorParams κ) (start : ℤ) : Scheduled params (.new params start) := by
  refine ⟨.due (.inl rfl) rfl (Int.lt_add_of_pos_right _ params.interval_pos), ?_, ?_, ?_⟩
  · exact fun p hp => absurd hp not_mem_nil
  · exact fun k av h => nomatch h
  · exact fun f hf => absurd hf not_mem_nil

/-- The buffer that is chosen for a sample in reach is due for it. -/
theorem contains_route (h : FlusherOk params a) {t : ℤ} (hprev : a.history.prevDeadline < t)
    (hle : t ≤ a.cs.maxDeadline + params.intervalMs) :
    a.schedule.Contains params.intervalMs (a.cs.routesToGreen t) t := by
  cases h with
  | due h htime hlt =>
    rw [schedule_due h]
    intro _
    dsimp only
    rw [CurrentState.routesToGreen]
    by_cases hmax : t ≤ a.cs.maxDeadline
    · rw [decide_eq_true hmax]
      cases a.cs.isGreen <;> exact ⟨hprev, hmax⟩
    · rw [decide_eq_false hmax]
      cases a.cs.isGreen <;> exact ⟨not_le.mp hmax, hle⟩
  | @flushed cs h hgreen hprev' htime hnext =>
    -- the old window state is read, so that the sample goes to the buffer that is due next
    have hmax : ¬ t ≤ a.cs.maxDeadline := by omega
    rw [schedule_flushed h, hgreen]
    intro _
    dsimp only
    rw [CurrentState.routesToGreen, decide_eq_false hmax]
    cases a.cs.isGreen <;> exact ⟨hprev, by omega⟩
  | «over» h =>
    rw [schedule_over h]
    exact nofun

/-- A step that changes neither the flusher nor the history. -/
theorem of_frame (h : Scheduled params a) (hflusher : a'.flusher = a.flusher) (hcs : a'.cs = a.cs)
    (htime : a'.flushTime = a.flushTime) (hflushes : a'.history.flushes = a.history.flushes)
    (hprev : a'.history.prevDeadline = a.history.prevDeadline)
    (hrouted : ∀ p ∈ a'.pushes, ∀ isGreen, ∀ x ∈ p.samples isGreen,
      (∃ p ∈ a.pushes, x ∈ p.samples isGreen) ∨ x.flushes = a.history.flushes.length ∧
        (x.InReach params.intervalMs →
          a.schedule.Contains params.intervalMs isGreen x.sample.timestamp))
    (hbuffered : ∀ k av, a'.outputs k = some av → ∀ isGreen, ∀ x ∈ av.buffer isGreen,
      (∃ av, a.outputs k = some av ∧ x ∈ av.buffer isGreen) ∨
        x.flushes = a.history.flushes.length ∧ ∃ p ∈ a.pushes, x.routed ∈ p.samples isGreen) :
    Scheduled params a' := by
  have hschedule : a'.schedule = a.schedule := by
    rw [Aggregator.schedule, Aggregator.schedule, hflusher, hcs, hprev]
  refine ⟨?_, fun p hp isGreen x hx => ?_, fun k av hav isGreen x hx => ?_, ?_⟩
  · cases h.flusher with
    | due h htime' hlt =>
      refine .due ?_ ?_ ?_
      · rw [hflusher, hcs]
        exact h
      · rw [htime, hcs, htime']
      · rw [hprev, hcs]
        exact hlt
    | flushed h hgreen hprev' htime' hnext =>
      refine .flushed (hflusher.trans h) ?_ ?_ (htime.trans htime') ?_
      · rw [hcs, hgreen]
      · rw [hprev, hcs, hprev']
      · rw [hcs]
        exact hnext
    | «over» h =>
      refine .over ?_
      rw [hflusher]
      exact h
  · rw [hflushes, hschedule]
    obtain ⟨p, hp, hx⟩ | ⟨hlen, hin⟩ := hrouted p hp isGreen x hx
    · exact h.routed p hp isGreen x hx
    · exact ⟨le_of_eq hlen, fun _ => hin⟩
  · rw [hschedule]
    obtain ⟨av, hav, hx⟩ | ⟨hlen, p, hp, hx⟩ := hbuffered k av hav isGreen x hx
    · exact h.buffered k av hav isGreen x hx
    · intro hprompt
      exact (h.routed p hp isGreen x.routed hx).2 (hprompt.trans hlen)
  · rw [hflushes]
    exact h.records

theorem stepPush [DecidableEq κ] {k : ℕ} (h : Scheduled params a)
    (hstep : a.stepPush params k = some a') : Scheduled params a' := by
  have hmem : ∀ {p q : PushCall κ}, p ∈ a.pushes.set k q → p ∈ a.pushes ∨ p = q :=
    fun hp => mem_or_eq_of_mem_set hp
  rw [Aggregator.stepPush] at hstep
  split at hstep
  · next now minDeadline tss hcall =>
    obtain rfl := Option.some.inj hstep
    refine h.of_frame rfl rfl rfl rfl rfl (fun p hp isGreen x hx => ?_)
      fun k av hav isGreen x hx => .inl ⟨av, hav, hx⟩
    rcases hmem hp with hp | rfl
    · exact .inl ⟨p, hp, hx⟩
    · right
      have hx' : x ∈ a.withState (acceptedSamples params minDeadline tss) ∧
          isGreen = a.cs.routesToGreen x.sample.timestamp := by
        cases isGreen <;> simpa [PushCall.samples, mem_filter] using hx
      obtain ⟨hmap, rfl⟩ := hx'
      obtain ⟨s, -, rfl⟩ := mem_map.mp hmap
      exact ⟨rfl, fun hin => contains_route h.flusher hin.1 hin.2⟩
  · next deleteDeadline blue green hcall =>
    have hcall := mem_of_getElem? hcall
    obtain rfl := Option.some.inj hstep
    refine h.of_frame rfl rfl rfl rfl rfl (fun p hp isGreen x hx => .inl ?_)
      fun k av hav isGreen x hx => ?_
    · rcases hmem hp with hp | rfl
      · exact ⟨p, hp, hx⟩
      · refine ⟨_, hcall, ?_⟩
        cases isGreen
        · exact nomatch hx
        · exact hx
    · rcases mem_buffer_foldl_pushOutput hav hx with hold | ⟨rfl, y, hy, -, rfl⟩
      · exact .inl hold
      · exact .inr ⟨rfl, _, hcall, hy⟩
  · next deleteDeadline green hcall =>
    have hcall := mem_of_getElem? hcall
    obtain rfl := Option.some.inj hstep
    refine h.of_frame rfl rfl rfl rfl rfl (fun p hp isGreen x hx => .inl ?_)
      fun k av hav isGreen x hx => ?_
    · rcases hmem hp with hp | rfl
      · exact ⟨p, hp, hx⟩
      · exact nomatch hx
    · rcases mem_buffer_foldl_pushOutput hav hx with hold | ⟨rfl, y, hy, -, rfl⟩
      · exact .inl hold
      · exact .inr ⟨rfl, _, hcall, hy⟩
  · exact nomatch hstep

/-- A step of the flusher that changes nothing but what it has read. -/
theorem of_flusher {f : Flusher} {cs : CurrentState} {minDeadline : ℤ} (h : Scheduled params a)
    (hok : FlusherOk params { a with flusher := f, cs := cs, minDeadline := minDeadline })
    (hschedule : Aggregator.schedule { a with flusher := f, cs := cs, minDeadline := minDeadline } =
      a.schedule) :
    Scheduled params { a with flusher := f, cs := cs, minDeadline := minDeadline } := by
  refine ⟨hok, fun p hp isGreen x hx => ?_, fun k av hav isGreen x hx => ?_, h.records⟩
  · rw [hschedule]
    exact h.routed p hp isGreen x hx
  · rw [hschedule]
    exact h.buffered k av hav isGreen x hx

/-- The flush of the buffer that is due records its samples in their window. -/
theorem records_flushOutputs (h : Scheduled params a)
    (hschedule : a.schedule = ⟨false, a.cs.isGreen, a.history.prevDeadline, a.cs.maxDeadline⟩)
    (push : Bool) (flushTs : ℤ) (isLast : Bool) :
    ∀ f ∈ (a.flushOutputs push flushTs a.cs isLast).history.flushes, ∀ k, ∀ x ∈ f.samples k,
      x.Prompt → x.routed.InReach params.intervalMs →
        f.start < x.routed.sample.timestamp ∧ x.routed.sample.timestamp ≤ f.deadline := by
  intro f hf k x hx hprompt hreach
  rcases mem_append.mp hf with hf | hf
  · exact h.records f hf k x hx hprompt hreach
  · obtain rfl := mem_singleton.mp hf
    dsimp only at hx ⊢
    cases hav : a.outputs k with
    | none =>
      rw [hav] at hx
      exact nomatch hx
    | some av =>
      rw [hav, Option.map_some, Option.getD_some, emitEntry] at hx
      split at hx
      · exact nomatch hx
      · have hin := h.buffered k av hav a.cs.isGreen x hx hprompt hreach
        rw [hschedule] at hin
        have hwindow := hin rfl
        rwa [if_pos rfl] at hwindow

theorem routed_flushOutputs (h : Scheduled params a) (push : Bool) (flushTs : ℤ) (cs : CurrentState)
    (isLast : Bool) {w : Schedule} : ∀ p ∈ a.pushes, ∀ isGreen, ∀ x ∈ p.samples isGreen,
      x.flushes ≤ (a.flushOutputs push flushTs cs isLast).history.flushes.length ∧
        (x.flushes = (a.flushOutputs push flushTs cs isLast).history.flushes.length →
          x.InReach params.intervalMs →
            w.Contains params.intervalMs isGreen x.sample.timestamp) := by
  intro p hp isGreen x hx
  have hle := (h.routed p hp isGreen x hx).1
  rw [Aggregator.flushOutputs]
  dsimp only
  rw [length_append, length_singleton]
  exact ⟨by omega, fun heq => absurd heq (by omega)⟩

/-- What stays in a buffer was due after the flush, and is due next. -/
theorem buffered_flushOutputs (h : Scheduled params a)
    (hschedule : a.schedule = ⟨false, a.cs.isGreen, a.history.prevDeadline, a.cs.maxDeadline⟩)
    (push : Bool) (flushTs : ℤ) {nextDeadline : ℤ}
    (hnext : a.cs.maxDeadline + params.intervalMs ≤ nextDeadline) :
    ∀ k av, (a.flushOutputs push flushTs a.cs false).outputs k = some av →
      ∀ isGreen, ∀ x ∈ av.buffer isGreen, x.Prompt → x.routed.InReach params.intervalMs →
        Schedule.Contains ⟨false, !a.cs.isGreen, a.cs.maxDeadline, nextDeadline⟩ params.intervalMs
          isGreen x.routed.sample.timestamp := by
  intro k av hav isGreen x hx hprompt hreach _
  obtain ⟨av', hav', hretain⟩ := Option.bind_eq_some_iff.mp hav
  rw [retainEntry] at hretain
  split at hretain
  · exact nomatch hretain
  · rw [if_neg Bool.false_ne_true] at hretain
    obtain rfl := Option.some.inj hretain
    rw [AggrValues.buffer_clear] at hx
    split at hx
    · exact nomatch hx
    · next hne =>
      have hin := h.buffered k av' hav' isGreen x hx hprompt hreach
      rw [hschedule] at hin
      have hwindow := hin rfl
      rw [if_neg hne] at hwindow
      rw [if_pos (Bool.eq_not.mpr hne)]
      exact ⟨hwindow.1, le_trans hwindow.2 hnext⟩

theorem stepFlush {now : ℤ} (h : Scheduled params a) (hstep : a.stepFlush params now = some a') :
    Scheduled params a' := by
  obtain ⟨hok, ⟨f, cs, minDeadline, rfl, hschedule⟩ |
    ⟨push, flushTs, isLast, f, flushTime, ignoreFirst, rfl, hdue, hlt, hnext⟩⟩ :=
      stepFlush_cases h.flusher hstep
  · exact h.of_flusher hok hschedule
  · refine ⟨hok, h.routed_flushOutputs push flushTs _ isLast, ?_,
      h.records_flushOutputs hdue push flushTs isLast⟩
    obtain hover | ⟨rfl, hnext, hle⟩ := hnext
    · rw [hover]
      exact fun k av hav isGreen x hx hprompt hreach hover => nomatch hover
    · rw [hnext]
      exact h.buffered_flushOutputs hdue push flushTs hle

theorem step [DecidableEq κ] {act : AggregatorAction} (h : Scheduled params a)
    (hstep : a.step params act = some a') : Scheduled params a' := by
  cases act with
  | push now tss =>
    obtain rfl := Option.some.inj hstep
    refine h.of_frame rfl rfl rfl rfl rfl (fun p hp isGreen x hx => .inl ?_)
      fun k av hav isGreen x hx => .inl ⟨av, hav, hx⟩
    rcases mem_append.mp hp with hp | hp
    · exact ⟨p, hp, hx⟩
    · obtain rfl := mem_singleton.mp hp
      exact nomatch hx
  | pushStep k => exact h.stepPush hstep
  | flush now => exact h.stepFlush hstep
  | stop now =>
    rw [Aggregator.step] at hstep
    split at hstep
    · next hf =>
      obtain rfl := Option.some.inj hstep
      cases h.flusher with
      | due hdue htime hlt =>
        exact h.of_flusher (.due (.inr (.inr (.inr ⟨_, .inl rfl⟩))) htime hlt)
          (schedule_due hdue).symm
      | flushed hf' => exact nomatch hf.symm.trans hf'
      | «over» hover =>
        obtain ⟨cs, hf'⟩ | hf' := hover <;> exact nomatch hf.symm.trans hf'
    · exact nomatch hstep

end Scheduled

/-! ### The windows of the flushes -/

/-- The window of a flush starts where that of the flush before it ends. -/
structure Consecutive (a : Aggregator κ) : Prop where
  chain : a.history.flushes.IsChain fun f g => f.deadline = g.start
  last : ∀ f ∈ a.history.flushes.getLast?, f.deadline = a.history.prevDeadline
  start_lt : ∀ f ∈ a.history.flushes, f.start < f.deadline

namespace Consecutive

variable {params : AggregatorParams κ} {a a' : Aggregator κ}

theorem flushOutputs (h : Consecutive a) (hlt : a.history.prevDeadline < a.cs.maxDeadline)
    (push : Bool)
    (flushTs : ℤ) (isLast : Bool) : Consecutive (a.flushOutputs push flushTs a.cs isLast) := by
  refine ⟨?_, fun f hf => ?_, fun f hf => ?_⟩
  · refine isChain_append.mpr ⟨h.chain, isChain_singleton _, fun f hf g hg => ?_⟩
    obtain rfl := Option.some.inj hg
    exact h.last f hf
  · rw [Aggregator.flushOutputs, getLast?_concat] at hf
    obtain rfl := Option.some.inj hf
    rfl
  · rcases mem_append.mp hf with hf | hf
    · exact h.start_lt f hf
    · obtain rfl := mem_singleton.mp hf
      exact hlt

theorem step [DecidableEq κ] {act : AggregatorAction} (h : Consecutive a) (hok : FlusherOk params a)
    (hstep : a.step params act = some a') : Consecutive a' := by
  have hframe : ∀ b : Aggregator κ, b.history.flushes = a.history.flushes →
      b.history.prevDeadline = a.history.prevDeadline → Consecutive b := by
    intro b hflushes hprev
    refine ⟨?_, ?_, ?_⟩
    · rw [hflushes]; exact h.chain
    · rw [hflushes, hprev]; exact h.last
    · rw [hflushes]; exact h.start_lt
  cases act with
  | push now tss =>
    obtain rfl := Option.some.inj hstep
    exact hframe _ rfl rfl
  | pushStep k =>
    rw [Aggregator.step, Aggregator.stepPush] at hstep
    split at hstep
    · obtain rfl := Option.some.inj hstep
      exact hframe _ rfl rfl
    · obtain rfl := Option.some.inj hstep
      exact hframe _ rfl rfl
    · obtain rfl := Option.some.inj hstep
      exact hframe _ rfl rfl
    · exact nomatch hstep
  | flush now =>
    obtain ⟨-, ⟨f, cs, minDeadline, rfl, -⟩ |
      ⟨push, flushTs, isLast, f, flushTime, ignoreFirst, rfl, -, hlt, -⟩⟩ :=
        stepFlush_cases hok hstep
    · exact hframe _ rfl rfl
    · have hflush := h.flushOutputs hlt push flushTs isLast
      exact ⟨hflush.chain, hflush.last, hflush.start_lt⟩
  | stop now =>
    rw [Aggregator.step] at hstep
    split at hstep
    · obtain rfl := Option.some.inj hstep
      exact hframe _ rfl rfl
    · exact nomatch hstep

end Consecutive

/-! ### Where every sample is -/

/-- Every accepted sample is at exactly one place, and at its output key. -/
structure Accounted [DecidableEq κ] (a : Aggregator κ) : Prop where
  count : ∀ x, a.history.accepted.count x = a.inFlight.count x + (a.bufferedSamples x.key).count x +
    (a.emittedSamples x.key).count x + (a.discardedSamples x.key).count x
  keyed : ∀ k, ∀ x ∈ a.bufferedSamples k ++ a.emittedSamples k ++ a.discardedSamples k, x.key = k

section Counting

variable [DecidableEq κ]

/-- Each sample of a push goes to its output key. -/
theorem count_pushOutput (outputs : κ → Option (AggrValues κ)) (deleteDeadline : ℤ) (isGreen : Bool)
    (n : ℕ) (x : RoutedSample κ) (y : KeyedSample κ) :
    (entrySamples (pushOutput deleteDeadline isGreen n outputs x y.key)).count y =
      (entrySamples (outputs y.key)).count y + [x.sample].count y := by
  rw [pushOutput]
  by_cases hkey : y.key = x.sample.key
  · rw [hkey, Function.update_self]
    cases outputs x.sample.key with
    | none => cases isGreen <;> exact (Nat.zero_add _).symm
    | some av =>
      rw [Option.getD_some, entrySamples, entrySamples, Option.elim_some, Option.elim_some,
        AggrValues.buffer_pushSample, AggrValues.buffer_pushSample]
      cases isGreen
      · simp only [if_true, Bool.true_eq_false, if_false, map_append, count_append,
          map_cons, map_nil]
        omega
      · simp only [if_true, Bool.false_eq_true, if_false, map_append, count_append,
          map_cons, map_nil]
        omega
  · rw [Function.update_of_ne hkey]
    have hne : ¬ x.sample = y := fun heq => hkey (congrArg KeyedSample.key heq).symm
    rw [count_singleton, beq_eq_false_iff_ne.mpr hne]
    rfl

theorem count_foldl_pushOutput (samples : List (RoutedSample κ))
    (outputs : κ → Option (AggrValues κ))
    (deleteDeadline : ℤ) (isGreen : Bool) (n : ℕ) (y : KeyedSample κ) :
    (entrySamples (samples.foldl (pushOutput deleteDeadline isGreen n) outputs y.key)).count y =
      (entrySamples (outputs y.key)).count y + (samples.map RoutedSample.sample).count y := by
  induction samples generalizing outputs with
  | nil => rfl
  | cons x samples ih =>
    rw [foldl_cons, ih, count_pushOutput, map_cons, ← singleton_append (l := samples.map _),
      count_append, Nat.add_assoc]

/-- Each accepted sample goes to one of the two buffers. -/
theorem count_withState (a : Aggregator κ) (accepted : List (KeyedSample κ)) (green : ℤ → Bool)
    (x : KeyedSample κ) :
    (((a.withState accepted).filter (fun x => !green x.sample.timestamp) ++
      (a.withState accepted).filter fun x => green x.sample.timestamp).map
        RoutedSample.sample).count x = accepted.count x := by
  have hperm := perm_append_comm.trans (filter_append_perm
    (fun x : RoutedSample κ => green x.sample.timestamp) (a.withState accepted))
  rw [(hperm.map RoutedSample.sample).count_eq, Aggregator.withState, map_map]
  exact congrArg (List.count x) (map_id _)

/-- An entry is kept, emitted or discarded. -/
theorem count_flushEntry (entry : Option (AggrValues κ)) (isGreen : Bool) (flushTs : ℤ)
    (isLast : Bool) (y : KeyedSample κ) :
    (entrySamples entry).count y =
      (entrySamples (entry.bind (retainEntry isGreen flushTs isLast))).count y +
      (((entry.map (emitEntry isGreen flushTs)).getD []).map fun x => x.routed.sample).count y +
      (((entry.map (discardEntry isGreen flushTs isLast)).getD []).map
        fun x => x.routed.sample).count y := by
  cases entry with
  | none => rfl
  | some av =>
    rw [Option.bind_some, Option.map_some, Option.map_some, Option.getD_some, Option.getD_some,
      retainEntry, emitEntry, discardEntry]
    split
    · cases isGreen <;>
        simp only [entrySamples, Option.elim_some, Option.elim_none, map_append, map_nil,
          count_append, count_nil, Bool.not_true, Bool.not_false] <;> omega
    · cases isLast <;> cases isGreen <;>
        simp only [entrySamples, Option.elim_some, Option.elim_none, map_append, map_nil,
          count_append, count_nil, AggrValues.buffer_clear, if_true, if_false,
          Bool.not_true, Bool.not_false, Bool.false_eq_true, Bool.true_eq_false] <;> omega

theorem key_of_mem_pushOutput {outputs : κ → Option (AggrValues κ)} {deleteDeadline : ℤ}
    {isGreen : Bool} {n : ℕ} {samples : List (RoutedSample κ)} {k : κ} {x : KeyedSample κ}
    (h : ∀ x ∈ entrySamples (outputs k), x.key = k)
    (hx : x ∈ entrySamples (samples.foldl (pushOutput deleteDeadline isGreen n) outputs k)) :
    x.key = k := by
  obtain ⟨y, hy, rfl⟩ := mem_map.mp hx
  cases hav : samples.foldl (pushOutput deleteDeadline isGreen n) outputs k with
  | none =>
    rw [hav] at hy
    exact nomatch hy
  | some av =>
    rw [hav] at hy
    have hbuffer : ∃ c, y ∈ av.buffer c := by
      rcases mem_append.mp hy with hy | hy
      · exact ⟨false, hy⟩
      · exact ⟨true, hy⟩
    obtain ⟨c, hc⟩ := hbuffer
    rcases mem_buffer_foldl_pushOutput hav hc with ⟨av', hav', hold⟩ | ⟨-, z, -, hk, rfl⟩
    · refine h _ (mem_map_of_mem ?_)
      rw [hav']
      cases c
      · exact mem_append_left _ hold
      · exact mem_append_right _ hold
    · exact hk.symm

end Counting

namespace Accounted

variable [DecidableEq κ] {params : AggregatorParams κ} {a a' : Aggregator κ}

theorem new (params : AggregatorParams κ) (start : ℤ) : Accounted (.new params start) :=
  ⟨fun _ => rfl, fun _ _ hx => absurd hx not_mem_nil⟩

/-- A push takes samples from those in flight to the buffers. -/
theorem pushSamples {k : ℕ} {p q : PushCall κ} {samples : List (RoutedSample κ)} (h : Accounted a)
    (hcall : a.pushes[k]? = some p) (isGreen : Bool) (deleteDeadline : ℤ)
    (hsamples : ∀ x, ((p.samples false ++ p.samples true).map RoutedSample.sample).count x =
      (samples.map RoutedSample.sample).count x +
        ((q.samples false ++ q.samples true).map RoutedSample.sample).count x) :
    Accounted ({ a with pushes := a.pushes.set k q }.pushSamples samples deleteDeadline
      isGreen) := by
  refine ⟨fun x => ?_, fun k x hx => ?_⟩
  · have hold := h.count x
    have hset := count_flatMap_set x
      (fun p : PushCall κ => (p.samples false ++ p.samples true).map RoutedSample.sample) q hcall
    have hfold := count_foldl_pushOutput samples a.outputs deleteDeadline isGreen
      a.history.flushes.length x
    have hmove := hsamples x
    change a.history.accepted.count x =
      ((a.pushes.set k q).flatMap fun p =>
        (p.samples false ++ p.samples true).map RoutedSample.sample).count x +
      (entrySamples (samples.foldl (pushOutput deleteDeadline isGreen a.history.flushes.length)
        a.outputs x.key)).count x + (a.emittedSamples x.key).count x +
      (a.discardedSamples x.key).count x
    change a.history.accepted.count x = (a.pushes.flatMap fun p =>
      (p.samples false ++ p.samples true).map RoutedSample.sample).count x +
      (entrySamples (a.outputs x.key)).count x + _ + _ at hold
    omega
  · rw [append_assoc] at hx
    rcases mem_append.mp hx with hx | hx
    · refine key_of_mem_pushOutput (fun x hx => ?_) hx
      exact h.keyed k x (mem_append_left _ (mem_append_left _ hx))
    · refine h.keyed k x ?_
      rw [append_assoc]
      exact mem_append_right _ hx

theorem stepPush {k : ℕ} (h : Accounted a) (hstep : a.stepPush params k = some a') :
    Accounted a' := by
  rw [Aggregator.stepPush] at hstep
  split at hstep
  · next now minDeadline tss hcall =>
    obtain rfl := Option.some.inj hstep
    refine ⟨fun x => ?_, h.keyed⟩
    have hold := h.count x
    have hset := fun q => count_flatMap_set x
      (fun p : PushCall κ => (p.samples false ++ p.samples true).map RoutedSample.sample) q hcall
    have hrouted := count_withState a (acceptedSamples params minDeadline tss)
      a.cs.routesToGreen x
    rw [Aggregator.route]
    generalize hq : PushCall.routed (now + params.stalenessIntervalMs)
      ((a.withState (acceptedSamples params minDeadline tss)).filter
        fun x => !a.cs.routesToGreen x.sample.timestamp)
      ((a.withState (acceptedSamples params minDeadline tss)).filter
        fun x => a.cs.routesToGreen x.sample.timestamp) = q
    have hmove := hset q
    have hnone : (((PushCall.loaded now minDeadline tss : PushCall κ).samples false ++
      (PushCall.loaded now minDeadline tss).samples true).map RoutedSample.sample).count x = 0 :=
      rfl
    have hnew : ((q.samples false ++ q.samples true).map RoutedSample.sample).count x =
        (acceptedSamples params minDeadline tss).count x := by
      rw [← hq]
      exact hrouted
    change (a.history.accepted ++ acceptedSamples params minDeadline tss).count x =
      ((a.pushes.set k q).flatMap fun p =>
        (p.samples false ++ p.samples true).map RoutedSample.sample).count x +
      (a.bufferedSamples x.key).count x + (a.emittedSamples x.key).count x +
      (a.discardedSamples x.key).count x
    rw [Aggregator.inFlight] at hold
    rw [count_append]
    omega
  · next deleteDeadline blue green hcall =>
    obtain rfl := Option.some.inj hstep
    refine h.pushSamples hcall false deleteDeadline fun x => ?_
    rw [map_append, count_append]
    rfl
  · next deleteDeadline green hcall =>
    obtain rfl := Option.some.inj hstep
    exact h.pushSamples hcall true deleteDeadline fun x => rfl
  · exact nomatch hstep

theorem flushOutputs (h : Accounted a) (push : Bool) (flushTs : ℤ) (cs : CurrentState)
    (isLast : Bool) : Accounted (a.flushOutputs push flushTs cs isLast) := by
  refine ⟨fun x => ?_, fun k x hx => ?_⟩
  · have hold := h.count x
    have hentry := count_flushEntry (a.outputs x.key) cs.isGreen flushTs isLast x
    simp only [Aggregator.emittedSamples, Aggregator.discardedSamples, Aggregator.bufferedSamples,
      Aggregator.flushOutputs, flatMap_append, flatMap_cons, flatMap_nil,
      append_nil, map_append, count_append] at hold ⊢
    change a.history.accepted.count x = a.inFlight.count x + _ + _ + _
    omega
  · have hentry : ∀ x, x ∈ entrySamples (a.outputs k) → x.key = k := fun x hx =>
      h.keyed k x (mem_append_left _ (mem_append_left _ hx))
    -- what the flush moves was in the entry
    have hmoved : x ∈ a.emittedSamples k ++ a.discardedSamples k ∨
        x ∈ entrySamples (a.outputs k) := by
      have hcount := count_flushEntry (a.outputs k) cs.isGreen flushTs isLast x
      simp only [Aggregator.emittedSamples, Aggregator.discardedSamples, Aggregator.bufferedSamples,
        Aggregator.flushOutputs, flatMap_append, flatMap_cons, flatMap_nil,
        append_nil, map_append, mem_append] at hx ⊢
      rw [← count_pos_iff (l := entrySamples (a.outputs k))]
      rcases hx with (hx | hx | hx) | hx | hx
      · exact .inr (by have := count_pos_iff.mpr hx; omega)
      · exact .inl (.inl hx)
      · exact .inr (by have := count_pos_iff.mpr hx; omega)
      · exact .inl (.inr hx)
      · exact .inr (by have := count_pos_iff.mpr hx; omega)
    rcases hmoved with hx | hx
    · refine h.keyed k x ?_
      rw [append_assoc]
      exact mem_append_right _ hx
    · exact hentry x hx

theorem step {act : AggregatorAction} (h : Accounted a) (hok : FlusherOk params a)
    (hstep : a.step params act = some a') : Accounted a' := by
  cases act with
  | push now tss =>
    obtain rfl := Option.some.inj hstep
    refine ⟨fun x => ?_, h.keyed⟩
    have hold := h.count x
    rw [Aggregator.inFlight] at hold ⊢
    rw [count_flatMap_append]
    exact hold
  | pushStep k => exact h.stepPush hstep
  | flush now =>
    obtain ⟨-, ⟨f, cs, minDeadline, rfl, -⟩ |
      ⟨push, flushTs, isLast, f, flushTime, ignoreFirst, rfl, -, -, -⟩⟩ :=
        stepFlush_cases hok hstep
    · exact ⟨h.count, h.keyed⟩
    · have hflush := h.flushOutputs push flushTs a.cs isLast
      exact ⟨hflush.count, hflush.keyed⟩
  | stop now =>
    rw [Aggregator.step] at hstep
    split at hstep
    · obtain rfl := Option.some.inj hstep
      exact ⟨h.count, h.keyed⟩
    · exact nomatch hstep

end Accounted

/-! ### Every run -/

section Runs

variable [DecidableEq κ]

/-- In every run, at any moment, each sample that a push accepted is with this push, in a buffer, in
one flush, or discarded with an entry of its output key. The windows of the flushes follow each
other; and the window of a flush contains each of its samples that is later than the previous
deadline, not more than an interval later than the deadline that was read for it, and was added to
its buffer before the flush that came next when it was read. -/
theorem aggregation_windows (params : AggregatorParams κ) (start : ℤ)
    (r : Run (Aggregator.step params) (.new params start)) (n : ℕ) (hn : n ≤ r.length) :
    (∀ x, (r.state n).history.accepted.count x = (r.state n).inFlight.count x +
      ((r.state n).bufferedSamples x.key).count x + ((r.state n).emittedSamples x.key).count x +
      ((r.state n).discardedSamples x.key).count x) ∧
    (∀ f ∈ (r.state n).history.flushes, ∀ k, ∀ x ∈ f.samples k, x.routed.sample.key = k ∧
      (x.Prompt → x.routed.InReach params.intervalMs →
        f.start < x.routed.sample.timestamp ∧ x.routed.sample.timestamp ≤ f.deadline)) ∧
    ((r.state n).history.flushes.IsChain fun f g => f.deadline = g.start) ∧
    ∀ f ∈ (r.state n).history.flushes, f.start < f.deadline := by
  obtain ⟨hscheduled, hconsecutive, haccounted⟩ : Scheduled params (r.state n) ∧
      Consecutive (r.state n) ∧ Accounted (r.state n) := by
    refine r.invariant (P := fun a => Scheduled params a ∧ Consecutive a ∧ Accounted a) ?_ ?_ n hn
    · exact ⟨.new params start, ⟨isChain_nil, fun f hf => (nomatch hf),
        fun f hf => absurd hf not_mem_nil⟩, .new params start⟩
    · rintro a act a' ⟨h, hc, ha⟩ hstep
      exact ⟨h.step hstep, hc.step h.flusher hstep, ha.step h.flusher hstep⟩
  refine ⟨haccounted.count, fun f hf k x hx => ⟨?_, hscheduled.records f hf k x hx⟩,
    hconsecutive.chain, hconsecutive.start_lt⟩
  refine haccounted.keyed k _ (mem_append_left _ (mem_append_right _ ?_))
  exact mem_map_of_mem (mem_flatMap.mpr ⟨f, hf, hx⟩)

end Runs

section Example

/-- Windows of ten milliseconds, all series in one output. -/
def tenMs : AggregatorParams ℕ where
  outputKey := fun _ => some 0
  intervalMs := 10
  stalenessIntervalMs := 100
  ignoreFirstIntervals := 0
  flushOnShutdown := true
  alignFlushToInterval := true
  interval_pos := by decide

def oneSample (timestamp : ℤ) : List InputSeries := [⟨[], [⟨timestamp, some 1⟩]⟩]

/-- What was flushed for the output: the windows, and the timestamps. -/
def flushedTimestamps (a : Aggregator ℕ) : List (ℤ × ℤ × List ℤ) :=
  a.history.flushes.map fun f => (f.start, f.deadline, (f.samples 0).map
    fun x => x.routed.sample.timestamp)

theorem aggregation_windows_tenMs :
    ∃ r : Run (Aggregator.step tenMs) (.new tenMs 0),
      flushedTimestamps (r.state 8) = [(0, 10, [5])] ∧
      (∀ x, (r.state 8).history.accepted.count x = (r.state 8).inFlight.count x +
        ((r.state 8).bufferedSamples x.key).count x + ((r.state 8).emittedSamples x.key).count x +
        ((r.state 8).discardedSamples x.key).count x) ∧
      (∀ f ∈ (r.state 8).history.flushes, ∀ k, ∀ x ∈ f.samples k, x.routed.sample.key = k ∧
        (x.Prompt → x.routed.InReach 10 →
          f.start < x.routed.sample.timestamp ∧ x.routed.sample.timestamp ≤ f.deadline)) ∧
      ∀ f ∈ (r.state 8).history.flushes, f.start < f.deadline := by
  let r : Run (Aggregator.step tenMs) (.new tenMs 0) := Run.ofActions
    [.push 5 (oneSample 5), .pushStep 0, .pushStep 0, .pushStep 0, .flush 10, .flush 10, .flush 10,
      .flush 10] (by decide)
  obtain ⟨hcount, hwindow, _, hlt⟩ := aggregation_windows tenMs 0 r 8 (by decide)
  exact ⟨r, by decide, hcount, hwindow, hlt⟩

/-- A sample that is added after the flush of its window is flushed in a later one, and a sample of
the window after the last is discarded when the flusher is stopped. -/
theorem aggregation_windows_misplaced :
    (∃ r : Run (Aggregator.step tenMs) (.new tenMs 0),
      (r.state 16).history.accepted = [⟨0, 1, 5⟩] ∧
      flushedTimestamps (r.state 16) = [(0, 10, []), (10, 20, []), (20, 30, [5])]) ∧
    ∃ r : Run (Aggregator.step tenMs) (.new tenMs 0),
      (r.state 8).history.accepted = [⟨0, 1, 15⟩] ∧ (r.state 8).flusher = .exited ∧
      flushedTimestamps (r.state 8) = [(0, 10, [])] ∧
      (r.state 8).discardedSamples 0 = [⟨0, 1, 15⟩] := by
  constructor
  · refine ⟨Run.ofActions [.push 5 (oneSample 5), .pushStep 0, .flush 10, .flush 10, .flush 10,
      .flush 10, .pushStep 0, .pushStep 0, .flush 20, .flush 20, .flush 20, .flush 20, .flush 30,
      .flush 30, .flush 30, .flush 30] (by decide), ?_⟩
    decide
  · refine ⟨Run.ofActions [.push 5 (oneSample 15), .pushStep 0, .pushStep 0, .pushStep 0, .stop 8,
      .flush 8, .flush 8, .flush 8] (by decide), ?_⟩
    decide

end Example

end Esmetrics.Streamaggr
