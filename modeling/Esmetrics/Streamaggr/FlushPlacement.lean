import Esmetrics.Streamaggr.Outputs
import Mathlib.Algebra.BigOperators.Group.List.Basic

/-!
# Totals do not depend on where flushes fall

The state of an output that is flushed many times is compared with that of one that is not flushed
until the end. `Ahead` relates the two: what the first has emitted so far is missing in it. A push
keeps this, and so does a flush of the first (`Ahead.flush`), unless it meets one of two conditions
that the source treats on its own: a last value that is too old (`Output.Expires`), and a sum that
would not be exact in `f64` (`Output.Guarded`). The main result is `emissions_flushedAlong`.
-/

namespace Esmetrics.Streamaggr

open List

/-! ### Events -/

inductive Event (κ : Type)
  | push (p : Push κ)
  | flush (ctx : FlushCtx)

variable {κ : Type} (env : OutputEnv κ) (outputKey : List Label)

def Event.isPush : Event κ → Bool
  | push _ => true
  | flush _ => false

namespace Output

/-- The state after an event; no flush is the last one. -/
def step [DecidableEq κ] (o : Output κ) : Event κ → Output κ
  | .push p => o.pushSample env p
  | .flush ctx => (o.flush env ctx outputKey false).1

/-- What the flushes append, one list for each of them. -/
def emissions [DecidableEq κ] (o : Output κ) : List (Event κ) → List (List TimeSeries)
  | [] => []
  | .push p :: es => (o.step env outputKey (.push p)).emissions es
  | .flush ctx :: es =>
    (o.flush env ctx outputKey false).2 :: (o.step env outputKey (.flush ctx)).emissions es

/-- No event is bad in the state that it meets. -/
def Avoids [DecidableEq κ] (bad : Output κ → Event κ → Prop) (o : Output κ) : List (Event κ) → Prop
  | [] => True
  | e :: es => ¬ bad o e ∧ (o.step env outputKey e).Avoids bad es

/-- The flush drops a last value that was not updated in time. -/
def Expires : Output κ → Event κ → Prop
  | .increase _ _ _ l, .flush ctx => ∃ k, ∃ lv ∈ l k, ctx.flushTimestamp > lv.deleteDeadline
  | .total _ _ _ shared, .flush ctx =>
    ∃ k, ∃ lv ∈ shared.last k, ctx.flushTimestamp > lv.deleteDeadline
  | _, _ => False

/-- The sum is started anew, so that it stays exact in `f64`. -/
def Guarded : Output κ → Event κ → Prop
  | .sumSamples true sum, .push _ => |sum| ≥ precisionLimit
  | .total _ _ acc shared, .flush _ => |shared.sharedTotal + acc| ≥ precisionLimit
  | _, _ => False

/-- The kind that an output was made of. -/
def kind : Output κ → OutputKind
  | .avg _ _ => .avg
  | .countSamples _ => .countSamples
  | .countSeries _ => .countSeries
  | .histogramBucket _ _ => .histogramBucket
  | .increase keep deadline _ _ => .increase keep deadline
  | .last _ _ => .last
  | .max _ _ => .max
  | .min _ _ => .min
  | .sumSamples reset _ => .sumSamples reset
  | .total keep deadline _ _ => .total keep deadline
  | .uniqueSamples _ => .uniqueSamples

end Output

/-- The values of the series that were appended. -/
def emittedSum (out : List TimeSeries) : ℚ :=
  ((out.flatMap TimeSeries.samples).map Sample.value).sum

/-- The emissions for a list of events and a flush after all of them. -/
def flushedAlong [DecidableEq κ] (kind : OutputKind) (evs : List (Event κ)) (ctx : FlushCtx) :
    List (List TimeSeries) :=
  (kind.newState κ).emissions env outputKey (evs ++ [.flush ctx])

/-- The same without the flushes between the events. -/
def flushedOnce [DecidableEq κ] (kind : OutputKind) (evs : List (Event κ)) (ctx : FlushCtx) :
    List (List TimeSeries) :=
  flushedAlong env outputKey kind (evs.filter Event.isPush) ctx

/-! ### Emitted values -/

variable {env outputKey}

theorem emittedSum_append (out out' : List TimeSeries) :
    emittedSum (out ++ out') = emittedSum out + emittedSum out' := by
  rw [emittedSum, flatMap_append, map_append, sum_append]
  rfl

theorem emittedSum_appendSeries (ctx : FlushCtx) (suffix : String) (value : ℚ) :
    emittedSum [ctx.appendSeries outputKey suffix value] = value :=
  add_zero value

theorem retainLast_of_fresh {last : LastValues κ} {flushTs : ℤ}
    (h : ¬ ∃ k, ∃ lv ∈ last k, flushTs > lv.deleteDeadline) :
    retainLast last flushTs false = last := by
  funext k
  rw [retainLast]
  rcases hl : last k with _ | lv
  · rfl
  · have hfresh : ¬ flushTs > lv.deleteDeadline := fun hlt => h ⟨k, lv, hl, hlt⟩
    simpa using hfresh

/-! ### Kinds -/

namespace Output

theorem kind_step [DecidableEq κ] (env : OutputEnv κ) (outputKey : List Label) (o : Output κ)
    (e : Event κ) : (o.step env outputKey e).kind = o.kind := by
  cases e with
  | push p => cases o <;> rw [step, pushSample] <;> (try split) <;> rfl
  | flush ctx => cases o <;> rw [step, flush] <;> (try split) <;> rfl

/-- What is not bad for any state of a kind is avoided. -/
theorem avoids_of_kind [DecidableEq κ] {bad : Output κ → Event κ → Prop} {k : OutputKind}
    {o : Output κ} {evs : List (Event κ)} (hbad : ∀ o, ∀ e ∈ evs, bad o e → o.kind ≠ k)
    (ho : o.kind = k) : o.Avoids env outputKey bad evs := by
  induction evs generalizing o with
  | nil => trivial
  | cons e evs ih =>
    refine ⟨fun hb => hbad o e mem_cons_self hb ho, ih ?_ ((kind_step env outputKey o e).trans ho)⟩
    exact fun o e he => hbad o e (mem_cons_of_mem _ he)

theorem kind_of_expires {o : Output κ} {e : Event κ} (h : o.Expires e) :
    (∃ keep deadline, o.kind = .increase keep deadline) ∨
      ∃ keep deadline, o.kind = .total keep deadline := by
  unfold Expires at h
  split at h
  · exact .inl ⟨_, _, rfl⟩
  · exact .inr ⟨_, _, rfl⟩
  · exact h.elim

theorem kind_of_guarded {o : Output κ} {e : Event κ} (h : o.Guarded e) :
    o.kind = .sumSamples true ∨ ∃ keep deadline, o.kind = .total keep deadline := by
  unfold Guarded at h
  split at h
  · exact .inl rfl
  · exact .inr ⟨_, _, rfl⟩
  · exact h.elim

end Output

theorem kind_newState (kind : OutputKind) : (kind.newState κ).kind = kind := by
  cases kind <;> rfl

section Conditions

variable [DecidableEq κ] (kind : OutputKind) {evs : List (Event κ)}

theorem avoids_expires (hincrease : ∀ keep deadline, kind ≠ .increase keep deadline)
    (htotal : ∀ keep deadline, kind ≠ .total keep deadline) :
    (kind.newState κ).Avoids env outputKey Output.Expires evs := by
  refine Output.avoids_of_kind (fun o e _ hb hk => ?_) (kind_newState kind)
  obtain ⟨keep, deadline, hkind⟩ | ⟨keep, deadline, hkind⟩ := Output.kind_of_expires hb
  · exact hincrease keep deadline (hk.symm.trans hkind)
  · exact htotal keep deadline (hk.symm.trans hkind)

theorem avoids_guarded (hsum : kind ≠ .sumSamples true)
    (htotal : ∀ keep deadline, kind ≠ .total keep deadline) :
    (kind.newState κ).Avoids env outputKey Output.Guarded evs := by
  refine Output.avoids_of_kind (fun o e _ hb hk => ?_) (kind_newState kind)
  obtain hkind | ⟨keep, deadline, hkind⟩ := Output.kind_of_guarded hb
  · exact hsum (hk.symm.trans hkind)
  · exact htotal keep deadline (hk.symm.trans hkind)

/-- A total is started anew only by a flush. -/
theorem avoids_guarded_pushes (keep : Bool) (deadline : ℕ) (evs : List (Event κ)) :
    (OutputKind.newState κ (.total keep deadline)).Avoids env outputKey Output.Guarded
      (evs.filter Event.isPush) := by
  refine Output.avoids_of_kind (fun o e he hb hk => ?_) (kind_newState _)
  cases e with
  | push p => cases o <;> first | exact hb.elim | exact nomatch hk
  | flush c => exact nomatch (mem_filter.mp he).2

end Conditions

/-! ### Two runs -/

/-- The first state has emitted `emitted`, the second one nothing. -/
inductive Ahead : Output κ → ℚ → Output κ → Prop
  | countSamples {c c' : ℕ} {emitted : ℚ} (h : emitted + c = c') :
      Ahead (.countSamples c) emitted (.countSamples c')
  | sumSamples {s s' emitted : ℚ} (h : emitted + s = s') :
      Ahead (.sumSamples true s) emitted (.sumSamples true s')
  | sumSamplesTotal (s emitted : ℚ) : Ahead (.sumSamples false s) emitted (.sumSamples false s)
  | increase {keep : Bool} {deadline : ℕ} {t t' : Option ℚ} {last : LastValues κ} {emitted : ℚ}
      (h : emitted + t.getD 0 = t'.getD 0) :
      Ahead (.increase keep deadline t last) emitted (.increase keep deadline t' last)
  | total {keep : Bool} {deadline : ℕ} {t t' shared shared' emitted : ℚ} {last : LastValues κ}
      (h : shared + t = shared' + t') :
      Ahead (.total keep deadline t ⟨shared, last⟩) emitted
      (.total keep deadline t' ⟨shared', last⟩)
  | histogramBucket {shared shared' h h' : VmHistogram} {emitted : ℚ}
      (hm : shared.merge h = shared'.merge h') :
      Ahead (.histogramBucket shared h) emitted (.histogramBucket shared' h')

/-- A sample adds the same to every total, and leaves the same last values. -/
theorem exists_pushCounter [DecidableEq κ] (last : LastValues κ) (p : Push κ) (keep : Bool)
    (deadline : ℕ) : ∃ (delta : ℚ) (last' : LastValues κ), ∀ total,
      pushCounter total last p keep deadline = (total + delta, last') := by
  rcases hlv : (last p.inputKey).filter
    (fun v => ¬ v.deleteDeadline < (p.unixSecs : ℤ) * 1000) with _ | v
  · by_cases hkeep : (keep && decide (p.unixSecs ≥ deadline)) = true
    · exact ⟨p.sample.value, _, fun total => by rw [pushCounter]; simp only [hlv, hkeep]; rfl⟩
    · exact ⟨0, _, fun total => by rw [pushCounter]; simp only [hlv, hkeep, add_zero]; rfl⟩
  · by_cases horder : p.sample.timestamp < v.timestamp
    · exact ⟨0, last, fun total => by
        rw [pushCounter]; simp only [hlv, horder, if_true, add_zero]⟩
    · by_cases hreset : p.sample.value ≥ v.value
      · exact ⟨p.sample.value - v.value, _, fun total => by
          rw [pushCounter]; simp only [hlv, horder, hreset, if_true, if_false]; rfl⟩
      · exact ⟨p.sample.value, _, fun total => by
          rw [pushCounter]; simp only [hlv, horder, hreset, if_false]; rfl⟩

namespace Ahead

variable {o o' : Output κ} {emitted : ℚ}

theorem push [DecidableEq κ] (h : Ahead o emitted o') (p : Push κ) (hg : ¬ o.Guarded (.push p))
    (hg' : ¬ o'.Guarded (.push p)) :
    Ahead (o.pushSample env p) emitted (o'.pushSample env p) := by
  cases h with
  | @countSamples c c' _ h =>
    refine .countSamples ?_
    rw [Nat.cast_add, Nat.cast_add, ← add_assoc, h]
  | @sumSamples s s' _ h =>
    refine .sumSamples ?_
    rw [Output.Guarded] at hg hg'
    rw [if_neg hg, if_neg hg', ← add_assoc, h]
  | sumSamplesTotal s => exact .sumSamplesTotal _ _
  | @increase keep deadline t t' last _ h =>
    obtain ⟨delta, last', hpush⟩ := exists_pushCounter last p keep deadline
    rw [Output.pushSample, Output.pushSample]
    simp only [hpush]
    refine .increase ?_
    rw [Option.getD_some, Option.getD_some, ← add_assoc, h]
  | @total keep deadline t t' shared shared' _ last h =>
    obtain ⟨delta, last', hpush⟩ := exists_pushCounter last p keep deadline
    rw [Output.pushSample, Output.pushSample]
    simp only [hpush]
    refine .total ?_
    rw [← add_assoc, ← add_assoc, h]
  | @histogramBucket shared shared' h h' _ hm =>
    refine .histogramBucket ?_
    rw [VmHistogram.merge_update, VmHistogram.merge_update, hm]

/-- What is flushed is missing afterwards. -/
theorem flush (h : Ahead o emitted o') (ctx : FlushCtx) (hg : ¬ o.Guarded (.flush ctx))
    (he : ¬ o.Expires (.flush ctx)) :
    Ahead (o.flush env ctx outputKey false).1
      (emitted + emittedSum (o.flush env ctx outputKey false).2) o' := by
  cases h with
  | @countSamples c c' _ h =>
    rw [Output.flush]
    split
    · refine .countSamples ?_
      rw [emittedSum_appendSeries, Nat.cast_zero, add_zero, h]
    · exact .countSamples (by rw [← h]; exact congrArg (· + (c : ℚ)) (add_zero _))
  | @sumSamples s s' _ h =>
    rw [Output.flush, if_pos rfl]
    refine .sumSamples ?_
    rw [emittedSum_appendSeries, add_zero, h]
  | sumSamplesTotal s => exact .sumSamplesTotal _ _
  | @increase keep deadline t t' last _ h =>
    rw [Output.Expires] at he
    rw [Output.flush, retainLast_of_fresh he]
    refine .increase ?_
    cases t with
    | none => exact (congrArg (· + (0 : ℚ)) (add_zero _)).trans h
    | some t =>
      rw [Option.map_some, Option.toList_some, emittedSum_appendSeries, Option.getD_none, add_zero]
      exact h
  | @total keep deadline t t' shared shared' _ last h =>
    rw [Output.Guarded] at hg
    rw [Output.Expires] at he
    rw [Output.flush]
    dsimp only
    rw [retainLast_of_fresh he, if_neg hg]
    exact .total (by rw [add_zero, h])
  | @histogramBucket shared shared' h h' _ hm =>
    refine .histogramBucket ?_
    rw [VmHistogram.reset, VmHistogram.merge_new, hm]

/-- The two runs, up to the flush after all events. -/
theorem run [DecidableEq κ] {evs : List (Event κ)} (h : Ahead o emitted o')
    (he : o.Avoids env outputKey Output.Expires evs)
    (hg : o.Avoids env outputKey Output.Guarded evs)
    (hg' : o'.Avoids env outputKey Output.Guarded (evs.filter Event.isPush)) (ctx : FlushCtx) :
    ∃ (out : List (List TimeSeries)) (t t' : Output κ),
      Ahead t (emitted + emittedSum out.flatten) t' ∧ t.kind = o.kind ∧
      o.emissions env outputKey (evs ++ [.flush ctx]) =
        out ++ [(t.flush env ctx outputKey false).2] ∧
      o'.emissions env outputKey (evs.filter Event.isPush ++ [.flush ctx]) =
        [(t'.flush env ctx outputKey false).2] := by
  induction evs generalizing o o' emitted with
  | nil =>
    refine ⟨[], o, o', ?_, rfl, rfl, rfl⟩
    rw [flatten_nil]
    exact (add_zero emitted).symm ▸ h
  | cons e evs ih =>
    cases e with
    | push p =>
      obtain ⟨out, t, t', hahead, hkind, hout, hout'⟩ := ih (h.push p hg.1 hg'.1) he.2 hg.2 hg'.2
      have hstep : (o.pushSample env p).kind = o.kind :=
        Output.kind_step env outputKey o (.push p)
      exact ⟨out, t, t', hahead, hkind.trans hstep, hout, hout'⟩
    | flush c =>
      obtain ⟨out, t, t', hahead, hkind, hout, hout'⟩ :=
        ih (h.flush c hg.1 he.1) he.2 hg.2 hg'
      refine ⟨(o.flush env c outputKey false).2 :: out, t, t', ?_,
        hkind.trans (Output.kind_step env outputKey o (.flush c)), congrArg _ hout, hout'⟩
      rw [flatten_cons, emittedSum_append, ← add_assoc]
      exact hahead

end Ahead

/-! ### What is emitted -/

section Emitted

variable {o o' : Output κ} {emitted : ℚ} (env outputKey)

/-- Outputs whose flushes are to be added up. -/
def OutputKind.IsSummed : OutputKind → Prop
  | .countSamples => True
  | .sumSamples reset => reset = true
  | .increase _ _ => True
  | _ => False

/-- Outputs whose last flush counts. -/
def OutputKind.IsCumulative : OutputKind → Prop
  | .sumSamples reset => reset = false
  | .total _ _ => True
  | .histogramBucket => True
  | _ => False

theorem Ahead.newState {kind : OutputKind} (h : kind.IsSummed ∨ kind.IsCumulative) :
    Ahead (kind.newState κ) 0 (kind.newState κ) := by
  cases kind with
  | countSamples => exact .countSamples (zero_add _)
  | sumSamples reset =>
    cases reset with
    | false => exact .sumSamplesTotal _ _
    | true => exact .sumSamples (zero_add _)
  | increase keep deadline => exact .increase (zero_add _)
  | total keep deadline => exact .total rfl
  | histogramBucket => exact .histogramBucket rfl
  | _ => exact h.elim False.elim False.elim

theorem Ahead.emittedSum_flush (h : Ahead o emitted o') (hkind : o.kind.IsSummed) (ctx : FlushCtx) :
    emitted + emittedSum (o.flush env ctx outputKey false).2 =
      emittedSum (o'.flush env ctx outputKey false).2 := by
  cases h with
  | @countSamples c c' _ h =>
    have hsum : ∀ c : ℕ,
        emittedSum ((Output.countSamples c : Output κ).flush env ctx outputKey false).2 = c := by
      intro c
      rw [Output.flush]
      split
      · exact emittedSum_appendSeries ctx _ _
      · next hc => rw [Nat.eq_zero_of_not_pos hc]; rfl
    rw [hsum, hsum, h]
  | @sumSamples s s' _ h =>
    rw [Output.flush, Output.flush, if_pos rfl, if_pos rfl, emittedSum_appendSeries,
      emittedSum_appendSeries, h]
  | sumSamplesTotal s => exact nomatch hkind
  | @increase keep deadline t t' last _ h =>
    have hsum : ∀ t : Option ℚ, emittedSum ((Output.increase keep deadline t last).flush env ctx
        outputKey false).2 = t.getD 0 := by
      intro t
      cases t with
      | none => rfl
      | some t => exact emittedSum_appendSeries ctx _ _
    rw [hsum, hsum, h]
  | total => exact hkind.elim
  | histogramBucket => exact hkind.elim

theorem Ahead.flush_eq (h : Ahead o emitted o') (hkind : o.kind.IsCumulative) (ctx : FlushCtx) :
    (o.flush env ctx outputKey false).2 = (o'.flush env ctx outputKey false).2 := by
  cases h with
  | countSamples => exact hkind.elim
  | sumSamples => exact nomatch hkind
  | sumSamplesTotal s => rfl
  | increase => exact hkind.elim
  | @total keep deadline t t' shared shared' _ last h =>
    rw [Output.flush, Output.flush]
    dsimp only
    rw [h]
  | @histogramBucket shared shared' h h' _ hm =>
    rw [Output.flush, Output.flush, hm]

end Emitted

/-! ### The main result -/

section Main

variable [DecidableEq κ] (env outputKey) (evs : List (Event κ)) (ctx : FlushCtx)

theorem emissions_flushedAlong {kind : OutputKind}
    (he : (kind.newState κ).Avoids env outputKey Output.Expires evs)
    (hg : (kind.newState κ).Avoids env outputKey Output.Guarded evs)
    (hg' : (kind.newState κ).Avoids env outputKey Output.Guarded (evs.filter Event.isPush)) :
    (kind.IsSummed → emittedSum (flushedAlong env outputKey kind evs ctx).flatten =
      emittedSum (flushedOnce env outputKey kind evs ctx).flatten) ∧
    (kind.IsCumulative → (flushedAlong env outputKey kind evs ctx).getLast? =
      (flushedOnce env outputKey kind evs ctx).getLast?) := by
  constructor
  · intro hsummed
    have hstart : Ahead (kind.newState κ) 0 (kind.newState κ) := .newState (.inl hsummed)
    obtain ⟨out, t, t', hahead, hkind, hout, hout'⟩ := hstart.run he hg hg' ctx
    have hlast := hahead.emittedSum_flush env outputKey
      (by rw [hkind, kind_newState]; exact hsummed) ctx
    rw [flushedOnce, flushedAlong, flushedAlong, hout, hout', flatten_append,
      emittedSum_append, flatten_singleton, flatten_singleton, ← hlast, zero_add]
  · intro hcumulative
    have hstart : Ahead (kind.newState κ) 0 (kind.newState κ) := .newState (.inr hcumulative)
    obtain ⟨out, t, t', hahead, hkind, hout, hout'⟩ := hstart.run he hg hg' ctx
    have hlast := hahead.flush_eq env outputKey
      (by rw [hkind, kind_newState]; exact hcumulative) ctx
    rw [flushedOnce, flushedAlong, flushedAlong, hout, hout', getLast?_concat, hlast]
    rfl

/-- The sum of what is emitted does not depend on the flushes for `count_samples`, for `increase`
and `increase_prometheus` without expiry, and for `sum_samples` as long as its sum is not started
anew; nor does what is emitted last for `sum_samples_total` and `histogram_bucket`, and for `total`
and `total_prometheus` without expiry as long as the total is not started anew. -/
theorem flush_placement :
    emittedSum (flushedAlong env outputKey .countSamples evs ctx).flatten =
      emittedSum (flushedOnce env outputKey .countSamples evs ctx).flatten ∧
    ((OutputKind.newState κ (.sumSamples true)).Avoids env outputKey Output.Guarded evs →
      (OutputKind.newState κ (.sumSamples true)).Avoids env outputKey Output.Guarded
        (evs.filter Event.isPush) →
      emittedSum (flushedAlong env outputKey (.sumSamples true) evs ctx).flatten =
        emittedSum (flushedOnce env outputKey (.sumSamples true) evs ctx).flatten) ∧
    (∀ keep deadline,
      (OutputKind.newState κ (.increase keep deadline)).Avoids env outputKey Output.Expires evs →
      emittedSum (flushedAlong env outputKey (.increase keep deadline) evs ctx).flatten =
        emittedSum (flushedOnce env outputKey (.increase keep deadline) evs ctx).flatten) ∧
    (∀ keep deadline,
      (OutputKind.newState κ (.total keep deadline)).Avoids env outputKey Output.Expires evs →
      (OutputKind.newState κ (.total keep deadline)).Avoids env outputKey Output.Guarded evs →
      (flushedAlong env outputKey (.total keep deadline) evs ctx).getLast? =
        (flushedOnce env outputKey (.total keep deadline) evs ctx).getLast?) ∧
    (flushedAlong env outputKey (.sumSamples false) evs ctx).getLast? =
      (flushedOnce env outputKey (.sumSamples false) evs ctx).getLast? ∧
    (flushedAlong env outputKey .histogramBucket evs ctx).getLast? =
      (flushedOnce env outputKey .histogramBucket evs ctx).getLast? := by
  refine ⟨?_, fun hg hg' => ?_, fun keep deadline he => ?_, fun keep deadline he hg => ?_, ?_, ?_⟩
  · exact (emissions_flushedAlong env outputKey evs ctx (avoids_expires .countSamples nofun nofun)
      (avoids_guarded .countSamples nofun nofun)
      (avoids_guarded .countSamples nofun nofun)).1 trivial
  · exact (emissions_flushedAlong env outputKey evs ctx
      (avoids_expires (.sumSamples true) nofun nofun) hg hg').1 rfl
  · exact (emissions_flushedAlong env outputKey evs ctx he
      (avoids_guarded (.increase keep deadline) nofun nofun)
      (avoids_guarded (.increase keep deadline) nofun nofun)).1 trivial
  · exact (emissions_flushedAlong env outputKey evs ctx he hg
      (avoids_guarded_pushes keep deadline evs)).2 trivial
  · exact (emissions_flushedAlong env outputKey evs ctx
      (avoids_expires (.sumSamples false) nofun nofun)
      (avoids_guarded (.sumSamples false) nofun nofun)
      (avoids_guarded (.sumSamples false) nofun nofun)).2 rfl
  · exact (emissions_flushedAlong env outputKey evs ctx
      (avoids_expires .histogramBucket nofun nofun) (avoids_guarded .histogramBucket nofun nofun)
      (avoids_guarded .histogramBucket nofun nofun)).2 trivial

end Main

/-! ### Two samples of one series -/

section TwoSamples

/-- Nothing is computed in floating point. -/
def exactEnv : OutputEnv ℕ := ⟨⟨fun _ => none, fun _ => ""⟩, id⟩

/-- Two samples of one series, with a flush between them. -/
def twoSamples (v w : ℚ) : List (Event ℕ) :=
  [.push ⟨⟨v, 0⟩, 0, 10, 0⟩, .flush ⟨"", true, 1⟩, .push ⟨⟨w, 2⟩, 0, 10, 0⟩]

theorem fresh_of_update {lv : LastValue} (h : 1 ≤ lv.deleteDeadline) :
    ¬ ∃ k : ℕ, ∃ v ∈ Function.update (fun _ => none) 0 (some lv) k, 1 > v.deleteDeadline := by
  rintro ⟨k, v, hv, hlt⟩
  by_cases hk : k = 0
  · subst hk
    rw [Function.update_self] at hv
    obtain rfl := Option.some.inj hv
    omega
  · rw [Function.update_of_ne hk] at hv
    exact nomatch hv

theorem avoids_expires_twoSamples (v w : ℚ) :
    (OutputKind.newState ℕ (.increase false 0)).Avoids exactEnv [] Output.Expires (twoSamples v w) ∧
    (OutputKind.newState ℕ (.total false 0)).Avoids exactEnv [] Output.Expires
    (twoSamples v w) := by
  have hdeadline : (1 : ℤ) ≤ 10 := by decide
  exact ⟨⟨nofun, fresh_of_update hdeadline, nofun, trivial⟩,
    ⟨nofun, fresh_of_update hdeadline, nofun, trivial⟩⟩

theorem flush_placement_twoSamples :
    (flushedAlong exactEnv [] (.total false 0) (twoSamples 5 8) ⟨"", true, 3⟩).getLast? =
      some [⟨[], [⟨3, 3⟩]⟩] ∧
    (flushedAlong exactEnv [] (.total false 0) (twoSamples 5 8) ⟨"", true, 3⟩).getLast? =
      (flushedOnce exactEnv [] (.total false 0) (twoSamples 5 8) ⟨"", true, 3⟩).getLast? ∧
    emittedSum (flushedAlong exactEnv [] (.increase false 0) (twoSamples 5 8) ⟨"", true,
      3⟩).flatten = emittedSum (flushedOnce exactEnv [] (.increase false 0) (twoSamples 5 8)
        ⟨"", true, 3⟩).flatten ∧
    emittedSum (flushedAlong exactEnv [] (.sumSamples true) (twoSamples 5 8) ⟨"", true,
      3⟩).flatten =
      emittedSum (flushedOnce exactEnv [] (.sumSamples true) (twoSamples 5 8) ⟨"", true,
        3⟩).flatten := by
  obtain ⟨-, hsum, hincrease, htotal, -, -⟩ :=
    flush_placement exactEnv [] (twoSamples 5 8) ⟨"", true, 3⟩
  obtain ⟨hfresh, hfresh'⟩ := avoids_expires_twoSamples 5 8
  refine ⟨by decide +kernel, htotal false 0 hfresh' ?_, hincrease false 0 hfresh, hsum ?_ ?_⟩
  · exact ⟨nofun, show ¬ (_ : ℚ) ≥ _ by decide +kernel, nofun, trivial⟩
  · exact ⟨show ¬ (_ : ℚ) ≥ _ by decide, nofun, show ¬ (_ : ℚ) ≥ _ by decide, trivial⟩
  · exact ⟨show ¬ (_ : ℚ) ≥ _ by decide +kernel, show ¬ (_ : ℚ) ≥ _ by decide +kernel, trivial⟩

/-- Without a flush between them, `sum_samples` loses the first of two large samples; with it,
`total` loses what came before. No last value expires. -/
theorem flushedAlong_ne_flushedOnce :
    emittedSum (flushedAlong exactEnv [] (.sumSamples true) (twoSamples (2 ^ 53) (2 ^ 53 + 2))
        ⟨"", true, 3⟩).flatten ≠
      emittedSum (flushedOnce exactEnv [] (.sumSamples true) (twoSamples (2 ^ 53) (2 ^ 53 + 2))
        ⟨"", true, 3⟩).flatten ∧
    (flushedAlong exactEnv [] (.total true 0) (twoSamples (2 ^ 53) (2 ^ 53 + 2))
        ⟨"", true, 3⟩).getLast? ≠
      (flushedOnce exactEnv [] (.total true 0) (twoSamples (2 ^ 53) (2 ^ 53 + 2))
        ⟨"", true, 3⟩).getLast? ∧
    (OutputKind.newState ℕ (.total true 0)).Avoids exactEnv [] Output.Expires
      (twoSamples (2 ^ 53) (2 ^ 53 + 2)) :=
  ⟨by decide +kernel, by decide +kernel, nofun, fresh_of_update (by decide), nofun, trivial⟩

end TwoSamples

end Esmetrics.Streamaggr
