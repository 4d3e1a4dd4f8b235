import Ggmk.Boot
import Ggmk.Lib.XorShift

/-! Runs of calls to the trace rings (`trace.c`): what the level and the sampling record. -/
namespace Ggmk
open Word XorShift

/-- The arguments of a call of `gmk_trace_write` behind the trace. -/
structure TraceCall where
  tenant : UInt16
  evType : ℕ
  taskType : UInt16
  arg0 : UInt32
  arg1 : UInt32

def TraceCall.event (c : TraceCall) (tsc : UInt64) : TraceEv :=
  ⟨tsc, c.evType, c.tenant, c.taskType, c.arg0, c.arg1⟩

def Trace.write (t : Trace) (c : TraceCall) : Trace :=
  gmkTraceWrite t c.tenant c.evType c.taskType c.arg0 c.arg1

/-- The bypass of the level and the sampling. -/
def gmkTraceWriteForce (t : Trace) (c : TraceCall) : Trace :=
  traceEmit t c.tenant c.evType c.taskType c.arg0 c.arg1

def gmkTraceRead (t : Trace) (tenant : UInt16) : Option (TraceEv × Trace) :=
  if t.nTenants ≤ tenant.toNat then none
  else
    match (t.rings tenant.toNat).pop with
    | some (ev, r) => some (ev, { t with rings := Function.update t.rings tenant.toNat r })
    | none => none

def gmkTraceSetLevel (t : Trace) (level : UInt32) : Trace := { t with level := level.toNat }

/-- The rate is given as the threshold that it is converted to. -/
def gmkTraceSetSampleRate (t : Trace) (threshold : UInt32) : Trace :=
  { t with sampleThreshold := threshold.toNat }

variable {t t' : Trace} {c : TraceCall} {x y : ℕ}

theorem prngNext_eq (x : ℕ) : prngNext x = xorLeft 32 5 (xorRight 17 (xorLeft 32 13 x)) := rfl

theorem prngNext_lt (hx : x < 2 ^ 32) : prngNext x < 2 ^ 32 := by
  rw [prngNext_eq]
  exact xorLeft_lt (xorRight_lt (xorLeft_lt hx))

theorem prngNext_inj (hx : x < 2 ^ 32) (hy : y < 2 ^ 32) (h : prngNext x = prngNext y) : x = y := by
  rw [prngNext_eq, prngNext_eq] at h
  have h1 := xorLeft_inj (by norm_num) (xorRight_lt (xorLeft_lt hx)) (xorRight_lt (xorLeft_lt hy)) h
  have h2 := xorRight_inj (by norm_num) (xorLeft_lt hx) (xorLeft_lt hy) h1
  exact xorLeft_inj (by norm_num) hx hy h2

/-- Zero is the fixed point, and no other word leads to it. -/
theorem prngNext_ne_zero (hx : x < 2 ^ 32) (h0 : x ≠ 0) : prngNext x ≠ 0 := by
  intro h
  exact h0 (prngNext_inj hx (by norm_num) (h.trans (by decide)))

/-- The tenant of the call is valid and its ring has room. -/
def Trace.HasRoom (t : Trace) (c : TraceCall) : Prop :=
  c.tenant.toNat < t.nTenants ∧
    (t.rings c.tenant.toNat).items.length < (t.rings c.tenant.toNat).cap

/-- The call appends its event to the ring of its tenant. -/
def Trace.Records (t : Trace) (c : TraceCall) : Prop :=
  ((t.write c).rings c.tenant.toNat).items =
    (t.rings c.tenant.toNat).items ++ [c.event (t.tsc t.tscReads)]

/-- What an emitted event leaves alone. -/
theorem traceEmit_frame (t : Trace) (tenant : UInt16) (evType : ℕ) (taskType : UInt16)
    (arg0 arg1 : UInt32) :
    (traceEmit t tenant evType taskType arg0 arg1).prngState = t.prngState ∧
      (traceEmit t tenant evType taskType arg0 arg1).level = t.level ∧
      (traceEmit t tenant evType taskType arg0 arg1).sampleThreshold = t.sampleThreshold := by
  unfold traceEmit
  split
  · exact ⟨rfl, rfl, rfl⟩
  · dsimp only
    split <;> exact ⟨rfl, rfl, rfl⟩

theorem traceEmit_items (h : t.HasRoom c) :
    ((traceEmit t c.tenant c.evType c.taskType c.arg0 c.arg1).rings c.tenant.toNat).items =
      (t.rings c.tenant.toNat).items ++ [c.event (t.tsc t.tscReads)] := by
  obtain ⟨hvalid, hroom⟩ := h
  rw [traceEmit, if_neg (not_le.mpr hvalid)]
  dsimp only
  cases hpush : (t.rings c.tenant.toNat).push (c.event (t.tsc t.tscReads)) with
  | none =>
    have hfull := ((t.rings c.tenant.toNat).push_eq_none_iff _).mp hpush
    omega
  | some r =>
    have hpush' := hpush
    unfold TraceCall.event at hpush'
    rw [hpush']
    simp only [Function.update_self]
    exact (SpscQueue.push_some hpush).1

/-- The draw of the generator is compared only at the most verbose level and below the threshold
that lets everything pass. -/
def Trace.Sampled (t : Trace) : Prop := t.level = gmkTraceAll ∧ t.sampleThreshold < 2 ^ 32 - 1

/-- What a call may do: nothing below its level, a draw alone, or an event with or without a
draw. -/
theorem write_cases (t : Trace) (c : TraceCall) :
    t.level < evLevel c.evType ∧ t.write c = t ∨
      evLevel c.evType ≤ t.level ∧ t.Sampled ∧ t.sampleThreshold < prngNext t.prngState ∧
        t.write c = { t with prngState := prngNext t.prngState } ∨
      evLevel c.evType ≤ t.level ∧ t.Sampled ∧ prngNext t.prngState ≤ t.sampleThreshold ∧
        t.write c = traceEmit { t with prngState := prngNext t.prngState } c.tenant c.evType
          c.taskType c.arg0 c.arg1 ∨
      evLevel c.evType ≤ t.level ∧ ¬ t.Sampled ∧
        t.write c = traceEmit t c.tenant c.evType c.taskType c.arg0 c.arg1 := by
  unfold Trace.write gmkTraceWrite Trace.Sampled
  by_cases hlevel : t.level < evLevel c.evType
  · exact .inl ⟨hlevel, if_pos hlevel⟩
  rw [if_neg hlevel]
  have hle := not_lt.mp hlevel
  by_cases hs : t.level = gmkTraceAll ∧ t.sampleThreshold < 2 ^ 32 - 1
  · rw [if_pos hs]
    dsimp only
    by_cases hr : t.sampleThreshold < prngNext t.prngState
    · exact .inr (.inl ⟨hle, hs, hr, if_pos hr⟩)
    · exact .inr (.inr (.inl ⟨hle, hs, not_lt.mp hr, if_neg hr⟩))
  · exact .inr (.inr (.inr ⟨hle, hs, if_neg hs⟩))

theorem write_frame (t : Trace) (c : TraceCall) :
    (t.write c).level = t.level ∧ (t.write c).sampleThreshold = t.sampleThreshold := by
  rcases write_cases t c with ⟨-, hw⟩ | ⟨-, -, -, hw⟩ | ⟨-, -, -, hw⟩ | ⟨-, -, hw⟩
  · rw [hw]; exact ⟨rfl, rfl⟩
  · rw [hw]; exact ⟨rfl, rfl⟩
  · rw [hw]; exact (traceEmit_frame ..).2
  · rw [hw]; exact (traceEmit_frame ..).2

theorem foldl_write_frame (t : Trace) (calls : List TraceCall) :
    (calls.foldl Trace.write t).level = t.level ∧
      (calls.foldl Trace.write t).sampleThreshold = t.sampleThreshold := by
  induction calls generalizing t with
  | nil => exact ⟨rfl, rfl⟩
  | cons c calls ih =>
    obtain ⟨hl, hs⟩ := write_frame t c
    rw [List.foldl_cons, (ih _).1, (ih _).2]
    exact ⟨hl, hs⟩

/-- Given room, an event is recorded if its level is enabled and the draw, where there is one,
lets it pass. -/
theorem records_iff (h : t.HasRoom c) : t.Records c ↔
    evLevel c.evType ≤ t.level ∧ (t.Sampled → prngNext t.prngState ≤ t.sampleThreshold) := by
  have hne : ∀ ev, (t.rings c.tenant.toNat).items ≠ (t.rings c.tenant.toNat).items ++ [ev] := by
    intro ev he
    simpa using congrArg List.length he
  unfold Trace.Records
  rcases write_cases t c with ⟨hl, hw⟩ | ⟨hl, hs, hr, hw⟩ | ⟨hl, hs, hr, hw⟩ | ⟨hl, hs, hw⟩
  · rw [hw]
    exact iff_of_false (hne _) fun hc => absurd hc.1 (not_le.mpr hl)
  · rw [hw]
    exact iff_of_false (hne _) fun hc => absurd (hc.2 hs) (not_le.mpr hr)
  · rw [hw]
    exact iff_of_true (@traceEmit_items { t with prngState := prngNext t.prngState } c h)
      ⟨hl, fun _ => hr⟩
  · rw [hw]
    exact iff_of_true (traceEmit_items h) ⟨hl, fun hs' => absurd hs' hs⟩

/-- After any calls an event is recorded exactly if its level is enabled and, at the most verbose
level with a threshold below the largest one, the draw of its call does not exceed the threshold.
So where the raised level does not sample, no event that was recorded is lost by raising it. -/
theorem trace_records_iff (t : Trace) (calls : List TraceCall) (c : TraceCall)
    (hroom : (calls.foldl Trace.write t).HasRoom c) :
    ((calls.foldl Trace.write t).Records c ↔ evLevel c.evType ≤ t.level ∧
        (t.level = gmkTraceAll → t.sampleThreshold < 2 ^ 32 - 1 →
          prngNext (calls.foldl Trace.write t).prngState ≤ t.sampleThreshold)) ∧
      ∀ level, t.level ≤ level → (level = gmkTraceAll → 2 ^ 32 - 1 ≤ t.sampleThreshold) →
        (calls.foldl Trace.write { t with level := level }).HasRoom c →
        (calls.foldl Trace.write t).Records c →
        (calls.foldl Trace.write { t with level := level }).Records c := by
  obtain ⟨hl, hs⟩ := foldl_write_frame t calls
  rw [records_iff hroom, Trace.Sampled, hl, hs, and_imp]
  refine ⟨Iff.rfl, ?_⟩
  rintro level hle hfull hroom' ⟨hev, -⟩
  obtain ⟨hl', hs'⟩ := foldl_write_frame { t with level := level } calls
  rw [records_iff hroom', Trace.Sampled, hl', hs']
  refine ⟨hev.trans hle, ?_⟩
  rintro ⟨hall, hlt⟩
  exact absurd hlt (not_lt.mpr (hfull hall))

/-- A failed task of tenant zero. -/
def taskFailed : TraceCall := ⟨0, gmkEvTaskFail, 0, 0, 0⟩

theorem hasRoom_init (level threshold : ℕ) :
    Trace.HasRoom { gmkTraceInit 1 (fun _ => 0) with
      level := level, sampleThreshold := threshold } taskFailed := by
  refine ⟨Nat.zero_lt_one, ?_⟩
  have hitems : ((gmkTraceInit 1 fun _ => 0).rings 0).items = [] :=
    SpscQueue.items_ofList (by decide) (by decide)
  exact (congrArg List.length hitems).trans_lt (Nat.two_pow_pos 12)

theorem trace_records_warn : Trace.Records (gmkTraceInit 1 fun _ => 0) taskFailed :=
  (trace_records_iff (gmkTraceInit 1 fun _ => 0) [] taskFailed
    (hasRoom_init gmkTraceWarn (2 ^ 32 - 1))).1.mpr ⟨by decide, fun h => absurd h (by decide)⟩

/-- An error that the information level records is dropped at the most verbose one, for want of a
draw of zero. -/
theorem sampling_drops_error :
    evLevel taskFailed.evType = gmkTraceError ∧
      Trace.Records { gmkTraceInit 1 (fun _ => 0) with
        level := gmkTraceInfo, sampleThreshold := 0 } taskFailed ∧
      ¬ Trace.Records { gmkTraceInit 1 (fun _ => 0) with
        level := gmkTraceAll, sampleThreshold := 0 } taskFailed := by
  refine ⟨by decide, ?_, ?_⟩
  · rw [records_iff (hasRoom_init _ _)]
    exact ⟨by decide, fun h => absurd h.1 (by decide)⟩
  · rw [records_iff (hasRoom_init _ _)]
    rintro ⟨-, h⟩
    exact absurd (h ⟨rfl, by decide⟩) (by decide)

/-- The calls of the trace interface on an initialised trace. -/
inductive TraceOp
  | write (c : TraceCall)
  | force (c : TraceCall)
  | read (tenant : UInt16)
  | setLevel (level : UInt32)
  | setSampleRate (threshold : UInt32)

def Trace.apply (t : Trace) : TraceOp → Trace
  | .write c => t.write c
  | .force c => gmkTraceWriteForce t c
  | .read tenant => ((gmkTraceRead t tenant).map Prod.snd).getD t
  | .setLevel level => gmkTraceSetLevel t level
  | .setSampleRate threshold => gmkTraceSetSampleRate t threshold

theorem gmkTraceRead_prng {tenant : UInt16} {ev : TraceEv}
    (h : gmkTraceRead t tenant = some (ev, t')) : t'.prngState = t.prngState := by
  unfold gmkTraceRead at h
  split_ifs at h
  split at h
  · obtain ⟨-, rfl⟩ := Prod.mk.inj (Option.some.inj h)
    rfl
  · cases h

/-- A call leaves the generator where it is or draws once. -/
theorem apply_prng (t : Trace) (op : TraceOp) :
    (t.apply op).prngState = t.prngState ∨ (t.apply op).prngState = prngNext t.prngState := by
  cases op with
  | write c =>
    rw [Trace.apply]
    rcases write_cases t c with ⟨-, hw⟩ | ⟨-, -, -, hw⟩ | ⟨-, -, -, hw⟩ | ⟨-, -, hw⟩
    · exact .inl (by rw [hw])
    · exact .inr (by rw [hw])
    · exact .inr (by rw [hw, (traceEmit_frame ..).1])
    · exact .inl (by rw [hw, (traceEmit_frame ..).1])
  | force c => exact .inl (traceEmit_frame ..).1
  | read tenant =>
    rw [Trace.apply]
    cases hr : gmkTraceRead t tenant with
    | none => exact .inl rfl
    | some r => exact .inl (gmkTraceRead_prng hr)
  | setLevel level => exact .inl rfl
  | setSampleRate threshold => exact .inl rfl

/-- From a word other than zero the generator never comes to zero. -/
theorem iterate_prng (hx : x < 2 ^ 32) (h0 : x ≠ 0) (n : ℕ) :
    prngNext^[n] x < 2 ^ 32 ∧ prngNext^[n] x ≠ 0 := by
  induction n with
  | zero => exact ⟨hx, h0⟩
  | succ n ih =>
    rw [Function.iterate_succ_apply']
    exact ⟨prngNext_lt ih.1, prngNext_ne_zero ih.1 ih.2⟩

theorem foldl_apply_prng (h : t.prngState < 2 ^ 32 ∧ t.prngState ≠ 0) (ops : List TraceOp) :
    (ops.foldl Trace.apply t).prngState < 2 ^ 32 ∧ (ops.foldl Trace.apply t).prngState ≠ 0 := by
  induction ops generalizing t with
  | nil => exact h
  | cons op ops ih =>
    apply ih
    rcases apply_prng t op with hp | hp
    · rwa [hp]
    · rw [hp]
      exact ⟨prngNext_lt h.1, prngNext_ne_zero h.1 h.2⟩

/-- The generator never reaches zero from the seed of `gmk_trace_init`, and so a rate of zero
records nothing: after any calls, a write at the most verbose level with the threshold zero
changes neither the rings nor the count of events. -/
theorem prng_never_zero :
    Set.InjOn prngNext (Set.Iio (2 ^ 32)) ∧
      ∀ (nTenants : ℕ) (tsc : ℕ → UInt64),
        (∀ n, prngNext^[n] (gmkTraceInit nTenants tsc).prngState ≠ 0) ∧
        ∀ (ops : List TraceOp) (t : Trace), t = ops.foldl Trace.apply (gmkTraceInit nTenants tsc) →
          t.level = gmkTraceAll → t.sampleThreshold = 0 →
          ∀ c, evLevel c.evType = gmkTraceAll →
            (t.write c).rings = t.rings ∧ (t.write c).totalEvents = t.totalEvents := by
  have hseed : ∀ (nTenants : ℕ) (tsc : ℕ → UInt64),
      (gmkTraceInit nTenants tsc).prngState < 2 ^ 32 ∧
        (gmkTraceInit nTenants tsc).prngState ≠ 0 := by
    intro nTenants tsc
    constructor <;> simp [gmkTraceInit]
  refine ⟨fun x hx y hy h => prngNext_inj hx hy h, fun nTenants tsc => ⟨fun n => ?_, ?_⟩⟩
  · exact (iterate_prng (hseed nTenants tsc).1 (hseed nTenants tsc).2 n).2
  · rintro ops t rfl hall hzero c -
    have hp := foldl_apply_prng (hseed nTenants tsc) ops
    have hdraw := prngNext_ne_zero hp.1 hp.2
    generalize ops.foldl Trace.apply (gmkTraceInit nTenants tsc) = t at *
    rcases write_cases t c with ⟨-, hw⟩ | ⟨-, -, -, hw⟩ | ⟨-, -, hr, -⟩ | ⟨-, hs, -⟩
    · rw [hw]; exact ⟨rfl, rfl⟩
    · rw [hw]; exact ⟨rfl, rfl⟩
    · omega
    · exact absurd ⟨hall, by omega⟩ hs

theorem prng_never_zero_four : (Trace.write
    { gmkTraceInit 1 (fun _ => 0) with level := 4, sampleThreshold := 0 }
    ⟨0, 0x1000, 0, 0, 0⟩).totalEvents = 0 :=
  (((prng_never_zero.2 1 fun _ => 0).2 [.setLevel 4, .setSampleRate 0] _ rfl rfl rfl
    ⟨0, 0x1000, 0, 0, 0⟩) (by decide)).2

end Ggmk
