import Nanos.Transition
import Mathlib.Logic.Function.Basic
import Mathlib.Data.List.Nodup

set_option autoImplicit false

/-!
# `runtime/timer.c`: the timer queue

Timers wait in a priority queue ordered by expiry, kept here as a list. `register_timer` and
`remove_timer` are atomic under the queue lock; `timer_service` pops an expired timer under the
lock, runs its handler with the lock released, and relocks to queue an interval timer again or to
deliver a cancellation that came meanwhile. Each lock-delimited phase is one action of a CPU; the
clock is outside the model.

`Inv`: a timer is queued iff it is in the priority queue, at most once, and one in service is not
queued. Every step keeps it except `register_timer` of a timer whose handler is running
(`timer_reachable_inv`), and `register_during_service` shows that case queue a timer twice.
-/

namespace Nanos.Timers

open Nanos.Transition

/-- The fields of a `struct timer` that the queue reads and writes. -/
structure Timer where
  expiry : ℕ
  interval : ℕ
  active : Bool
  queued : Bool
  registration : ℕ
deriving DecidableEq, Repr

def initTimer : Timer := ⟨0, 0, false, false, 0⟩

/-- A call `apply(t->handler, expiry, overruns)`; an `overruns` of `none` is `timer_disabled`. -/
structure Callback (τ : Type) where
  timer : τ
  registration : ℕ
  expiry : ℕ
  overruns : Option ℕ
deriving DecidableEq, Repr

/-- Where a CPU is in `timer_service(tq, here)`. -/
inductive Phase (τ : Type) where
  | idle
  /-- In the loop with the lock held, before `pqueue_peek`. -/
  | scan (here : ℕ)
  /-- A timer popped and marked, the lock released, its handler not called yet. -/
  | handler (here : ℕ) (t : τ) (overruns : ℕ) (interval : Bool)
  /-- The handler returned, the lock not taken again yet. -/
  | relock (here : ℕ) (t : τ) (interval : Bool)
deriving DecidableEq, Repr

/-- The timer that a CPU is servicing, and whether it is an interval timer. -/
def Phase.serviced {τ : Type} : Phase τ → Option (τ × Bool)
  | .handler _ t _ interval => some (t, interval)
  | .relock _ t interval => some (t, interval)
  | _ => none

structure TimerQueue (τ κ : Type) where
  timers : τ → Timer
  pq : List τ
  cpu : κ → Phase τ
  registrations : ℕ
  log : List (Callback τ)

/-- The actions: the two calls, and the phases of `timer_service` on a CPU `c`. -/
inductive Action (τ κ : Type) where
  | register (t : τ) (now val : ℕ) (absolute : Bool) (interval : ℕ)
  | remove (t : τ)
  | serviceBegin (c : κ) (here : ℕ)
  | serviceNext (c : κ)
  | serviceHandler (c : κ)
  | serviceRelock (c : κ)
deriving DecidableEq, Repr

section Model

variable {τ κ : Type} [DecidableEq τ] [DecidableEq κ]

/-- `allocate_timerqueue`, with every timer after `init_timer` and every CPU outside
    `timer_service`. -/
def initQueue : TimerQueue τ κ := ⟨fun _ => initTimer, [], fun _ => .idle, 0, []⟩

/-- `pqueue_peek`: a timer of least expiry, the first such in the list. -/
def peek (timers : τ → Timer) : List τ → Option τ
  | [] => none
  | t :: ts =>
    match peek timers ts with
    | none => some t
    | some u => if (timers u).expiry < (timers t).expiry then some u else some t

def setTimer (q : TimerQueue τ κ) (t : τ) (x : Timer) : TimerQueue τ κ :=
  { q with timers := Function.update q.timers t x }

def setCpu (q : TimerQueue τ κ) (c : κ) (p : Phase τ) : TimerQueue τ κ :=
  { q with cpu := Function.update q.cpu c p }

def emit (q : TimerQueue τ κ) (cb : Callback τ) : TimerQueue τ κ :=
  { q with log := q.log ++ [cb] }

def setPq (q : TimerQueue τ κ) (pq : List τ) : TimerQueue τ κ :=
  { q with pq := pq }

/-- `register_timer(tq, t, id, val, absolute, interval, n)`, given the time `now` that
    `timerqueue_now` returned; `assert(!t->queued)` refuses the step. -/
def registerTimer (q : TimerQueue τ κ) (t : τ) (now val : ℕ) (absolute : Bool)
    (interval : ℕ) : Option (TimerQueue τ κ) :=
  let x := q.timers t
  if x.queued then none
  else
    let r := q.registrations + 1
    let x' : Timer :=
      ⟨if absolute then val else now + val, interval, true, true, r⟩
    some { setPq (setTimer q t x') (q.pq ++ [t]) with registrations := r }

/-- `remove_timer(tq, t, remain)`, with what it returns. A queued timer is taken out and its
    handler told `timer_disabled`; an interval timer amidst its handler is only marked inactive,
    and `timer_service` will do the terminal call. -/
def removeTimer (q : TimerQueue τ κ) (t : τ) : Option (TimerQueue τ κ × Bool) :=
  let x := q.timers t
  if !x.active then
    -- assert(!t->queued)
    if x.queued then none else some (q, false)
  else if x.queued then
    -- assert(pqueue_remove(tq->pq, t))
    if t ∈ q.pq then
      let q' := setPq (setTimer q t { x with active := false, queued := false }) (q.pq.erase t)
      some (emit q' ⟨t, x.registration, 0, none⟩, true)
    else none
  -- assert(t->interval != 0)
  else if x.interval = 0 then none
  else some (setTimer q t { x with active := false }, true)

def serviceBegin (q : TimerQueue τ κ) (c : κ) (here : ℕ) : Option (TimerQueue τ κ) :=
  match q.cpu c with
  | .idle => some (setCpu q c (.scan here))
  | _ => none

/-- The number of expiries that `timer_service` reports for an interval timer `delta` late. -/
def overrunsOf (delta interval : ℕ) : ℕ :=
  if delta > interval then delta / interval + 1 else 1

/-- One turn of the `timer_service` loop under the lock: pop an expired timer and mark it, then
    release the lock; or leave the loop when the earliest timer has not expired. -/
def serviceNext (q : TimerQueue τ κ) (c : κ) : Option (TimerQueue τ κ) :=
  match q.cpu c with
  | .scan here =>
    match peek q.timers q.pq with
    | some t =>
      let x := q.timers t
      if x.expiry ≤ here then
        -- assert(t->active && t->queued)
        if x.active && x.queued then
          let delta := here - x.expiry
          if x.interval ≠ 0 then
            let overruns := overrunsOf delta x.interval
            let x' := { x with expiry := x.expiry + x.interval * overruns, queued := false }
            some (setCpu (setPq (setTimer q t x') (q.pq.erase t)) c (.handler here t overruns true))
          else
            let x' := { x with active := false, queued := false }
            some (setCpu (setPq (setTimer q t x') (q.pq.erase t)) c (.handler here t 1 false))
        else none
      else some (setCpu q c .idle)
    | none => some (setCpu q c .idle)
  | _ => none

/-- `apply(t->handler, t->expiry, overruns)` with the lock released: the handler and the expiry
    are read from the timer as it is now. -/
def serviceHandler (q : TimerQueue τ κ) (c : κ) : Option (TimerQueue τ κ) :=
  match q.cpu c with
  | .handler here t overruns interval =>
    let x := q.timers t
    some (setCpu (emit q ⟨t, x.registration, x.expiry, some overruns⟩) c
      (.relock here t interval))
  | _ => none

/-- `timer_lock(tq)` after the handler: an interval timer still active is queued again; one
    that `remove_timer` marked inactive meanwhile gets its `timer_disabled` call here. -/
def serviceRelock (q : TimerQueue τ κ) (c : κ) : Option (TimerQueue τ κ) :=
  match q.cpu c with
  | .relock here t interval =>
    let x := q.timers t
    if interval then
      if x.active then
        some (setCpu (setPq (setTimer q t { x with queued := true }) (q.pq ++ [t])) c (.scan here))
      else some (setCpu (emit q ⟨t, x.registration, 0, none⟩) c (.scan here))
    else some (setCpu q c (.scan here))
  | _ => none

def step (q : TimerQueue τ κ) : Action τ κ → Option (TimerQueue τ κ)
  | .register t now val absolute interval => registerTimer q t now val absolute interval
  | .remove t => (removeTimer q t).map Prod.fst
  | .serviceBegin c here => serviceBegin q c here
  | .serviceNext c => serviceNext q c
  | .serviceHandler c => serviceHandler q c
  | .serviceRelock c => serviceRelock q c

end Model

section Simp

variable {τ κ : Type}

@[simp] theorem setTimer_timers [DecidableEq τ] (q : TimerQueue τ κ) (t : τ) (x : Timer) :
    (setTimer q t x).timers = Function.update q.timers t x := rfl
@[simp] theorem setTimer_pq [DecidableEq τ] (q : TimerQueue τ κ) (t : τ) (x : Timer) :
    (setTimer q t x).pq = q.pq := rfl
@[simp] theorem setTimer_cpu [DecidableEq τ] (q : TimerQueue τ κ) (t : τ) (x : Timer) :
    (setTimer q t x).cpu = q.cpu := rfl
@[simp] theorem setCpu_timers [DecidableEq κ] (q : TimerQueue τ κ) (c : κ) (p : Phase τ) :
    (setCpu q c p).timers = q.timers := rfl
@[simp] theorem setCpu_pq [DecidableEq κ] (q : TimerQueue τ κ) (c : κ) (p : Phase τ) :
    (setCpu q c p).pq = q.pq := rfl
@[simp] theorem setCpu_cpu [DecidableEq κ] (q : TimerQueue τ κ) (c : κ) (p : Phase τ) :
    (setCpu q c p).cpu = Function.update q.cpu c p := rfl
@[simp] theorem setPq_timers (q : TimerQueue τ κ) (pq : List τ) : (setPq q pq).timers = q.timers :=
  rfl
@[simp] theorem setPq_pq (q : TimerQueue τ κ) (pq : List τ) : (setPq q pq).pq = pq := rfl
@[simp] theorem setPq_cpu (q : TimerQueue τ κ) (pq : List τ) : (setPq q pq).cpu = q.cpu := rfl
@[simp] theorem emit_timers (q : TimerQueue τ κ) (cb : Callback τ) : (emit q cb).timers = q.timers :=
  rfl
@[simp] theorem emit_pq (q : TimerQueue τ κ) (cb : Callback τ) : (emit q cb).pq = q.pq := rfl
@[simp] theorem emit_cpu (q : TimerQueue τ κ) (cb : Callback τ) : (emit q cb).cpu = q.cpu := rfl

theorem peek_mem {timers : τ → Timer} : ∀ {l : List τ} {t : τ}, peek timers l = some t → t ∈ l
  | [], _, h => by simp [peek] at h
  | u :: l, t, h => by
    simp only [peek] at h
    split at h
    · exact Option.some.inj h ▸ List.mem_cons_self
    · rename_i v hv
      split at h
      · exact List.mem_cons_of_mem _ (Option.some.inj h ▸ peek_mem hv)
      · exact Option.some.inj h ▸ List.mem_cons_self

end Simp

/-! ## The invariant of the queue -/

section Invariant

variable {τ κ : Type}

/-- A timer is queued iff it is in the priority queue, where it is at most once; a timer in
    service is serviced by one CPU and not queued; a one-shot timer in service is inactive; and
    a timer active but not queued is an interval timer in service, which is how `remove_timer`
    knows to leave its terminal call to `timer_service`. -/
structure Inv (q : TimerQueue τ κ) : Prop where
  queued_iff : ∀ t, (q.timers t).queued = true ↔ t ∈ q.pq
  nodup : q.pq.Nodup
  active_of_queued : ∀ t, (q.timers t).queued = true → (q.timers t).active = true
  serviced_not_queued : ∀ c t b, (q.cpu c).serviced = some (t, b) → (q.timers t).queued = false
  serviced_once : ∀ c c' t b b', (q.cpu c).serviced = some (t, b) →
    (q.cpu c').serviced = some (t, b') → c = c'
  oneshot_inactive : ∀ c t, (q.cpu c).serviced = some (t, false) → (q.timers t).active = false
  deferred : ∀ t, (q.timers t).active = true → (q.timers t).queued = false →
    (q.timers t).interval ≠ 0 ∧ ∃ c, (q.cpu c).serviced = some (t, true)

/-- `register_timer` is not applied to a timer whose handler `timer_service` is running. -/
def NotInService (q : TimerQueue τ κ) : Action τ κ → Prop
  | .register t _ _ _ _ => ∀ c b, (q.cpu c).serviced ≠ some (t, b)
  | _ => True

theorem inv_initQueue : Inv (initQueue : TimerQueue τ κ) where
  queued_iff _ := by simp [initQueue, initTimer]
  nodup := List.nodup_nil
  active_of_queued _ h := by simp [initQueue, initTimer] at h
  serviced_not_queued _ _ _ h := by simp [initQueue, Phase.serviced] at h
  serviced_once _ _ _ _ _ h := by simp [initQueue, Phase.serviced] at h
  oneshot_inactive _ _ h := by simp [initQueue, Phase.serviced] at h
  deferred _ h := by simp [initQueue, initTimer] at h

theorem Inv.emit {q : TimerQueue τ κ} (h : Inv q) (cb : Callback τ) : Inv (emit q cb) :=
  ⟨h.queued_iff, h.nodup, h.active_of_queued, h.serviced_not_queued, h.serviced_once,
    h.oneshot_inactive, h.deferred⟩

theorem Inv.not_mem_of_serviced {q : TimerQueue τ κ} (h : Inv q) {c : κ} {t : τ} {b : Bool}
    (hc : (q.cpu c).serviced = some (t, b)) : t ∉ q.pq := by
  rw [← h.queued_iff, h.serviced_not_queued c t b hc]
  simp

theorem Inv.not_serviced_of_mem {q : TimerQueue τ κ} (h : Inv q) {t : τ} (ht : t ∈ q.pq)
    (c : κ) (b : Bool) : (q.cpu c).serviced ≠ some (t, b) :=
  fun hc => h.not_mem_of_serviced hc ht

theorem Inv.setCpu_serviced [DecidableEq κ] {q : TimerQueue τ κ} (h : Inv q) {c : κ} {p : Phase τ}
    (hp : p.serviced = (q.cpu c).serviced) : Inv (setCpu q c p) := by
  have hs : ∀ c', ((setCpu q c p).cpu c').serviced = (q.cpu c').serviced := by
    intro c'
    by_cases hc : c' = c
    · subst hc; simpa using hp
    · simp [hc]
  refine ⟨h.queued_iff, h.nodup, h.active_of_queued, ?_, ?_, ?_, ?_⟩
  · intro c' t b hc'
    exact h.serviced_not_queued c' t b (by rw [← hs]; exact hc')
  · intro c1 c2 t b b' h1 h2
    exact h.serviced_once c1 c2 t b b' (by rw [← hs]; exact h1) (by rw [← hs]; exact h2)
  · intro c' t hc'
    exact h.oneshot_inactive c' t (by rw [← hs]; exact hc')
  · intro t ha hq
    obtain ⟨hi, c', hc'⟩ := h.deferred t ha hq
    exact ⟨hi, c', by rw [hs]; exact hc'⟩

/-! ### One lemma for each step -/

variable [DecidableEq τ] [DecidableEq κ]

omit [DecidableEq κ] in
theorem registerTimer_inv {q q' : TimerQueue τ κ} {t : τ} {now val : ℕ} {absolute : Bool}
    {interval : ℕ} (h : Inv q) (hok : ∀ c b, (q.cpu c).serviced ≠ some (t, b))
    (hr : registerTimer q t now val absolute interval = some q') : Inv q' := by
  unfold registerTimer at hr
  dsimp only at hr
  by_cases hq : (q.timers t).queued = true
  · simp [hq] at hr
  · simp only [hq, Bool.false_eq_true, ↓reduceIte, Option.some.injEq] at hr
    subst hr
    have hnotin : t ∉ q.pq := by rw [← h.queued_iff]; exact hq
    refine ⟨?_, ?_, ?_, ?_, ?_, ?_, ?_⟩
    · intro u
      by_cases hu : u = t
      · subst hu; simp
      · simp [h.queued_iff u, hu]
    · exact h.nodup.append (List.nodup_singleton t) (by simpa using hnotin)
    · intro u hq
      by_cases hu : u = t
      · subst hu; simp
      · simp only [setPq_timers, setTimer_timers, Function.update_of_ne hu] at hq ⊢
        exact h.active_of_queued u hq
    · intro c u b hc
      -- the registered timer is in service nowhere
      have hu : u ≠ t := by rintro rfl; exact hok c b hc
      simpa [Function.update_of_ne hu] using h.serviced_not_queued c u b hc
    · exact h.serviced_once
    · intro c u hc
      have hu : u ≠ t := by rintro rfl; exact hok c false hc
      simpa [Function.update_of_ne hu] using h.oneshot_inactive c u hc
    · intro u ha hq
      by_cases hu : u = t
      · subst hu; simp at hq
      · simp only [setPq_timers, setTimer_timers, Function.update_of_ne hu] at ha hq ⊢
        exact h.deferred u ha hq

omit [DecidableEq κ] in
/-- The timer `t` takes the fields `x`, inactive and no longer queued, and leaves the priority
    queue; this is what `remove_timer` does to a queued timer. -/
theorem Inv.unqueue {q : TimerQueue τ κ} (h : Inv q) {t : τ} {x : Timer}
    (hxa : x.active = false) (hxq : x.queued = false) :
    Inv (setPq (setTimer q t x) (q.pq.erase t)) := by
  refine ⟨?_, h.nodup.erase t, ?_, ?_, h.serviced_once, ?_, ?_⟩
  · intro u
    by_cases hu : u = t
    · subst hu; simp [hxq, h.nodup.not_mem_erase]
    · simp [Function.update_of_ne hu, h.queued_iff u, List.mem_erase_of_ne hu]
  · intro u hq
    by_cases hu : u = t
    · subst hu; simp [hxq] at hq
    · simp only [setPq_timers, setTimer_timers, Function.update_of_ne hu] at hq ⊢
      exact h.active_of_queued u hq
  · intro c u b hc
    by_cases hu : u = t
    · subst hu; simp [hxq]
    · simpa [Function.update_of_ne hu] using h.serviced_not_queued c u b hc
  · intro c u hc
    by_cases hu : u = t
    · subst hu; simp [hxa]
    · simpa [Function.update_of_ne hu] using h.oneshot_inactive c u hc
  · intro u ha hq
    by_cases hu : u = t
    · subst hu; simp [hxa] at ha
    · simp only [setPq_timers, setTimer_timers, Function.update_of_ne hu] at ha hq ⊢
      exact h.deferred u ha hq

omit [DecidableEq κ] in
theorem removeTimer_inv {q q' : TimerQueue τ κ} {t : τ} {b : Bool} (h : Inv q)
    (hr : removeTimer q t = some (q', b)) : Inv q' := by
  unfold removeTimer at hr
  dsimp only at hr
  split at hr
  · -- inactive: nothing changes
    split at hr
    · cases hr
    · obtain ⟨rfl, -⟩ := Prod.mk.inj (Option.some.inj hr)
      exact h
  · split at hr
    · -- queued: taken out of the priority queue, and told `timer_disabled`
      split at hr
      · obtain ⟨rfl, -⟩ := Prod.mk.inj (Option.some.inj hr)
        exact (h.unqueue rfl rfl).emit _
      · cases hr
    · -- amidst its handler: only marked inactive
      rename_i hact hnq
      split at hr
      · cases hr
      · obtain ⟨rfl, -⟩ := Prod.mk.inj (Option.some.inj hr)
        have hq : (q.timers t).queued = false := by simpa using hnq
        refine ⟨?_, h.nodup, ?_, ?_, h.serviced_once, ?_, ?_⟩
        · intro u
          by_cases hu : u = t
          · subst hu; simp [← h.queued_iff, hq]
          · simp [Function.update_of_ne hu, h.queued_iff u]
        · intro u hq'
          by_cases hu : u = t
          · subst hu; simp [hq] at hq'
          · simp only [setTimer_timers, Function.update_of_ne hu] at hq' ⊢
            exact h.active_of_queued u hq'
        · intro c u b hc
          by_cases hu : u = t
          · subst hu; simp [hq]
          · simpa [Function.update_of_ne hu] using h.serviced_not_queued c u b hc
        · intro c u hc
          by_cases hu : u = t
          · subst hu; simp
          · simpa [Function.update_of_ne hu] using h.oneshot_inactive c u hc
        · intro u ha hq'
          by_cases hu : u = t
          · subst hu; simp at ha
          · simp only [setTimer_timers, Function.update_of_ne hu] at ha hq' ⊢
            exact h.deferred u ha hq'

/-- `timer_service` pops the queued timer `t` on the CPU `c`, which serviced nothing, and marks
    it: no longer queued, and inactive unless it is an interval timer. -/
theorem Inv.pop {q : TimerQueue τ κ} (h : Inv q) {c : κ} {t : τ} (ht : t ∈ q.pq)
    (hc : (q.cpu c).serviced = none) {x : Timer} {p : Phase τ} {iv : Bool}
    (hp : p.serviced = some (t, iv)) (hxq : x.queued = false)
    (hxi : x.interval = (q.timers t).interval) (hxa : iv = false → x.active = false)
    (hiv : iv = true → (q.timers t).interval ≠ 0) :
    Inv (setCpu (setPq (setTimer q t x) (q.pq.erase t)) c p) := by
  -- a CPU other than `c` services neither `t` nor anything that changes
  have hother : ∀ c' u b, c' ≠ c → (q.cpu c').serviced = some (u, b) → u ≠ t := by
    rintro c' u b - hs rfl
    exact h.not_serviced_of_mem ht c' b hs
  refine ⟨?_, h.nodup.erase t, ?_, ?_, ?_, ?_, ?_⟩
  · intro u
    by_cases hu : u = t
    · subst hu; simp [hxq, h.nodup.not_mem_erase]
    · simp [Function.update_of_ne hu, h.queued_iff u, List.mem_erase_of_ne hu]
  · intro u hq
    by_cases hu : u = t
    · subst hu; simp [hxq] at hq
    · simp only [setCpu_timers, setPq_timers, setTimer_timers, Function.update_of_ne hu] at hq ⊢
      exact h.active_of_queued u hq
  · intro c' u b hs
    by_cases hc' : c' = c
    · subst hc'
      simp only [setCpu_cpu, Function.update_self, hp, Option.some.injEq, Prod.mk.injEq] at hs
      obtain ⟨rfl, -⟩ := hs
      simp [hxq]
    · simp only [setCpu_cpu, Function.update_of_ne hc'] at hs
      have hu := hother c' u b hc' hs
      simpa [Function.update_of_ne hu] using h.serviced_not_queued c' u b hs
  · intro c1 c2 u b b' h1 h2
    by_cases hc1 : c1 = c <;> by_cases hc2 : c2 = c
    · rw [hc1, hc2]
    · subst hc1
      simp only [setCpu_cpu, Function.update_self, hp, Option.some.injEq, Prod.mk.injEq] at h1
      simp only [setCpu_cpu, Function.update_of_ne hc2] at h2
      exact absurd h1.1.symm (hother c2 u b' hc2 h2)
    · subst hc2
      simp only [setCpu_cpu, Function.update_self, hp, Option.some.injEq, Prod.mk.injEq] at h2
      simp only [setCpu_cpu, Function.update_of_ne hc1] at h1
      exact absurd h2.1.symm (hother c1 u b hc1 h1)
    · simp only [setCpu_cpu, Function.update_of_ne hc1, Function.update_of_ne hc2] at h1 h2
      exact h.serviced_once c1 c2 u b b' h1 h2
  · intro c' u hs
    by_cases hc' : c' = c
    · subst hc'
      simp only [setCpu_cpu, Function.update_self, hp, Option.some.injEq, Prod.mk.injEq] at hs
      obtain ⟨rfl, rfl⟩ := hs
      simp [hxa rfl]
    · simp only [setCpu_cpu, Function.update_of_ne hc'] at hs
      have hu := hother c' u false hc' hs
      simpa [Function.update_of_ne hu] using h.oneshot_inactive c' u hs
  · intro u ha hq
    by_cases hu : u = t
    · -- the popped timer, still active: an interval timer, in service on `c`
      subst hu
      simp only [setCpu_timers, setPq_timers, setTimer_timers, Function.update_self] at ha hq ⊢
      cases iv with
      | false => simp [hxa rfl] at ha
      | true => exact ⟨hxi ▸ hiv rfl, c, by simp [hp]⟩
    · simp only [setCpu_timers, setPq_timers, setTimer_timers, Function.update_of_ne hu] at ha hq ⊢
      obtain ⟨hi, c'', hs⟩ := h.deferred u ha hq
      have hc'' : c'' ≠ c := by rintro rfl; simp [hc] at hs
      exact ⟨hi, c'', by simpa [Function.update_of_ne hc''] using hs⟩

/-- The CPU `c` leaves the interval timer `t` it serviced, queued again. -/
theorem Inv.requeue {q : TimerQueue τ κ} (h : Inv q) {c : κ} {t : τ}
    (hc : (q.cpu c).serviced = some (t, true)) (ha : (q.timers t).active = true) {p : Phase τ}
    (hp : p.serviced = none) :
    Inv (setCpu (setPq (setTimer q t { q.timers t with queued := true }) (q.pq ++ [t])) c p) := by
  have hnotin := h.not_mem_of_serviced hc
  -- no other CPU services `t`, and `c` now services nothing
  have hs : ∀ c' u b, ((Function.update q.cpu c p) c').serviced = some (u, b) →
      c' ≠ c ∧ u ≠ t ∧ (q.cpu c').serviced = some (u, b) := by
    intro c' u b hs'
    by_cases hc' : c' = c
    · subst hc'; simp [hp] at hs'
    · simp only [Function.update_of_ne hc'] at hs'
      refine ⟨hc', ?_, hs'⟩
      rintro rfl
      exact hc' (h.serviced_once c' c u b true hs' hc)
  refine ⟨?_, h.nodup.append (List.nodup_singleton t) (by simpa using hnotin), ?_, ?_, ?_, ?_,
    ?_⟩
  · intro u
    by_cases hu : u = t
    · subst hu; simp
    · simp [h.queued_iff u, hu]
  · intro u hq
    by_cases hu : u = t
    · subst hu; simpa using ha
    · simp only [setCpu_timers, setPq_timers, setTimer_timers, Function.update_of_ne hu] at hq ⊢
      exact h.active_of_queued u hq
  · intro c' u b hs'
    obtain ⟨-, hu, hs''⟩ := hs c' u b hs'
    simpa [Function.update_of_ne hu] using h.serviced_not_queued c' u b hs''
  · intro c1 c2 u b b' h1 h2
    exact h.serviced_once c1 c2 u b b' (hs c1 u b h1).2.2 (hs c2 u b' h2).2.2
  · intro c' u hs'
    obtain ⟨-, hu, hs''⟩ := hs c' u false hs'
    simpa [Function.update_of_ne hu] using h.oneshot_inactive c' u hs''
  · intro u ha' hq
    by_cases hu : u = t
    · subst hu; simp at hq
    · simp only [setCpu_timers, setPq_timers, setTimer_timers, Function.update_of_ne hu] at ha' hq ⊢
      obtain ⟨hi, c'', hs''⟩ := h.deferred u ha' hq
      have hc'' : c'' ≠ c := by rintro rfl; rw [hc] at hs''; simp at hs''; exact hu hs''.symm
      exact ⟨hi, c'', by simpa [Function.update_of_ne hc''] using hs''⟩

omit [DecidableEq τ] in
/-- The CPU `c` leaves the timer `t` it serviced, which is inactive. -/
theorem Inv.release {q : TimerQueue τ κ} (h : Inv q) {c : κ} {t : τ} {b : Bool}
    (hc : (q.cpu c).serviced = some (t, b)) (ha : (q.timers t).active = false) {p : Phase τ}
    (hp : p.serviced = none) : Inv (setCpu q c p) := by
  have hs : ∀ c' u b', ((Function.update q.cpu c p) c').serviced = some (u, b') →
      (q.cpu c').serviced = some (u, b') := by
    intro c' u b' hs'
    by_cases hc' : c' = c
    · subst hc'; simp [hp] at hs'
    · simpa [Function.update_of_ne hc'] using hs'
  refine ⟨h.queued_iff, h.nodup, h.active_of_queued, ?_, ?_, ?_, ?_⟩
  · exact fun c' u b' hs' => h.serviced_not_queued c' u b' (hs c' u b' hs')
  · exact fun c1 c2 u b1 b2 h1 h2 => h.serviced_once c1 c2 u b1 b2 (hs c1 u b1 h1) (hs c2 u b2 h2)
  · exact fun c' u hs' => h.oneshot_inactive c' u (hs c' u false hs')
  · intro u ha' hq
    obtain ⟨hi, c'', hs''⟩ := h.deferred u ha' hq
    -- `t` is inactive, so the CPU that services `u` is not `c`
    have hc'' : c'' ≠ c := by
      rintro rfl
      rw [hc] at hs''
      obtain ⟨rfl, -⟩ := Prod.mk.inj (Option.some.inj hs'')
      simp [ha] at ha'
    exact ⟨hi, c'', by simpa [Function.update_of_ne hc''] using hs''⟩

omit [DecidableEq τ] in
theorem serviceBegin_inv {q q' : TimerQueue τ κ} {c : κ} {here : ℕ} (h : Inv q)
    (hr : serviceBegin q c here = some q') : Inv q' := by
  unfold serviceBegin at hr
  split at hr
  · rename_i hcpu
    obtain rfl := Option.some.inj hr
    exact h.setCpu_serviced (by simp [hcpu, Phase.serviced])
  · cases hr

theorem serviceNext_inv {q q' : TimerQueue τ κ} {c : κ} (h : Inv q)
    (hr : serviceNext q c = some q') : Inv q' := by
  unfold serviceNext at hr
  split at hr
  · rename_i here hcpu
    have hc : (q.cpu c).serviced = none := by simp [hcpu, Phase.serviced]
    split at hr
    · rename_i t hpeek
      have ht := peek_mem hpeek
      dsimp only at hr
      split at hr
      · split at hr
        · -- the earliest timer has expired: it is popped and marked
          split at hr
          · rename_i hiv
            obtain rfl := Option.some.inj hr
            exact h.pop ht hc rfl rfl rfl (by simp) (fun _ => hiv)
          · obtain rfl := Option.some.inj hr
            exact h.pop ht hc rfl rfl rfl (fun _ => rfl) (by simp)
        · cases hr
      · obtain rfl := Option.some.inj hr
        exact h.setCpu_serviced (by simp [hcpu, Phase.serviced])
    · obtain rfl := Option.some.inj hr
      exact h.setCpu_serviced (by simp [hcpu, Phase.serviced])
  · cases hr

omit [DecidableEq τ] in
theorem serviceHandler_inv {q q' : TimerQueue τ κ} {c : κ} (h : Inv q)
    (hr : serviceHandler q c = some q') : Inv q' := by
  unfold serviceHandler at hr
  split at hr
  · rename_i hcpu
    obtain rfl := Option.some.inj hr
    exact (h.emit _).setCpu_serviced (by simp [hcpu, Phase.serviced])
  · cases hr

theorem serviceRelock_inv {q q' : TimerQueue τ κ} {c : κ} (h : Inv q)
    (hr : serviceRelock q c = some q') : Inv q' := by
  unfold serviceRelock at hr
  split at hr
  · rename_i here t iv hcpu
    have hc : (q.cpu c).serviced = some (t, iv) := by simp [hcpu, Phase.serviced]
    dsimp only at hr
    split at hr
    · subst iv
      split at hr
      · -- still active: queued again
        rename_i ha
        obtain rfl := Option.some.inj hr
        exact h.requeue hc ha rfl
      · -- removed during the handler: the deferred `timer_disabled` call
        rename_i ha
        obtain rfl := Option.some.inj hr
        exact (h.emit _).release hc (by simpa using ha) rfl
    · -- a one-shot timer is inactive since it was popped
      rename_i hiv
      obtain rfl := Option.some.inj hr
      simp only [Bool.not_eq_true] at hiv
      subst hiv
      exact h.release hc (h.oneshot_inactive c t hc) rfl
  · cases hr

/-- The step lemma: every action that the environment condition allows keeps the invariant. -/
theorem step_inv {q q' : TimerQueue τ κ} {a : Action τ κ} (h : Inv q) (hok : NotInService q a)
    (hs : step q a = some q') : Inv q' := by
  cases a with
  | register t now val absolute interval => exact registerTimer_inv h hok hs
  | remove t =>
    obtain ⟨⟨q'', b⟩, hr, rfl⟩ := Option.map_eq_some_iff.1 hs
    exact removeTimer_inv h hr
  | serviceBegin c here => exact serviceBegin_inv h hs
  | serviceNext c => exact serviceNext_inv h hs
  | serviceHandler c => exact serviceHandler_inv h hs
  | serviceRelock c => exact serviceRelock_inv h hs

/-- In every interleaving where `register_timer` is not applied to a timer whose handler
    `timer_service` is running, a timer is queued iff it is in the priority queue, and no timer
    is there twice. -/
theorem timer_reachable_inv {q : TimerQueue τ κ} (hq : Reachable step NotInService initQueue q) :
    Inv q :=
  hq.invariant Inv inv_initQueue fun _ _ _ h hok hs => step_inv h hok hs

end Invariant

/-- An interval timer registered and popped by `timer_service`, whose handler is about to run:
    it is out of the queue while it is serviced. -/
theorem timer_reachable_inv_service :
    ∃ q, run step (initQueue : TimerQueue Unit Unit)
        [.register () 0 10 true 5, .serviceBegin () 10, .serviceNext ()] = some q ∧ Inv q := by
  obtain ⟨q, hq⟩ : ∃ q, run step (initQueue : TimerQueue Unit Unit)
      [.register () 0 10 true 5, .serviceBegin () 10, .serviceNext ()] = some q := ⟨_, rfl⟩
  refine ⟨q, hq, timer_reachable_inv (Reachable.of_run_allowed hq ?_)⟩
  -- only the registration needs the contract, and no CPU is servicing yet
  refine ⟨fun _ _ => by simp [initQueue, Phase.serviced], fun q₁ h₁ => ?_⟩
  cases h₁
  exact ⟨trivial, fun q₂ h₂ => by cases h₂; exact ⟨trivial, fun _ _ => trivial⟩⟩

/-- An interval timer is removed and registered again, as `timerfd_settime` does, while
    `timer_service` runs its handler. The service loop then queues it a second time, although
    `register_timer` queued it already; the first registration gets no callback at all, and the
    second registration's handler is called with an expiry that has not come. -/
theorem register_during_service :
    (run step (initQueue : TimerQueue Unit Unit)
      [.register () 0 10 true 5, .serviceBegin () 10, .serviceNext (), .remove (),
        .register () 10 100 true 0, .serviceHandler (), .serviceRelock ()]).map
      (fun q => (q.pq, q.log)) = some ([(), ()], [⟨(), 2, 100, some 1⟩]) := by
  decide

end Nanos.Timers
