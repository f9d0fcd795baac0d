import Nanos.Transition
import Mathlib.Logic.Function.Basic
import Mathlib.Data.List.Count
import Mathlib.Data.List.Nodup

set_option autoImplicit false

/-!
# `unix/blockq.c`: queues of blocked threads

A thread calls `blockq_check_timeout` with an action that re-checks a resource; the action runs
without the blockq lock, and when it answers `BLOCKQ_BLOCK_REQUIRED` the thread queues itself and
sleeps. `blockq_wake_one` takes the first waiter off the list and applies its action; an action
that is nullified, times out or finds the resource ends the blocking, any other queues the thread
again. A wakeup that finds no waiter sets the one `bq->wake` flag, which the next
`blockq_check_timeout` clears: `lost_wakeup` loses a wakeup that way. In every interleaving each
blocked thread is exactly once on the waiters list or among the pending applications
(`blockq_reachable_inv`).

Each lock-delimited section is one action. A fired timer makes a wakeup skip its thread, whose
handler `blockq_thread_timeout` then applies the action (`TimersQueued`). The resource is one
shared flag, and `blockq_transfer_waiters` is not modelled.
-/

namespace Nanos.Blockqs

open Nanos.Transition

/-- Where a thread is in `blockq_check_timeout` and its blocking. -/
inductive Phase where
  /-- Not blocking on the blockq. -/
  | idle
  /-- Its action answered `BLOCKQ_BLOCK_REQUIRED`; the blockq lock is not taken yet. -/
  | required
  /-- Queued, the locks released; `wake` is the flag it read under the lock. -/
  | queued (wake : Bool)
  /-- In `thread_sleep_interruptible`. -/
  | sleeping
deriving DecidableEq, Repr

/-- The phases of a blocking episode, from the queueing of the thread to the action's
    terminal application. -/
def Phase.blocking : Phase → Bool
  | .queued _ | .sleeping => true
  | .idle | .required => false

/-- A thread's timeout timer, `t->bq_timer`; `t->bq_timer_pending` is set unless it is `off`. -/
inductive Timer where
  | off
  /-- Registered: `remove_timer` can still take it back. -/
  | armed
  /-- Fired: `blockq_thread_timeout` is on its way and `remove_timer` fails. -/
  | fired
deriving DecidableEq, Repr

/-- The flags `blockq_apply` passes besides `BLOCKQ_ACTION_BLOCKED`. -/
structure Flags where
  nullify : Bool
  timedout : Bool
deriving DecidableEq, Repr

structure Blockq (θ : Type) where
  phase : θ → Phase
  waiters : List θ
  /-- `bq->wake`. -/
  wake : Bool
  /-- The resource the actions re-check. -/
  ready : Bool
  /-- The applications `blockq_apply` scheduled and that have not run yet. -/
  pending : List (θ × Flags)
  /-- The applications with `BLOCKQ_ACTION_BLOCKED` that have run. -/
  log : List (θ × Flags)
  timer : θ → Timer
  /-- Whether `t->bq_remain_at_wake` is non-zero: a wakeup took the timer back with time left. -/
  remain : θ → Bool

inductive Action (θ : Type) where
  /-- `blockq_check_timeout` up to the answer of the action. -/
  | check (t : θ)
  /-- Its section under the blockq lock, without a timeout. -/
  | enqueue (t : θ)
  /-- The same with a timeout: the thread's timer is registered. -/
  | enqueueTimeout (t : θ)
  /-- The `blockq_wake_one` it makes when it read the flag set, and `thread_sleep`. -/
  | finish (t : θ)
  | wakeOne
  | wakeOneForThread (t : θ) (nullify : Bool)
  /-- One turn of the `blockq_flush` loop. -/
  | flushStep
  /-- The first pending application runs. -/
  | apply
  | setReady (ready : Bool)
  /-- The kernel timers fire the thread's timer. -/
  | expire (t : θ)
  /-- `blockq_thread_timeout` runs for the thread. -/
  | timeout (t : θ)
deriving DecidableEq, Repr

section Model

variable {θ : Type} [DecidableEq θ]

def initBlockq : Blockq θ :=
  ⟨fun _ => .idle, [], false, false, [], [], fun _ => .off, fun _ => false⟩

def setPhase (s : Blockq θ) (t : θ) (p : Phase) : Blockq θ :=
  { s with phase := Function.update s.phase t p }

/-- Sets `t->bq_timer_pending` (with the timer's state) and `t->bq_remain_at_wake`. -/
def setTimer (s : Blockq θ) (t : θ) (tm : Timer) (remain : Bool) : Blockq θ :=
  { s with timer := Function.update s.timer t tm, remain := Function.update s.remain t remain }

/-- `list_delete(&t->bq_l)` and `blockq_apply`: the thread leaves the waiters list and its
    application is scheduled. -/
def dequeue (s : Blockq θ) (t : θ) (f : Flags) : Blockq θ :=
  { s with waiters := s.waiters.erase t, pending := s.pending ++ [(t, f)] }

/-- `blockq_wake_internal_locked` for a thread on the waiters list. A fired timer has the wakeup
    skipped; an armed one is taken back by `remove_timer`, which keeps the time left. -/
def wakeInternal (s : Blockq θ) (t : θ) (nullify : Bool) : Blockq θ :=
  match s.timer t with
  | .fired => s
  | tm => dequeue (setTimer s t .off (tm == .armed)) t ⟨nullify, false⟩

def blockqWakeOne (s : Blockq θ) : Blockq θ :=
  match s.waiters with
  | t :: _ => wakeInternal s t false
  | [] => { s with wake := true }

/-- `bq->wake = false`, then the action without `BLOCKQ_ACTION_BLOCKED`: it returns at once when
    the resource is there, and answers `BLOCKQ_BLOCK_REQUIRED` otherwise. -/
def checkTimeout (s : Blockq θ) (t : θ) : Option (Blockq θ) :=
  match s.phase t with
  | .idle =>
    let s := { s with wake := false }
    if s.ready then some s else some (setPhase s t .required)
  | _ => none

/-- The section of `blockq_check_timeout` under the blockq lock: register the timer when there
    is a timeout, queue the thread and read the flag. -/
def checkEnqueue (s : Blockq θ) (t : θ) (timeout : Bool) : Option (Blockq θ) :=
  match s.phase t with
  | .required =>
    let s := setTimer s t (if timeout then .armed else .off) false
    some (setPhase { s with waiters := s.waiters ++ [t] } t (.queued s.wake))
  | _ => none

/-- `if (wake) blockq_wake_one(bq)`, then the thread sleeps. -/
def checkFinish (s : Blockq θ) (t : θ) : Option (Blockq θ) :=
  match s.phase t with
  | .queued wake => some (setPhase (if wake then blockqWakeOne s else s) t .sleeping)
  | _ => none

def wakeOneForThread (s : Blockq θ) (t : θ) (nullify : Bool) : Blockq θ :=
  if t ∈ s.waiters then wakeInternal s t nullify else s

def flushStep (s : Blockq θ) : Blockq θ :=
  match s.waiters with
  | t :: _ => wakeInternal s t true
  | [] => s

/-- `blockq_resume_blocking`: queue the thread again, and register its timer again with the time
    a wakeup left it. -/
def resumeBlocking (s : Blockq θ) (t : θ) : Blockq θ :=
  let s := { s with waiters := s.waiters ++ [t] }
  if s.remain t then setTimer s t .armed false else s

/-- The first pending application, once its thread sleeps. It ends the blocking when nullified,
    timed out or when the resource is there; otherwise `blockq_block_required` queues the thread
    again. -/
def applyAction (s : Blockq θ) : Option (Blockq θ) :=
  match s.pending with
  | (t, f) :: rest =>
    match s.phase t with
    | .sleeping =>
      let s := { s with pending := rest, log := s.log ++ [(t, f)] }
      if f.nullify || f.timedout || s.ready then some (setPhase s t .idle)
      else some (resumeBlocking s t)
    | _ => none
  | [] => none

def timerExpire (s : Blockq θ) (t : θ) : Option (Blockq θ) :=
  match s.timer t with
  | .armed => some { s with timer := Function.update s.timer t .fired }
  | _ => none

/-- `blockq_thread_timeout` for a fired timer: the thread leaves the waiters list and its action
    is applied with `BLOCKQ_ACTION_TIMEDOUT`; `none` where `assert(t->bq_timer_pending)` fails. -/
def blockqThreadTimeout (s : Blockq θ) (t : θ) : Option (Blockq θ) :=
  match s.timer t with
  | .fired => some (dequeue (setTimer s t .off false) t ⟨false, true⟩)
  | _ => none

def step (s : Blockq θ) : Action θ → Option (Blockq θ)
  | .check t => checkTimeout s t
  | .enqueue t => checkEnqueue s t false
  | .enqueueTimeout t => checkEnqueue s t true
  | .finish t => checkFinish s t
  | .wakeOne => some (blockqWakeOne s)
  | .wakeOneForThread t nullify => some (wakeOneForThread s t nullify)
  | .flushStep => some (flushStep s)
  | .apply => applyAction s
  | .setReady ready => some { s with ready := ready }
  | .expire t => timerExpire s t
  | .timeout t => blockqThreadTimeout s t

end Model

section Invariant

variable {θ : Type} [DecidableEq θ]

@[simp] theorem setPhase_phase (s : Blockq θ) (t : θ) (p : Phase) :
    (setPhase s t p).phase = Function.update s.phase t p := rfl
@[simp] theorem setPhase_waiters (s : Blockq θ) (t : θ) (p : Phase) :
    (setPhase s t p).waiters = s.waiters := rfl
@[simp] theorem setPhase_pending (s : Blockq θ) (t : θ) (p : Phase) :
    (setPhase s t p).pending = s.pending := rfl
@[simp] theorem setTimer_phase (s : Blockq θ) (t : θ) (tm : Timer) (r : Bool) :
    (setTimer s t tm r).phase = s.phase := rfl
@[simp] theorem setTimer_waiters (s : Blockq θ) (t : θ) (tm : Timer) (r : Bool) :
    (setTimer s t tm r).waiters = s.waiters := rfl
@[simp] theorem setTimer_pending (s : Blockq θ) (t : θ) (tm : Timer) (r : Bool) :
    (setTimer s t tm r).pending = s.pending := rfl
@[simp] theorem resumeBlocking_phase (s : Blockq θ) (t : θ) :
    (resumeBlocking s t).phase = s.phase := by
  unfold resumeBlocking; dsimp only; split <;> rfl
@[simp] theorem resumeBlocking_waiters (s : Blockq θ) (t : θ) :
    (resumeBlocking s t).waiters = s.waiters ++ [t] := by
  unfold resumeBlocking; dsimp only; split <;> rfl
@[simp] theorem resumeBlocking_pending (s : Blockq θ) (t : θ) :
    (resumeBlocking s t).pending = s.pending := by
  unfold resumeBlocking; dsimp only; split <;> rfl

/-! ### What each section can do -/

theorem checkTimeout_some {s s' : Blockq θ} {t : θ} (h : checkTimeout s t = some s') :
    s.phase t = .idle ∧
      (s' = { s with wake := false } ∨ s' = setPhase { s with wake := false } t .required) := by
  unfold checkTimeout at h
  split at h
  · rename_i hidle
    dsimp only at h
    split at h <;> obtain rfl := Option.some.inj h
    · exact ⟨hidle, .inl rfl⟩
    · exact ⟨hidle, .inr rfl⟩
  · cases h

theorem checkEnqueue_some {s s' : Blockq θ} {t : θ} {timeout : Bool}
    (h : checkEnqueue s t timeout = some s') :
    s.phase t = .required ∧ s' = setPhase
      (setTimer { s with waiters := s.waiters ++ [t] } t (if timeout then .armed else .off) false)
      t (.queued s.wake) := by
  unfold checkEnqueue at h
  split at h
  · rename_i hreq
    exact ⟨hreq, (Option.some.inj h).symm⟩
  · cases h

theorem checkFinish_some {s s' : Blockq θ} {t : θ} (h : checkFinish s t = some s') :
    ∃ wake, s.phase t = .queued wake ∧
      s' = setPhase (if wake then blockqWakeOne s else s) t .sleeping := by
  unfold checkFinish at h
  split at h
  · rename_i wake hq
    exact ⟨wake, hq, (Option.some.inj h).symm⟩
  · cases h

/-- The first pending application runs on a sleeping thread: it ends the blocking, or the thread
    is queued again. -/
theorem applyAction_some {s s' : Blockq θ} (h : applyAction s = some s') :
    ∃ t f rest, s.pending = (t, f) :: rest ∧ s.phase t = .sleeping ∧
      ((f.nullify || f.timedout || s.ready) = true ∧
          s' = setPhase { s with pending := rest, log := s.log ++ [(t, f)] } t .idle ∨
        (f.nullify || f.timedout || s.ready) = false ∧
          s' = resumeBlocking { s with pending := rest, log := s.log ++ [(t, f)] } t) := by
  unfold applyAction at h
  split at h
  · rename_i t f rest hpend
    split at h
    · rename_i hsl
      dsimp only at h
      refine ⟨t, f, rest, hpend, hsl, ?_⟩
      split at h
      · rename_i hc
        exact .inl ⟨hc, (Option.some.inj h).symm⟩
      · rename_i hc
        exact .inr ⟨Bool.eq_false_iff.2 hc, (Option.some.inj h).symm⟩
    · cases h
  · cases h

theorem timerExpire_some {s s' : Blockq θ} {t : θ} (h : timerExpire s t = some s') :
    s.timer t = .armed ∧ s' = { s with timer := Function.update s.timer t .fired } := by
  unfold timerExpire at h
  split at h
  · rename_i harmed
    exact ⟨harmed, (Option.some.inj h).symm⟩
  · cases h

theorem blockqThreadTimeout_some {s s' : Blockq θ} {t : θ}
    (h : blockqThreadTimeout s t = some s') :
    s.timer t = .fired ∧ s' = dequeue (setTimer s t .off false) t ⟨false, true⟩ := by
  unfold blockqThreadTimeout at h
  split at h
  · rename_i hfired
    exact ⟨hfired, (Option.some.inj h).symm⟩
  · cases h

/-! ### Timers -/

/-- A thread whose timer is registered, or has fired and waits for its handler, is on the waiters
    list: `remove_timer` and `blockq_thread_timeout` always find it there. -/
def TimersQueued (s : Blockq θ) : Prop :=
  ∀ t, s.timer t ≠ .off → t ∈ s.waiters

omit [DecidableEq θ] in
theorem timersQueued_initBlockq : TimersQueued (initBlockq : Blockq θ) :=
  fun _ h => absurd rfl h

theorem TimersQueued.setPhase {s : Blockq θ} (h : TimersQueued s) (t : θ) (p : Phase) :
    TimersQueued (setPhase s t p) := h

omit [DecidableEq θ] in
theorem TimersQueued.append {s : Blockq θ} (h : TimersQueued s) (t : θ) :
    TimersQueued { s with waiters := s.waiters ++ [t] } :=
  fun u hu => List.mem_append_left _ (h u hu)

theorem TimersQueued.setTimer {s : Blockq θ} (h : TimersQueued s) {t : θ} (ht : t ∈ s.waiters)
    (tm : Timer) (r : Bool) : TimersQueued (setTimer s t tm r) := by
  intro u hu
  by_cases hut : u = t
  · subst hut; exact ht
  · exact h u (by simpa [Nanos.Blockqs.setTimer, Function.update_of_ne hut] using hu)

theorem TimersQueued.dequeue {s : Blockq θ} (h : TimersQueued s) (t : θ) (r : Bool) (f : Flags) :
    TimersQueued (dequeue (Nanos.Blockqs.setTimer s t .off r) t f) := by
  intro u hu
  by_cases hut : u = t
  · subst hut; simp [Nanos.Blockqs.dequeue, Nanos.Blockqs.setTimer] at hu
  · have hu' : s.timer u ≠ .off := by
      simpa [Nanos.Blockqs.dequeue, Nanos.Blockqs.setTimer, Function.update_of_ne hut] using hu
    exact (List.mem_erase_of_ne hut).2 (h u hu')

theorem TimersQueued.wakeInternal {s : Blockq θ} (h : TimersQueued s) (t : θ) (nullify : Bool) :
    TimersQueued (wakeInternal s t nullify) := by
  unfold Nanos.Blockqs.wakeInternal
  split
  · exact h
  · exact h.dequeue t _ _

theorem TimersQueued.blockqWakeOne {s : Blockq θ} (h : TimersQueued s) :
    TimersQueued (blockqWakeOne s) := by
  unfold Nanos.Blockqs.blockqWakeOne
  split
  · exact h.wakeInternal _ false
  · exact h

theorem checkTimeout_timersQueued {s s' : Blockq θ} {t : θ} (h : TimersQueued s)
    (hs : checkTimeout s t = some s') : TimersQueued s' := by
  have hw : TimersQueued { s with wake := false } := h
  obtain ⟨-, rfl | rfl⟩ := checkTimeout_some hs
  · exact hw
  · exact hw.setPhase t _

theorem checkEnqueue_timersQueued {s s' : Blockq θ} {t : θ} {timeout : Bool}
    (h : TimersQueued s) (hs : checkEnqueue s t timeout = some s') : TimersQueued s' := by
  obtain ⟨-, rfl⟩ := checkEnqueue_some hs
  -- the timer is registered before the thread is queued, under the same lock
  exact ((h.append t).setTimer (by simp) _ _).setPhase t _

theorem checkFinish_timersQueued {s s' : Blockq θ} {t : θ} (h : TimersQueued s)
    (hs : checkFinish s t = some s') : TimersQueued s' := by
  obtain ⟨wake, -, rfl⟩ := checkFinish_some hs
  split
  · exact h.blockqWakeOne.setPhase t _
  · exact h.setPhase t _

theorem applyAction_timersQueued {s s' : Blockq θ} (h : TimersQueued s)
    (hs : applyAction s = some s') : TimersQueued s' := by
  obtain ⟨t, f, rest, -, -, ⟨-, rfl⟩ | ⟨-, rfl⟩⟩ := applyAction_some hs
  all_goals have hp : TimersQueued { s with pending := rest, log := s.log ++ [(t, f)] } := h
  · exact hp.setPhase t .idle
  · unfold resumeBlocking
    dsimp only
    split
    · exact (hp.append t).setTimer (by simp) _ _
    · exact hp.append t

theorem timerExpire_timersQueued {s s' : Blockq θ} {t : θ} (h : TimersQueued s)
    (hs : timerExpire s t = some s') : TimersQueued s' := by
  obtain ⟨harmed, rfl⟩ := timerExpire_some hs
  -- the timer that fires is a registered one, so its thread is queued
  intro u hu
  by_cases hut : u = t
  · subst hut; exact h u (by simp [harmed])
  · exact h u (by simpa [Function.update_of_ne hut] using hu)

theorem blockqThreadTimeout_timersQueued {s s' : Blockq θ} {t : θ} (h : TimersQueued s)
    (hs : blockqThreadTimeout s t = some s') : TimersQueued s' := by
  obtain ⟨-, rfl⟩ := blockqThreadTimeout_some hs
  exact h.dequeue t false _

theorem step_timersQueued {s s' : Blockq θ} {a : Action θ} (h : TimersQueued s)
    (hs : step s a = some s') : TimersQueued s' := by
  cases a with
  | check t => exact checkTimeout_timersQueued h hs
  | enqueue t => exact checkEnqueue_timersQueued h hs
  | enqueueTimeout t => exact checkEnqueue_timersQueued h hs
  | finish t => exact checkFinish_timersQueued h hs
  | wakeOne =>
    obtain rfl := Option.some.inj hs
    exact h.blockqWakeOne
  | wakeOneForThread t nullify =>
    obtain rfl := Option.some.inj hs
    unfold Nanos.Blockqs.wakeOneForThread
    split
    · exact h.wakeInternal t nullify
    · exact h
  | flushStep =>
    obtain rfl := Option.some.inj hs
    unfold Nanos.Blockqs.flushStep
    split
    · exact h.wakeInternal _ true
    · exact h
  | apply => exact applyAction_timersQueued h hs
  | setReady ready =>
    obtain rfl := Option.some.inj hs
    exact h
  | expire t => exact timerExpire_timersQueued h hs
  | timeout t => exact blockqThreadTimeout_timersQueued h hs

/-! ### The count invariant -/

/-- Each thread in a blocking episode is exactly once on the waiters list or among the pending
    applications, and every other thread is on neither. -/
def Inv (s : Blockq θ) : Prop :=
  ∀ t, s.waiters.count t + (s.pending.map Prod.fst).count t = (s.phase t).blocking.toNat

theorem inv_initBlockq : Inv (initBlockq : Blockq θ) := by
  intro t
  simp [initBlockq, Phase.blocking]

theorem Inv.waiters_nodup {s : Blockq θ} (h : Inv s) : s.waiters.Nodup := by
  refine List.nodup_iff_count_le_one.2 fun t => ?_
  have := h t
  have := Bool.toNat_le (s.phase t).blocking
  omega

theorem Inv.setPhase {s : Blockq θ} (h : Inv s) {t : θ} {p : Phase}
    (hp : p.blocking = (s.phase t).blocking) : Inv (setPhase s t p) := by
  intro u
  by_cases hu : u = t
  · subst hu; simpa [hp] using h u
  · simpa [Function.update_of_ne hu] using h u

theorem Inv.setTimer {s : Blockq θ} (h : Inv s) (t : θ) (tm : Timer) (r : Bool) :
    Inv (setTimer s t tm r) := h

theorem Inv.dequeue {s : Blockq θ} (h : Inv s) {t : θ} (ht : t ∈ s.waiters) (f : Flags) :
    Inv (dequeue s t f) := by
  intro u
  have hu := h u
  by_cases hut : u = t
  · subst hut
    have hpos := List.count_pos_iff.2 ht
    simp only [Nanos.Blockqs.dequeue, List.map_append, List.map_cons, List.map_nil,
      List.count_append, List.count_erase_self, List.count_singleton_self]
    omega
  · have htu : t ≠ u := Ne.symm hut
    simpa [Nanos.Blockqs.dequeue, List.count_erase_of_ne hut, List.count_singleton, htu]
      using hu

theorem Inv.wakeInternal {s : Blockq θ} (h : Inv s) {t : θ} (ht : t ∈ s.waiters)
    (nullify : Bool) : Inv (wakeInternal s t nullify) := by
  unfold Nanos.Blockqs.wakeInternal
  split
  · exact h
  · exact (h.setTimer t .off _).dequeue ht _

theorem Inv.blockqWakeOne {s : Blockq θ} (h : Inv s) : Inv (blockqWakeOne s) := by
  unfold Nanos.Blockqs.blockqWakeOne
  split
  · rename_i t rest hw
    exact h.wakeInternal (by simp [hw]) false
  · exact h

/-! ### One lemma for each step -/

theorem checkTimeout_inv {s s' : Blockq θ} {t : θ} (h : Inv s) (hs : checkTimeout s t = some s') :
    Inv s' := by
  obtain ⟨hidle, rfl | rfl⟩ := checkTimeout_some hs
  · exact h
  · exact Inv.setPhase (s := { s with wake := false }) h (by simp [hidle, Phase.blocking])

theorem checkEnqueue_inv {s s' : Blockq θ} {t : θ} {timeout : Bool} (h : Inv s)
    (hs : checkEnqueue s t timeout = some s') : Inv s' := by
  obtain ⟨hreq, rfl⟩ := checkEnqueue_some hs
  -- the thread was on neither list; now it is a waiter, queued
  intro u
  by_cases hu : u = t
  · subst hu
    have h0 := h u
    simp only [hreq, Phase.blocking, Bool.toNat_false] at h0
    simp [Phase.blocking]
    omega
  · have htu : t ≠ u := Ne.symm hu
    simpa [Function.update_of_ne hu, List.count_singleton, htu] using h u

theorem checkFinish_inv {s s' : Blockq θ} {t : θ} (h : Inv s) (hs : checkFinish s t = some s') :
    Inv s' := by
  obtain ⟨wake, hq, rfl⟩ := checkFinish_some hs
  split
  · have hw := h.blockqWakeOne
    refine hw.setPhase ?_
    -- `blockq_wake_one` leaves the phases alone
    have hph : (Nanos.Blockqs.blockqWakeOne s).phase = s.phase := by
      unfold Nanos.Blockqs.blockqWakeOne Nanos.Blockqs.wakeInternal
      split
      · split <;> rfl
      · rfl
    simp [hph, hq, Phase.blocking]
  · exact h.setPhase (by simp [hq, Phase.blocking])

theorem applyAction_inv {s s' : Blockq θ} (h : Inv s) (hs : applyAction s = some s') : Inv s' := by
  obtain ⟨t, f, rest, hpend, hsl, ⟨-, rfl⟩ | ⟨-, rfl⟩⟩ := applyAction_some hs
  all_goals
    have ht := h t
    simp only [hpend, hsl, Phase.blocking, List.map_cons, List.count_cons, beq_self_eq_true,
      ↓reduceIte, Bool.toNat_true] at ht
    intro u
  · -- the terminal application: the thread leaves the blockq
    by_cases hu : u = t
    · subst hu; simp [Phase.blocking, Bool.toNat_false]; omega
    · have htu : t ≠ u := Ne.symm hu
      simpa [Function.update_of_ne hu, hpend, List.count_cons, htu] using h u
  · -- `blockq_block_required`: queued again
    by_cases hu : u = t
    · subst hu; simp [hsl, Phase.blocking, Bool.toNat_true]; omega
    · have htu : t ≠ u := Ne.symm hu
      simpa [hpend, List.count_cons, List.count_singleton, htu] using h u

theorem timerExpire_inv {s s' : Blockq θ} {t : θ} (h : Inv s) (hs : timerExpire s t = some s') :
    Inv s' := by
  -- a timer firing changes nothing the counts read
  obtain ⟨-, rfl⟩ := timerExpire_some hs
  exact h

/-- The handler of a fired timer finds its thread on the list, which `TimersQueued` says. -/
theorem blockqThreadTimeout_inv {s s' : Blockq θ} {t : θ} (h : Inv s) (hq : TimersQueued s)
    (hs : blockqThreadTimeout s t = some s') : Inv s' := by
  obtain ⟨hfired, rfl⟩ := blockqThreadTimeout_some hs
  exact (h.setTimer t .off false).dequeue (hq t (by simp [hfired])) _

theorem step_inv {s s' : Blockq θ} {a : Action θ} (h : Inv s) (hq : TimersQueued s)
    (hs : step s a = some s') : Inv s' := by
  cases a with
  | check t => exact checkTimeout_inv h hs
  | enqueue t => exact checkEnqueue_inv h hs
  | enqueueTimeout t => exact checkEnqueue_inv h hs
  | finish t => exact checkFinish_inv h hs
  | wakeOne =>
    obtain rfl := Option.some.inj hs
    exact h.blockqWakeOne
  | wakeOneForThread t nullify =>
    obtain rfl := Option.some.inj hs
    unfold Nanos.Blockqs.wakeOneForThread
    split
    · rename_i ht; exact h.wakeInternal ht nullify
    · exact h
  | flushStep =>
    obtain rfl := Option.some.inj hs
    unfold Nanos.Blockqs.flushStep
    split
    · rename_i t rest hw; exact h.wakeInternal (by simp [hw]) true
    · exact h
  | apply => exact applyAction_inv h hs
  | setReady ready =>
    obtain rfl := Option.some.inj hs
    exact h
  | expire t => exact timerExpire_inv h hs
  | timeout t => exact blockqThreadTimeout_inv h hq hs

/-- The run lemma: both invariants hold in every reachable state. The count invariant rests on
    the timers' one in the handler of a fired timer. -/
theorem reachable_inv_timersQueued {s : Blockq θ}
    (hs : Reachable step (fun _ _ => True) initBlockq s) : Inv s ∧ TimersQueued s :=
  hs.invariant (fun s => Inv s ∧ TimersQueued s) ⟨inv_initBlockq, timersQueued_initBlockq⟩
    fun _ _ _ h _ hstep => ⟨step_inv h.1 h.2 hstep, step_timersQueued h.2 hstep⟩

/-- A thread with a timer registered or fired has no application scheduled: a wakeup and the
    timeout handler never both apply the action of one blocking. -/
theorem reachable_timer_not_pending {s : Blockq θ}
    (hs : Reachable step (fun _ _ => True) initBlockq s) {t : θ} (ht : s.timer t ≠ .off) :
    t ∉ s.pending.map Prod.fst := by
  obtain ⟨hi, hq⟩ := reachable_inv_timersQueued hs
  intro hp
  have hw := List.count_pos_iff.2 (hq t ht)
  have hpc := List.count_pos_iff.2 hp
  have hc := hi t
  have := Bool.toNat_le (s.phase t).blocking
  omega

/-- In every interleaving, a thread is on the waiters list at most once, and a thread in a
    blocking episode is exactly once on the list or among the pending applications: its blocking
    ends with at most one terminal application. -/
theorem blockq_reachable_inv {s : Blockq θ} (hs : Reachable step (fun _ _ => True) initBlockq s) :
    Inv s ∧ s.waiters.Nodup := by
  have hi := (reachable_inv_timersQueued hs).1
  exact ⟨hi, hi.waiters_nodup⟩

/-- Thread 0 blocks and sleeps, thread 1 is queued behind it, and `blockq_wake_one` hands
    thread 0's action to the pending applications. -/
theorem blockq_reachable_inv_wake :
    ∃ s, run step (initBlockq : Blockq (Fin 2))
        [.check 0, .enqueue 0, .finish 0, .check 1, .enqueue 1, .wakeOne] = some s ∧
      Inv s ∧ s.waiters.Nodup := by
  obtain ⟨s, hs⟩ : ∃ s, run step (initBlockq : Blockq (Fin 2))
      [.check 0, .enqueue 0, .finish 0, .check 1, .enqueue 1, .wakeOne] = some s := ⟨_, rfl⟩
  exact ⟨s, hs, blockq_reachable_inv (Reachable.of_run hs)⟩

end Invariant

/-- A lost wakeup. Thread 0's action answers `BLOCKQ_BLOCK_REQUIRED`; `blockq_wake_one` comes
    before thread 0 is queued, finds no waiter and sets the flag; thread 1 enters
    `blockq_check_timeout` and clears the flag; both threads queue themselves, read the flag
    clear, and sleep. Then no application is pending or has run, and no thread can move: only a
    later wakeup can apply an action. -/
theorem lost_wakeup :
    ∃ s, run step (initBlockq : Blockq (Fin 2))
        [.check 0, .wakeOne, .check 1, .enqueue 0, .enqueue 1, .finish 0, .finish 1] = some s ∧
      s.waiters = [0, 1] ∧ s.wake = false ∧ s.pending = [] ∧ s.log = [] ∧
      ∀ t, (step s (.check t)).isNone ∧ (step s (.enqueue t)).isNone ∧
        (step s (.finish t)).isNone ∧ (step s .apply).isNone := by
  refine ⟨_, rfl, rfl, rfl, rfl, rfl, ?_⟩
  decide

end Nanos.Blockqs
