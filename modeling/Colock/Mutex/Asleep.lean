import Colock.MiniLock.Asleep
import Colock.Mutex.LotsAndLots

/-! `Mutex` over `MiniLock` with threads that sleep. A thread parks on a parker of the mutex or on
one of the `MiniLock`, and has one token for both: a token that was meant for the one may be taken
at the other. -/
namespace Colock.RawMutex
open Transition LockImpl Serial ThreadPark
variable {P : Type*}

def parks (x : State P × Calls P) (p : P) : Option Bool :=
  match x.1.pc p with
  | .park _ => (x.1.node p).map x.1.flag
  | _ => none

def notifies (x : State P × Calls P) : P × Cmd Unit → Option P
  | (p, .inner ()) =>
    match x.1.pc p with
    | .wake _ e _ => e.data.thread?
    | _ => none
  | _ => none

theorem parks_eq {x : State P × Calls P} {p : P} {b : Bool} (h : parks x p = some b) :
    ∃ timed i, x.1.pc p = .park timed ∧ x.1.node p = some i ∧ x.1.flag i = b := by
  cases hpc : x.1.pc p with
  | park timed =>
    simp only [parks, hpc, Option.map_eq_some_iff] at h
    obtain ⟨i, hi, hb⟩ := h
    exact ⟨timed, i, rfl, hi, hb⟩
  | _ => simp [parks, hpc] at h

variable [DecidableEq P]

section step
variable {task : P → Option Nat} {x y : State P × Calls P} {p q : P} {c : Cmd Unit}

omit [DecidableEq P] in
theorem Accounted.carries_waker (hx : Accounted x) {e : Entry P} {i : Nat} {timed : Bool}
    (he : (x.1.pc p).carries = some e) (hparker : e.data.parker = some i)
    (hpark : x.1.pc q = .park timed) (hnode : x.1.node q = some i) : e.data.thread? = some q := by
  obtain ⟨j, hj, hpushed⟩ := hx.awaits q (.lockInner timed) (.inr hpark)
  obtain rfl : i = j := Option.some.inj (hnode.symm.trans hj)
  have hmem := hx.carried_pushed he
  have hid := hx.parker e hmem i hparker
  obtain rfl := List.inj_on_of_nodup_map hx.ids hmem hpushed hid
  rfl

theorem InUse.parks_others (hx : InUse task x) (h : use task x (p, c) = some y) (hq : q ≠ p) :
    parks y q = parks x q ∨
      notifies x (p, c) = some q ∧ parks x q = some false ∧ parks y q = some true := by
  obtain ⟨a, hu, hs, -⟩ := use_eq h
  have hpc := step_others hs hq
  have hnodes := step_nodes hs
  cases hpark : x.1.pc q with
  | park timed =>
    obtain ⟨i, hi, -⟩ := hx.awaits q (.lockInner timed) (.inr hpark)
    have hbefore : parks x q = some (x.1.flag i) := by simp [parks, hpark, hi]
    have hafter : parks y q = some (y.1.flag i) := by simp [parks, hpc, hpark, hnodes.others hq, hi]
    rw [hbefore, hafter]
    cases hold : x.1.flag i with
    | true => exact .inl (by rw [hnodes.flag_stays (hx.node_lt q i hi) hold])
    | false =>
      cases hnew : y.1.flag i with
      | false => exact .inl rfl
      | true =>
        rcases step_flag hs hnew with hsame | ⟨r, e, n, rfl, hwake, hparker⟩
        · simp [hold] at hsame
        · refine .inr ⟨?_, rfl, rfl⟩
          have hthread := hx.carries_waker (p := p) (by rw [hwake]; rfl) hparker hpark hi
          cases hu with
          | next => simpa [notifies, hwake] using hthread
  | _ => exact .inl (by simp [parks, hpc, hpark])

end step

theorem lock_rests (task : P → Option Nat) : (lock task).Rests := by
  intro x p k y _ hphase h
  obtain ⟨hpc, hnode⟩ := phase_out hphase
  replace h : use task x (p, .inner k) = some y := h
  obtain ⟨a, hu, -⟩ := use_eq h
  cases hu with
  | poll hidle hrung => simp [rung, hnode] at hrung
  | dropReady hholding hsome => exact absurd hnode hsome
  | next hidle hholding =>
    split at hpc
    · exact absurd hpc hidle
    · exact absurd hpc hholding

def queueWaits (task : P → Option Nat) : (queueClient task).Waits where
  Good := InUse task
  waits := parks
  rings := notifies
  keeps := by
    rintro x ⟨p, c⟩ y hx h
    exact hx.keeps h
  down := by
    intro x p c y hx hparks h
    obtain ⟨timed, i, hpc, hi, hflag⟩ := parks_eq hparks
    replace h : use task x (p, c) = some y := h
    obtain ⟨a, hu, hs, -⟩ := use_eq h
    cases hu with
    | call hidle | poll hidle => simp [hpc] at hidle
    | release hholding | dropReady hholding => simp [hpc] at hholding
    | next => simp [step, atomic, queueStep, hpc, hi, hflag] at hs
  others := by
    intro x p q c y hx h hq
    exact hx.parks_others h hq
  moves := by
    rintro x ⟨p, c⟩ y hx h -
    exact use_changes hx h
  apart := by
    intro x p hparks
    obtain ⟨b, hb⟩ := Option.ne_none_iff_exists'.mp hparks
    obtain ⟨timed, i, hpc, -⟩ := parks_eq hb
    change (x.1.pc p).wish = .nothing
    rw [hpc]
    rfl
  silent := by
    intro x p hwish
    replace hwish : (x.1.pc p).wish ≠ .nothing := hwish
    cases hpc : x.1.pc p <;> simp_all [Pc.wish, queueClient, notifies]

def mutexWaits (task : P → Option Nat) : (mutex task).Waits :=
  stackWaits (queue_uses task) (lock_rests task) (queueWaits task) MiniLock.miniLockWaits

theorem mutexWaits_start (task : P → Option Nat) : (mutexWaits task).Good (mutex task).start :=
  ⟨agrees_start rfl, inUse_init task, MiniLock.miniLock.good_start⟩

/-- A `Mutex` is a lock to everybody who uses it. Take any system of parties with a lock that is taken
and given in one step, and put in the place of that lock a `Mutex` over a `MiniLock`, with threads that
sleep in `std::thread::park`. It does nothing then that it did not do before, and its lock is taken
exactly while the mutex is held. If it came to an end in every order of its steps, and whoever has
the lock goes on or gives it up, it still does, within a bound to which a stray return of `park` adds
three steps; then it is at an end that it had before, both locks are free and the queue is empty, and
a thread sleeps for the system's own reasons only. A task is polled again only when its waker was
called, and drops the future before it uses the guard. -/
theorem mutex_refines_lock [Fintype P] {σ ι : Type*} (task : P → Option Nat)
    (frames : Option P ↪ MiniLock.Addr) {C : Client P σ ι} (FC : C.Waits) {s : σ}
    (hfree : C.lock s = none) :
    (∀ token stray x, Reach (overFlags FC (mutexWaits task)).step anyStep
      (ThreadPark.start (s, (mutex task).start) token stray) x →
        Reach C.step anyStep s x.base.1 ∧
          ∀ p, C.lock x.base.1 = some p ↔ ((mutex task).phase x.base.2 p).has = true) ∧
    (FC.Good s → (∀ t, Reach C.step anyStep s t → C.Disciplined t) →
      ∀ n final, Ends C.step s n final →
        ∃ m, ∀ token stray, Ends (overFlags FC (mutexWaits task)).step
          (ThreadPark.start (s, (mutex task).start) token stray) (m + 3 * stray) fun x =>
            final x.base.1 ∧ AtRest x.base.2 ∧
              ∀ p, x.mode p = .awake ∨ x.mode p = .asleep ∧ FC.waits x.base.1 p = some false) := by
  constructor
  · intro token stray x h
    have hbase : Reach (C.over (mutex task)) (lift C anyStep) (s, (mutex task).start) x.base :=
      (reach_base h).mono fun _ _ _ => trivial
    obtain ⟨hagrees, hreach⟩ := over_simulates hfree hbase
    exact ⟨hreach, hagrees.lock⟩
  · intro hgood hd n final hends
    obtain ⟨m, hover⟩ := over_ends_asleep FC (mutexWaits task) (mutex_live task frames)
      (mutexSpends task) hfree hgood (mutexWaits_start task) hd hends
    refine ⟨m, fun token stray => ⟨(hover token stray).bound, fun x hr hstuck => ?_⟩⟩
    obtain ⟨⟨hfinal, hgood, hidle⟩, hrest⟩ := (hover token stray).final x hr hstuck
    exact ⟨hfinal, mutex_at_rest hgood hidle, hrest⟩

theorem mutex_refines_lock_both : ∃ ls x, run (overFlags Jobs.client.wakeful (mutexWaits both)).step
    (ThreadPark.start (Jobs.start 0 fun _ : Bool => List.replicate 2 increment, (mutex both).start)
      (fun _ => false) 1) ls = some x ∧
    Reach Jobs.step anyStep (Jobs.start 0 fun _ : Bool => List.replicate 2 increment) x.base.1 ∧
      x.base.1.shared.value = 4 ∧ AtRest x.base.2 := by
  obtain ⟨hsafe, hlive⟩ := mutex_refines_lock both MiniLock.twoFrames
    (Jobs.client : Client Bool (Jobs Bool Nat) Unit).wakeful
    (s := Jobs.start 0 fun _ => List.replicate 2 increment) rfl
  have hjobs := (Jobs.descends (0 : Nat) fun _ : Bool => List.replicate 2 increment).ends
    (Jobs.kept_start _ _) fun _ h hstuck => h.done hstuck
  obtain ⟨m, hends⟩ := hlive trivial (fun t _ => Jobs.disciplined t) _ _ hjobs
  obtain ⟨ls, x, hr, ⟨hvalue, horder⟩, hrest, -⟩ :=
    (hends (fun _ => false) 1).reaches [] _ trivial rfl
  obtain ⟨hreach, -⟩ := hsafe _ _ _ (run_reach (meets_any _ _) hr)
  exact ⟨ls, x, hr, hreach, hvalue.trans (replay_all horder), hrest⟩

def jobFlags (V : Type*) (task : P → Option Nat) :
    Flags ((Jobs.client : Client P (Jobs P V) Unit).over (mutex task)) :=
  overFlags Jobs.client.wakeful (mutexWaits task)

theorem sections_end_asleep {V : Type*} [Fintype P] (task : P → Option Nat)
    (frames : Option P ↪ MiniLock.Addr) (v : V) (jobs : P → List (Section V)) :
    ∃ n, ∀ token stray, Ends (jobFlags V task).step
      (ThreadPark.start (Jobs.start v jobs, (mutex task).start) token stray) (n + 3 * stray)
      fun x => AllRun v jobs x.base ∧ ∀ p, x.mode p = .awake := by
  have hgood : (jobFlags V task).Good (Jobs.start v jobs, (mutex task).start) :=
    ⟨agrees_start rfl, trivial, mutexWaits_start task⟩
  obtain ⟨n, hends⟩ := ends_awake (jobs_end (mutex_live task frames) (mutexSpends task) v jobs) hgood
    fun x hx p => if_pos (.inl (hx.2.2 p))
  refine ⟨n, fun token stray => ⟨(hends token stray).bound, fun x hr hstuck => ?_⟩⟩
  obtain ⟨⟨⟨hvalue, horder⟩, hgood, hidle⟩, hawake⟩ := (hends token stray).final x hr hstuck
  exact ⟨⟨mutex_at_rest hgood hidle, hvalue, horder⟩, hawake⟩

/-- `do_lots_and_lots` with threads that sleep in `std::thread::park`, on the parkers of the mutex and
of the `MiniLock` in it, with one token each. Whatever tokens are left over at the start, and however
often `park` returns without a reason or other code calls `unpark`, there are boundedly many steps,
each such return brings three of them at the most, and when none is left all sections were run and
no thread is asleep: no wake-up is lost between the store to `should_wakeup` and the `unpark`, nor
when its token is taken at another parker. A task is polled again only when its waker was called, and
drops the future before it uses the guard. -/
theorem mutex_lots_and_lots_asleep [Fintype P] (task : P → Option Nat)
    (frames : Option P ↪ MiniLock.Addr) :
    (∀ (V : Type) (v : V) (jobs : P → List (Section V)),
      ∃ n, ∀ token stray, Ends (jobFlags V task).step
        (ThreadPark.start (Jobs.start v jobs, (mutex task).start) token stray) (n + 3 * stray)
        fun x => AllRun v jobs x.base ∧ ∀ p, x.mode p = .awake) ∧
    ∀ j, ∃ n, ∀ token stray, Ends (jobFlags Nat task).step
      (ThreadPark.start (Jobs.start 0 fun _ : P => List.replicate j increment, (mutex task).start)
        token stray) (n + 3 * stray)
      fun x => x.base.1.shared.value = j * Fintype.card P ∧ ∀ p, x.mode p = .awake := by
  refine ⟨fun V v jobs => sections_end_asleep task frames v jobs, fun j => ?_⟩
  obtain ⟨n, hends⟩ := sections_end_asleep task frames (0 : Nat) fun _ => List.replicate j increment
  refine ⟨n, fun token stray => ⟨(hends token stray).bound, fun x hr hstuck => ?_⟩⟩
  obtain ⟨hall, hawake⟩ := (hends token stray).final x hr hstuck
  exact ⟨hall.value.trans (replay_all hall.order), hawake⟩

theorem mutex_lots_and_lots_asleep_both : ∃ ls x, run (jobFlags Nat both).step
    (ThreadPark.start (Jobs.start 0 fun _ : Bool => List.replicate 3 increment, (mutex both).start)
      (fun _ => true) 5) ls = some x ∧ x.base.1.shared.value = 6 ∧ ∀ p, x.mode p = .awake := by
  obtain ⟨n, hends⟩ := (mutex_lots_and_lots_asleep both MiniLock.twoFrames).2 3
  obtain ⟨ls, x, hr, hvalue, hawake⟩ := (hends (fun _ => true) 5).reaches [] _ trivial rfl
  exact ⟨ls, x, hr, hvalue, hawake⟩

end Colock.RawMutex
