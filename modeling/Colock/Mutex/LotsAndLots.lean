import Colock.Lib.Jobs
import Colock.MiniLock.LotsAndLots
import Colock.Mutex.Awake
import Colock.Mutex.Ending
import Colock.RawMutex.OverMiniLock

/-! `Mutex` over `MiniLock`, both with all their steps: threads that block in `lock` and tasks that
await `lock_async` come to an end with their critical sections under every scheduler. This is
`do_lots_and_lots`, for both kinds of parties at once. -/
namespace Colock.RawMutex
open Transition LockImpl Serial
variable {P : Type*} [DecidableEq P]

def queueClient (task : P → Option Nat) : Client P (State P × Calls P) (Cmd Unit) where
  step := use task
  lock x := x.1.qlock
  wish x p := (x.1.pc p).wish
  sync := .inner ()
  nothing := by
    intro x p c y hw h
    obtain ⟨a, -, hs, -⟩ := use_eq h
    exact rawMutex.nothing hw hs
  acquire := by
    intro x p hw hlock
    obtain ⟨t, ht, hown⟩ := rawMutex.acquire hw hlock
    have hnext : nextAct (callOf (task p)) x p = some .next := by
      unfold nextAct
      split <;> simp_all [Pc.wish]
    replace ht : step x.1 (p, .next) = some t := ht
    exact ⟨(t, noteCalls x.1 (p, .next) x.2), by simp [use, hnext, recorded, ht], hown⟩
  release := by
    intro x p hw hlock
    obtain ⟨t, ht, hnone⟩ := rawMutex.release hw hlock
    have hnext : nextAct (callOf (task p)) x p = some .next := by
      unfold nextAct
      split <;> simp_all [Pc.wish]
    replace ht : step x.1 (p, .next) = some t := ht
    exact ⟨(t, noteCalls x.1 (p, .next) x.2), by simp [use, hnext, recorded, ht], hnone⟩
  others := by
    intro x p q c y h hpq
    obtain ⟨a, -, hs, -⟩ := use_eq h
    exact rawMutex.others hs hpq

theorem queue_uses (task : P → Option Nat) : (lock task).Uses (queueClient task) where
  step := rfl
  start := rfl
  sync := ⟨(), rfl⟩
  within := by
    rintro x p - hout
    have hpc := (phase_out hout).1
    change (x.1.pc p).wish = .nothing
    rw [hpc]
    split <;> rfl

def mutex (task : P → Option Nat) :
    Impl P ((State P × Calls P) × MiniLock.State P) (Unit ⊕ Cmd MiniLock.Inner) :=
  (lock task).over (queueClient task) (queue_uses task) MiniLock.miniLock

section mutex
variable [Fintype P]

theorem mutex_live (task : P → Option Nat) (frames : Option P ↪ MiniLock.Addr) :
    (mutex task).Live := by
  refine over_live (queue_uses task) (lock_live task) (MiniLock.miniLock_live frames) ?_ ?_
  · intro x p hx hw
    obtain ⟨b, hpc⟩ : ∃ b, x.1.pc p = .unlockQueue b := by
      cases hpc : x.1.pc p <;> simp_all [queueClient, Pc.wish]
    exact InUse.toAccounted hx |>.locked (by rw [hpc]; rfl)
  · intro x p hx hlock
    replace hx : InUse task x := hx
    have hin : (x.1.pc p).inSection = true := (hx.fits p).inside.mpr hlock
    by_cases hrelease : ∃ b, x.1.pc p = .unlockQueue b
    · obtain ⟨b, hpc⟩ := hrelease
      exact .inl (by simp [queueClient, hpc, Pc.wish])
    · obtain ⟨t, ht⟩ := section_goes_on hx.toWellFormed hin
      have hnext : nextAct (callOf (task p)) x p = some .next := by
        unfold nextAct
        split <;> simp_all [Pc.inSection]
      have huse : use task x (p, .inner ()) = some (t, noteCalls x.1 (p, .next) x.2) := by
        simp [use, hnext, recorded, ht]
      refine .inr ⟨?_, (), _, huse, use_changes hx huse⟩
      cases hpc : x.1.pc p <;> simp_all [queueClient, Pc.wish, Pc.inSection]

def mutexSpends (task : P → Option Nat) : (mutex task).Spends :=
  overSpends (queue_uses task) (lockCosts task).spends MiniLock.miniLockCosts.spends

end mutex

structure AtRest (x : (State P × Calls P) × MiniLock.State P) : Prop where
  out : ∀ p, x.1.1.pc p = .idle ∧ x.1.1.node p = none
  unlocked : locked x.1.1.word = false
  queue : x.1.1.queue = []
  head : x.2.head = 0

structure AllRun {V : Type*} (v : V) (jobs : P → List (Section V))
    (x : Jobs P V × (State P × Calls P) × MiniLock.State P) : Prop extends AtRest x.2 where
  value : x.1.shared.value = replay v x.1.shared.log
  order : ∀ p, (x.1.shared.log.filter (·.1 = p)).map Prod.snd = jobs p

theorem mutex_at_rest {task : P → Option Nat} {x : (State P × Calls P) × MiniLock.State P}
    (hx : (mutex task).Good x) (hidle : ∀ p, (mutex task).phase x p = .idle) : AtRest x := by
  have hin : InUse task x.1 := hx.good
  have hout : ∀ p, x.1.1.pc p = .idle ∧ x.1.1.node p = none := by
    intro p
    have hphase : phaseOf x.1 p = .idle := (behind_idle (hidle p)).1
    have hout := phase_out (.inl hphase)
    rwa [if_pos hphase] at hout
  have hmini : ∀ p, (x.2.pc p).phase = .idle := by
    intro p
    have hphase := hx.out (queue_uses task) (.inl (behind_idle (hidle p)).1) (behind_idle (hidle p)).2
    refine hphase.resolve_right fun hworking => ?_
    have hlock : x.1.1.qlock = some p := (hx.agrees.lock p).mpr (by rw [hworking]; rfl)
    have hsection := (hin.fits p).inside.mpr hlock
    simp [(hout p).1, Pc.inSection] at hsection
  obtain ⟨⟨q, hq⟩, halert⟩ := hx.agrees.good
  refine ⟨hout, hin.unlocked fun p => by simp [(hout p).1, Pc.owns], ?_, hq.head_zero halert hmini⟩
  refine List.eq_nil_iff_forall_not_mem.mpr fun e he => ?_
  have hlinked := hin.linked e he
  simp [(hout e.owner).2] at hlinked

theorem sections_end {V : Type*} [Fintype P] (task : P → Option Nat)
    (frames : Option P ↪ MiniLock.Addr) (v : V) (jobs : P → List (Section V)) :
    ∃ n, Ends (Jobs.client.over (mutex task)) (Jobs.start v jobs, (mutex task).start) n
      (AllRun v jobs) := by
  have hends := jobs_end (mutex_live task frames) (mutexSpends task) v jobs
  refine ⟨_, hends.bound, fun x hr hstuck => ?_⟩
  obtain ⟨⟨hvalue, horder⟩, hgood, hidle⟩ := hends.final x hr hstuck
  exact ⟨mutex_at_rest hgood hidle, hvalue, horder⟩

/-- Threads and tasks in any number and mixture, each with its critical sections under one `Mutex`
that keeps its queue under a `MiniLock`: in whatever order the single steps of both locks come,
there are boundedly many that change anything, and when none is left all sections were run, one
after the other, each party's in its order, both locks are free and the queue is empty. So `k`
parties that increment `j` times each leave `j * k`. A task is polled again only when its waker was
called, and drops the future before it uses the guard. -/
theorem mutex_lots_and_lots [Fintype P] (task : P → Option Nat) (frames : Option P ↪ MiniLock.Addr) :
    (∀ (V : Type) (v : V) (jobs : P → List (Section V)),
      ∃ n, Ends (Jobs.client.over (mutex task)) (Jobs.start v jobs, (mutex task).start) n
        (AllRun v jobs)) ∧
    ∀ j, ∃ n, Ends (Jobs.client.over (mutex task))
      (Jobs.start 0 fun _ : P => List.replicate j increment, (mutex task).start) n fun x =>
        x.1.shared.value = j * Fintype.card P ∧ locked x.2.1.1.word = false ∧ x.2.2.head = 0 := by
  refine ⟨fun V v jobs => sections_end task frames v jobs, fun j => ?_⟩
  obtain ⟨n, hends⟩ := sections_end task frames (0 : Nat) fun _ => List.replicate j increment
  refine ⟨n, hends.bound, fun x hr hstuck => ?_⟩
  have hall := hends.final x hr hstuck
  exact ⟨hall.value.trans (replay_all hall.order), hall.unlocked, hall.head⟩

theorem mutex_lots_and_lots_both : ∃ ls x, run (Jobs.client.over (mutex both))
    (Jobs.start 0 fun _ : Bool => List.replicate 3 increment, (mutex both).start) ls = some x ∧
      x.1.shared.value = 6 ∧ x.2.2.head = 0 := by
  obtain ⟨n, hends⟩ := (mutex_lots_and_lots both MiniLock.twoFrames).2 3
  obtain ⟨ls, x, hr, hvalue, -, hhead⟩ := hends.reaches [] _ trivial rfl
  exact ⟨ls, x, hr, hvalue, hhead⟩

end Colock.RawMutex
