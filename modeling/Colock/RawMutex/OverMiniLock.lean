import Colock.MiniLock.Impl
import Colock.RawMutex.Steps

/-! `RawMutex` with the `MiniLock` of its queue. The machine of the mutex takes and gives the lock
of the queue in one step; with the code of `MiniLock` in the place of these steps it does nothing
else. -/
namespace Colock.RawMutex
open Transition LockImpl
variable {P : Type*} [DecidableEq P]

def Pc.wish : Pc P → Wish
  | .lockPush _ | .lockDrop _ | .lockPop _ => .acquire
  | .unlockQueue _ => .release
  | _ => .nothing

omit [DecidableEq P] in
theorem wish_acquire {c : Pc P} (h : c.wish = .acquire) :
    (∃ call, c = .lockPush call) ∨ (∃ k, c = .lockDrop k) ∨ ∃ r, c = .lockPop r := by
  cases c <;> simp_all [Pc.wish]

def rawMutex : Client P (State P) Act where
  step := step
  lock := State.qlock
  wish s p := (s.pc p).wish
  sync := .next
  nothing := by
    intro s p a t hw hs
    cases step_cases hs with
    | lockPush c hpc | lockDrop k hpc | lockPop r hpc | unlockQueue b hpc =>
      simp [hpc, Pc.wish] at hw
    | _ => simp
  acquire := by
    intro s p hw hlock
    rcases wish_acquire hw with ⟨c, hpc⟩ | ⟨k, hpc⟩ | ⟨r, hpc⟩
    all_goals exact ⟨_, by simp only [step, hpc, atomic, queueStep, State.acquire, hlock]; rfl, rfl⟩
  release := by
    intro s p hw hlock
    obtain ⟨b, hpc⟩ : ∃ b, s.pc p = .unlockQueue b := by
      cases hpc : s.pc p <;> simp_all [Pc.wish]
    exact ⟨s.release p b, by simp [step, hpc, atomic, queueStep], by simp⟩
  others := by
    intro s p q a t hs hpq
    rw [step_others hs hpq]

/-- In every run of the mutex over `MiniLock` what the mutex does is a run of its own, with the
same steps in the same order, and meets whatever its steps were to meet; a party is inside a
section of the queue just while it has the `MiniLock`, and the mutex never keeps `MiniLock` from
a step. -/
theorem over_miniLock (ok : State P → P × Act → Prop) (x : State P × MiniLock.State P)
    (h : Reach (rawMutex.over MiniLock.miniLock) (lift rawMutex ok) (init, MiniLock.init) x) :
    Reach step ok init x.1 ∧
    (∀ p, x.1.qlock = some p ↔ (x.2.pc p).phase.has = true) ∧
    ∀ p k m, MiniLock.step x.2 (p, MiniLock.Inner.act k) = some m →
      ∃ s, rawMutex.over MiniLock.miniLock x (p, .lock (.inner k)) = some (s, m) := by
  obtain ⟨hagrees, hreach⟩ := over_simulates (C := rawMutex) (L := MiniLock.miniLock) rfl h
  exact ⟨hreach, hagrees.lock, fun p k m hm => hagrees.unblocked hm⟩

def queueInside (p q : P) : List (P × Label Act MiniLock.Inner) :=
  [(p, .client (.start (.lockInner false))), (p, .client .next),
    (q, .client (.start (.lockInner false))), (q, .client .next), (q, .client .next),
    (q, .lock .call), (q, .lock (.inner .step))]

theorem over_miniLock_queue : ∃ x : State (Fin 2) × MiniLock.State (Fin 2),
    x.1.pc 1 = .loadState (.lockInner false) ∧ Reach step anyStep init x.1 ∧
      (x.1.qlock = some 1 ↔ (x.2.pc 1).phase.has = true) := by
  have hr : ((run (rawMutex.over MiniLock.miniLock) (init, MiniLock.init)
      (queueInside (0 : Fin 2) 1)).map fun x =>
      x.1.pc 1) = some (.loadState (.lockInner false)) := by decide
  obtain ⟨x, hx, ho⟩ := Option.map_eq_some_iff.mp hr
  have hreach : Reach (rawMutex.over MiniLock.miniLock) (lift rawMutex anyStep)
      (init, MiniLock.init) x := run_reach (meets_any _ _) hx
  obtain ⟨hown, hlock, -⟩ := over_miniLock anyStep x hreach
  exact ⟨x, ho, hown, hlock 1⟩

end Colock.RawMutex
