import Colock.Barrier.Model
import Colock.MiniLock.Impl

/-! `Barrier` with the `MiniLock` of its list. A leader keeps that lock while it wakes everybody,
so threads that were woken early come back to a lock that is still taken. -/
namespace Colock.Barrier
open Transition LockImpl
variable {P : Type*} [DecidableEq P]

def Pc.wish : Pc P → Wish
  | .lockList _ | .lockDrop _ => .acquire
  | .unlockList _ _ | .unlockDrop _ => .release
  | _ => .nothing

omit [DecidableEq P] in
theorem wish_acquire {c : Pc P} (h : c.wish = .acquire) :
    (∃ call, c = .lockList call) ∨ ∃ k, c = .lockDrop k := by
  cases c <;> simp_all [Pc.wish]

omit [DecidableEq P] in
theorem wish_release {c : Pc P} (h : c.wish = .release) :
    (∃ call b, c = .unlockList call b) ∨ ∃ k, c = .unlockDrop k := by
  cases c <;> simp_all [Pc.wish]

def barrier (target : Nat) : Client P (State P) Act where
  step := step target
  lock := State.lock
  wish s p := (s.pc p).wish
  sync := .next
  nothing := by
    intro s p a t hw hs
    cases step_cases hs with
    | lockList c hpc | lockDrop k hpc | unlockList c b hpc | unlockDrop k hpc =>
      simp [hpc, Pc.wish] at hw
    | _ => simp
  acquire := by
    intro s p hw hlock
    rcases wish_acquire hw with ⟨c, hpc⟩ | ⟨k, hpc⟩
    all_goals exact ⟨_, by simp only [step, next, hpc, State.acquire, hlock]; rfl, rfl⟩
  release := by
    intro s p hw hlock
    rcases wish_release hw with ⟨c, b, hpc⟩ | ⟨k, hpc⟩
    · exact ⟨s.release p c b, by simp [step, next, hpc], by cases c <;> rfl⟩
    · exact ⟨{ s with lock := none }.finish p k, by simp [step, next, hpc], by simp⟩
  others := by
    intro s p q a t hs hpq
    rw [(step_others hs hpq).1]

/-- In every run of a barrier over `MiniLock` what the barrier does is a run of its own, with the
same steps in the same order, and meets whatever its steps were to meet; a party is inside a
section of the list just while it has the `MiniLock`, and the barrier never keeps `MiniLock` from
a step. -/
theorem barrier_over_miniLock (target : Nat) (ok : State P → P × Act → Prop)
    (x : State P × MiniLock.State P)
    (h : Reach ((barrier target).over MiniLock.miniLock) (lift (barrier target) ok)
      (init, MiniLock.init) x) :
    Reach (step target) ok init x.1 ∧
    (∀ p, x.1.lock = some p ↔ (x.2.pc p).phase.has = true) ∧
    ∀ p k m, MiniLock.step x.2 (p, MiniLock.Inner.act k) = some m →
      ∃ s, (barrier target).over MiniLock.miniLock x (p, .lock (.inner k)) = some (s, m) := by
  obtain ⟨hagrees, hreach⟩ := over_simulates (C := barrier target) (L := MiniLock.miniLock) rfl h
  exact ⟨hreach, hagrees.lock, fun p k m hm => hagrees.unblocked hm⟩

def countsInside (p q : P) : List (P × Label Act MiniLock.Inner) :=
  [(p, .client .wait), (p, .client .next), (p, .lock .call), (p, .lock (.inner .step)),
    (q, .client .wait), (q, .client .next), (q, .lock .call), (q, .lock (.inner .step))]

theorem barrier_over_miniLock_count : ∃ x : State (Fin 2) × MiniLock.State (Fin 2),
    x.1.pc 0 = .count .wait ∧ x.1.pc 1 = .lockList .wait ∧ Reach (step 2) anyStep init x.1 ∧
      (x.1.lock = some 0 ↔ (x.2.pc 0).phase.has = true) := by
  have hr : ((run ((barrier 2).over MiniLock.miniLock) (init, MiniLock.init)
      (countsInside (0 : Fin 2) 1)).map fun x => (x.1.pc 0, x.1.pc 1)) =
        some (.count .wait, .lockList .wait) := by decide
  obtain ⟨x, hx, ho⟩ := Option.map_eq_some_iff.mp hr
  simp only [Prod.mk.injEq] at ho
  have hreach : Reach ((barrier 2).over MiniLock.miniLock) (lift (barrier 2) anyStep)
      (init, MiniLock.init) x := run_reach (meets_any _ _) hx
  obtain ⟨hown, hlock, -⟩ := barrier_over_miniLock 2 anyStep x hreach
  exact ⟨x, ho.1, ho.2, hown, hlock 0⟩

end Colock.Barrier
