import Colock.Lib.Jobs
import Colock.MiniLock.Ending

/-! Threads that use `MiniLock` to run their critical sections all come to an end, under every
scheduler; `do_lots_and_lots` is the case of `k` threads that increment `j` times each. -/
namespace Colock.MiniLock
open Transition LockImpl Serial
variable {T : Type*} [DecidableEq T]

omit [DecidableEq T] in
theorem Settled.head_zero {s : State T} {q : Waiters} (h : Settled s q) (halert : s.Alert)
    (hidle : ∀ t, (s.pc t).phase = .idle) : s.head = 0 := by
  have hfree : getFlag s.head = false := by
    by_contra hf
    obtain ⟨t, ht⟩ := h.flag.mp (by simpa using hf)
    have howns := owns_phase (c := s.pc t)
    rw [hidle t, ht] at howns
    cases howns
  refine word_ext ?_ (by rw [hfree]; rfl)
  by_contra hne
  obtain ⟨t, ht⟩ := halert hfree (by simpa using hne)
  have hphase := hidle t
  rcases ht with hwakes | ⟨a, p, hpc, -⟩ | ⟨-, hcontends⟩
  · cases hpc : s.pc t with
    | wake a w => simp [hpc, Pc.phase] at hphase
    | _ => simp [hpc, Pc.wakes] at hwakes
  · simp [hpc, Pc.phase] at hphase
  · cases hpc : s.pc t with
    | dropFrame a p locked => cases locked <;> simp [hpc, Pc.phase] at hphase
    | out => simp [hpc, Pc.contends] at hcontends
    | _ => simp [hpc, Pc.phase] at hphase

structure AllRun {V : Type*} (v : V) (jobs : T → List (Section V)) (x : Jobs T V × State T) :
    Prop where
  value : x.1.shared.value = replay v x.1.shared.log
  order : ∀ t, (x.1.shared.log.filter (·.1 = t)).map Prod.snd = jobs t
  head : x.2.head = 0
  out : ∀ t, (x.2.pc t).phase = .idle

theorem sections_end {V : Type*} [Fintype T] (frames : Option T ↪ Addr) (v : V)
    (jobs : T → List (Section V)) :
    ∃ n, Ends (Jobs.client.over miniLock) (Jobs.start v jobs, init) n (AllRun v jobs) := by
  have hends := jobs_end (miniLock_live frames) miniLockCosts.spends v jobs
  refine ⟨_, hends.bound, fun x hr hstuck => ?_⟩
  obtain ⟨⟨hvalue, horder⟩, ⟨⟨q, hq⟩, halert⟩, hidle⟩ := hends.final x hr hstuck
  exact ⟨hvalue, horder, hq.head_zero halert hidle, hidle⟩

/-- However the threads of a finite set are scheduled, their critical sections under a `MiniLock`
end after boundedly many steps that change anything, and then all of them were run, one after the
other, each thread's in its order, with the lock free and no thread in a call. So `k` threads that
increment `j` times each leave `j * k`. -/
theorem lots_and_lots [Fintype T] (frames : Option T ↪ Addr) :
    (∀ (V : Type) (v : V) (jobs : T → List (Section V)),
      ∃ n, Ends (Jobs.client.over miniLock) (Jobs.start v jobs, init) n (AllRun v jobs)) ∧
    ∀ j, ∃ n, Ends (Jobs.client.over miniLock)
      (Jobs.start 0 fun _ : T => List.replicate j increment, init) n fun x =>
        x.1.shared.value = j * Fintype.card T ∧ x.2.head = 0 := by
  refine ⟨fun V v jobs => sections_end frames v jobs, fun j => ?_⟩
  obtain ⟨n, hends⟩ := sections_end frames (0 : Nat) fun _ => List.replicate j increment
  refine ⟨n, hends.bound, fun x hr hstuck => ?_⟩
  have hall := hends.final x hr hstuck
  exact ⟨hall.value.trans (replay_all hall.order), hall.head⟩

def twoFrames : Option Bool ↪ Addr where
  toFun
    | none => ⟨64, by decide⟩
    | some false => ⟨128, by decide⟩
    | some true => ⟨192, by decide⟩
  inj' := by decide

theorem lots_and_lots_two : ∃ ls x, run (Jobs.client.over miniLock)
    (Jobs.start 0 fun _ : Bool => List.replicate 3 increment, init) ls = some x ∧
      x.1.shared.value = 6 ∧ x.2.head = 0 := by
  obtain ⟨n, hends⟩ := (lots_and_lots twoFrames).2 3
  obtain ⟨ls, x, hr, hvalue, hhead⟩ := hends.reaches [] _ trivial rfl
  exact ⟨ls, x, hr, hvalue, hhead⟩

end Colock.MiniLock
