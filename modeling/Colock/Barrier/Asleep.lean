import Colock.Barrier.Stress
import Colock.MiniLock.Asleep

/-! The rounds of a barrier with threads that sleep, in `wait` and before the lock of the list. A
leader wakes one party after the other, so a thread may come back and sleep again while the leader
has yet to call `unpark` on others. -/
namespace Colock.Barrier
open Transition LockImpl ThreadPark
variable {P : Type*}

def Rounds.parks (x : Rounds P) (p : P) : Option Bool :=
  match x.barrier.pc p with
  | .park => (x.barrier.parker p).map x.barrier.flag
  | _ => none

def Rounds.rings (x : Rounds P) : P × Unit → Option P
  | (p, ()) =>
    match x.barrier.pc p with
    | .wake _ e => e.data.thread?
    | _ => none

structure OwnWakers (task : P → Option Nat) (s : State P) : Prop where
  queued : ∀ e ∈ s.queue, e.data = (callOf (task e.owner)).waker e.owner e.id
  held : ∀ q, ∀ e ∈ (s.pc q).carries, e.data = (callOf (task e.owner)).waker e.owner e.id

theorem parks_eq {x : Rounds P} {p : P} {b : Bool} (h : x.parks p = some b) :
    ∃ i, x.barrier.pc p = .park ∧ x.barrier.parker p = some i ∧ x.barrier.flag i = b := by
  cases hpc : x.barrier.pc p with
  | park =>
    simp only [Rounds.parks, hpc, Option.map_eq_some_iff] at h
    obtain ⟨i, hi, hb⟩ := h
    exact ⟨i, rfl, hi, hb⟩
  | _ => simp [Rounds.parks, hpc] at h

variable [DecidableEq P]

section step
variable {task : P → Option Nat}

theorem OwnWakers.move {s t : State P} {p : P} (hs : OwnWakers task s)
    (hqueue : ∀ e ∈ t.queue, e ∈ s.queue) (hpc : ∀ q, q ≠ p → t.pc q = s.pc q)
    (hheld : ∀ e ∈ (t.pc p).carries, e ∈ s.queue) : OwnWakers task t where
  queued e he := hs.queued e (hqueue e he)
  held q e he := by
    by_cases hq : q = p
    · exact hs.queued e (hheld e (hq ▸ he))
    · exact hs.held q e (by rwa [hpc q hq] at he)

theorem OwnWakers.step {target : Nat} {s t : State P} {p : P} {a : Act} (hs : OwnWakers task s)
    (hf : Fits (callOf (task p)) s p) (h : Barrier.step target s (p, a) = some t) :
    OwnWakers task t := by
  have hpc : ∀ q, q ≠ p → t.pc q = s.pc q := fun q hq => (step_others h hq).1
  have hof := hf.isOf
  cases step_cases h with
  | pushHead c i hc hnode =>
    refine ⟨fun e he => ?_, fun q e he => ?_⟩
    · rcases List.mem_cons.mp he with rfl | he
      · rw [hc] at hof
        rw [show callOf (task p) = c by simpa [Pc.isOf] using hof]
      · exact hs.queued e he
    · by_cases hq : q = p
      · simp [hq, Pc.carries] at he
      · exact hs.held q e (by rwa [hpc q hq] at he)
  | popHead c e queue hc hq =>
    refine hs.move (p := p) (fun d hd => ?_) hpc fun d hd => ?_
    · exact hq ▸ List.mem_cons_of_mem _ hd
    · obtain rfl : e = d := by simpa [Pc.carries] using hd
      simp [hq]
  | removeNode k =>
    exact hs.move (p := p) (fun d hd => List.mem_of_mem_filter hd) hpc (by simp [Pc.carries])
  | unlockList c b =>
    refine hs.move (p := p) (fun d hd => ?_) hpc fun d hd => ?_
    · cases c <;> exact hd
    · cases c <;> cases b <;> simp [State.release, Pc.carries] at hd
  | dropOff k | unlockDrop k =>
    refine hs.move (p := p) (fun d hd => by simpa using hd) hpc fun d hd => ?_
    cases k <;> simp [State.finish, Pc.carries] at hd
  | _ => exact hs.move (p := p) (fun d hd => by simpa using hd) hpc (by simp [Pc.carries])

theorem Rounds.parks_others {target rounds : Nat} {x y : Rounds P} {p q : P} {u : Unit}
    (hx : WellFormed x.barrier) (hf : Fits (callOf (task q)) x.barrier q)
    (hown : OwnWakers task x.barrier) (h : x.step target rounds task (p, u) = some y) (hq : q ≠ p) :
    y.parks q = x.parks q ∨
      x.rings (p, u) = some q ∧ x.parks q = some false ∧ y.parks q = some true := by
  obtain ⟨a, -, hs, -⟩ := rounds_step_eq h
  obtain ⟨hpc, hparker⟩ := step_others hs hq
  cases hpark : x.barrier.pc q with
  | park =>
    obtain ⟨i, hi, -⟩ := hf.asleep (by rw [hpark]; rfl)
    have hbefore : x.parks q = some (x.barrier.flag i) := by simp [Rounds.parks, hpark, hi]
    have hafter : y.parks q = some (y.barrier.flag i) := by
      simp [Rounds.parks, hpc, hpark, hparker, hi]
    rw [hbefore, hafter]
    rcases step_flag (hx.parker_lt q i hi) hs with hsame | ⟨hup, c, e, hwake, howner⟩
    · exact .inl (by rw [hsame])
    · cases hold : x.barrier.flag i with
      | true => exact .inl (by rw [hup])
      | false =>
        refine .inr ⟨?_, rfl, by rw [hup]⟩
        obtain rfl : e.owner = q := hx.parker_inj _ _ _ howner hi
        have hdata := hown.held p e (by rw [hwake]; rfl)
        have hof := hf.isOf
        rw [hpark] at hof
        rw [show callOf (task e.owner) = .wait by simpa [Pc.isOf] using hof] at hdata
        simp [Rounds.rings, hwake, hdata, Call.waker, Waker.thread?]
  | _ => exact .inl (by simp [Rounds.parks, hpc, hpark])

end step

section rounds
variable [Fintype P]

def roundsWaits (rounds : Nat) (task : P → Option Nat) :
    (roundsClient (Fintype.card P) rounds task).Waits where
  Good x := InRound rounds task x ∧ OwnWakers task x.barrier
  waits := Rounds.parks
  rings := Rounds.rings
  keeps := by
    rintro x ⟨p, u⟩ y ⟨hx, hown⟩ h
    obtain ⟨a, -, hs, -⟩ := rounds_step_eq (u := u) h
    exact ⟨hx.step (u := u) h, hown.step (hx.fits p) hs⟩
  down := by
    rintro x p u y - hparks h
    obtain ⟨i, hpc, hi, hflag⟩ := parks_eq hparks
    obtain ⟨a, hdoes, hs, -⟩ := rounds_step_eq (u := u) h
    generalize y.begun = begun at hdoes
    cases hdoes with
    | begins hout | polls hout | drops hout => simp [hpc] at hout
    | next => simp [Barrier.step, next, hpc, hi, hflag] at hs
  others := by
    rintro x p q u y ⟨hx, hown⟩ h hq
    exact Rounds.parks_others hx.kept.toWellFormed (hx.fits q) hown h hq
  moves := by
    rintro x ⟨p, u⟩ y - h -
    exact rounds_changes (u := u) (Fintype.card_pos_iff.mpr ⟨p⟩).ne' h
  apart := by
    intro x p hparks
    obtain ⟨b, hb⟩ := Option.ne_none_iff_exists'.mp hparks
    obtain ⟨i, hpc, -⟩ := parks_eq hb
    change (x.barrier.pc p).wish = .nothing
    rw [hpc]
    rfl
  silent := by
    intro x p hwish
    replace hwish : (x.barrier.pc p).wish ≠ .nothing := hwish
    cases hpc : x.barrier.pc p <;> simp_all [Pc.wish, Rounds.rings]

def roundsFlags (rounds : Nat) (task : P → Option Nat) :
    Flags ((roundsClient (Fintype.card P) rounds task).over MiniLock.miniLock) :=
  overFlags (roundsWaits rounds task) MiniLock.miniLockWaits

/-- `stress_test_barrier` with threads that sleep in `std::thread::park`, in `wait` and before the
lock of the list, with one token each. Whatever tokens are left over at the start, and however often
`park` returns without a reason or other code calls `unpark`, there are boundedly many steps, each
such return brings three of them at the most, and when none is left everybody has been through all
rounds and no thread is asleep. Tasks, if there are any, are polled again only once their
`should_wakeup` is stored. -/
theorem stress_barrier_asleep (rounds : Nat) (task : P → Option Nat)
    (frames : Option P ↪ MiniLock.Addr) :
    ∃ n, ∀ token stray, Ends (roundsFlags rounds task).step
      (ThreadPark.start (Rounds.start, MiniLock.init) token stray) (n + 3 * stray)
      fun x => AllPassed rounds x.base ∧ ∀ p, x.mode p = .awake := by
  obtain ⟨m, hends⟩ := rounds_end rounds task frames
  have hgood : (roundsFlags rounds task).Good (Rounds.start, MiniLock.init) :=
    ⟨agrees_start rfl, ⟨inRound_start rounds task, ⟨by simp [Rounds.start, init],
      by simp [Rounds.start, init, Pc.carries]⟩⟩, MiniLock.miniLock.good_start⟩
  have hup : ∀ x : Rounds P × MiniLock.State P, (InRound rounds task x.1 ∧
      ∀ p, x.1.Finished rounds p) ∧ (MiniLock.miniLock : Impl P _ _).Good x.2 ∧
      (∀ p, (MiniLock.miniLock : Impl P _ _).phase x.2 p = .idle) →
      ∀ p, (roundsFlags rounds task).waits x p = none := by
    rintro x ⟨⟨-, hfinished⟩, -, hidle⟩ p
    refine (if_pos (.inl (hidle p))).trans ?_
    simp [roundsWaits, Rounds.parks, (hfinished p).1]
  obtain ⟨n, hasleep⟩ := ends_awake hends hgood hup
  refine ⟨n, fun token stray => ⟨(hasleep token stray).bound, fun x hr hstuck => ?_⟩⟩
  obtain ⟨⟨⟨hx, hfinished⟩, hmini, hidle⟩, hawake⟩ := (hasleep token stray).final x hr hstuck
  exact ⟨(hx.all_passed hfinished hmini hidle).1, hawake⟩

end rounds

theorem stress_barrier_asleep_both : ∃ ls x, run (roundsFlags 3 both).step
    (ThreadPark.start (Rounds.start, MiniLock.init) (fun _ => true) 5) ls = some x ∧
      x.base.1.ledger.leaders.length = 3 ∧ ∀ p, x.mode p = .awake := by
  obtain ⟨n, hends⟩ := stress_barrier_asleep 3 both MiniLock.twoFrames
  obtain ⟨ls, x, hr, hpassed, hawake⟩ := (hends (fun _ => true) 5).reaches [] _ trivial rfl
  exact ⟨ls, x, hr, hpassed.leaders ⟨true⟩, hawake⟩

end Colock.Barrier
