import Colock.Lib.SleepingLock
import Colock.MiniLock.Impl

/-! Threads that wait for a `MiniLock` sleep in `park`, and the `unlock` that wakes one of them calls
`unpark` after it has stored the flag. -/
namespace Colock
open Transition LockImpl ThreadPark

def Waker.thread? {P : Type*} (w : Waker P) : Option P :=
  match w.inner with
  | .thread p => some p
  | .task _ => none

namespace MiniLock
variable {T : Type*}

/-- The thread is in `Parker::park`, which reads this flag. -/
def State.parks (s : State T) (t : T) : Option Bool :=
  match s.pc t with
  | .park _ p => s.parker p
  | _ => none

/-- The step is the store to `should_wakeup` in `Waker::wake`. -/
def State.rings (s : State T) : T × Cmd Inner → Option T
  | (t, .inner .step) =>
    match s.pc t with
    | .wake _ w => w.thread?
    | _ => none
  | _ => none

theorem parks_eq {s : State T} {t : T} {b : Bool} (h : s.parks t = some b) :
    ∃ a p, s.pc t = .park a p ∧ s.parker p = some b := by
  cases hpc : s.pc t with
  | park a p => exact ⟨a, p, rfl, by simpa [State.parks, hpc] using h⟩
  | _ => simp [State.parks, hpc] at h

theorem rings_eq {s : State T} {t : T} {c : Cmd Inner} (h : s.rings (t, c) ≠ none) :
    c = .inner .step ∧ ∃ a w, s.pc t = .wake a w := by
  cases c with
  | call | release => exact absurd rfl h
  | inner k =>
    cases k with
    | newParker p => exact absurd rfl h
    | newNode a => exact absurd rfl h
    | step =>
      cases hpc : s.pc t with
      | wake a w => exact ⟨rfl, a, w, rfl⟩
      | _ => simp [State.rings, hpc] at h

theorem act_of_step {c : Cmd Inner} (h : cmdAct c = .step) : c = .inner .step := by
  cases c with
  | call | release => cases h
  | inner k => cases k <;> first | rfl | cases h

variable [DecidableEq T]

theorem Inv.parks_others {s s' : State T} {q : Waiters} (h : Inv s q) {t u : T} {c : Cmd Inner}
    (hs : step s (t, cmdAct c) = some s') (hut : u ≠ t) :
    s'.parks u = s.parks u ∨
      s.rings (t, c) = some u ∧ s.parks u = some false ∧ s'.parks u = some true := by
  have hsame : s'.pc u = s.pc u := by rw [step_pc hs, Function.update_of_ne hut]
  cases hu : s.pc u with
  | park a p =>
    have hparks : s.parks u = s.parker p := by simp [State.parks, hu]
    have hparks' : s'.parks u = s'.parker p := by simp [State.parks, hsame, hu]
    have hmine : (s.pc u).parker? = some p := by rw [hu]; rfl
    have hlive := (h.place u).parker_live hmine
    have hforeign : ∀ b, (s.pc t).parker? = some b ∨ s.parker b = none → p ≠ b := by
      rintro b (hb | hb) rfl
      · exact hut (h.parkers u t p hmine hb)
      · simp [hb] at hlive
    rw [hparks, hparks']
    clear hparks hparks' hsame
    generalize hk : cmdAct c = k at hs
    cases step_cases hs with
    | newParker b hpc hfree => exact .inl (by simp [State.goto, hforeign b (.inr hfree)])
    | preparePark b hpc | dropFrame a b locked hpc =>
      exact .inl (by simp [State.goto, hforeign b (.inl (by rw [hpc]; rfl))])
    | wake a w b hpc hw hlive =>
      by_cases hpb : p = b
      · subst b
        have hplace := h.place t
        rw [hpc] at hplace
        obtain ⟨hpopped, v, r, hv, rfl⟩ := hplace
        obtain rfl : r = p := by simpa [wakerOf] using hw
        obtain rfl : u = v := h.parkers u v r hmine (by rw [hv]; rfl)
        refine .inr ⟨by rw [act_of_step hk]; simp [State.rings, hpc, wakerOf, Waker.thread?], ?_,
          by simp [State.goto]⟩
        obtain ⟨v, e, hv', hdown⟩ := h.foreignParker (t := t) (p := r) (by rw [hpc]; rfl)
        exact hdown
      · exact .inl (by simp [State.goto, hpb])
    | _ => exact .inl rfl
  | _ => exact .inl (by simp [State.parks, hsame, hu])

theorem miniLock_rests : (miniLock : Impl T _ _).Rests := by
  rintro s t k s' - hphase hs
  replace hs : step s (t, k.act) = some s' := hs
  replace hphase : (s.pc t).phase = .idle ∨ (s.pc t).phase = .working := hphase
  have hout : s.pc t = .out ∨ s.pc t = .held := by
    cases hpc : s.pc t with
    | dropFrame a p locked => cases locked <;> simp [hpc, Pc.phase] at hphase
    | _ => simp_all [Pc.phase]
  rcases hout with hpc | hpc <;> cases k <;> simp [Inner.act, step, next, hpc] at hs

def miniLockWaits : (miniLock : Impl T _ _).Waits where
  Good := (miniLock : Impl T _ _).Good
  waits := State.parks
  rings := State.rings
  keeps := miniLock.good_step
  down := by
    rintro s t c s' - hparks hs
    obtain ⟨a, p, hpc, hp⟩ := parks_eq hparks
    replace hs : step s (t, cmdAct c) = some s' := hs
    cases c with
    | call | release => simp [cmdAct, step, hpc] at hs
    | inner k => cases k <;> simp [cmdAct, Inner.act, step, next, hpc, hp] at hs; exact hs.symm
  others := by
    rintro s t u c s' ⟨⟨q, hq⟩, -⟩ hs hut
    exact hq.parks_others hs hut
  moves := by
    rintro s ⟨t, c⟩ s' ⟨⟨q, hq⟩, -⟩ hs hrings rfl
    obtain ⟨-, a, w, hpc⟩ := rings_eq hrings
    rcases step_changes (k := cmdAct c) hs rfl with hfault | ⟨b, p, hpark, -⟩
    · simp [hpc] at hfault
    · simp [hpc] at hpark
  rests := miniLock_rests

end MiniLock

end Colock
