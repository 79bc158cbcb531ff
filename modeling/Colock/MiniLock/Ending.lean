import Colock.MiniLock.Impl

/-! What a call of `MiniLock` may cost. Every `compare_exchange` that succeeds is paid for by the
call it belongs to, and a wake-up by the `unlock` that makes it, with the next try of the thread
that it wakes; a `compare_exchange` that fails was disturbed by one that succeeded. -/
namespace Colock.MiniLock
open Transition LockImpl
variable {T : Type*}

/-- What the thread may still spend before it is out of its calls, or asleep. -/
def State.share (s : State T) (t : T) : Nat :=
  match s.pc t with
  | .out | .unpark | .fault => 0
  | .park _ p => if s.parker p = some true then 6 else 5
  | .held | .assertLocked | .unlock | .pop | .popLoad | .popNext _ | .popHead _ _ _ => 4
  | .dropFrame _ _ locked => if locked then 4 else 6
  | .takeWaker _ | .clear _ _ => 3
  | .wake _ _ => 2
  | _ => 6

/-- The steps that the thread still takes up to its next expense when the head stays as it is. -/
def State.rank (s : State T) (t : T) : Nat :=
  match s.pc t with
  | .lock => 16
  | .spin _ counter => 9 + (maxSpins - counter)
  | .newParker => 8
  | .preparePark _ => 7
  | .newNode _ => 6
  | .assertNext _ _ => 5
  | .pushOrLock _ _ head => if head = s.head then 2 else 4
  | .push _ _ head => if head = s.head then 1 else 3
  | .park _ p => if s.parker p = some true then 18 else 0
  | .dropFrame _ _ locked => if locked then 1 else 17
  | .assertLocked => 6
  | .unlock => 5
  | .takeWaker _ | .unpark => 1
  | c => c.rank s.head

theorem rank_le (s : State T) (t : T) : s.rank t ≤ 18 := by
  unfold State.rank
  cases s.pc t <;> simp only [maxSpins, Pc.rank] <;> (try split) <;> omega

variable [DecidableEq T]

theorem Inv.other_parker {s s' : State T} {q : Waiters} (h : Inv s q) {t u : T} {k : Act}
    (hs : step s (t, k) = some s') (hut : u ≠ t) (hwake : ∀ a w, s.pc t ≠ .wake a w) {p : Nat}
    (hp : (s.pc u).parker? = some p) : s'.parker p = s.parker p := by
  have hlive := (h.place u).parker_live hp
  have own : ∀ p', (s.pc t).parker? = some p' → p ≠ p' := by
    rintro p' ht rfl
    exact hut (h.parkers u t p hp ht)
  cases step_cases hs with
  | newParker p' hpc hfree =>
    have hne : p ≠ p' := by
      rintro rfl
      simp [hfree] at hlive
    simp [State.goto, hne]
  | preparePark p' hpc => simp [State.goto, own p' (by rw [hpc]; rfl)]
  | dropFrame a p' locked hpc => simp [State.goto, own p' (by rw [hpc]; rfl)]
  | wake a w p' hpc => exact absurd hpc (hwake a w)
  | _ => rfl

theorem Inv.share_other {s s' : State T} {q : Waiters} (h : Inv s q) {t u : T} {k : Act}
    (hs : step s (t, k) = some s') (hut : u ≠ t) (hwake : ∀ a w, s.pc t ≠ .wake a w) :
    s'.share u = s.share u := by
  have hpc : s'.pc u = s.pc u := by rw [step_pc hs, Function.update_of_ne hut]
  unfold State.share
  rw [hpc]
  cases hc : s.pc u with
  | park a p => simp only [h.other_parker hs hut hwake (p := p) (by rw [hc]; rfl)]
  | _ => rfl

theorem Inv.rank_other {s s' : State T} {q : Waiters} (h : Inv s q) {t u : T} {k : Act}
    (hs : step s (t, k) = some s') (hut : u ≠ t) (hwake : ∀ a w, s.pc t ≠ .wake a w)
    (hhead : s'.head = s.head) : s'.rank u = s.rank u := by
  have hpc : s'.pc u = s.pc u := by rw [step_pc hs, Function.update_of_ne hut]
  unfold State.rank
  rw [hpc, hhead]
  cases hc : s.pc u with
  | park a p => simp only [h.other_parker hs hut hwake (p := p) (by rw [hc]; rfl)]
  | _ => rfl

theorem Settled.step_pays {s s' : State T} {q : Waiters} (h : Settled s q) {t : T} {k : Inner}
    (hs : step s (t, k.act) = some s') (hne : s' ≠ s) (hwake : ∀ a w, s.pc t ≠ .wake a w) :
    s'.share t < s.share t ∨
      s'.head = s.head ∧ s'.share t ≤ s.share t ∧ s'.rank t < s.rank t := by
  obtain ⟨q', h'⟩ := inv_step h.toInv hs
  have hfault := h'.no_fault t
  have htry := h.noTry t
  cases k with
  | newParker p =>
    cases step_cases hs with
    | newParker _ hpc => exact .inr ⟨rfl, by simp [State.share, hpc], by simp [State.rank, hpc]⟩
  | newNode a =>
    cases step_cases hs with
    | newNode _ p hpc => exact .inr ⟨rfl, by simp [State.share, hpc], by simp [State.rank, hpc]⟩
  | step =>
    cases step_cases hs with
    | faults => simp at hfault
    | tryFailed head hpc | tryTaken head hpc | tryAgain head hpc => simp [hpc, Pc.tries] at htry
    | wake a w p hpc | wakeNone a w hpc => exact absurd hpc (hwake a w)
    | parkAgain => exact absurd rfl hne
    | lockTaken hpc | spinTaken _ _ hpc => exact .inl (by simp [State.share, State.locked, hpc])
    | queuedTaken a p head hpc => exact .inl (by simp [State.share, State.locked, hpc])
    | unlocked hpc | clear a w hpc => exact .inl (by simp [State.share, hpc])
    | popHead a x hpc => exact .inl (by simp [State.share, hpc])
    | push a p hpc =>
      have hplace := h.place t
      rw [hpc] at hplace
      exact .inl (by simp [State.share, State.goto, hpc, hplace.1])
    | lockFailed hpc | preparePark p hpc | assertLocked hpc | contended hpc | pop hpc | popLoad hpc
    | unpark hpc =>
      exact .inr ⟨rfl, by simp [State.share, hpc],
        by simp [State.rank, State.goto, Pc.rank, hpc, maxSpins]⟩
    | popNone hpc =>
      obtain ⟨a, -, -, hptr, -⟩ := h.next_popNext hpc
      exact absurd (hptr.symm.trans getPtr_lockedBit) a.property.1
    | spinAgain head counter hpc hmax =>
      refine .inr ⟨rfl, by simp [State.share, hpc], ?_⟩
      simp only [State.rank, State.goto_pc, hpc, maxSpins] at hmax ⊢
      omega
    | spinEnds head counter hpc hmax =>
      refine .inr ⟨rfl, by simp [State.share, hpc], ?_⟩
      simp only [State.rank, State.goto_pc, hpc]
      omega
    | assertNext a p n hpc =>
      refine .inr ⟨rfl, by simp [State.share, hpc], ?_⟩
      simp only [State.rank, State.goto_pc, hpc]
      split <;> omega
    | setNext a p head n hpc =>
      refine .inr ⟨rfl, by simp [State.share, hpc], ?_⟩
      by_cases hhead : head = s.head <;> simp [State.rank, State.goto, hpc, hhead]
    | queuedFailed a p head hpc hf hhead =>
      refine .inr ⟨rfl, by simp [State.share, hpc], ?_⟩
      simp [State.rank, State.goto, hpc, Ne.symm hhead]
    | pushFailed a p head hpc hhead =>
      refine .inr ⟨rfl, by simp [State.share, hpc], ?_⟩
      simp [State.rank, State.goto, hpc, Ne.symm hhead]
    | parkEnds a p hpc hp =>
      exact .inr ⟨rfl, by simp [State.share, hpc, hp], by simp [State.rank, hpc, hp]⟩
    | dropFrame a p locked hpc =>
      cases locked <;>
        exact .inr ⟨rfl, by simp [State.share, hpc], by simp [State.rank, Pc.rank, hpc]⟩
    | popNext head a n hpc =>
      refine .inr ⟨rfl, by simp [State.share, hpc], ?_⟩
      by_cases hhead : head = s.head <;> simp [State.rank, Pc.rank, State.goto, hpc, hhead]
    | popFailed head a x hpc hhead =>
      refine .inr ⟨rfl, by simp [State.share, hpc], ?_⟩
      simp [State.rank, Pc.rank, State.goto, hpc, Ne.symm hhead]
    | takeWaker a n hpc hn =>
      obtain ⟨m, w, hm, hw, -⟩ := h.takeWaker hpc
      obtain rfl := Option.some.inj (hn.symm.trans hm)
      exact .inr ⟨rfl, by simp [State.share, hpc, hw], by simp [State.rank, Pc.rank, hpc, hw]⟩

theorem Settled.wake_pays [Fintype T] {s s' : State T} {q : Waiters} (h : Settled s q) {t : T}
    {a : Addr} {w : Waker T} (hpc : s.pc t = .wake a w) (hs : next s t = some s') :
    ∑ u, s'.share u < ∑ u, s.share u := by
  obtain ⟨u, p, hu, rfl, hlive, -⟩ := h.wake hpc
  obtain ⟨v, b, hv, hp⟩ := h.foreignParker (t := t) (p := p) (by rw [hpc]; rfl)
  obtain rfl := h.parkers v u p (by rw [hv]; rfl) (by rw [hu]; rfl)
  have hvt : v ≠ t := by
    rintro rfl
    simp [hpc] at hv
  simp only [next, hpc, wakerOf, hlive, if_true, Option.some.injEq] at hs
  have hothers : ∀ x, x ≠ t → x ≠ v → s'.share x = s.share x := by
    intro x hxt hxv
    simp only [← hs, State.share, State.goto, Function.update_of_ne hxt]
    cases hx : s.pc x with
    | park b' p' =>
      have hne : p' ≠ p := by
        rintro rfl
        exact hxv (h.parkers x v p' (by rw [hx]; rfl) (by rw [hu]; rfl))
      simp [hne]
    | _ => rfl
  have hpays : s.share t = 2 ∧ s'.share t = 0 := by simp [← hs, State.share, hpc]
  have hgets : s.share v = 5 ∧ s'.share v = 6 := by simp [← hs, State.share, State.goto, hvt, hu, hp]
  have hsum := sum_update_two (f := s.share) (g := s'.share) hvt hothers
  omega

theorem Settled.call_share [Fintype T] {s s' : State T} {q : Waiters} (h : Settled s q) {t : T}
    {k : Act} (hk : k = .lock ∨ k = .unlock) (hs : step s (t, k) = some s') :
    ∑ u, s'.share u ≤ ∑ u, s.share u + if k = .lock then 6 else 0 := by
  have hwake : ∀ a w, s.pc t ≠ .wake a w := by
    intro a w hpc
    rcases hk with rfl | rfl <;> simp [step, hpc] at hs
  have hsum := sum_update (f := s.share) (g := s'.share) (p := t)
    fun u hu => h.share_other hs hu hwake
  have hown : s'.share t ≤ s.share t + if k = .lock then 6 else 0 := by
    rcases hk with rfl | rfl
    · cases step_cases hs with
      | lock hpc => simp [State.share, hpc]
    · cases step_cases hs with
      | unlock hpc => simp [State.share, hpc]
  omega

def miniLockCosts [Fintype T] : (miniLock : Impl T _ _).Costs where
  budget s := ∑ t, s.share t
  rank s t := s.rank t
  price := 6
  bound := 18
  rank_le := rank_le
  call := by
    rintro s t s' ⟨⟨q, hq⟩, -⟩ hs
    exact hq.call_share (.inl rfl) hs
  release := by
    rintro s t s' ⟨⟨q, hq⟩, -⟩ hs
    exact hq.call_share (.inr rfl) hs
  inner := by
    rintro s t k s' ⟨⟨q, hq⟩, -⟩ hs hne
    by_cases hwake : ∃ a w, s.pc t = .wake a w
    · obtain ⟨a, w, hpc⟩ := hwake
      have hnext : next s t = some s' := by
        cases k with
        | step => exact hs
        | _ => simp [miniLock, cmdAct, Inner.act, step, hpc] at hs
      exact .inl (hq.wake_pays hpc hnext)
    · have hwake : ∀ a w, s.pc t ≠ .wake a w := fun a w hpc => hwake ⟨a, w, hpc⟩
      have hsum := sum_update (f := s.share) (g := s'.share) (p := t)
        fun u hu => hq.share_other hs hu hwake
      rcases hq.step_pays hs hne hwake with hless | ⟨hhead, hle, hrank⟩
      · exact .inl (by omega)
      · exact .inr ⟨by omega, hrank, fun u hu => hq.rank_other hs hu hwake hhead⟩

end Colock.MiniLock
