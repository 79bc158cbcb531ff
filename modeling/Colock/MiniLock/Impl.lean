import Colock.Lib.LockImpl
import Colock.MiniLock.Wakeup
import Mathlib.Data.Set.Finite.Range

/-! `MiniLock` implements a lock. No frame is lost or forgotten: every popped waker is on its way
to be called, so the threads that use the lock never all sleep; and a run in which they lock
finitely often ends. -/
namespace Colock.MiniLock
open Transition LockImpl
variable {T : Type*}

/-- How far the thread is with `lock` or `unlock`; no thread here calls `try_lock`. -/
def Pc.phase : Pc T → Phase
  | .out => .idle
  | .held => .working
  | .assertLocked | .unlock | .pop | .popLoad | .popNext _ | .popHead _ _ _ | .takeWaker _
  | .clear _ _ => .giving
  | .wake _ _ | .unpark => .leaving
  | .dropFrame _ _ locked => if locked then .taking else .trying
  | _ => .trying

inductive Inner
  | newParker (p : Nat)
  | newNode (a : Addr)
  | step
  deriving DecidableEq

def Inner.act : Inner → Act
  | .newParker p => .newParker p
  | .newNode a => .newNode a
  | .step => .step

def cmdAct : Cmd Inner → Act
  | .call => .lock
  | .release => .unlock
  | .inner k => k.act

def Pc.tries : Pc T → Bool
  | .tryLock _ => true
  | _ => false

theorem owns_phase {c : Pc T} : c.phase.owns = c.holds := by
  cases c with
  | dropFrame a p locked => cases locked <;> rfl
  | _ => rfl

variable [DecidableEq T]

/-- What stands on the heap stands on a frame, and a popped node is carried by the thread that
will wake its owner. -/
structure Settled (s : State T) (q : Waiters) : Prop extends Inv s q where
  frames : ∀ a, (s.node a).isSome → ∃ t, (s.pc t).node? = some a
  parked : ∀ p, (s.parker p).isSome → ∃ t, (s.pc t).parker? = some p
  carried : ∀ a ∈ q.popped, ∃ t, (s.pc t).carries? = some a
  noTry : ∀ t, (s.pc t).tries = false

theorem step_moves {s s' : State T} {t : T} {c : Cmd Inner} {q : Waiters} (h : Settled s q)
    (h' : ∀ u, s'.pc u ≠ .fault) (hs : step s (t, cmdAct c) = some s') :
    Phase.Moves c (s.pc t).phase (s'.pc t).phase := by
  have hfault := h' t
  have htry := h.noTry t
  cases c with
  | call =>
    cases step_cases hs with
    | lock hpc => simpa [hpc, Pc.phase] using Phase.Moves.call
  | release =>
    cases step_cases hs with
    | unlock hpc => simpa [hpc, Pc.phase] using Phase.Moves.release
  | inner k =>
    have stays : ∀ c : Pc T, c.phase = (s.pc t).phase → Phase.Moves (.inner k) (s.pc t).phase c.phase :=
      fun c hc => hc ▸ .stay k _
    cases k with
    | newParker p =>
      cases step_cases hs with
      | newParker _ hpc => exact stays _ (by simp [hpc, Pc.phase])
    | newNode a =>
      cases step_cases hs with
      | newNode _ p hpc => exact stays _ (by simp [hpc, Pc.phase])
    | step =>
      cases step_cases hs with
      | faults => simp at hfault
      | tryFailed head hpc | tryTaken head hpc | tryAgain head hpc => simp [hpc, Pc.tries] at htry
      | lockTaken hpc | spinTaken _ _ hpc =>
        simpa [hpc, Pc.phase, State.locked] using Phase.Moves.enter Inner.step .trying (.inl rfl)
      | queuedTaken a p head hpc =>
        simpa [hpc, Pc.phase, State.locked] using Phase.Moves.take Inner.step
      | dropFrame a p locked hpc =>
        cases locked with
        | true => simpa [hpc, Pc.phase] using Phase.Moves.enter Inner.step .taking (.inr rfl)
        | false => exact stays _ (by simp [hpc, Pc.phase])
      | unlocked hpc => simpa [hpc, Pc.phase] using Phase.Moves.give Inner.step .idle (.inr rfl)
      | clear a w hpc => simpa [hpc, Pc.phase] using Phase.Moves.give Inner.step .leaving (.inl rfl)
      | unpark hpc => simpa [hpc, Pc.phase] using Phase.Moves.leave Inner.step
      | takeWaker a n hpc =>
        refine stays _ ?_
        cases hw : n.waker <;> simp [hpc, Pc.phase]
      | parkAgain => exact .stay _ _
      | _ => exact stays _ (by simp_all [Pc.phase])

theorem step_frame {s s' : State T} {t : T} {k : Act} (hs : step s (t, k) = some s')
    (h' : s'.pc t ≠ .fault) {a : Addr} (ha : (s'.node a).isSome) :
    (s'.pc t).node? = some a ∨
      (s.node a).isSome ∧ ((s.pc t).node? = some a → (s'.pc t).node? = some a) := by
  cases step_cases hs with
  | faults => simp at h'
  | newNode b p hpc =>
    by_cases hb : a = b
    · subst b
      exact .inl (by simp [Pc.node?])
    · exact .inr ⟨by simpa [State.goto, hb] using ha, by simp [hpc, Pc.node?]⟩
  | setNext b p head n hpc hf hn =>
    by_cases hb : a = b
    · subst b
      exact .inl (by simp [Pc.node?])
    · exact .inr ⟨by simpa [State.goto, hb] using ha, by simp [hpc, Pc.node?]⟩
  | dropFrame b p locked hpc =>
    by_cases hb : a = b
    · simp [State.goto, hb] at ha
    · exact .inr ⟨by simpa [State.goto, hb] using ha, by simp [hpc, Pc.node?, Ne.symm hb]⟩
  | takeWaker b n hpc hn =>
    refine .inr ⟨?_, by simp [hpc, Pc.node?]⟩
    by_cases hb : a = b
    · simp [hb, hn]
    · simpa [State.goto, hb] using ha
  | parkAgain => exact .inr ⟨ha, id⟩
  | _ => exact .inr ⟨ha, by simp_all [State.locked, Pc.node?]⟩

theorem step_parked {s s' : State T} {t : T} {k : Act} (hs : step s (t, k) = some s')
    (h' : s'.pc t ≠ .fault) {p : Nat} (hp : (s'.parker p).isSome) :
    (s'.pc t).parker? = some p ∨
      (s.parker p).isSome ∧ ((s.pc t).parker? = some p → (s'.pc t).parker? = some p) := by
  cases step_cases hs with
  | faults => simp at h'
  | newParker b hpc | preparePark b hpc =>
    by_cases hb : p = b
    · subst b
      exact .inl (by simp [Pc.parker?])
    · exact .inr ⟨by simpa [State.goto, hb] using hp, by simp [hpc, Pc.parker?, Ne.symm hb]⟩
  | dropFrame a b locked hpc =>
    by_cases hb : p = b
    · simp [State.goto, hb] at hp
    · exact .inr ⟨by simpa [State.goto, hb] using hp, by simp [hpc, Pc.parker?, Ne.symm hb]⟩
  | wake a w b hpc hw hlive =>
    refine .inr ⟨?_, by simp [hpc, Pc.parker?]⟩
    by_cases hb : p = b
    · simpa [hb] using hlive
    · simpa [State.goto, hb] using hp
  | parkAgain => exact .inr ⟨hp, id⟩
  | _ => exact .inr ⟨hp, by simp_all [State.locked, Pc.parker?]⟩

theorem Inv.step_carried {s s' : State T} {q q' : Waiters} (h : Inv s q) (h' : Inv s' q') {t : T}
    {k : Act} (hs : step s (t, k) = some s') {a : Addr} (ha : a ∈ q'.popped) :
    (s'.pc t).carries? = some a ∨
      a ∈ q.popped ∧ ((s.pc t).carries? = some a → (s'.pc t).carries? = some a) := by
  have hfault := h'.no_fault t
  have same : s'.log = s.log → q' = q := by
    intro hlog
    have hreplay := h'.replay
    rw [hlog, h.replay] at hreplay
    exact (Option.some.inj hreplay).symm
  have event : ∀ e, s'.log = (t, e) :: s.log → q.after e = some q' := by
    intro e hlog
    have hreplay := h'.replay
    rw [hlog, Waiters.replay, h.replay] at hreplay
    exact hreplay
  cases step_cases hs with
  | faults => simp at hfault
  | push b p hpc =>
    have hafter := event _ rfl
    simp only [Waiters.after, Option.ite_none_left_eq_some, Option.some.injEq] at hafter
    obtain ⟨-, rfl⟩ := hafter
    exact .inr ⟨ha, by simp [hpc, Pc.carries?]⟩
  | contended hpc =>
    obtain rfl := Option.some.inj (event _ rfl)
    exact .inr ⟨ha, by simp [hpc, Pc.carries?]⟩
  | popHead b x hpc =>
    have hafter := event _ rfl
    simp only [Waiters.after] at hafter
    split at hafter
    · simp only [Option.ite_none_right_eq_some, Option.some.injEq] at hafter
      obtain ⟨rfl, rfl⟩ := hafter
      rcases List.mem_cons.mp ha with rfl | ha
      · exact .inl (by simp [Pc.carries?])
      · exact .inr ⟨ha, by simp [hpc, Pc.carries?]⟩
    · cases hafter
  | wake b w p hpc =>
    have hafter := event _ rfl
    simp only [Waiters.after, Option.ite_none_right_eq_some, Option.some.injEq] at hafter
    obtain ⟨-, rfl⟩ := hafter
    have hnodup := (List.nodup_append'.mp h.distinct).2.1
    have hmem := (hnodup.mem_erase_iff).mp ha
    exact .inr ⟨hmem.2, by simp [hpc, Pc.carries?, Ne.symm hmem.1]⟩
  | wakeNone b w hpc hw =>
    obtain ⟨u, p, -, rfl, -⟩ := h.wake hpc
    simp [wakerOf] at hw
  | takeWaker b n hpc hn =>
    obtain ⟨w, hw⟩ := h.take_step hpc hs
    refine .inr ⟨same rfl ▸ ha, ?_⟩
    rw [hw, hpc]
    exact id
  | dropFrame b p locked hpc => exact .inr ⟨same rfl ▸ ha, by simp [hpc, Pc.carries?]⟩
  | clear b w hpc => exact .inr ⟨same rfl ▸ ha, by simp [hpc, Pc.carries?]⟩
  | parkAgain => exact .inr ⟨same rfl ▸ ha, id⟩
  | _ => exact .inr ⟨same rfl ▸ ha, by simp_all [State.locked, Pc.carries?]⟩

theorem still_some {α : Type*} {f : Pc T → Option α} {s s' : State T} {t : T} {a : α}
    (hpc : s'.pc = Function.update s.pc t (s'.pc t)) (hold : ∃ u, f (s.pc u) = some a)
    (hkeep : f (s.pc t) = some a → f (s'.pc t) = some a) : ∃ u, f (s'.pc u) = some a := by
  obtain ⟨u, hu⟩ := hold
  by_cases hut : u = t
  · exact ⟨t, hkeep (hut ▸ hu)⟩
  · exact ⟨u, by rwa [hpc, Function.update_of_ne hut]⟩

theorem Settled.keeps {s s' : State T} {q : Waiters} (h : Settled s q) {t : T} {c : Cmd Inner}
    (hs : step s (t, cmdAct c) = some s') : ∃ q', Settled s' q' := by
  obtain ⟨q', h'⟩ := inv_step h.toInv hs
  have hfault := h'.no_fault t
  have hpc := step_pc hs
  refine ⟨q', h', fun a ha => ?_, fun p hp => ?_, fun a ha => ?_, fun u => ?_⟩
  · rcases step_frame hs hfault ha with hnew | ⟨hold, hkeep⟩
    · exact ⟨t, hnew⟩
    · exact still_some hpc (h.frames a hold) hkeep
  · rcases step_parked hs hfault hp with hnew | ⟨hold, hkeep⟩
    · exact ⟨t, hnew⟩
    · exact still_some hpc (h.parked p hold) hkeep
  · rcases h.step_carried h' hs ha with hnew | ⟨hold, hkeep⟩
    · exact ⟨t, hnew⟩
    · exact still_some hpc (h.carried a hold) hkeep
  · by_cases hut : u = t
    · subst u
      have htry := h.noTry t
      cases c with
      | call => cases step_cases hs; simp [Pc.tries]
      | release => cases step_cases hs; simp [Pc.tries]
      | inner k =>
        cases k with
        | newParker p => cases step_cases hs; simp [Pc.tries]
        | newNode a => cases step_cases hs; simp [Pc.tries]
        | step =>
          cases step_cases hs with
          | takeWaker a n => cases hw : n.waker <;> simp [Pc.tries]
          | dropFrame a p locked => cases locked <;> simp [Pc.tries]
          | tryAgain head hc =>
            rw [hc] at htry
            cases htry
          | parkAgain => exact htry
          | _ => simp [State.locked, Pc.tries]
    · rw [hpc, Function.update_of_ne hut]
      exact h.noTry u

omit [DecidableEq T] in
theorem settled_init : Settled (init : State T) ⟨[], []⟩ where
  toInv := inv_init
  frames := by simp [init]
  parked := by simp [init]
  carried := by simp
  noTry := by simp [init, Pc.tries]

def miniLock : Impl T (State T) Inner where
  step s := fun (t, c) => step s (t, cmdAct c)
  start := init
  phase s t := (s.pc t).phase
  Good s := (∃ q, Settled s q) ∧ s.Alert
  good_start := ⟨⟨_, settled_init⟩, fun _ hptr => absurd getPtr_zero hptr⟩
  idle_start _ := rfl
  good_step := by
    rintro s ⟨t, c⟩ s' ⟨⟨q, hq⟩, halert⟩ hs
    exact ⟨hq.keeps hs, hq.alert halert hs⟩
  moves := by
    rintro s t c s' ⟨⟨q, hq⟩, -⟩ hs
    obtain ⟨q', h'⟩ := hq.keeps hs
    exact step_moves hq h'.no_fault hs
  others := by
    rintro s t c s' u - hs hu
    rw [step_pc hs, Function.update_of_ne hu]
  alone := by
    rintro s t u ⟨⟨q, hq⟩, -⟩ ht hu
    rw [owns_phase] at ht hu
    exact hq.alone t u ht hu

/-! ### Nobody sleeps for ever -/

theorem step_changes {s s' : State T} {t : T} {k : Act} (hs : step s (t, k) = some s')
    (hsame : s'.pc t = s.pc t) :
    s.pc t = .fault ∨ ∃ a p, s.pc t = .park a p ∧ s.parker p = some false := by
  cases step_cases hs with
  | faults => exact .inl (by simpa using hsame.symm)
  | parkAgain a p hpc hp => exact .inr ⟨a, p, hpc, hp⟩
  | takeWaker a n hpc => cases hw : n.waker <;> simp [hw, hpc] at hsame
  | dropFrame a p locked hpc => cases locked <;> simp [hpc] at hsame
  | queuedFailed a p head hpc hf hhead | tryAgain head hpc hf hhead => simp_all
  | _ => simp_all [State.locked]

theorem Settled.rests {s : State T} {q : Waiters} (h : Settled s q) (t : T)
    (hparker : ∃ p, s.parker p = none) (hnode : ∃ a, s.node a = none)
    (hstuck : ∀ (k : Inner) s', step s (t, k.act) = some s' → s' = s) :
    s.pc t = .out ∨ s.pc t = .held ∨ ∃ a p, s.pc t = .park a p ∧ s.parker p = some false := by
  have rests : (∃ k : Inner, (step s (t, k.act)).isSome) →
      ∃ a p, s.pc t = .park a p ∧ s.parker p = some false := by
    rintro ⟨k, hk⟩
    obtain ⟨s', hs⟩ := Option.isSome_iff_exists.mp hk
    have hsame : s'.pc t = s.pc t := by rw [hstuck k s' hs]
    exact (step_changes hs hsame).resolve_left (h.no_fault t)
  have hnext : (next s t).isSome → ∃ k : Inner, (step s (t, k.act)).isSome := fun hn => ⟨.step, hn⟩
  cases hpc : s.pc t with
  | out => exact .inl rfl
  | held => exact .inr (.inl rfl)
  | fault => exact absurd hpc (h.no_fault t)
  | newParker =>
    obtain ⟨p, hp⟩ := hparker
    refine .inr (.inr (hpc ▸ rests ⟨.newParker p, ?_⟩))
    simp [Inner.act, MiniLock.step, hpc, hp]
  | newNode p =>
    obtain ⟨a, ha⟩ := hnode
    refine .inr (.inr (hpc ▸ rests ⟨.newNode a, ?_⟩))
    simp [Inner.act, MiniLock.step, hpc, ha]
  | _ => exact .inr (.inr (hpc ▸ rests (hnext (by simp [next, hpc]))))

omit [DecidableEq T] in
/-- When every thread rests and none holds the lock, none is in a call. -/
theorem Settled.nobody_sleeps {s : State T} {q : Waiters} (h : Settled s q) (halert : s.Alert)
    (hrest : ∀ t, s.pc t = .out ∨ ∃ a p, s.pc t = .park a p ∧ s.parker p = some false) (t : T) :
    s.pc t = .out := by
  have hholds : ∀ u, (s.pc u).holds = false := by
    intro u
    rcases hrest u with hu | ⟨a, p, hu, -⟩ <;> rw [hu] <;> rfl
  have hfree : getFlag s.head = false := by
    by_contra hf
    obtain ⟨u, hu⟩ := h.flag.mp (by simpa using hf)
    simp [hholds] at hu
  have hstack : q.stack = [] := by
    by_contra hne
    obtain ⟨a, -, hptr⟩ := h.top hne
    obtain ⟨u, hu⟩ := halert hfree (by rw [hptr]; exact a.property.1)
    rcases hrest u with hpc | ⟨b, p, hpc, hp⟩
    · simp [hpc, Pc.wakes, State.wokenWaiter, Pc.contends] at hu
    · simp [hpc, hp, Pc.wakes, State.wokenWaiter, Pc.contends] at hu
  have hpopped : ∀ a, a ∉ q.popped := by
    intro a ha
    obtain ⟨u, hu⟩ := h.carried a ha
    rcases hrest u with hpc | ⟨b, p, hpc, -⟩ <;> simp [hpc, Pc.carries?] at hu
  refine (hrest t).resolve_right ?_
  rintro ⟨a, p, hpc, hp⟩
  have hplace := h.place t
  rw [hpc] at hplace
  rcases hplace.2 with ⟨hin, -⟩ | ⟨hin, -⟩ | ⟨-, hp'⟩
  · simp [hstack] at hin
  · exact hpopped a hin
  · simp [hp] at hp'

omit [DecidableEq T] in
theorem Settled.free_parker [Finite T] {s : State T} {q : Waiters} (h : Settled s q) :
    ∃ p, s.parker p = none := by
  have hfinite := Set.finite_range fun t => (s.pc t).parker?.getD 0
  obtain ⟨p, hp⟩ := hfinite.exists_notMem
  refine ⟨p, ?_⟩
  by_contra hlive
  obtain ⟨t, ht⟩ := h.parked p (Option.isSome_iff_ne_none.mpr hlive)
  exact hp ⟨t, by simp [ht]⟩

omit [DecidableEq T] in
theorem Settled.free_node [Fintype T] (frames : Option T ↪ Addr) {s : State T} {q : Waiters}
    (h : Settled s q) : ∃ a, s.node a = none := by
  by_contra hfull
  have hused : ∀ x, ∃ t, (s.pc t).node? = some (frames x) := fun x =>
    h.frames _ (Option.isSome_iff_ne_none.mpr fun hn => hfull ⟨_, hn⟩)
  choose owner howner using hused
  have hinj : Function.Injective owner := by
    intro x y hxy
    have hboth := (howner x).symm.trans (hxy ▸ howner y)
    exact frames.injective (Option.some.inj hboth)
  have hcard := Fintype.card_le_of_injective owner hinj
  simp at hcard

/-- The threads that use the lock never all wait. -/
theorem miniLock_live [Fintype T] (frames : Option T ↪ Addr) : (miniLock : Impl T _ _).Live where
  calls := by
    rintro s t ⟨⟨q, hq⟩, -⟩ hidle
    have hout : s.pc t = .out := by
      change (s.pc t).phase = .idle at hidle
      cases hpc : s.pc t with
      | dropFrame a p locked => cases locked <;> simp [hpc, Pc.phase] at hidle
      | _ => simp_all [Pc.phase]
    exact ⟨s.goto t .lock, by simp [miniLock, cmdAct, step, hout]⟩
  releases := by
    rintro s t - hworking
    have hheld : s.pc t = .held := by
      change (s.pc t).phase = .working at hworking
      cases hpc : s.pc t with
      | dropFrame a p locked => cases locked <;> simp [hpc, Pc.phase] at hworking
      | _ => simp_all [Pc.phase]
    exact ⟨s.goto t .assertLocked, by simp [miniLock, cmdAct, step, hheld]⟩
  awake := by
    rintro s ⟨⟨q, hq⟩, halert⟩ hstuck
    have hrest := fun t => hq.rests t hq.free_parker (hq.free_node frames) fun k s' hs =>
      hstuck t k s' hs
    by_cases hheld : ∃ t, s.pc t = .held
    · obtain ⟨t, ht⟩ := hheld
      exact .inr ⟨t, by simp [miniLock, ht, Pc.phase]⟩
    · refine .inl fun t => ?_
      have hout := hq.nobody_sleeps halert (fun u => (hrest u).imp_right fun hu =>
        hu.resolve_left fun hu => hheld ⟨u, hu⟩) t
      simp [miniLock, hout, Pc.phase]

end Colock.MiniLock
