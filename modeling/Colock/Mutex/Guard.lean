import Colock.RawMutex.ChosenWaiter

/-! `MutexGuardBase`: `unlocked` and `unlocked_fair` give the lock up around a closure, and the
guard's `Drop` unlocks whatever happened in between. -/
namespace Colock.Mutex
open Transition HandOff RawMutex
variable {P : Type*} [DecidableEq P]

/-- Where the guard of a party is: with the party, or borrowed by a call of `unlocked`, which
runs `unlock` and the closure, then locks again; or that call was left because the closure
panicked. -/
inductive Frame
  | free
  | inside
  | relocking
  | unwound
  deriving DecidableEq

structure State (P : Type*) where
  raw : RawMutex.State P
  frame : P → Frame

def init : State P := ⟨RawMutex.init, fun _ => .free⟩

/-- `unlocked` gives the lock up with `unlock` or with `unlock_fair`. The closure ends with
`returns` or `unwinds`, and what it does to the mutex itself counts as another party's. -/
inductive Act
  | raw (a : RawMutex.Act)
  | unlocked (r : Release)
  | returns
  | unwinds
  | drop
  deriving DecidableEq

def State.via (s : State P) (p : P) (f : Frame) (a : RawMutex.Act) : Option (State P) :=
  (RawMutex.step s.raw (p, a)).map fun raw => ⟨raw, Function.update s.frame p f⟩

def step (s : State P) : P × Act → Option (State P)
  | (p, .raw a) =>
    match s.frame p with
    | .free => s.via p .free a
    | .inside => if a = .next then s.via p .inside a else none
    | .relocking => s.via p (if s.raw.pc p = .holding then .free else .relocking) a
    | .unwound => none
  | (p, .unlocked r) =>
    if (s.frame p = .free ∨ s.frame p = .relocking) ∧ r ≠ .bump then
      s.via p .inside (.release r) else none
  | (p, .returns) =>
    if s.frame p = .inside then s.via p .relocking (.start (.lockInner false)) else none
  | (p, .unwinds) =>
    if s.frame p = .inside ∧ s.raw.pc p = .idle then
      some { s with frame := Function.update s.frame p .unwound } else none
  | (p, .drop) =>
    match s.frame p with
    | .free | .relocking => s.via p .free (.release .unlock)
    | .inside => none
    -- `Drop` unlocks whether or not the lock was taken again
    | .unwound =>
      some ⟨s.raw.goto p (.fetchUnlock .unlock), Function.update s.frame p .free⟩

def State.left (s : State P) (p : P) : Bool :=
  match s.frame p with
  | .unwound => true
  | .relocking => s.raw.pc p = .idle || s.raw.pc p = .holding
  | _ => false

/-- Whoever leaves `unlocked` holds the lock, and an unlock clears the bit of its own party:
`LOCKED_BIT` is set and nobody else has the lock or is about to have it. -/
structure GuardsOwn (s : State P) : Prop where
  left : ∀ p, s.left p = true → s.raw.pc p = .holding
  locked : ∀ p, (s.raw.pc p).owns = true → locked s.raw.word = true
  alone : ∀ p q, (s.raw.pc p).succeeds = true → (s.raw.pc q).succeeds = true → p = q

def OneTaker (s : State P) : P × Act → Prop
  | (p, .raw a) => ReadsAlone s.raw (p, a)
  | _ => True

def ReturnsAlone (s : State P) (l : P × Act) : Prop := l.2 ≠ .unwinds ∧ OneTaker s l

def locking : Pc P → Bool
  | .cas c _ | .lockPush c | .loadState c | .sleepCas c _ | .pushHead c
  | .unlockQueue (.pushed c) | .unlockQueue (.aborted c) => c.basic
  | .prepare timed | .park timed | .fairLoad timed => !timed
  | .dropNode k | .lockDrop k | .removeNode k | .unlockQueue (.dropped k) => k.basic
  | .fairClear | .holding => true
  | _ => false

omit [DecidableEq P] in
theorem locking_of_flow {w : Word} {a : RawMutex.Act} {c d : Pc P} (h : Flow w a c d)
    (hc : locking c = true) (hout : c ≠ .holding) : locking d = true := by
  cases h with
  | dropOff k | dropped k =>
    cases k <;> simp_all [Leave.next, locking, Leave.basic, Call.basic]
  | _ => simp_all [locking, Call.basic, Leave.basic]

structure Guarded (s : State P) : Prop where
  sane : ∀ p, (s.raw.pc p).sane
  exclusive : Exclusive (view s.raw)
  relocks : ∀ p, s.frame p = .relocking → locking (s.raw.pc p) = true
  returned : ∀ p, s.frame p ≠ .unwound

omit [DecidableEq P] in
theorem role_succeeds {c : Pc P} {b : Bool} (h : c.succeeds = true) :
    c.role b = .owner ∨ c.role b = .accepting := by
  by_cases hc : c = .fairClear
  · exact .inr (role_accepting.mpr hc)
  · refine .inl (role_owner.mpr ?_)
    cases c <;> simp_all [Pc.succeeds]

theorem Guarded.guardsOwn {s : State P} (hs : Guarded s) : GuardsOwn s := by
  constructor
  · intro p hp
    cases hf : s.frame p with
    | relocking =>
      have hl := hs.relocks p hf
      simp only [State.left, hf, Bool.or_eq_true, decide_eq_true_eq] at hp
      refine hp.resolve_left fun hpc => ?_
      simp [hpc, locking] at hl
    | unwound => exact absurd hf (hs.returned p)
    | _ => simp [State.left, hf] at hp
  · exact fun p hp => (hs.exclusive.owner_bits p (role_owner.mpr hp)).1
  · intro p q hp hq
    have hx := hs.exclusive
    rcases role_succeeds (b := s.raw.woken p) hp with hp | hp <;>
      rcases role_succeeds (b := s.raw.woken q) hq with hq | hq
    · exact hx.one_owner p q hp hq
    · exact absurd hq (hx.owner_alone p q hp)
    · exact absurd hp (hx.owner_alone q p hq)
    · exact hx.one_accepting p q hp hq

theorem Guarded.via {s t : State P} {p : P} {f : Frame} {a : RawMutex.Act} (hs : Guarded s)
    (hok : ReadsAlone s.raw (p, a)) (hf : f ≠ .unwound)
    (hl : f = .relocking → ∀ u, RawMutex.step s.raw (p, a) = some u → locking (u.pc p) = true)
    (hstep : s.via p f a = some t) : Guarded t := by
  obtain ⟨u, hu, rfl⟩ := Option.map_eq_some_iff.mp hstep
  refine ⟨step_sane hs.sane hu, step_exclusive hs.sane hs.exclusive hok hu, fun q hq => ?_,
    fun q => ?_⟩
  · by_cases hqp : q = p
    · subst q
      exact hl (by simpa using hq) u hu
    · rw [step_others hu hqp]
      exact hs.relocks q (by simpa [hqp] using hq)
  · by_cases hqp : q = p
    · subst q
      simpa using hf
    · simpa [hqp] using hs.returned q

theorem Guarded.step {s t : State P} {p : P} {a : Act} (hs : Guarded s)
    (hok : ReturnsAlone s (p, a)) (hstep : step s (p, a) = some t) : Guarded t := by
  have hrelease : ∀ r, ReadsAlone s.raw (p, .release r) := fun _ => trivial
  cases a with
  | raw a =>
    simp only [Mutex.step] at hstep
    split at hstep
    · exact hs.via hok.2 (by rintro ⟨⟩) (by rintro ⟨⟩) hstep
    · simp only [Option.ite_none_right_eq_some] at hstep
      exact hs.via hok.2 (by rintro ⟨⟩) (by rintro ⟨⟩) hstep.2
    · next hf =>
      refine hs.via hok.2 (by split <;> rintro ⟨⟩) (fun hrelock u hu => ?_) hstep
      exact locking_of_flow (step_flow hu) (hs.relocks p hf) fun hpc => by simp [hpc] at hrelock
    · cases hstep
  | unlocked r =>
    simp only [Mutex.step, Option.ite_none_right_eq_some] at hstep
    exact hs.via (hrelease r) (by rintro ⟨⟩) (by rintro ⟨⟩) hstep.2
  | returns =>
    simp only [Mutex.step, Option.ite_none_right_eq_some] at hstep
    refine hs.via (show ReadsAlone s.raw (p, .start _) from trivial) (by rintro ⟨⟩) (fun _ u hu => ?_) hstep.2
    cases step_cases hu with
    | start c hpc => simp [locking, Call.basic]
  | unwinds => exact absurd rfl hok.1
  | drop =>
    simp only [Mutex.step] at hstep
    split at hstep
    · exact hs.via (hrelease .unlock) (by rintro ⟨⟩) (by rintro ⟨⟩) hstep
    · exact hs.via (hrelease .unlock) (by rintro ⟨⟩) (by rintro ⟨⟩) hstep
    · cases hstep
    · next hf => exact absurd hf (hs.returned p)

theorem via_raw {s t : State P} {p : P} {f : Frame} {a : RawMutex.Act}
    (h : s.via p f a = some t) : RawMutex.step s.raw (p, a) = some t.raw := by
  obtain ⟨u, hu, rfl⟩ := Option.map_eq_some_iff.mp h
  exact hu

theorem step_raw {s t : State P} {p : P} {a : RawMutex.Act} (h : step s (p, .raw a) = some t) :
    RawMutex.step s.raw (p, a) = some t.raw := by
  simp only [step] at h
  split at h
  · exact via_raw h
  · simp only [Option.ite_none_right_eq_some] at h
    exact via_raw h.2
  · exact via_raw h
  · cases h

/-- A panic leaves a guard without the lock behind; a second reader of `FAIR_BIT` gets the lock
besides the first one. -/
theorem step_unguarded {s t : State P} {p : P} {a : Act} (hno : ¬ ReturnsAlone s (p, a))
    (hstep : step s (p, a) = some t) : ¬ GuardsOwn t := by
  intro hown
  cases a with
  | raw a =>
    have hraw := step_raw hstep
    cases a with
    | next =>
      simp only [ReturnsAlone, OneTaker, ReadsAlone, ne_eq, reduceCtorEq, not_false_eq_true,
        true_and, not_forall, not_not] at hno
      obtain ⟨⟨timed, hpc⟩, hf, q, hq⟩ := hno
      have hqp : q ≠ p := by
        rintro rfl
        simp [hpc] at hq
      have hp : t.raw.pc p = .fairClear := by
        generalize t.raw = u at hraw
        cases step_cases hraw with
        | fairSeen => simp
        | fairUnseen _ _ hf' => simp [hf] at hf'
        | _ => simp_all
      have hq' : t.raw.pc q = .fairClear := by rw [RawMutex.step_others hraw hqp, hq]
      exact hqp (hown.alone q p (by rw [hq']; rfl) (by rw [hp]; rfl))
    | _ => exact hno ⟨by rintro ⟨⟩, trivial⟩
  | unwinds =>
    simp only [step, Option.ite_none_right_eq_some, Option.some.injEq] at hstep
    obtain ⟨⟨-, hpc⟩, rfl⟩ := hstep
    have hleft := hown.left p (by simp [State.left])
    simp [hpc] at hleft
  | _ => exact hno ⟨by rintro ⟨⟩, trivial⟩

omit [DecidableEq P] in
theorem guarded_init : Guarded (init : State P) where
  sane := fun _ => trivial
  exclusive := by
    rw [show (init : State P).raw = RawMutex.init from rfl, view_init]
    constructor <;> simp [free]
  relocks := by simp [init]
  returned := by simp [init]

/-- In a run every guard that leaves `unlocked` or `unlocked_fair` holds the lock, and every
unlock clears the `LOCKED_BIT` of its own party, if and only if all closures return normally and
no two waiters take one hand-off. -/
theorem guards_own {s : State P} {ls : List (P × Act)} (h : run step init ls = some s) :
    Visits step GuardsOwn init ls ↔ Meets step ReturnsAlone init ls := by
  refine visits_iff_meets (I := Guarded) (fun _ hs => hs.guardsOwn) ?_ ?_ guarded_init
    (meets_any _ _) h
  · rintro s ⟨p, a⟩ t hs - hok hstep
    exact hs.step hok hstep
  · rintro s ⟨p, a⟩ t - - hno hstep
    exact step_unguarded hno hstep

instance [Fintype P] (s : State P) (l : P × Act) : Decidable (OneTaker s l) :=
  match l with
  | (p, .raw a) => inferInstanceAs (Decidable (ReadsAlone s.raw (p, a)))
  | (_, .unwinds) | (_, .unlocked _) | (_, .returns) | (_, .drop) => isTrue trivial

instance [Fintype P] (s : State P) (l : P × Act) : Decidable (ReturnsAlone s l) :=
  inferInstanceAs (Decidable (_ ∧ _))

def raws (p : P) (n : Nat) : List (P × Act) := List.replicate n (p, .raw .next)

/-- `p` has a guard and gives the lock up around a closure; meanwhile `q` takes the lock. -/
def overtaken (p q : P) : List (P × Act) :=
  (p, .raw (.start (.lockInner false))) :: raws p 1 ++ (p, .unlocked .unlock) :: raws p 1 ++
    (q, .raw (.start .tryLock)) :: raws q 1

/-- The closure of 0 returns when 1 has unlocked, and 0 has the lock again. -/
theorem guards_own_overtaken : ∃ s : State (Fin 2), s.left 0 = true ∧ s.raw.pc 0 = .holding ∧
    Visits step GuardsOwn (init : State (Fin 2))
      (overtaken 0 1 ++ (1, .drop) :: raws 1 1 ++ (0, .returns) :: raws 0 1) := by
  have hr : ((run (restrict step ReturnsAlone) (init : State (Fin 2))
      (overtaken 0 1 ++ (1, .drop) :: raws 1 1 ++ (0, .returns) :: raws 0 1)).map
        fun s => (s.left 0, s.raw.pc 0)) = some (true, .holding) := by decide
  obtain ⟨s, hs, ho⟩ := Option.map_eq_some_iff.mp hr
  simp only [Prod.mk.injEq] at ho
  obtain ⟨hm, hrun⟩ := restrict_run_meets hs
  exact ⟨s, ho.1, ho.2, (guards_own hrun).mpr hm⟩

/-- The closure of 0 panics, and its guard is dropped under the nose of 1. -/
theorem guard_unlocks_another : ¬ ∀ s : State (Fin 2), Reach step OneTaker init s →
    ∀ p, s.raw.pc p = .holding → locked s.raw.word = true := by
  have hr : ((run (restrict step OneTaker) (init : State (Fin 2))
      (overtaken 0 1 ++ (0, .unwinds) :: (0, .drop) :: raws 0 1)).map
        fun s => (s.raw.pc 1, locked s.raw.word)) = some (.holding, false) := by decide
  obtain ⟨s, hs, ho⟩ := Option.map_eq_some_iff.mp hr
  simp only [Prod.mk.injEq] at ho
  intro h
  have hlocked := h s (restrict_run_reach hs) 1 ho.1
  simp [ho.2] at hlocked

end Colock.Mutex
