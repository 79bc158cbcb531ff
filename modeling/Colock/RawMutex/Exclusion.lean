import Colock.RawMutex.HandOffView
import Mathlib.Data.Fintype.Defs

/-! Mutual exclusion of `RawMutex`, and the race in which two waiters accept one hand-off. -/
namespace Colock.RawMutex
open Transition HandOff
variable {P : Type*} [DecidableEq P]

/-- The calls of the blocking API. -/
def Act.blocking : Act → Bool
  | .start (.poll _) | .dropFuture => false
  | _ => true

/-- No waiter reads `FAIR_BIT` set while another one has read it set and not yet executed
its `fetch_and`. -/
def ReadsAlone (s : State P) : P × Act → Prop
  | (p, .next) => (∃ timed, s.pc p = .fairLoad timed) → fair s.word = true →
      ∀ q, s.pc q ≠ .fairClear
  | _ => True

omit [DecidableEq P] in
theorem eventOf_see {s : State P} {p q : P} {a : Act} (h : eventOf s (p, a) = some (.see q)) :
    a = .next ∧ (∃ timed, s.pc p = .fairLoad timed) ∧ fair s.word = true := by
  cases a with
  | next =>
    simp only [eventOf] at h
    split at h
    · cases hpc : s.pc p <;> simp only [hpc, atomicEvent] at h <;> grind
    · cases hpc : s.pc p <;> simp only [hpc, queueEvent] at h <;> grind
  | timeout => simp [eventOf] at h
  | _ => simp [eventOf] at h

omit [DecidableEq P] in
theorem alone_of_readsAlone {s : State P} {l : P × Act} {e : Event P} (hok : ReadsAlone s l)
    (he : eventOf s l = some e) : Alone (view s) e := by
  obtain ⟨p, a⟩ := l
  cases e with
  | see q =>
    obtain ⟨rfl, htimed, hf⟩ := eventOf_see he
    intro r hr
    exact hok htimed hf r (role_accepting.mp hr)
  | _ => trivial

theorem step_exclusive {s t : State P} {l : P × Act} (hs : ∀ q, (s.pc q).sane)
    (hx : Exclusive (view s)) (hok : ReadsAlone s l) (h : step s l = some t) :
    Exclusive (view t) := by
  have ha := step_answers hs h
  cases he : eventOf s l with
  | none =>
    rw [he] at ha
    exact ha ▸ hx
  | some e =>
    rw [he] at ha
    exact exclusive_next hx (alone_of_readsAlone hok he) ha

omit [DecidableEq P] in
theorem readsAlone_of_fair {s : State P} (hf : fair s.word = false) (l : P × Act) :
    ReadsAlone s l := by
  obtain ⟨p, a⟩ := l
  cases a with
  | next => exact fun _ h => by simp [hf] at h
  | _ => trivial

/-- The step that breaks `ReadsAlone` lets two waiters return from `lock_inner` with the
lock. -/
theorem both_take {s : State P} {p q : P} (hne : p ≠ q) (hp : s.pc p = .fairClear)
    (hq : s.pc q = .fairClear) :
    ∃ t, run step s [(p, .next), (q, .next)] = some t ∧ (t.pc p).owns ∧ (t.pc q).owns := by
  refine ⟨_, by simp [run, step, hp, hq, atomic, hne.symm]; rfl, ?_, ?_⟩ <;>
    simp [Pc.owns, Leave.owns, hne]

/-- Mutual exclusion over the whole API. In every run in which `ReadsAlone` holds at each
step, at most one party owns the lock and at most one is turning a `FAIR_BIT` into
ownership, never both; and a step that breaks the condition can be followed by two steps
after which two waiters own the lock. -/
theorem mutual_exclusion :
    (∀ s : State P, Reach step ReadsAlone init s →
      (∀ p q, (s.pc p).owns → (s.pc q).owns → p = q) ∧
      (∀ p q, s.pc p = .fairClear → s.pc q = .fairClear → p = q) ∧
      (∀ p q, (s.pc p).owns → s.pc q ≠ .fairClear)) ∧
    (∀ (s t : State P) (l : P × Act), ¬ ReadsAlone s l → step s l = some t →
      ∃ p q u, p ≠ q ∧ run step t [(p, .next), (q, .next)] = some u ∧
        (u.pc p).owns ∧ (u.pc q).owns) := by
  constructor
  · intro s h
    have hx := reach_exclusive (reach_view (fun _ _ _ => alone_of_readsAlone) h)
    exact ⟨fun p q hp hq => hx.one_owner p q (role_owner.mpr hp) (role_owner.mpr hq),
      fun p q hp hq => hx.one_accepting p q (role_accepting.mpr hp) (role_accepting.mpr hq),
      fun p q hp hq => hx.owner_alone p q (role_owner.mpr hp) (role_accepting.mpr hq)⟩
  · rintro s t ⟨p, a⟩ hno h
    cases a with
    | next =>
      simp only [ReadsAlone, not_forall, not_not] at hno
      obtain ⟨⟨timed, hpc⟩, hf, q, hq⟩ := hno
      have hne : p ≠ q := by
        rintro rfl
        simp [hpc] at hq
      simp only [step, hpc, atomic, hf, if_true, Option.some.injEq] at h
      subst t
      obtain ⟨u, hu, hpo, hqo⟩ := both_take (s := s.commit p .fairClear s.word) hne (by simp)
        (by simpa [hne.symm] using hq)
      exact ⟨p, q, u, hne, hu, hpo, hqo⟩
    | _ => exact absurd trivial hno

instance [Fintype P] (s : State P) (l : P × Act) : Decidable (ReadsAlone s l) :=
  match l with
  | (p, .next) =>
    inferInstanceAs (Decidable ((∃ timed, s.pc p = .fairLoad timed) → fair s.word = true →
      ∀ q, s.pc q ≠ .fairClear))
  | (_, .start _) | (_, .release _) | (_, .timeout) | (_, .dropFuture) => isTrue trivial

def nexts (p : P) (n : Nat) : List (P × Act) := List.replicate n (p, .next)

def timedSleeps (p q : P) : List (P × Act) :=
  (p, .start (.lockInner false)) :: nexts p 1 ++ (q, .start (.lockInner true)) :: nexts q 8

/-- Party 0 owns the lock, 1 and 2 queue up; 0 unlocks, which wakes 1, takes the lock again
before 1 looks, and hands it to 2. -/
def handOverBehindWaiter : List (Fin 3 × Act) :=
  (0, .start (.lockInner false)) :: nexts 0 1 ++
  (1, .start (.lockInner false)) :: nexts 1 8 ++
  (2, .start (.lockInner false)) :: nexts 2 6 ++
  (0, .release .unlock) :: nexts 0 5 ++
  (0, .start .tryLock) :: nexts 0 2 ++
  (0, .release .unlockFair) :: nexts 0 5 ++
  nexts 1 1 ++ nexts 2 1

/-- The run above meets the condition until 2 reads the bit as well; when 1 clears the bit
first it owns the lock alone. -/
theorem mutual_exclusion_handOver :
    (∃ s : State (Fin 3), Reach step ReadsAlone init s ∧ (s.pc 1).owns ∧
      ∀ q, (s.pc q).owns → q = 1) ∧
    ∃ s t u : State (Fin 3), ∃ p q, p ≠ q ∧ step s (2, .next) = some t ∧
      run step t [(p, .next), (q, .next)] = some u ∧ (u.pc p).owns ∧ (u.pc q).owns := by
  constructor
  · have hr : ((run (restrict step ReadsAlone) init (handOverBehindWaiter ++ nexts 1 2)).map
        fun s => (s.pc 1).owns) = some true := by decide
    obtain ⟨s, hs, ho⟩ := Option.map_eq_some_iff.mp hr
    have hreach := restrict_run_reach hs
    exact ⟨s, hreach, ho, fun q hq => (mutual_exclusion.1 s hreach).1 q 1 hq ho⟩
  · have hr : ((run step init (handOverBehindWaiter ++ nexts 1 1)).map
        fun s => (decide (ReadsAlone s (2, .next)), (step s (2, .next)).isSome)) =
          some (false, true) := by decide
    obtain ⟨s, hs, ho⟩ := Option.map_eq_some_iff.mp hr
    simp only [Prod.mk.injEq, decide_eq_false_iff_not, Option.isSome_iff_exists] at ho
    obtain ⟨hno, t, ht⟩ := ho
    obtain ⟨p, q, u, hne, hu, hp, hq⟩ := mutual_exclusion.2 s t (2, .next) hno ht
    exact ⟨s, t, u, p, q, hne, ht, hu, hp, hq⟩

/-- Both waiters read `FAIR_BIT` set before either clears it: both own the lock. -/
theorem two_owners : ¬ ∀ s : State (Fin 3), Reach step (fun _ l => l.2.blocking) init s →
    ∀ p q, (s.pc p).owns → (s.pc q).owns → p = q := by
  have hr : ((run (restrict step fun _ l => l.2.blocking) init
      (handOverBehindWaiter ++ nexts 1 1 ++ nexts 2 1 ++ nexts 1 1 ++ nexts 2 1)).map
      fun s => ((s.pc 1).owns, (s.pc 2).owns)) = some (true, true) := by decide
  obtain ⟨s, hs, ho⟩ := Option.map_eq_some_iff.mp hr
  simp only [Prod.mk.injEq] at ho
  intro h
  exact absurd (h s (restrict_run_reach hs) 1 2 ho.1 ho.2) (by decide)

end Colock.RawMutex
