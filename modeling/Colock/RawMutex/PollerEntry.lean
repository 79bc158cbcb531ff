import Colock.RawMutex.Exclusion
import Colock.RawMutex.WellFormed

/-! The queue entry of a `RawMutexPoller`: a poll that returns `Pending` leaves one with the
waker it was given, and a poll that returns `Ready` leaves none, unless its `try_lock` succeeds
while the node of the poll before is still linked. -/
namespace Colock.RawMutex
open Transition
variable {P : Type*} [DecidableEq P]

def notePoll (_ : State P) : P × Act → (P → Option Nat) → P → Option Nat
  | (p, .start (.poll cx)), latest => Function.update latest p (some cx)
  | _, latest => latest

def Call.task : Call → Option Nat
  | .poll cx => some cx
  | _ => none

def Leave.task : Leave → Option Nat
  | .renew cx => some cx
  | _ => none

/-- Inside a poll that has not yet queued its new node, with that task waker. -/
def Pc.polls : Pc P → Option Nat
  | .cas c _ | .lockPush c | .loadState c | .sleepCas c _ | .pushHead c => c.task
  | .dropNode k | .lockDrop k | .removeNode k | .unlockQueue (.dropped k) => k.task
  | _ => none

/-- Owning the lock outside every attempt to acquire it, or inside a release. -/
def Pc.served : Pc P → Bool
  | .holding | .bumpLoad | .fetchUnlock _ | .lockPop _ | .popTail _ | .mark _ _ | .onEmpty
  | .wake _ _ _ | .clearWait _ | .unlockQueue (.released _) => true
  | _ => false

def Pc.pollTakes (w : Word) : Pc P → Bool
  | .cas (.poll _) expected => w == expected
  | _ => false

/-- A pending future has one entry at most, with the waker of its latest poll; a party that
returned with the lock has none, and never pops its own. -/
structure EntryWhileWaiting (s : State P × (P → Option Nat)) : Prop where
  single : (s.1.queue.map Entry.owner).Nodup
  pending : ∀ p, s.1.pc p = .idle → ∀ e ∈ s.1.queue, e.owner = p →
    ∃ cx, s.2 p = some cx ∧ e.data = ⟨none, .task cx⟩
  ready : ∀ p, s.1.pc p = .holding → s.1.Off p
  others : ∀ p r e, s.1.pc p = .popTail r → s.1.queue.getLast? = some e → e.owner ≠ p

/-- The `try_lock` of a poll succeeds only when no node of the future is linked. -/
def TakesUnlinked (s : State P × (P → Option Nat)) : P × Act → Prop
  | (p, .next) => (s.1.pc p).pollTakes s.1.word = true → s.1.Off p
  | _ => True

structure Tidy (s : State P × (P → Option Nat)) : Prop extends WellFormed s.1 where
  off : ∀ p, (s.1.pc p).served = true → s.1.Off p
  latest : ∀ p cx, (s.1.pc p).polls = some cx → s.2 p = some cx
  carries : ∀ e ∈ s.1.queue, e.data.parker = none → (s.1.pc e.owner).polls = none →
    ∃ cx, s.2 e.owner = some cx ∧ e.data = ⟨none, .task cx⟩

omit [DecidableEq P] in
theorem Flow.served {w : Word} {a : Act} {c d : Pc P} (h : Flow w a c d) (hd : d.served = true) :
    c.served = true ∨ c.slot.implies .off = true ∨ (a = .next ∧ c.pollTakes w = true) ∨
      ∃ k, c = .dropNode k ∧ d = k.next := by
  cases h with
  | casTaken call =>
    cases call with
    | poll cx => exact .inr (.inr (.inl ⟨rfl, by simp [Pc.pollTakes]⟩))
    | tryLock | lockInner timed => exact .inr (.inl rfl)
  | dropOff k => exact .inr (.inr (.inr ⟨k, rfl, rfl⟩))
  | dropped k => exact .inr (.inl rfl)
  | aborted call => exact .inr (.inl (by cases call <;> rfl))
  | _ => simp_all [Pc.served]

theorem step_served {s t : State P} {p : P} {a : Act} (hs : WellFormed s)
    (h : step s (p, a) = some t) (hserved : (t.pc p).served = true) :
    (s.pc p).served = true ∨ s.Off p ∨ a = .next ∧ (s.pc p).pollTakes s.word = true := by
  rcases (step_flow h).served hserved with hp | hoff | htakes | ⟨k, hpc, -⟩
  · exact .inl hp
  · exact .inr (.inl (hs.weaken hoff))
  · exact .inr (.inr htakes)
  · cases step_cases h with
    | dropOff k hpc hoff => exact .inr (.inl (off_of_isOnList hs.toShape hoff))
    | dropLinked k => simp [Pc.served] at hserved
    | dropFuture held => simp [Pc.served] at hserved
    | _ => simp_all

omit [DecidableEq P] in
/-- A poll begins by its own call, and ends by taking the lock, by linking its node, or
without one. -/
theorem Flow.polls {w : Word} {a : Act} {c d : Pc P} (h : Flow w a c d) :
    (∃ cx, a = .start (.poll cx) ∧ d.polls = some cx ∧ c.polls = none) ∨
    (∀ cx, a ≠ .start (.poll cx)) ∧ (d.polls = c.polls ∨ d.polls = none ∧
      ((∃ call, d = .unlockQueue (.aborted call)) ∨ (∃ call, c = .pushHead call) ∨
        a = .next ∧ c.pollTakes w = true)) := by
  cases h with
  | start call =>
    cases call with
    | poll cx => exact .inl ⟨cx, rfl, rfl, rfl⟩
    | tryLock | lockInner timed => exact .inr ⟨by simp, .inl rfl⟩
  | casTaken call =>
    cases call with
    | poll cx => exact .inr ⟨by simp, .inr ⟨rfl, .inr (.inr ⟨rfl, by simp [Pc.pollTakes]⟩)⟩⟩
    | tryLock | lockInner timed => exact .inr ⟨by simp, .inl rfl⟩
  | sleepTaken call => exact .inr ⟨by simp, .inr ⟨rfl, .inl ⟨call, rfl⟩⟩⟩
  | pushHead call => exact .inr ⟨by simp, .inr ⟨rfl, .inr (.inl ⟨call, rfl⟩)⟩⟩
  | dropOff k | dropped k =>
    cases k with
    | future held => cases held <;> exact .inr ⟨by simp, .inl rfl⟩
    | _ => exact .inr ⟨by simp, .inl rfl⟩
  | fetchAlone r | released r => cases r <;> exact .inr ⟨by simp, .inl rfl⟩
  | _ => exact .inr ⟨by simp, .inl rfl⟩

theorem step_polls {s t : State P} {p : P} {a : Act} (hs : WellFormed s)
    (h : step s (p, a) = some t) :
    (∃ cx, a = .start (.poll cx) ∧ (t.pc p).polls = some cx ∧ (s.pc p).polls = none) ∨
    (∀ cx, a ≠ .start (.poll cx)) ∧ ((t.pc p).polls = (s.pc p).polls ∨
      (t.pc p).polls = none ∧ (t.Off p ∨ (∃ c, s.pc p = .pushHead c) ∨
        a = .next ∧ (s.pc p).pollTakes s.word = true)) := by
  have hwf := step_wellFormed hs h
  refine (step_flow h).polls.imp_right fun ⟨hne, hp⟩ => ⟨hne, hp.imp_right fun ⟨hnone, hends⟩ =>
    ⟨hnone, hends.imp_left fun ⟨call, hc⟩ => hwf.weaken (a := .off) ?_⟩⟩
  cases call <;> simp [hc, Pc.slot, Call.aborted, Slot.implies]

omit [DecidableEq P] in
theorem Tidy.entryWhileWaiting {s : State P × (P → Option Nat)} (hs : Tidy s) :
    EntryWhileWaiting s := by
  refine ⟨hs.owners, ?_, fun p hpc => hs.off p (by rw [hpc]; rfl), ?_⟩
  · rintro p hpc e he rfl
    refine hs.carries e he ?_ (by rw [hpc]; rfl)
    have hslot : Slot.task.Holds s.1 e.owner := hs.weaken (by rw [hpc]; rfl)
    exact hslot e he rfl
  · exact fun p r e hpc he => hs.off p (by rw [hpc]; rfl) e (List.mem_of_getLast? he)

theorem notePoll_others (s : State P) (latest : P → Option Nat) {p q : P} (a : Act) (h : q ≠ p) :
    notePoll s (p, a) latest q = latest q := by
  cases a with
  | start c => cases c <;> simp [notePoll, h]
  | _ => rfl

theorem notePoll_of_ne (s : State P) (latest : P → Option Nat) (p : P) {a : Act}
    (h : ∀ cx, a ≠ .start (.poll cx)) : notePoll s (p, a) latest = latest := by
  cases a with
  | start c =>
    cases c with
    | poll cx => exact absurd rfl (h cx)
    | _ => rfl
  | _ => rfl

theorem step_tidy {s t : State P} {latest : P → Option Nat} {p : P} {a : Act}
    (hs : Tidy (s, latest)) (hok : TakesUnlinked (s, latest) (p, a))
    (h : step s (p, a) = some t) : Tidy (t, notePoll s (p, a) latest) := by
  have hpc : ∀ q, q ≠ p → t.pc q = s.pc q := fun q => step_others h
  have hoff : ∀ q, s.Off q → (q = p → ∀ c, s.pc p ≠ .pushHead c) → t.Off q := by
    rintro q ho hpush e he rfl
    rcases mem_queue_step h he with he | ⟨c, i, hc, -, rfl⟩
    · exact ho e he rfl
    · exact hpush rfl c hc
  have hpush : ∀ c, s.pc p = .pushHead c → t.pc p = .unlockQueue (.pushed c) := by
    intro c hc
    obtain ⟨i, -, rfl⟩ := step_pushHead hc h
    simp
  have hunlinked : a = .next ∧ (s.pc p).pollTakes s.word = true → s.Off p := by
    rintro ⟨rfl, htakes⟩
    exact hok htakes
  refine ⟨step_wellFormed hs.toWellFormed h, ?_, ?_, ?_⟩
  · intro q hserved
    by_cases hq : q = p
    · subst q
      refine hoff p ?_ fun _ c hc => by simp [hpush c hc, Pc.served] at hserved
      rcases step_served hs.toWellFormed h hserved with hp | ho | htakes
      · exact hs.off p hp
      · exact ho
      · exact hunlinked htakes
    · exact hoff q (hs.off q (hpc q hq ▸ hserved)) fun hqp => absurd hqp hq
  · intro q cx hpolls
    change notePoll s (p, a) latest q = some cx
    by_cases hq : q = p
    · subst q
      rcases step_polls hs.toWellFormed h with ⟨cx', rfl, hp, -⟩ | ⟨hne, hp | ⟨hp, -⟩⟩
      · obtain rfl : cx' = cx := Option.some.inj (hp.symm.trans hpolls)
        simp [notePoll]
      · rw [notePoll_of_ne s latest p hne]
        exact hs.latest p cx (hp ▸ hpolls)
      · exact absurd (hp.symm.trans hpolls) (by simp)
    · rw [notePoll_others s latest a hq]
      exact hs.latest q cx (hpc q hq ▸ hpolls)
  · intro e he hparker hpolls
    change ∃ cx, notePoll s (p, a) latest e.owner = some cx ∧ _
    by_cases hq : e.owner = p
    · rcases step_polls hs.toWellFormed h with ⟨cx, -, hp, -⟩ | ⟨hne, hsame⟩
      · exact absurd (hp.symm.trans (hq ▸ hpolls)) (by simp)
      rw [notePoll_of_ne s latest p hne]
      rcases mem_queue_step h he with hes | ⟨c, i, hc, -, rfl⟩
      · rcases hsame with hp | ⟨-, ho | ⟨c, hc⟩ | htakes⟩
        · exact hs.carries e hes hparker (by rw [hq]; exact hp ▸ hq ▸ hpolls)
        · exact absurd hq (ho e he)
        · -- whoever is about to link a node has none linked
          have ho : Slot.off.Holds s p := hs.weaken (by rw [hc]; cases c <;> rfl)
          exact absurd hq (ho e hes)
        · exact absurd hq (hunlinked htakes e hes)
      · cases c with
        | poll cx => exact ⟨cx, hs.latest p cx (by simp [hc, Pc.polls, Call.task]), rfl⟩
        | _ => simp [Call.waker] at hparker
    · rw [notePoll_others s latest a hq]
      rcases mem_queue_step h he with hes | ⟨c, i, hc, -, rfl⟩
      · exact hs.carries e hes hparker (hpc _ hq ▸ hpolls)
      · exact absurd rfl hq

/-- Every state of a run has the entries of pending futures and no others if and only if each
`try_lock` of a poll that succeeds in the run finds the future without a linked node. -/
theorem entry_while_waiting {s : State P × (P → Option Nat)} {ls : List (P × Act)}
    (h : run (recorded step notePoll) (init, fun _ => none) ls = some s) :
    Visits (recorded step notePoll) EntryWhileWaiting (init, fun _ => none) ls ↔
      Meets (recorded step notePoll) TakesUnlinked (init, fun _ => none) ls := by
  refine visits_iff_meets (I := Tidy) (fun _ => Tidy.entryWhileWaiting)
    ?_ ?_ ⟨wellFormed_init, ?_, ?_, ?_⟩ (meets_any _ _) h
  · rintro ⟨s, latest⟩ ⟨p, a⟩ ⟨t, latest'⟩ hs - hok h
    obtain ⟨h, hl⟩ := recorded_eq h
    cases hl
    exact step_tidy hs hok h
  · rintro ⟨s, latest⟩ ⟨p, a⟩ ⟨t, latest'⟩ - - hno h hP
    obtain ⟨h, -⟩ := recorded_eq h
    cases a with
    | next =>
      simp only [TakesUnlinked, Classical.not_imp] at hno
      obtain ⟨htakes, hlinked⟩ := hno
      cases hpc : s.pc p with
      | cas c expected =>
        cases c with
        | poll cx =>
          obtain rfl : s.word = expected := by simpa [hpc, Pc.pollTakes] using htakes
          simp only [step, hpc, atomic, if_true, Option.some.injEq] at h
          subst t
          exact hlinked (hP.ready p (by simp))
        | _ => simp [hpc, Pc.pollTakes] at htakes
      | _ => simp [hpc, Pc.pollTakes] at htakes
    | _ => exact hno trivial
  all_goals simp [init, Pc.served, Pc.polls]

instance (s : State P × (P → Option Nat)) (l : P × Act) : Decidable (TakesUnlinked s l) :=
  match l with
  | (p, .next) =>
    inferInstanceAs (Decidable ((s.1.pc p).pollTakes s.1.word = true → ∀ e ∈ s.1.queue, e.owner ≠ p))
  | (_, .start _) | (_, .release _) | (_, .timeout) | (_, .dropFuture) => isTrue trivial

def polledTwice (p q : P) : List (P × Act) :=
  (p, .start .tryLock) :: nexts p 1 ++ (q, .start (.poll 0)) :: nexts q 8 ++
    (q, .start (.poll 1)) :: nexts q 9

theorem entry_while_waiting_twice : ∃ s : State (Fin 2) × (Fin 2 → Option Nat),
    s.1.queue = [⟨1, 1, none, .task 1⟩] ∧ s.1.pc 1 = .idle ∧
    run (recorded step notePoll) (init, fun _ => none) (polledTwice 0 1) = some s ∧
    Visits (recorded step notePoll) EntryWhileWaiting ((init : State (Fin 2)), fun _ => none)
      (polledTwice 0 1) := by
  have hr : ((run (restrict (recorded step notePoll) TakesUnlinked)
      ((init : State (Fin 2)), fun _ => none) (polledTwice 0 1)).map
        fun s => (s.1.queue, s.1.pc 1)) = some ([⟨1, 1, none, .task 1⟩], .idle) := by decide
  obtain ⟨s, hs, ho⟩ := Option.map_eq_some_iff.mp hr
  simp only [Prod.mk.injEq] at ho
  obtain ⟨hm, hrun⟩ := restrict_run_meets hs
  exact ⟨s, ho.1, ho.2, hrun, (entry_while_waiting hrun).mpr hm⟩

/-- The future 1 and the thread 2 wait; 0 unlocks, which wakes 2; a spurious poll of 1 takes
the lock and leaves its entry behind; 2 queues up again; 1 unlocks and pops itself. -/
theorem ready_pops_itself : ¬ ∀ s : State (Fin 3), Reach step anyStep init s →
    ∀ p r e, s.pc p = .popTail r → s.queue.getLast? = some e → e.owner ≠ p := by
  have hr : ((run step (init : State (Fin 3)) ((0, .start .tryLock) :: nexts 0 1 ++
      (2, .start (.lockInner false)) :: nexts 2 8 ++ (1, .start (.poll 0)) :: nexts 1 6 ++
      (0, .release .unlock) :: nexts 0 5 ++ (1, .start (.poll 0)) :: nexts 1 2 ++
      nexts 2 9 ++ (1, .release .unlock) :: nexts 1 2)).map
      fun s => (s.pc 1, s.queue.length, s.queue.getLast?.map Entry.owner)) =
        some (.popTail .unlock, 2, some 1) := by decide
  obtain ⟨s, hs, ho⟩ := Option.map_eq_some_iff.mp hr
  simp only [Prod.mk.injEq, Option.map_eq_some_iff] at ho
  obtain ⟨hpc, -, e, he, howner⟩ := ho
  intro h
  exact h s (run_reach (meets_any _ _) hs) 1 .unlock e hpc he howner

end Colock.RawMutex
