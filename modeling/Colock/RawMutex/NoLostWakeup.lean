import Colock.RawMutex.Wakeup

/-! Waits of `RawMutex` that are not cancelled: while the lock is free and a waiter is queued, an
`unlock` has yet to pop or a popped waiter is about to try again. -/
namespace Colock.RawMutex
open Transition HandOff
variable {P : Type*} [DecidableEq P] {s t : State P} {ready : P → Bool} {p : P}

/-- `lock`, `lock_async` polled to the end, `try_lock`, `unlock` and `bump`. -/
def Uncancelled (s : State P) : P × Act → Prop
  | (_, .next) => True
  | (_, .start c) => c ≠ .lockInner true
  | (p, .release r) => r ≠ .unlockFair ∧ s.node p = none
  | (_, .timeout) => False
  | (p, .dropFuture) => s.pc p = .holding

omit [DecidableEq P] in
theorem Flow.quits {w : Word} {a : Act} {c d : Pc P} (h : Flow w a c d) (hc : c.quits = false)
    (hd : d.quits = true) : a = .timeout ∨ a = .dropFuture ∧ c = .idle := by
  cases h with
  | timeout => exact .inl rfl
  | dropPending => exact .inr ⟨rfl, rfl⟩
  | dropOff k | dropped k =>
    cases k with
    | future held => cases held <;> simp [Leave.next, Pc.quits] at hd
    | _ => simp [Leave.next, Pc.quits] at hd
  | fetchAlone r | released r => cases r <;> simp [afterRelease, Pc.quits] at hd
  | _ => simp_all [Pc.quits, Leave.quits]

theorem step_quits {l : P × Act} (hl : Uncancelled s l) (hs : ∀ q, (s.pc q).quits = false)
    (h : step s l = some t) (q : P) : (t.pc q).quits = false := by
  obtain ⟨p, a⟩ := l
  by_cases hq : q = p
  · subst q
    by_contra hquits
    rcases (step_flow h).quits (hs p) (by simpa using hquits) with rfl | ⟨rfl, hpc⟩
    · exact hl
    · have hholding : s.pc p = .holding := hl
      simp [hpc] at hholding
  · rw [step_others h hq]
    exact hs q

omit [DecidableEq P] in
@[simp] theorem next_releases (k : Leave) : (k.next : Pc P).releases = false := by
  cases k with
  | future held => cases held <;> rfl
  | _ => rfl

omit [DecidableEq P] in
theorem Flow.releases {w : Word} {a : Act} {c d : Pc P} (h : Flow w a c d) (hc : c.plain = true)
    (hd : d.releases = true) : c.releases = true ∨ ∃ r, a = .release r := by
  cases h with
  | unlock | bump | unlockFair => exact .inr ⟨_, rfl⟩
  | dropOff k | dropped k => simp at hd
  | fetchAlone r | released r => exact .inl rfl
  | fairNone | fairTail => simp [Pc.plain] at hc
  | mark e n | onEmpty => simp [Pc.plain] at hc
  | _ => simp_all [Pc.releases]

theorem StepOf.releases {a : Act} (h : StepOf s p a t) (ht : (t.pc p).releases = true) :
    t.node p = s.node p := by
  cases h with
  | prepare timed => simp [Pc.releases] at ht
  | dropOff k => simp at ht
  | unlockQueue b =>
    cases b with
    | dropped k => simp [State.release] at ht
    | pushed c | aborted c => cases c <;> rfl
    | released r => rfl
  | wake r e n => simp
  | _ => rfl

/-- What holds while no wait is cancelled and no future is kept after it returned `Ready`. -/
structure Patient (s : State P) : Prop extends Tended s (fun _ => false) where
  quits : ∀ q, (s.pc q).quits = false
  bare : ∀ q, (s.pc q).releases = true → s.node q = none

theorem Patient.bare_step {l : P × Act} (hs : Patient s) (hl : Uncancelled s l)
    (h : step s l = some t) (q : P) (hq : (t.pc q).releases = true) : t.node q = none := by
  obtain ⟨p, a⟩ := l
  by_cases hqp : q = p
  · subst q
    rw [(step_cases h).releases hq]
    rcases (step_flow h).releases (hs.party p).plain hq with hold | ⟨r, rfl⟩
    · exact hs.bare p hold
    · exact hl.2
  · rw [(step_nodes h).others hqp]
    rw [step_others h hqp] at hq
    exact hs.bare q hq

theorem noteReady_owns {l : P × Act} (h : step s l = some t) {q : P}
    (hq : noteReady s l (fun _ => false) q = true) : (t.pc q).owns = true := by
  obtain ⟨p, a⟩ := l
  cases step_cases h with
  | casTaken c _ hpc hw =>
    by_cases hqp : q = p
    · simp [hqp, Pc.owns]
    · cases c <;> simp [noteReady, hpc, hw, hqp] at hq
  | casFailed c _ hpc hw | casRetry c _ hpc hw => cases c <;> simp [noteReady, hpc, hw] at hq
  | pushHead c i hpc => simp [noteReady, hpc, Function.update_apply] at hq
  | unlockQueue b hpc =>
    cases b with
    | aborted c =>
      by_cases hqp : q = p
      · cases c <;> simp [hqp, State.release, Pc.owns, Leave.owns]
      · cases c <;> simp [noteReady, hpc, hqp] at hq
    | _ => simp [noteReady, hpc] at hq
  | start _ hpc | release _ hpc | timeout hpc | dropFuture _ hpc => simp [noteReady] at hq
  | _ => simp_all [noteReady]

omit [DecidableEq P] in
/-- Futures that own the lock need not be told apart. -/
theorem Tended.forget (hs : Tended s ready) (hready : ∀ q, ready q = true → (s.pc q).owns = true) :
    Tended s fun _ => false := by
  refine { hs with served := ?_ }
  by_cases h : ∃ q, ready q = true
  · obtain ⟨q, hq⟩ := h
    exact .inl (hs.exclusive.owner_bits q (role_owner.mpr (hready q hq))).1
  · have hnone : ready = fun _ => false := funext fun q => by simpa using not_exists.mp h q
    exact hnone ▸ hs.served

omit [DecidableEq P] in
theorem slot_of_mem {e : Entry P} (hs : WellFormed s) (he : e ∈ s.queue) :
    (s.pc e.owner).slot = .thread ∨ (s.pc e.owner).slot = .task := by
  have hslot := (hs.fits e.owner).slot
  cases h : (s.pc e.owner).slot with
  | thread => exact .inl rfl
  | task => exact .inr rfl
  | never => rw [h] at hslot; exact hslot.elim
  | bare => rw [h] at hslot; simp [Slot.Holds, hs.linked e he] at hslot
  | fresh => rw [h] at hslot; exact absurd rfl (hslot.2 e he)
  | off => rw [h] at hslot; exact absurd rfl (hslot e he)

omit [DecidableEq P] in
/-- Whose entry is on the queue goes on waiting, or owns the lock already. -/
theorem Patient.owner_retries {e : Entry P} (hs : Patient s) (he : e ∈ s.queue)
    (hin : (s.pc e.owner).inSection = false) (ho : (s.pc e.owner).owns = false) :
    (s.pc e.owner).retries = true := by
  have hslot := slot_of_mem hs.toWellFormed he
  have hplain := (hs.party e.owner).plain
  have hquits := hs.quits e.owner
  have hbare : (s.pc e.owner).releases = false := by
    by_contra hr
    have hn := hs.bare e.owner (by simpa using hr)
    simp [hs.linked e he] at hn
  generalize s.pc e.owner = c at *
  cases c with
  | cas call expected => cases call <;> simp_all [Pc.slot, Pc.retries, Call.waits]
  | dropNode k | lockDrop k =>
    cases k <;> simp_all [Pc.owns, Leave.owns, Pc.retries, Pc.quits, Leave.retries, Leave.quits]
  | idle | park timed | fairLoad timed => rfl
  | lockPush call => cases call <;> simp [Pc.slot, Call.fresh] at hslot
  | _ => simp_all [Pc.slot, Pc.inSection, Pc.owns, Pc.releases, Pc.plain]

omit [DecidableEq P] in
theorem Patient.passesOn {l : P × Act} (hs : Patient s) (hl : Uncancelled s l) :
    Plain l ∧ PassesOn s (fun _ => false) l := by
  obtain ⟨p, a⟩ := l
  cases a with
  | next =>
    refine ⟨trivial, fun ⟨hpops, hin⟩ e he hno => ?_⟩
    have he : e ∈ s.queue := List.mem_of_getLast? he
    have hreleases : (s.pc p).releases = true := by
      cases hpc : s.pc p <;> simp_all [Pc.pops, Pc.releases]
    have hother : (s.pc e.owner).inSection = false := by
      by_contra hown
      have hl : s.qlock = some e.owner := hs.locked (by simpa using hown)
      obtain rfl : e.owner = p := Option.some.inj (hl.symm.trans (hs.locked hin))
      simpa [hs.linked e he] using hs.bare _ hreleases
    cases ho : (s.pc e.owner).owns with
    | true => exact .inl (hs.exclusive.owner_bits e.owner (role_owner.mpr ho)).1
    | false => exact absurd ⟨hs.owner_retries he hother ho, fun _ => rfl⟩ hno
  | start c => exact ⟨trivial, trivial⟩
  | release r => exact ⟨hl.1, trivial⟩
  | timeout => exact hl.elim
  | dropFuture =>
    refine ⟨trivial, fun hpc => ?_⟩
    have hl : s.pc p = .holding := hl
    simp [hl] at hpc

theorem Patient.keeps {l : P × Act} (hs : Patient s) (hl : Uncancelled s l)
    (h : step s l = some t) : Patient t where
  toTended := (step_tended hs.toTended (hs.passesOn hl).1 (hs.passesOn hl).2 h).forget
    fun _ => noteReady_owns h
  quits := step_quits hl hs.quits h
  bare := hs.bare_step hl h

omit [DecidableEq P] in
theorem patient_init : Patient (init : State P) where
  toTended := tended_init
  quits _ := rfl
  bare _ _ := rfl

theorem reach_patient (h : Reach step Uncancelled init s) : Patient s :=
  h.invariant patient_init fun _ _ _ hs hl h => hs.keeps hl h

/-- No wake-up is lost while no wait is cancelled: when the lock is free and somebody is queued,
an `unlock` has yet to pop, or a popped waiter is off the queue, without the lock, and on its
way to the next attempt. -/
theorem no_lost_wakeup (s : State P) (h : Reach step Uncancelled init s)
    (hl : locked s.word = false) (hq : s.queue ≠ []) :
    (∃ p, (s.pc p).pops = true) ∨ ∃ q, s.woken q = true ∧ (s.pc q).retries = true ∧
      (s.pc q).owns = false ∧ (s.pc q = .idle → s.node q ≠ none) ∧ s.Off q := by
  have hs := reach_patient h
  rcases hs.served with hlocked | hall | ⟨q, hpops | ⟨hw, hr⟩⟩
  · simp [hl] at hlocked
  · obtain ⟨e, he⟩ := List.exists_mem_of_ne_nil _ hq
    simp [State.gone, hs.quits] at hall
    exact absurd he (hall e)
  · exact .inl ⟨q, hpops⟩
  · refine .inr ⟨q, hw, hr.1, (hs.party q).free hw, (hs.party q).pending hw, ?_⟩
    rintro e he rfl
    simp [hs.asleep e he] at hw

instance (s : State P) (l : P × Act) : Decidable (Uncancelled s l) :=
  match l with
  | (_, .next) => isTrue trivial
  | (_, .start c) => inferInstanceAs (Decidable (c ≠ .lockInner true))
  | (p, .release r) => inferInstanceAs (Decidable (r ≠ .unlockFair ∧ s.node p = none))
  | (_, .timeout) => isFalse id
  | (p, .dropFuture) => inferInstanceAs (Decidable (s.pc p = .holding))

/-- Party 0 owns the lock, 1 blocks, and the future 2 is pending; 0 unlocks. -/
theorem no_lost_wakeup_unlock : ∃ s : State (Fin 3), Reach step Uncancelled init s ∧
    s.queue ≠ [] ∧ locked s.word = false ∧
    ((∃ p, (s.pc p).pops = true) ∨ ∃ q, s.woken q = true ∧ (s.pc q).retries = true ∧
      (s.pc q).owns = false ∧ (s.pc q = .idle → s.node q ≠ none) ∧ s.Off q) := by
  have hr : ((run (restrict step Uncancelled) init
      ((0, .start (.lockInner false)) :: nexts 0 1 ++
      (1, .start (.lockInner false)) :: nexts 1 8 ++ (2, .start (.poll 0)) :: nexts 2 6 ++
      (0, .release .unlock) :: nexts 0 5)).map fun s : State (Fin 3) =>
        (s.queue.length, locked s.word)) = some (1, false) := by decide
  obtain ⟨s, hs, ho⟩ := Option.map_eq_some_iff.mp hr
  simp only [Prod.mk.injEq] at ho
  have hq : s.queue ≠ [] := by
    rintro hnil
    simp [hnil] at ho
  have hreach := restrict_run_reach hs
  exact ⟨s, hreach, hq, ho.2, no_lost_wakeup s hreach ho.2 hq⟩

end Colock.RawMutex
