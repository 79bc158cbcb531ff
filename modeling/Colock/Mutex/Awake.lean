import Colock.Mutex.Impl
import Colock.MiniLock.Impl

/-! Threads and tasks that use the mutex never all wait, and the queue inside it is a client of
`MiniLock`. -/
namespace Colock.RawMutex
open Transition LockImpl HandOff
variable {P : Type*} [DecidableEq P]

omit [DecidableEq P] in
theorem next_ne (k : Leave) : (k.next : Pc P) ≠ .dropNode k := by
  cases k with
  | future held => cases held <;> simp [Leave.next]
  | _ => simp [Leave.next]

theorem step_changes {s t : State P} {p : P} {a : Act} (hs : Composed s)
    (h : step s (p, a) = some t) : t ≠ s := by
  have moved : t.pc p ≠ s.pc p → t ≠ s := fun hne heq => hne (by rw [heq])
  cases step_cases h with
  | sleepMark c current hpc hl hw =>
    intro heq
    have hword : lockedBit ||| waitBit = s.word := congrArg State.word heq
    rw [hw] at hword
    exact absurd hword (by decide)
  | sleepReload c current hpc hw =>
    refine moved ?_
    have hstale : s.word ≠ current := by
      rintro rfl
      split at hw
      · next hl => exact hw (hs.snapshot p c _ hpc hl)
      · exact hw rfl
    simp only [commit_fields, Function.update_self, hpc, sleepNext]
    split
    · simp
    · simpa using hstale
  | loadState c hpc =>
    refine moved ?_
    simp only [commit_fields, Function.update_self, hpc, sleepNext]
    split <;> simp
  | dropOff k hpc => exact moved (by simpa [hpc] using next_ne k)
  | unlockQueue b hpc =>
    refine moved ?_
    rw [hpc]
    cases b with
    | pushed c | aborted c => cases c <;> simp [State.release]
    | dropped k => cases k <;> simp [State.release, State.finish]; split <;> simp
    | released r => cases r <;> simp [State.release, afterRelease]
  | casFailed c _ hpc => exact moved (by cases c <;> simp [hpc, tryFailed])
  | casRetry c expected hpc hw => exact moved (by simpa [hpc] using hw)
  | release r hpc => exact moved (by cases r <;> simp [hpc, Release.enter])
  | dropFuture held hpc => exact moved (by cases held <;> simp [hpc])
  | bumpLoad hpc => exact moved (by simp only [commit_fields, Function.update_self]; split <;> simp [hpc])
  | fetchUnlock r hpc =>
    refine moved ?_
    simp only [commit_fields, Function.update_self]
    split
    · simp [hpc]
    · cases r <;> simp [hpc, afterRelease]
  | popNone r hpc | popTail r _ hpc | wake r _ _ hpc =>
    refine moved ?_
    simp only [goto_fields, Function.update_self]
    split <;> simp [hpc]
  | _ => exact moved (by simp [*])

theorem use_changes {task : P → Option Nat} {x y : State P × Calls P} {p : P} {c : Cmd Unit}
    (hx : InUse task x) (h : use task x (p, c) = some y) : y ≠ x := by
  obtain ⟨a, -, hs, -⟩ := use_eq h
  exact fun heq => step_changes hx.toComposed hs (congrArg Prod.fst heq)

theorem section_goes_on {s : State P} {p : P} (hs : WellFormed s) (hin : (s.pc p).inSection = true) :
    ∃ t, step s (p, .next) = some t := by
  have hslot := (hs.fits p).slot
  cases hpc : s.pc p with
  | pushHead c =>
    rw [hpc] at hslot
    have hnode : s.node p ≠ none := by
      cases c with
      | tryLock => exact hslot.elim
      | lockInner timed | poll cx => exact hslot.1
    obtain ⟨i, hi⟩ := Option.ne_none_iff_exists'.mp hnode
    exact ⟨_, by simp only [step, hpc, atomic, queueStep, hi, Option.map_some]; rfl⟩
  | sleepCas c current =>
    have hsome : ∃ v, atomic (.sleepCas c current : Pc P) s.word = some v := by
      simp only [atomic]
      split <;> split <;> exact ⟨_, rfl⟩
    obtain ⟨⟨d, w⟩, hw⟩ := hsome
    exact ⟨s.commit p d w, by simp [step, hpc, hw]⟩
  | popTail r =>
    simp only [step, hpc, atomic, queueStep]
    split <;> exact ⟨_, rfl⟩
  | loadState _ | removeNode _ | mark _ _ | onEmpty | wake _ _ _ | clearWait _ | unlockQueue _ =>
    simp only [step, hpc, atomic, queueStep]
    exact ⟨_, rfl⟩
  | _ => simp [hpc, Pc.inSection] at hin

inductive Rests (x : State P × Calls P) (p : P) : Prop
  | out (hpc : x.1.pc p = .idle) (hnode : x.1.node p = none)
  | holds (hpc : x.1.pc p = .holding) (hnode : x.1.node p = none)
  | parked (hpc : x.1.pc p = .park false)
      (hflag : ∀ i, x.1.node p = some i → x.1.flag i = false)
  | pending (hpc : x.1.pc p = .idle) (hnode : x.1.node p ≠ none) (hrung : rung x p = false)

section awake
variable {task : P → Option Nat} {x : State P × Calls P}

theorem InUse.rests (hx : InUse task x)
    (hstuck : ∀ p y, use task x (p, .inner ()) = some y → y = x) (p : P) : Rests x p := by
  have stuck : ∀ q, x.1.pc q ≠ .idle → x.1.pc q ≠ .holding → step x.1 (q, .next) = none := by
    intro q hidle hholding
    by_contra hsome
    obtain ⟨t, ht⟩ := Option.ne_none_iff_exists'.mp hsome
    have hnext : nextAct (callOf (task q)) x q = some .next := by
      unfold nextAct
      split <;> first | rfl | contradiction
    have huse : use task x (q, .inner ()) = some (t, noteCalls x.1 (q, .next) x.2) := by
      simp [use, hnext, recorded, ht]
    exact use_changes hx huse (hstuck q _ huse)
  have outside : ∀ q, (x.1.pc q).inSection = false := by
    intro q
    by_contra hin
    have hin : (x.1.pc q).inSection = true := by simpa using hin
    obtain ⟨t, ht⟩ := section_goes_on hx.toWellFormed hin
    have hnone := stuck q (by rintro hpc; simp [hpc, Pc.inSection] at hin)
      (by rintro hpc; simp [hpc, Pc.inSection] at hin)
    simp [ht] at hnone
  have hfree : x.1.qlock = none := by
    by_contra hne
    obtain ⟨q, hq⟩ := Option.ne_none_iff_exists'.mp hne
    have hin := (hx.fits q).inside.mpr hq
    simp [outside q] at hin
  have hof := hx.isOf p
  have hout := outside p
  cases hpc : x.1.pc p with
  | idle =>
    by_cases hnode : x.1.node p = none
    · exact .out hpc hnode
    · refine .pending hpc hnode ?_
      by_contra hrung
      have hrung : rung x p = true := by simpa using hrung
      have hpoll : (callOf (task p)).isPoll = true := by
        cases htask : task p with
        | none => exact absurd (hx.thread p htask (.inl hpc)) hnode
        | some cx => rfl
      have huse : use task x (p, .inner ()) = some (x.1.goto p (.cas (callOf (task p)) unlocked),
          noteCalls x.1 (p, .start (callOf (task p))) x.2) := by
        simp [use, nextAct, hpc, hrung, recorded, step, hpoll]
      exact use_changes hx huse (hstuck p _ huse)
  | holding =>
    by_cases hnode : x.1.node p = none
    · exact .holds hpc hnode
    · have huse : use task x (p, .inner ()) = some (x.1.goto p (.dropNode (.future true)),
          noteCalls x.1 (p, .dropFuture) x.2) := by
        simp [use, nextAct, hpc, hnode, recorded, step]
      exact absurd (hstuck p _ huse) (use_changes hx huse)
  | park timed =>
    obtain rfl : timed = false := by
      rw [hpc] at hof
      rcases callOf_cases (task p) with h | ⟨cx, h⟩ <;> simp_all [Pc.isOf]
    refine .parked hpc fun i hi => ?_
    have hnone := stuck p (by simp [hpc]) (by simp [hpc])
    simpa [step, hpc, atomic, queueStep, hi] using hnone
  | lockPush _ | lockDrop _ | lockPop _ =>
    have hnone := stuck p (by simp [hpc]) (by simp [hpc])
    simp [step, hpc, atomic, queueStep, State.acquire, hfree] at hnone
  | cas c expected =>
    have hsome : ∃ v, atomic (.cas c expected : Pc P) x.1.word = some v := by
      simp only [atomic]
      repeat' split
      all_goals exact ⟨_, rfl⟩
    obtain ⟨⟨d, w⟩, hw⟩ := hsome
    have hnone := stuck p (by simp [hpc]) (by simp [hpc])
    simp [step, hpc, hw] at hnone
  | fairLoad _ | fairClear | bumpLoad | fetchUnlock _ | prepare _ | dropNode _ =>
    have hnone := stuck p (by simp [hpc]) (by simp [hpc])
    simp [step, hpc, atomic, queueStep] at hnone
  | _ => simp [hpc, Pc.inSection] at hout

omit [DecidableEq P] in
theorem InUse.queued [DecidableEq P] (hx : InUse task x) (hcarried : x.1.carried = []) {p : P}
    (hrests : Rests x p) (hout : ¬ (x.1.pc p = .idle ∧ x.1.node p = none))
    (hholds : x.1.pc p ≠ .holding) : ∃ e ∈ x.1.queue, e.owner = p := by
  cases hrests with
  | out hpc hnode => exact absurd ⟨hpc, hnode⟩ hout
  | holds hpc => exact absurd hpc hholds
  | parked hpc hflag =>
    obtain ⟨i, hi, hmem⟩ := hx.parked hpc
    exact ⟨⟨i, p, ⟨some i, .thread p⟩⟩, by simpa [hcarried] using hmem (hflag i hi), rfl⟩
  | pending hpc hnode hrung =>
    obtain ⟨cx, hcx⟩ := hx.asked p hpc hnode
    obtain ⟨i, hi, hmem⟩ := hx.asleep_task hcx
    refine ⟨⟨i, p, ⟨none, .task cx⟩⟩, ?_, rfl⟩
    rw [hcarried, List.append_nil] at hmem
    refine (List.mem_append.mp hmem).resolve_right fun hcalled => ?_
    have hnone := List.any_eq_false.mp hrung _ hcalled
    simp [hi] at hnone

omit [DecidableEq P] in
theorem InUse.unlocked [DecidableEq P] (hx : InUse task x) (h : ∀ p, (x.1.pc p).owns = false) :
    locked x.1.word = false := by
  by_contra hl
  rcases hx.answered.locked (by simpa using hl) with ⟨p, hp⟩ | hf
  · have howns := role_owner.mp hp
    simp [h p] at howns
  · have hfair : RawMutex.fair x.1.word = true := hf
    simp [hx.fair] at hfair

/-- When no party can take a step of its own, all are out, or one holds the lock. -/
theorem InUse.awake (hx : InUse task x) (hrests : ∀ p, Rests x p) :
    (∀ p, phaseOf x p = .idle) ∨ ∃ p, phaseOf x p = .working := by
  by_cases hheld : ∃ p, x.1.pc p = .holding ∧ x.1.node p = none
  · obtain ⟨p, hpc, hnode⟩ := hheld
    exact .inr ⟨p, by simp [phaseOf, hpc, hnode, Pc.phase]⟩
  refine .inl fun p => ?_
  have hnot : ∀ q, x.1.pc q ≠ .holding := by
    intro q hq
    cases hrests q with
    | holds hpc hnode => exact hheld ⟨q, hpc, hnode⟩
    | out hpc | parked hpc | pending hpc => simp [hpc] at hq
  have hplace : ∀ q, x.1.pc q = .idle ∨ x.1.pc q = .park false := by
    intro q
    cases hrests q with
    | holds hpc => exact absurd hpc (hnot q)
    | out hpc | pending hpc => exact .inl hpc
    | parked hpc => exact .inr hpc
  have hcarried : x.1.carried = [] := carried_none fun q => by
    rcases hplace q with hq | hq <;> simp [hq, Pc.carries]
  have hunlocked : locked x.1.word = false := hx.unlocked fun q => by
    rcases hplace q with hq | hq <;> simp [hq, Pc.owns]
  -- whoever is on the way to the lock is not in the queue, but whoever rests is
  have hempty : x.1.queue = [] := by
    rcases hx.served with hl | hall | ⟨q, hpops | ⟨hwoken, -⟩⟩
    · simp [hunlocked] at hl
    · refine List.eq_nil_iff_forall_not_mem.mpr fun e he => ?_
      have hgone := hall e he
      simp [State.gone, hx.quits] at hgone
    · rcases hplace q with hq | hq <;> simp [hq, Pc.pops] at hpops
    · have hout : ¬ (x.1.pc q = .idle ∧ x.1.node q = none) := fun h =>
        (hx.party q).pending hwoken h.1 h.2
      obtain ⟨e, he, rfl⟩ := hx.queued hcarried (hrests q) hout (hnot q)
      have hasleep := hx.asleep e he
      simp [hwoken] at hasleep
  by_cases hout : x.1.pc p = .idle ∧ x.1.node p = none
  · simp [phaseOf, hout, Pc.phase]
  · obtain ⟨e, he, -⟩ := hx.queued hcarried (hrests p) hout (hnot p)
    simp [hempty] at he

end awake

omit [DecidableEq P] in
theorem phase_out {x : State P × Calls P} {p : P}
    (h : phaseOf x p = .idle ∨ phaseOf x p = .working) :
    x.1.pc p = (if phaseOf x p = .idle then .idle else .holding) ∧ x.1.node p = none := by
  unfold phaseOf at h ⊢
  cases hpc : x.1.pc p with
  | unlockQueue a =>
    cases a with
    | dropped k => cases hk : k.owns <;> simp [hpc, Pc.phase, hk] at h
    | _ => simp [hpc, Pc.phase] at h
  | dropNode k | lockDrop k | removeNode k => cases hk : k.owns <;> simp [hpc, Pc.phase, hk] at h
  | idle | holding => cases hnode : x.1.node p <;> simp_all [Pc.phase]
  | _ => simp [hpc, Pc.phase] at h

theorem lock_live (task : P → Option Nat) : (lock task).Live where
  calls := by
    intro x p hx hidle
    replace hidle : phaseOf x p = .idle := hidle
    obtain ⟨hpc, hnode⟩ := phase_out (.inl hidle)
    rw [if_pos hidle] at hpc
    exact ⟨_, by simp only [lock, use, hnode, if_true, recorded, step, hpc, true_and, true_or]; rfl⟩
  releases := by
    intro x p hx hworking
    replace hworking : phaseOf x p = .working := hworking
    obtain ⟨hpc, hnode⟩ := phase_out (.inr hworking)
    rw [if_neg (by simp [hworking])] at hpc
    exact ⟨_, by simp only [lock, use, hnode, if_true, recorded, step, hpc, true_and, true_or]; rfl⟩
  awake := by
    intro x hx hstuck
    exact InUse.awake hx fun p => InUse.rests hx (fun q y hs => hstuck q () y hs) p

end Colock.RawMutex
