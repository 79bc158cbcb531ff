import Colock.RawMutex.Exclusion
import Colock.RawMutex.WellFormed

/-! The loop of `should_sleep`, which runs under the queue lock: its `debug_assert`, and how
soon it ends. A hand-off that was not accepted yet is the exception: the loop has no branch
for a word with both `LOCKED_BIT` and `FAIR_BIT`. -/
namespace Colock.RawMutex
open Transition
variable {P : Type*} [DecidableEq P]

def Pc.deciding : Pc P → Bool
  | .loadState _ | .sleepCas _ _ => true
  | _ => false

/-- A hand-off is raised and the lock is taken: no branch of the loop fits this word. -/
def handedOff (w : Word) : Bool := locked w && fair w

def Undisturbed (p : P) (s : State P) (l : P × Act) : Prop :=
  l.1 ≠ p → ∀ t, step s l = some t → t.word = s.word

/-- As long as the others leave the word alone, `p` is out of the loop after `k` of its steps. -/
def State.LeavesWithin (s : State P) (p : P) (k : Nat) : Prop :=
  ∀ ls t, run step s ls = some t → Meets step (Undisturbed p) s ls →
    k ≤ ls.countP (fun l => l.1 = p) → ¬ Visits step (fun u => (u.pc p).deciding = true) s ls

/-- The `debug_assert` holds of the value the loop looks at, and the loop ends after at most
three `compare_exchange`, not counting the load it begins with. -/
def SleepsSafely (s : State P) : Prop :=
  ∀ p c, (∀ current, s.pc p = .sleepCas c current →
      (locked current = true → current = lockedBit) ∧ s.LeavesWithin p 3) ∧
    (s.pc p = .loadState c → s.LeavesWithin p 4)

def Pc.pushes : Pc P → Bool
  | .lockPush _ => true
  | _ => false

def Pc.takes (w : Word) : Pc P → Bool
  | .cas _ expected => w == expected
  | _ => false

/-- Nobody takes the queue lock for a push while a hand-off is raised on a taken lock, and
nobody takes the lock over a raised `FAIR_BIT` while another party is in the loop. -/
def SleepsApart (s : State P) : P × Act → Prop
  | (p, .next) => ((s.pc p).pushes = true → s.qlock = none → handedOff s.word = false) ∧
      ((s.pc p).takes s.word = true → fair s.word = true → ∀ q, (s.pc q).deciding = false)
  | _ => True

def threeBits (w : Word) : Bool := w &&& ~~~(lockedBit ||| waitBit ||| fairBit) == 0

@[simp] theorem threeBits_ops (w : Word) :
    threeBits (w ||| lockedBit) = threeBits w ∧ threeBits (w ||| fairBit) = threeBits w ∧
      threeBits (w &&& ~~~lockedBit) = threeBits w ∧ threeBits (w &&& ~~~waitBit) = threeBits w ∧
      threeBits (w &&& ~~~fairBit) = threeBits w ∧
      threeBits (w ^^^ (waitBit ||| fairBit)) = threeBits w := by
  revert w; decide

theorem eq_of_locked {w : Word} (hb : threeBits w = true) (hl : locked w = true)
    (hf : handedOff w = false) : w = lockedBit ∨ w = lockedBit ||| waitBit := by
  revert w; decide

omit [DecidableEq P] in
theorem atomic_threeBits {c d : Pc P} {w v : Word} (hb : threeBits w = true)
    (h : atomic c w = some (d, v)) : threeBits v = true := by
  cases c with
  | cas call expected | sleepCas call expected =>
    simp only [atomic] at h
    grind [threeBits_ops, threeBits, lockedBit, waitBit]
  | mark e n =>
    simp only [atomic, Option.some.injEq, Prod.mk.injEq] at h
    obtain ⟨-, rfl⟩ := h
    split <;> simpa
  | loadState _ | fairLoad _ | fairClear | bumpLoad | fetchUnlock _ | onEmpty | clearWait _ =>
    simp only [atomic, Option.some.injEq, Prod.mk.injEq] at h
    obtain ⟨-, rfl⟩ := h
    simpa
  | _ => simp [atomic] at h

/-- How many steps the loop still takes when nobody interferes. -/
def Pc.stepsLeft (w : Word) : Pc P → Nat
  | .loadState _ => 4
  | .sleepCas _ current =>
    if w = lockedBit ||| waitBit then 1
    else if locked w then if locked current then 2 else 3
    else if w = current then 1 else 2
  | _ => 0

omit [DecidableEq P] in
theorem stepsLeft_pos {w : Word} {c : Pc P} (h : c.deciding = true) : 0 < c.stepsLeft w := by
  cases c with
  | loadState call => simp [Pc.stepsLeft]
  | sleepCas call current =>
    simp only [Pc.stepsLeft]
    repeat' split
    all_goals omega
  | _ => simp [Pc.deciding] at h

omit [DecidableEq P] in
theorem stepsLeft_sleepNext {c : Call} {w : Word} (hb : threeBits w = true)
    (hf : handedOff w = false) :
    (sleepNext c w : Pc P).stepsLeft w ≤ if w = lockedBit then 2 else if locked w then 0 else 1 := by
  unfold sleepNext
  split
  · next hw => simp [hw, Pc.stepsLeft]
  · next hne =>
    cases hl : locked w with
    | false =>
      have hw : w ≠ lockedBit := by rintro rfl; simp at hl
      simp [Pc.stepsLeft, hne, hl, hw]
    | true =>
      obtain rfl := (eq_of_locked hb hl hf).resolve_right hne
      simp [Pc.stepsLeft, hne]

omit [DecidableEq P] in
theorem atomic_stepsLeft_lt {c : Pc P} {w : Word} (hc : c.deciding = true)
    (hb : threeBits w = true) (hf : handedOff w = false)
    (hsnap : ∀ call current, c = .sleepCas call current → locked current = true →
      current = lockedBit) :
    ∃ d v, atomic c w = some (d, v) ∧ d.stepsLeft v < c.stepsLeft w ∧
      (d.deciding = true → handedOff v = false) ∧
      ∀ call current, d = .sleepCas call current → locked current = true →
        current = lockedBit := by
  have next : ∀ call u, threeBits u = true → handedOff u = false → ∀ call' current,
      sleepNext call u = (.sleepCas call' current : Pc P) → locked current = true →
        current = lockedBit := by
    intro call u hb hf call' current h hl
    unfold sleepNext at h
    split at h
    · cases h
    · next hne =>
      cases h
      exact (eq_of_locked hb hl hf).resolve_right hne
  have hne : lockedBit ||| waitBit ≠ lockedBit := by decide
  cases c with
  | loadState call =>
    refine ⟨_, _, rfl, ?_, fun _ => hf, next call w hb hf⟩
    refine Nat.lt_of_le_of_lt (stepsLeft_sleepNext hb hf) ?_
    simp only [Pc.stepsLeft]
    repeat' split
    all_goals omega
  | sleepCas call current =>
    cases hl : locked current with
    | true =>
      obtain rfl := hsnap call current rfl hl
      by_cases hw : w = lockedBit
      · subst w
        exact ⟨.sleepCas call lockedBit, lockedBit ||| waitBit, rfl, Nat.lt_succ_self 1, fun _ => rfl,
          by rintro _ _ ⟨⟩ -; rfl⟩
      · refine ⟨sleepNext call w, w, by simp [atomic, hw],
          Nat.lt_of_le_of_lt (stepsLeft_sleepNext hb hf) ?_, fun _ => hf, next call w hb hf⟩
        simp only [Pc.stepsLeft, hw, if_false]
        repeat' split
        all_goals simp_all
    | false =>
      by_cases hw : w = current
      · subst w
        exact ⟨.unlockQueue (.aborted call), current ||| lockedBit, by simp [atomic, hl], stepsLeft_pos rfl,
          by rintro ⟨⟩, by rintro _ _ ⟨⟩⟩
      · refine ⟨sleepNext call w, w, by simp [atomic, hl, hw],
          Nat.lt_of_le_of_lt (stepsLeft_sleepNext hb hf) ?_, fun _ => hf, next call w hb hf⟩
        simp only [Pc.stepsLeft, hw, if_false]
        repeat' split
        all_goals simp_all
  | _ => simp [Pc.deciding] at hc

theorem step_deciding {s t : State P} {p : P} {a : Act} (hd : (s.pc p).deciding = true)
    (h : step s (p, a) = some t) : a = .next := by
  cases a with
  | next => rfl
  | _ => cases hpc : s.pc p <;> simp_all [step, Pc.deciding]

theorem countP_lt_stepsLeft {s t : State P} {p : P} {ls : List (P × Act)}
    (hb : threeBits s.word = true) (hf : handedOff s.word = false)
    (hsnap : ∀ c current, s.pc p = .sleepCas c current → locked current = true →
      current = lockedBit)
    (h : run step s ls = some t) (hm : Meets step (Undisturbed p) s ls)
    (hv : Visits step (fun u => (u.pc p).deciding = true) s ls) :
    ls.countP (fun l => l.1 = p) < (s.pc p).stepsLeft s.word := by
  induction ls generalizing s with
  | nil => exact stepsLeft_pos hv
  | cons l ls ih =>
    obtain ⟨u, hu, hr⟩ := Option.bind_eq_some_iff.mp h
    obtain ⟨q, a⟩ := l
    have hvu := hv.2 u hu
    by_cases hq : q = p
    · subst q
      obtain rfl := step_deciding hv.1 hu
      obtain ⟨d, v, ha, hlt, hcalm, hsnap'⟩ := atomic_stepsLeft_lt hv.1 hb hf hsnap
      obtain rfl : s.commit p d v = u := by simpa [step, ha] using hu
      have hd : d.deciding = true := by simpa using hvu.start
      have hrest := ih (by simpa using atomic_threeBits hb ha) (by simpa using hcalm hd)
        (by simpa using hsnap') hr (hm.2 _ hu) hvu
      simp only [commit_fields, Function.update_self] at hrest
      simp only [List.countP_cons, decide_true, if_true]
      omega
    · have hw : u.word = s.word := hm.1 hq u hu
      have hpc : u.pc p = s.pc p := step_others hu (Ne.symm hq)
      have hrest := ih (hw ▸ hb) (hw ▸ hf) (hpc ▸ hsnap) hr (hm.2 u hu) hvu
      simpa [List.countP_cons, hq, hw, hpc] using hrest

omit [DecidableEq P] in
theorem atomic_spins {c : Pc P} {w : Word} (hc : c.deciding = true) (hf : handedOff w = true) :
    ∃ call, atomic c w = some (.sleepCas call w, w) := by
  have hne : w ≠ lockedBit ||| waitBit := by rintro rfl; simp [handedOff] at hf
  have hne' : w ≠ lockedBit := by rintro rfl; simp [handedOff] at hf
  have hl : locked w = true := by simp_all [handedOff]
  cases c with
  | loadState call => exact ⟨call, by simp [atomic, sleepNext, hne]⟩
  | sleepCas call current =>
    refine ⟨call, ?_⟩
    by_cases hc : locked current = true
    · simp [atomic, sleepNext, hc, hne, hne']
    · have hw : w ≠ current := by rintro rfl; exact hc hl
      simp [atomic, sleepNext, hc, hne, hw]
  | _ => simp [Pc.deciding] at hc

/-- On a word that carries a hand-off the loop goes on for as many steps as it is given. -/
theorem spins {s : State P} {p : P} (hd : (s.pc p).deciding = true)
    (hf : handedOff s.word = true) (k : Nat) :
    ∃ t, run step s (nexts p k) = some t ∧ Meets step (Undisturbed p) s (nexts p k) ∧
      Visits step (fun u => (u.pc p).deciding = true) s (nexts p k) := by
  induction k generalizing s with
  | zero => exact ⟨s, rfl, trivial, hd⟩
  | succ k ih =>
    obtain ⟨call, ha⟩ := atomic_spins hd hf
    have hu : step s (p, .next) = some (s.commit p (.sleepCas call s.word) s.word) := by
      simp [step, ha]
    obtain ⟨t, hr, hm, hv⟩ := ih (s := s.commit p (.sleepCas call s.word) s.word)
      (by simp [Pc.deciding]) (by simpa using hf)
    refine ⟨t, by simpa [nexts, List.replicate_succ, run, hu] using hr, ⟨?_, ?_⟩, hd, ?_⟩
    · exact fun hne => absurd rfl hne
    · rintro u hu'
      exact Option.some.inj (hu.symm.trans hu') ▸ hm
    · rintro u hu'
      exact Option.some.inj (hu.symm.trans hu') ▸ hv

theorem not_sleepsSafely {s : State P} {p : P} (hd : (s.pc p).deciding = true)
    (hf : handedOff s.word = true) : ¬ SleepsSafely s := by
  have hno : ∀ k, ¬ s.LeavesWithin p k := by
    intro k h
    obtain ⟨t, hr, hm, hv⟩ := spins hd hf k
    exact h _ t hr hm (by simp [nexts, List.countP_replicate]) hv
  intro h
  cases hpc : s.pc p with
  | loadState c => exact hno 4 ((h p c).2 hpc)
  | sleepCas c current => exact hno 3 ((h p c).1 current hpc).2
  | _ => simp [hpc, Pc.deciding] at hd

/-! ### Runs that keep hand-offs and sleepers apart -/

structure Composed (s : State P) : Prop extends WellFormed s where
  bits : threeBits s.word = true
  calm : ∀ p, (s.pc p).deciding = true → handedOff s.word = false
  snapshot : ∀ p c current, s.pc p = .sleepCas c current → locked current = true →
    current = lockedBit

theorem Composed.safe {s : State P} (hs : Composed s) : SleepsSafely s := by
  have within : ∀ p k, (s.pc p).deciding = true → (s.pc p).stepsLeft s.word ≤ k →
      s.LeavesWithin p k := by
    intro p k hd hk ls t hr hm hc hv
    have hlt := countP_lt_stepsLeft hs.bits (hs.calm p hd) (hs.snapshot p) hr hm hv
    omega
  intro p c
  constructor
  · intro current hpc
    refine ⟨hs.snapshot p c current hpc, within p 3 (by rw [hpc]; rfl) ?_⟩
    rw [hpc]
    simp only [Pc.stepsLeft]
    repeat' split
    all_goals omega
  · exact fun hpc => within p 4 (by rw [hpc]; rfl) (by rw [hpc]; exact Nat.le_refl _)

omit [DecidableEq P] in
theorem inSection_of_deciding {c : Pc P} (h : c.deciding = true) : c.inSection = true := by
  cases c <;> simp_all [Pc.deciding, Pc.inSection]

omit [DecidableEq P] in
theorem atomic_outside {c d : Pc P} {w v : Word} (hc : c.deciding = false)
    (h : atomic c w = some (d, v)) : d.deciding = false ∧
      (c.inSection = false → handedOff w = false → handedOff v = true →
        c.takes w = true ∧ fair w = true) := by
  cases c with
  | cas call expected =>
    simp only [atomic] at h
    split at h
    · next hw =>
      cases h
      exact ⟨rfl, fun _ _ hv => ⟨by simp [Pc.takes, hw], by simpa [handedOff, hw] using hv⟩⟩
    · split at h <;> cases h
      · exact ⟨by cases call <;> rfl, fun _ hf hv => by simp [hf] at hv⟩
      · exact ⟨rfl, fun _ hf hv => by simp [hf] at hv⟩
  | fetchUnlock r =>
    simp only [atomic, Option.some.injEq, Prod.mk.injEq] at h
    obtain ⟨rfl, rfl⟩ := h
    refine ⟨?_, fun _ _ hv => by simp [handedOff] at hv⟩
    split <;> cases r <;> rfl
  | fairLoad timed | bumpLoad =>
    simp only [atomic, Option.some.injEq, Prod.mk.injEq] at h
    obtain ⟨rfl, rfl⟩ := h
    exact ⟨by split <;> rfl, fun _ hf hv => by simp [hf] at hv⟩
  | fairClear =>
    simp only [atomic, Option.some.injEq, Prod.mk.injEq] at h
    obtain ⟨rfl, rfl⟩ := h
    exact ⟨rfl, fun _ _ hv => by simp [handedOff] at hv⟩
  | mark e n | onEmpty | clearWait r =>
    simp only [atomic, Option.some.injEq, Prod.mk.injEq] at h
    obtain ⟨rfl, rfl⟩ := h
    exact ⟨rfl, by rintro ⟨⟩⟩
  | loadState call | sleepCas call current => simp [Pc.deciding] at hc
  | _ => simp [atomic] at h

theorem Composed.commit {s : State P} {p : P} {c : Pc P} {w : Word} (hs : Composed s)
    (hwf : WellFormed (s.commit p c w)) (hok : SleepsApart s (p, .next))
    (h : atomic (s.pc p) s.word = some (c, w)) : Composed (s.commit p c w) := by
  have old : ∀ q, q ≠ p → (s.commit p c w).pc q = s.pc q := fun q hq =>
    (commit_others s p c w q hq).1
  refine ⟨hwf, by simpa using atomic_threeBits hs.bits h, ?_, ?_⟩
  · intro q hd
    rw [(commit_fields s p c w).1]
    by_cases hp : (s.pc p).deciding = true
    · obtain ⟨d, v, ha, -, hcalm, -⟩ :=
        atomic_stepsLeft_lt hp hs.bits (hs.calm p hp) (hs.snapshot p)
      obtain ⟨rfl, rfl⟩ : d = c ∧ v = w := by simpa [h, eq_comm] using ha
      by_cases hq : q = p
      · subst q
        exact hcalm (by simpa using hd)
      · -- only one party is in a critical section of the queue
        rw [old q hq] at hd
        exact absurd (Option.some.inj ((hs.locked (inSection_of_deciding hd)).symm.trans
          (hs.locked (inSection_of_deciding hp)))) hq
    · obtain ⟨hd', hraise⟩ := atomic_outside (by simpa using hp) h
      have hq : q ≠ p := by
        rintro rfl
        simp [hd'] at hd
      rw [old q hq] at hd
      have hin : (s.pc p).inSection = false := by
        by_contra hin
        exact hq (Option.some.inj ((hs.locked (inSection_of_deciding hd)).symm.trans
          (hs.locked (by simpa using hin))))
      by_contra hf
      obtain ⟨htakes, hfair⟩ := hraise hin (hs.calm q hd) (by simpa using hf)
      simp [hok.2 htakes hfair q] at hd
  · intro q call current hq
    by_cases hqp : q = p
    · subst q
      have hc : c = .sleepCas call current := by simpa using hq
      by_cases hp : (s.pc p).deciding = true
      · obtain ⟨d, v, ha, -, -, hsnap⟩ :=
          atomic_stepsLeft_lt hp hs.bits (hs.calm p hp) (hs.snapshot p)
        obtain ⟨rfl, rfl⟩ : d = c ∧ v = w := by simpa [h, eq_comm] using ha
        exact hsnap call current hc
      · have hd := (atomic_outside (by simpa using hp) h).1
        simp [hc, Pc.deciding] at hd
    · exact hs.snapshot q call current (old q hqp ▸ hq)

theorem Composed.move {s t : State P} {p : P} (hs : Composed s) (hwf : WellFormed t)
    (hpc : ∀ q, q ≠ p → t.pc q = s.pc q) (hword : t.word = s.word)
    (hp : (t.pc p).deciding = false ∨ ∃ c, t.pc p = .loadState c ∧ handedOff s.word = false) :
    Composed t := by
  refine ⟨hwf, hword ▸ hs.bits, ?_, ?_⟩
  · intro q hd
    rw [hword]
    by_cases hq : q = p
    · subst q
      rcases hp with hp | ⟨-, -, hf⟩
      · simp [hp] at hd
      · exact hf
    · exact hs.calm q (hpc q hq ▸ hd)
  · intro q call current hq
    by_cases hqp : q = p
    · subst q
      rcases hp with hp | ⟨c, hc, -⟩
      · simp [hq, Pc.deciding] at hp
      · simp [hq] at hc
    · exact hs.snapshot q call current (hpc q hqp ▸ hq)

omit [DecidableEq P] in
theorem Flow.deciding {w : Word} {a : Act} {c d : Pc P} (h : Flow w a c d)
    (hc : c.deciding = false) (hd : d.deciding = true) :
    ∃ call, c = .lockPush call ∧ d = .loadState call := by
  cases h with
  | lockPush call => exact ⟨call, rfl, rfl⟩
  | dropOff k | dropped k =>
    cases k with
    | future held => cases held <;> simp [Leave.next, Pc.deciding] at hd
    | _ => simp [Leave.next, Pc.deciding] at hd
  | fetchAlone r | released r => cases r <;> simp [afterRelease, Pc.deciding] at hd
  | _ => simp_all [Pc.deciding]

theorem step_composed {s t : State P} {l : P × Act} (hs : Composed s) (hok : SleepsApart s l)
    (h : step s l = some t) : Composed t := by
  obtain ⟨p, a⟩ := l
  have hwf := step_wellFormed hs.toWellFormed h
  rcases step_word h with ⟨c, w, rfl, ha, rfl⟩ | ⟨hnone, hword⟩
  · exact hs.commit hwf hok ha
  refine hs.move hwf (fun q => step_others h) hword ?_
  cases hd : (t.pc p).deciding with
  | false => exact .inl rfl
  | true =>
    have hp : (s.pc p).deciding = false := by
      by_contra hnot
      have hp : (s.pc p).deciding = true := by simpa using hnot
      obtain rfl := step_deciding hp h
      obtain ⟨d, v, ha, -⟩ := atomic_stepsLeft_lt hp hs.bits (hs.calm p hp) (hs.snapshot p)
      simp [hnone rfl] at ha
    obtain ⟨c, hpush, hload⟩ := (step_flow h).deciding hp hd
    cases step_cases h with
    | lockPush c hpc hl => exact .inr ⟨_, hload, hok.1 (by rw [hpush]; rfl) hl⟩
    | _ => simp_all

theorem step_breaks {s t : State P} {l : P × Act} (hno : ¬ SleepsApart s l)
    (h : step s l = some t) : ¬ SleepsSafely t := by
  obtain ⟨p, a⟩ := l
  cases a with
  | next =>
    simp only [SleepsApart, not_and_or, not_forall, Bool.not_eq_false] at hno
    cases hpc : s.pc p with
    | lockPush c =>
      obtain ⟨-, hl, hf⟩ | ⟨htakes, -⟩ := hno
      · simp only [step, hpc, atomic, queueStep, State.acquire, hl, Option.some.injEq] at h
        subst t
        exact not_sleepsSafely (p := p) (by simp [Pc.deciding]) (by simpa using hf)
      · simp [hpc, Pc.takes] at htakes
    | cas c expected =>
      obtain ⟨hpush, -⟩ | ⟨htakes, hf, q, hq⟩ := hno
      · simp [hpc, Pc.pushes] at hpush
      · obtain rfl : s.word = expected := by simpa [hpc, Pc.takes] using htakes
        simp only [step, hpc, atomic, if_true, Option.some.injEq] at h
        subst t
        have hne : q ≠ p := by
          rintro rfl
          simp [hpc, Pc.deciding] at hq
        exact not_sleepsSafely (p := q) (by simpa [hne] using hq) (by simpa [handedOff] using hf)
    | _ => simp [hpc, Pc.pushes, Pc.takes] at hno
  | _ => exact absurd trivial hno

/-- `should_sleep` is safe in every state of a run if and only if no step of the run lets a
hand-off on a taken lock and a party in its loop meet. -/
theorem should_sleep_safe {s : State P} {ls : List (P × Act)} (h : run step init ls = some s) :
    Visits step SleepsSafely init ls ↔ Meets step SleepsApart init ls := by
  refine visits_iff_meets (I := Composed) (fun _ => Composed.safe)
    (fun _ _ _ hs _ hok h => step_composed hs hok h) (fun _ _ _ _ _ hno h => step_breaks hno h)
    ⟨wellFormed_init, by simp [init, threeBits, unlocked], ?_, ?_⟩ (meets_any _ _) h
  · simp [init, Pc.deciding]
  · simp [init]

instance [Fintype P] (s : State P) (l : P × Act) : Decidable (SleepsApart s l) :=
  match l with
  | (p, .next) =>
    inferInstanceAs (Decidable (((s.pc p).pushes = true → s.qlock = none → handedOff s.word = false) ∧
      ((s.pc p).takes s.word = true → fair s.word = true → ∀ q, (s.pc q).deciding = false)))
  | (_, .start _) | (_, .release _) | (_, .timeout) | (_, .dropFuture) => isTrue trivial

theorem should_sleep_safe_waits :
    (run step (init : State (Fin 2)) (timedSleeps 0 1)).isSome ∧
      Visits step SleepsSafely (init : State (Fin 2)) (timedSleeps 0 1) := by
  have hr : (run (restrict step SleepsApart) (init : State (Fin 2)) (timedSleeps 0 1)).isSome = true := by
    decide
  obtain ⟨s, hs⟩ := Option.isSome_iff_exists.mp hr
  obtain ⟨hm, hrun⟩ := restrict_run_meets hs
  exact ⟨by rw [hrun]; rfl, (should_sleep_safe hrun).mpr hm⟩

/-- Party 1 was popped by `unlock_fair` and has not accepted the lock yet when 2 comes to
queue up: 2 spins inside the queue lock. -/
theorem should_sleep_spins : ¬ ∀ s : State (Fin 3),
    Reach step (fun _ l => l.2.blocking = true ∧ l.2 ≠ .release .bump) init s → SleepsSafely s := by
  have hr : ((run (restrict step fun _ l => l.2.blocking = true ∧ l.2 ≠ .release .bump)
      (init : State (Fin 3))
      (timedSleeps 0 1 ++ (0, .release .unlockFair) :: nexts 0 5 ++
        (2, .start (.lockInner false)) :: nexts 2 3)).map
      fun s => ((s.pc 2).deciding, handedOff s.word)) = some (true, true) := by decide
  obtain ⟨s, hs, ho⟩ := Option.map_eq_some_iff.mp hr
  simp only [Prod.mk.injEq] at ho
  intro h
  exact not_sleepsSafely ho.1 ho.2 (h s (restrict_run_reach hs))

end Colock.RawMutex
