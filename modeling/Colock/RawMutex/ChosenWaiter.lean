import Colock.RawMutex.HeldWaker

/-! Which waiter `unlock_fair` gives the lock to, between threads that call `lock`, `try_lock`,
`unlock` and `unlock_fair`. The waiter is chosen by taking it out of the queue, but the word
records only that there is one. -/
namespace Colock.RawMutex
open Transition HandOff
variable {P : Type*} [DecidableEq P]

/-- `pushed` lists the entries in the order in which they were queued, the latest first. `chosen`
is the waiter that the last `unlock_fair` popped, until its call of `lock` returns. `stolen` says
that somebody else got the lock meanwhile. -/
structure Choice (P : Type*) where
  pushed : List (Entry P)
  chosen : Option P
  stolen : Bool

def noChoice : Choice P := ⟨[], none, false⟩

/-- The call of the party will return with the lock, whatever the others do. -/
def Pc.succeeds : Pc P → Bool
  | .fairClear => true
  | c => c.owns

def Choice.note (h : Choice P) (s t : State P) (p : P) : Choice P where
  pushed :=
    match s.pc p, s.node p with
    | .pushHead c, some i => ⟨i, p, c.waker p i⟩ :: h.pushed
    | _, _ => h.pushed
  chosen :=
    match s.pc p with
    | .popTail .unlockFair => s.queue.getLast?.elim h.chosen fun e => some e.owner
    | _ => if t.pc p = .holding ∧ h.chosen = some p then none else h.chosen
  stolen := h.stolen || h.chosen.any (fun q => q ≠ p) && !(s.pc p).succeeds && (t.pc p).succeeds

def noteChoice (s : State P) (l : P × Act) (h : Choice P) : Choice P :=
  (step s l).elim h fun t => h.note s t l.1

/-- Threads that call `lock`, `try_lock`, `unlock` and `unlock_fair`. -/
def FairCalls (_ : State P × Choice P) : P × Act → Prop
  | (_, .next) => True
  | (_, .start c) => c = .tryLock ∨ c = .lockInner false
  | (_, .release r) => r ≠ .bump
  | _ => False

def Pc.looksUp : Pc P → Bool
  | .fairLoad _ => true
  | _ => false

/-- A woken waiter that was not chosen does not look at the word while `FAIR_BIT` is set. -/
def OthersLookLate (s : State P × Choice P) : P × Act → Prop
  | (p, .next) => (s.1.pc p).looksUp = true → fair s.1.word = true → s.2.chosen = some p
  | _ => True

def Call.basic : Call → Bool
  | .lockInner timed => !timed
  | _ => false

def Leave.basic : Leave → Bool
  | .retry timed => !timed
  | .success => true
  | _ => false

def Pc.basic : Pc P → Bool
  | .cas c _ => c.basic || c = .tryLock
  | .lockPush c | .loadState c | .sleepCas c _ | .pushHead c | .unlockQueue (.pushed c)
  | .unlockQueue (.aborted c) => c.basic
  | .prepare timed | .park timed | .fairLoad timed => !timed
  | .dropNode k | .lockDrop k | .removeNode k | .unlockQueue (.dropped k) => k.basic
  | .fetchUnlock r | .lockPop r | .popTail r | .wake r _ _ | .clearWait r
  | .unlockQueue (.released r) => r != .bump
  | .bumpLoad => false
  | .idle | .holding | .fairClear | .mark _ _ | .onEmpty => true

omit [DecidableEq P] in
theorem Flow.basic {w : Word} {p : P} {a : Act} {c d : Pc P} {s : State P × Choice P}
    (h : Flow w a c d) (hc : c.basic = true) (hl : FairCalls s (p, a)) : d.basic = true := by
  cases h with
  | start call => rcases hl with rfl | rfl <;> rfl
  | timeout | dropPending | dropReady => exact hl.elim
  | bump => exact absurd rfl hl
  | dropOff k | dropped k => cases k <;> simp_all [Leave.next, Leave.basic, Pc.basic, Call.basic]
  | fetchAlone r | released r => cases r <;> simp_all [Pc.basic, afterRelease]
  | _ => simp_all [Pc.basic, Call.basic, Leave.basic]

theorem step_basic {s t : State P} {h : Choice P} {p : P} {a : Act}
    (hs : ∀ q, (s.pc q).basic = true) (hl : FairCalls (s, h) (p, a))
    (hstep : step s (p, a) = some t) : ∀ q, (t.pc q).basic = true := by
  intro q
  by_cases hq : q = p
  · exact hq ▸ (step_flow hstep).basic (hs p) hl
  · rw [step_others hstep hq]
    exact hs q

theorem order_step {s t : State P} {h : Choice P} {p : P} {a : Act}
    (hs : s.queue.Sublist h.pushed) (hstep : step s (p, a) = some t) :
    t.queue.Sublist (h.note s t p).pushed := by
  have keep : t.queue.Sublist s.queue → (∀ c, s.pc p ≠ .pushHead c) →
      t.queue.Sublist (h.note s t p).pushed := by
    intro hsub hpc
    have hpushed : (h.note s t p).pushed = h.pushed := by
      simp only [Choice.note]
      split
      · next c i hc _ => exact absurd hc (hpc c)
      · rfl
    exact hpushed ▸ hsub.trans hs
  cases step_cases hstep with
  | pushHead c i hpc hnode =>
    simp only [Choice.note, hpc, hnode, goto_fields, State.push]
    exact hs.cons_cons _
  | removeNode k hpc => exact keep List.filter_sublist (by simp [hpc])
  | popTail r e hpc => exact keep (List.dropLast_sublist _) (by simp [hpc])
  | dropOff k hpc | unlockQueue a hpc | wake r e n hpc => exact keep (by simp) (by simp [hpc])
  | dropFuture held hpc => exact keep (.refl _) (by cases held <;> simp [hpc])
  | _ => exact keep (.refl _) (by simp [*])

/-- From its look at the word to the end of its call, the waiter that takes the hand-off. -/
def Pc.inherits : Pc P → Bool
  | .fairClear => true
  | .dropNode k | .lockDrop k | .removeNode k | .unlockQueue (.dropped k) => k = .success
  | _ => false

/-- While a waiter is chosen nobody but `unlock_fair` or that waiter owns the lock, and
`LOCKED_BIT` is set. -/
structure Hands (s : State P) (h : Choice P) : Prop where
  exclusive : Exclusive (view s)
  marking : ∀ q e n, s.pc q = .mark e n → h.chosen = some e.owner
  raised : fair s.word = true → h.chosen ≠ none
  accepting : ∀ q, s.pc q = .fairClear → h.chosen = some q
  pending : ∀ q, h.chosen = some q → (∃ r e n, s.pc r = .mark e n ∧ e.owner = q) ∨
    fair s.word = true ∧ (s.pc q).looks = true ∨ (s.pc q).inherits = true

structure Chooses (s : State P) (h : Choice P) : Prop extends Live s, Hands s h where
  sane : ∀ q, (s.pc q).sane
  basic : ∀ q, (s.pc q).basic = true
  attached : ∀ e ∈ s.queue, e.data.parker = some e.id
  held : ∀ q, ∀ e ∈ (s.pc q).carries, e.data.parker = some e.id
  fairly : h.stolen = false

section hands
variable {s t : State P} {h : Choice P} {p q : P} {a : Act}

omit [DecidableEq P] in
theorem Hands.owner_bits (hs : Hands s h) (hp : (s.pc p).owns = true) :
    locked s.word = true ∧ fair s.word = false :=
  hs.exclusive.owner_bits p (role_owner.mpr hp)

omit [DecidableEq P] in
theorem Hands.one_owner (hs : Hands s h) (hp : (s.pc p).owns = true) (hq : (s.pc q).owns = true) :
    p = q :=
  hs.exclusive.one_owner p q (role_owner.mpr hp) (role_owner.mpr hq)

omit [DecidableEq P] in
theorem Hands.not_accepting (hs : Hands s h) (hp : (s.pc p).owns = true) : s.pc q ≠ .fairClear := by
  intro hq
  exact hs.exclusive.owner_alone p q (role_owner.mpr hp) (role_accepting.mpr hq)

omit [DecidableEq P] in
theorem Pc.inherits_cases {c : Pc P} (h : c.inherits = true) : c = .fairClear ∨ c.owns = true := by
  cases c with
  | unlockQueue a => cases a <;> simp_all [Pc.inherits, Pc.owns, Leave.owns]
  | _ => simp_all [Pc.inherits, Pc.owns, Leave.owns]

omit [DecidableEq P] in
theorem Hands.busy (hs : Hands s h) (hq : h.chosen = some q) : locked s.word = true := by
  rcases hs.pending q hq with ⟨r, e, n, hr, -⟩ | ⟨hf, -⟩ | hin
  · exact (hs.owner_bits (p := r) (by rw [hr]; rfl)).1
  · exact hs.exclusive.fair_locked hf
  · rcases Pc.inherits_cases hin with hc | ho
    · exact hs.exclusive.fair_locked (hs.exclusive.accepting_bits q (role_accepting.mpr hc))
    · exact (hs.owner_bits ho).1

omit [DecidableEq P] in
theorem Hands.owner (hs : Hands s h) (hp : (s.pc p).owns = true) (hq : h.chosen = some q) :
    (∃ e n, s.pc p = .mark e n) ∨ (s.pc p).inherits = true ∧ p = q := by
  rcases hs.pending q hq with ⟨r, e, n, hr, -⟩ | ⟨hf, -⟩ | hin
  · obtain rfl := hs.one_owner hp (q := r) (by rw [hr]; rfl)
    exact .inl ⟨e, n, hr⟩
  · simp [(hs.owner_bits hp).2] at hf
  · rcases Pc.inherits_cases hin with hc | ho
    · exact absurd hc (hs.not_accepting hp)
    · obtain rfl := hs.one_owner hp ho
      exact .inr ⟨hin, rfl⟩

omit [DecidableEq P] in
theorem Hands.unchosen (hs : Hands s h) (hp : (s.pc p).owns = true)
    (hmark : ∀ e n, s.pc p ≠ .mark e n) (hin : (s.pc p).inherits = false) : h.chosen = none := by
  by_contra hc
  obtain ⟨q, hq⟩ := Option.ne_none_iff_exists'.mp hc
  rcases hs.owner hp hq with ⟨e, n, hpc⟩ | ⟨hin', -⟩
  · exact hmark e n hpc
  · simp [hin] at hin'

omit [DecidableEq P] in
theorem Hands.of_holding {h' : Choice P} (hv : Exclusive (view t)) (hp : t.pc p = .holding)
    (hc : h'.chosen = none) : Hands t h' := by
  have ho : (view t).role p = .owner := role_owner.mpr (by rw [hp]; rfl)
  refine ⟨hv, fun q e n hq => ?_, fun hf => ?_, fun q hq => ?_, fun q hq => ?_⟩
  · have hqo : (view t).role q = .owner := role_owner.mpr (by rw [hq]; rfl)
    rw [hv.one_owner q p hqo ho, hp] at hq
    cases hq
  · have hb := (hv.owner_bits p ho).2
    simp [hf] at hb
  · exact absurd (role_accepting.mpr hq) (hv.owner_alone p q ho)
  · simp [hc] at hq

omit [DecidableEq P] in
theorem Hands.keep {h' : Choice P} (hs : Hands s h) (hv : Exclusive (view t))
    (hf : fair t.word = fair s.word) (hpc : ∀ q, q ≠ p → t.pc q = s.pc q)
    (hmark : ∀ e n, s.pc p ≠ .mark e n) (hmark' : ∀ e n, t.pc p ≠ .mark e n)
    (hclear : t.pc p = .fairClear → h.chosen = some p) (hc : h'.chosen = h.chosen)
    (hp : h.chosen = some p → ((s.pc p).looks = true → (t.pc p).looks = true ∨ (t.pc p).inherits = true) ∧
      ((s.pc p).inherits = true → (t.pc p).inherits = true)) : Hands t h' := by
  refine ⟨hv, fun q e n hq => ?_, fun hft => ?_, fun q hq => ?_, fun q hq => ?_⟩ <;> rw [hc] at *
  · by_cases hqp : q = p
    · exact absurd (hqp ▸ hq) (hmark' e n)
    · exact hs.marking q e n (hpc q hqp ▸ hq)
  · exact hs.raised (hf ▸ hft)
  · by_cases hqp : q = p
    · exact hqp ▸ hclear (hqp ▸ hq)
    · exact hs.accepting q (hpc q hqp ▸ hq)
  · rcases hs.pending q hq with ⟨r, e, n, hr, he⟩ | ⟨hfs, hlooks⟩ | hin
    · have hrp : r ≠ p := by
        rintro rfl
        exact hmark e n hr
      exact .inl ⟨r, e, n, hpc r hrp ▸ hr, he⟩
    · by_cases hqp : q = p
      · subst q
        rcases (hp hq).1 hlooks with hl | hi
        · exact .inr (.inl ⟨hf ▸ hfs, hl⟩)
        · exact .inr (.inr hi)
      · exact .inr (.inl ⟨hf ▸ hfs, by rwa [hpc q hqp]⟩)
    · by_cases hqp : q = p
      · subst q
        exact .inr (.inr ((hp hq).2 hin))
      · exact .inr (.inr (by rwa [hpc q hqp]))

end hands

section chooses
variable {s t : State P} {h : Choice P} {p q : P} {a : Act}

theorem Chooses.exclusive_step (hs : Chooses s h) (hok : OthersLookLate (s, h) (p, a))
    (hstep : step s (p, a) = some t) : Exclusive (view t) := by
  refine step_exclusive hs.sane hs.exclusive ?_ hstep
  cases a with
  | next =>
    intro ⟨timed, hpc⟩ hf q hq
    have hchosen := hok (by rw [hpc]; rfl) hf
    obtain rfl := Option.some.inj ((hs.accepting q hq).symm.trans hchosen)
    simp [hpc] at hq
  | _ => trivial

omit [DecidableEq P] in
theorem Chooses.carried_parks (hs : Chooses s h) {e : Entry P} (hp : (s.pc p).inSection = true)
    (he : e ∈ (s.pc p).carries ∨ e ∈ s.queue) (hne : e.owner ≠ p) : s.pc e.owner = .park false := by
  have hsleep : s.Sleeps e e.id := by
    rcases he with he | he
    · exact (hs.carried p e he e.id (hs.held p e he)).1
    · exact hs.queued e he e.id (hs.attached e he)
  have hout : (s.pc e.owner).inSection = false := by
    by_contra hc
    exact hne (Option.some.inj ((hs.locked (by simpa using hc)).symm.trans (hs.locked hp)))
  have hsleeps := hsleep.sleeping
  have hbasic := hs.basic e.owner
  cases hpc : s.pc e.owner with
  | park timed => simpa [hpc, Pc.basic] using hbasic
  | dropNode k | lockDrop k | removeNode k =>
    cases k <;> simp_all [Pc.sleeps, Pc.basic, Leave.basic, Leave.isTimeout]
  | unlockQueue a => simp [hpc, Pc.inSection] at hout
  | _ => simp [hpc, Pc.sleeps] at hsleeps

theorem Choice.note_chosen (hpc : s.pc p ≠ .popTail .unlockFair) :
    (h.note s t p).chosen = if t.pc p = .holding ∧ h.chosen = some p then none else h.chosen := by
  cases hc : s.pc p with
  | popTail r => cases r <;> simp_all [Choice.note]
  | _ => simp [Choice.note, hc]

theorem Choice.note_stolen (hs : h.stolen = false) : (h.note s t p).stolen =
    (h.chosen.any (fun q => q ≠ p) && !(s.pc p).succeeds && (t.pc p).succeeds) := by
  simp [Choice.note, hs]

theorem Chooses.mark_step (hs : Chooses s h) (hv : Exclusive (view t)) {e : Entry P} {n : Nat}
    (hpc : s.pc p = .mark e n) (ht : t = s.commit p (.wake .unlockFair e n)
      (if n = 0 then s.word ^^^ (waitBit ||| fairBit) else s.word ||| fairBit)) :
    Hands t (h.note s t p) := by
  have howns : (s.pc p).owns = true := by rw [hpc]; rfl
  have hchosen := hs.marking p e n hpc
  have hc : (h.note s t p).chosen = h.chosen := by
    rw [Choice.note_chosen (by simp [hpc])]
    simp [ht]
  have hpark : s.pc e.owner = .park false := by
    refine hs.carried_parks (p := p) (by rw [hpc]; rfl) (.inl (by rw [hpc]; rfl)) ?_
    rintro rfl
    have hsleep := (hs.carried _ e (by rw [hpc]; rfl) e.id (hs.held _ e (by rw [hpc]; rfl))).1.sleeping
    simp [hpc, Pc.sleeps] at hsleep
  have hne : e.owner ≠ p := by
    intro heq
    rw [heq, hpc] at hpark
    cases hpark
  have hfair : fair t.word = true := by
    subst t
    simp only [commit_fields]
    split
    · simp [(hs.owner_bits howns).2]
    · simp
  refine ⟨hv, fun q e' n' hq => ?_, fun _ => ?_, fun q hq => ?_, fun q hq => ?_⟩
  · have hqp : q ≠ p := by
      rintro rfl
      simp [ht] at hq
    have hq' : s.pc q = .mark e' n' := by simpa [ht, hqp] using hq
    exact absurd (hs.one_owner (by rw [hq']; rfl) howns) hqp
  · simp [hc, hchosen]
  · have hqp : q ≠ p := by
      rintro rfl
      simp [ht] at hq
    exact absurd (by simpa [ht, hqp] using hq) (hs.not_accepting howns)
  · rw [hc, hchosen] at hq
    obtain rfl := Option.some.inj hq
    exact .inr (.inl ⟨hfair, by simp [ht, hne, hpark, Pc.looks]⟩)

theorem Hands.of_popped (hv : Exclusive (view t)) {e : Entry P} {n : Nat}
    (hpc : s.pc p = .popTail .unlockFair) (he : s.queue.getLast? = some e)
    (ht : t = (s.popped e).goto p (.mark e n)) : Hands t (h.note s t p) := by
  have howns : (s.pc p).owns = true := by rw [hpc]; rfl
  have hc : (h.note s t p).chosen = some e.owner := by simp [Choice.note, hpc, he]
  have hp : t.pc p = .mark e n := by simp [ht]
  have ho : (view t).role p = .owner := role_owner.mpr (by rw [hp]; rfl)
  refine ⟨hv, fun q e' n' hq => ?_, fun _ => ?_, fun q hq => ?_, fun q hq => ?_⟩
  · have hqo : (view t).role q = .owner := role_owner.mpr (by rw [hq]; rfl)
    obtain rfl := hv.one_owner q p hqo ho
    rw [hp] at hq
    cases hq
    exact hc
  · simp [hc]
  · exact absurd (role_accepting.mpr hq) (hv.owner_alone p q ho)
  · rw [hc] at hq
    obtain rfl := Option.some.inj hq
    exact .inl ⟨p, e, n, hp, rfl⟩

theorem Chooses.clear_step (hs : Chooses s h) (hv : Exclusive (view t)) (hpc : s.pc p = .fairClear)
    (ht : t = s.commit p (.dropNode .success) (s.word &&& ~~~fairBit)) : Hands t (h.note s t p) := by
  have hchosen := hs.accepting p hpc
  have hc : (h.note s t p).chosen = h.chosen := by
    rw [Choice.note_chosen (by simp [hpc])]
    simp [ht]
  have hp : t.pc p = .dropNode .success := by simp [ht]
  have ho : (view t).role p = .owner := role_owner.mpr (by rw [hp]; rfl)
  refine ⟨hv, fun q e n hq => ?_, fun hf => ?_, fun q hq => ?_, fun q hq => ?_⟩
  · have hqo : (view t).role q = .owner := role_owner.mpr (by rw [hq]; rfl)
    rw [hv.one_owner q p hqo ho, hp] at hq
    cases hq
  · simp [ht] at hf
  · exact absurd (role_accepting.mpr hq) (hv.owner_alone p q ho)
  · rw [hc, hchosen] at hq
    obtain rfl := Option.some.inj hq
    exact .inr (.inr (by rw [hp]; rfl))

theorem Chooses.keep_step (hs : Chooses s h) (hv : Exclusive (view t)) (hstep : step s (p, a) = some t)
    (hpop : s.pc p ≠ .popTail .unlockFair) (hf : fair t.word = fair s.word)
    (hmark : ∀ e n, s.pc p ≠ .mark e n) (hmark' : ∀ e n, t.pc p ≠ .mark e n)
    (hclear : t.pc p = .fairClear → h.chosen = some p)
    (hp : h.chosen = some p → ((s.pc p).looks = true → (t.pc p).looks = true ∨ (t.pc p).inherits = true) ∧
      ((s.pc p).inherits = true → (t.pc p).inherits = true ∨ t.pc p = .holding)) :
    Hands t (h.note s t p) := by
  by_cases hret : t.pc p = .holding ∧ h.chosen = some p
  · exact .of_holding hv hret.1 (by rw [Choice.note_chosen hpop, if_pos hret])
  · refine hs.toHands.keep (p := p) hv hf (fun q hq => step_others hstep hq) hmark hmark' hclear
      (by rw [Choice.note_chosen hpop, if_neg hret]) fun hchosen => ⟨(hp hchosen).1, fun hin => ?_⟩
    exact ((hp hchosen).2 hin).resolve_right fun hh => hret ⟨hh, hchosen⟩

omit [DecidableEq P] in
theorem Chooses.unchosen_look (hs : Chooses s h) {timed : Bool} (hpc : s.pc p = .fairLoad timed)
    (hf : fair s.word = false) : h.chosen ≠ some p := by
  intro hc
  rcases hs.pending p hc with ⟨r, e, n, hr, rfl⟩ | ⟨hft, -⟩ | hin
  · have hpark := hs.carried_parks (p := r) (e := e) (by rw [hr]; rfl) (.inl (by rw [hr]; rfl)) (by
      rintro rfl
      rw [hpc] at hr
      cases hr)
    rw [hpc] at hpark
    cases hpark
  · simp [hf] at hft
  · simp [hpc, Pc.inherits] at hin

def Pc.quiet : Pc P → Bool
  | .mark _ _ | .fairClear | .fairLoad _ | .popTail .unlockFair => false
  | _ => true

omit [DecidableEq P] in
theorem Flow.quiet {w : Word} {c d : Pc P} (h : Flow w a c d) (hb : c.basic = true)
    (hq : c.quiet = true) : (∀ e n, d ≠ .mark e n) ∧ d ≠ .fairClear ∧
      (c.looks = true → d.looks = true) ∧
      (c.inherits = true → d.inherits = true ∨ d = .holding) := by
  cases h with
  | fairTail | mark | fairClear | fairSeen | fairUnseen => simp [Pc.quiet] at hq
  | timeout => simp [Pc.basic] at hb
  | dropOff k | dropped k =>
    cases k <;> simp_all [Leave.next, Pc.basic, Leave.basic, Pc.looks, Pc.inherits]
  | fetchAlone r | released r => cases r <;> simp [afterRelease, Pc.looks, Pc.inherits]
  | dropLinked k | lockDrop k | removeNode k => simp [Pc.looks, Pc.inherits]
  | _ => simp [Pc.looks, Pc.inherits]

theorem fair_of_quiet (hstep : step s (p, a) = some t) (hq : (s.pc p).quiet = true) :
    fair t.word = fair s.word := by
  cases step_cases hstep with
  | mark e n hpc | fairClear hpc => simp [hpc, Pc.quiet] at hq
  | _ => simp_all

theorem Chooses.hands_step (hs : Chooses s h) (hok : OthersLookLate (s, h) (p, a))
    (hstep : step s (p, a) = some t) : Hands t (h.note s t p) := by
  have hv := hs.exclusive_step hok hstep
  by_cases hq : (s.pc p).quiet = true
  · obtain ⟨hmark, hclear, hlooks, hinherits⟩ := (step_flow hstep).quiet (hs.basic p) hq
    refine hs.keep_step hv hstep ?_ (fair_of_quiet hstep hq) ?_ hmark
      (fun hc => absurd hc hclear) fun _ => ⟨fun hl => .inl (hlooks hl), hinherits⟩
    · intro hpc
      simp [hpc, Pc.quiet] at hq
    · intro e n hpc
      simp [hpc, Pc.quiet] at hq
  cases step_cases hstep with
  | mark e n hpc => exact hs.mark_step hv hpc rfl
  | fairClear hpc => exact hs.clear_step hv hpc rfl
  | popTail r e hpc he =>
    cases r with
    | unlockFair => exact .of_popped hv hpc he rfl
    | unlock | bump => simp [hpc, Pc.quiet] at hq
  | popNone r hpc he =>
    cases r with
    | unlockFair =>
      have hnone := hs.unchosen (p := p) (by rw [hpc]; rfl) (by simp [hpc]) (by rw [hpc]; rfl)
      have hc : (h.note s (s.goto p .onEmpty) p).chosen = h.chosen := by
        simp [Choice.note, hpc, he]
      exact hs.toHands.keep (p := p) hv rfl (fun q hq => by simp [hq]) (by simp [hpc]) (by simp)
        (by simp) hc (by simp [hnone])
    | unlock | bump => simp [hpc, Pc.quiet] at hq
  | fairUnseen timed hpc hf =>
    have hnot := hs.unchosen_look hpc hf
    exact hs.keep_step hv hstep (by simp [hpc]) rfl (by simp [hpc]) (by simp) (by simp)
      fun hc => absurd hc hnot
  | fairSeen timed hpc hf =>
    exact hs.keep_step hv hstep (by simp [hpc]) rfl (by simp [hpc]) (by simp)
      (fun _ => hok (by rw [hpc]; rfl) hf) (by simp [hpc, Pc.inherits])
  | dropFuture held hpc => cases held <;> simp [hpc, Pc.quiet] at hq
  | _ => simp_all [Pc.quiet]

/-! ### Who gets the lock -/

omit [DecidableEq P] in
theorem Flow.succeeds {w : Word} {c d : Pc P} (h : Flow w a c d) (hs : c.sane)
    (hb : c.basic = true) (hc : c.succeeds = false) (hd : d.succeeds = true) :
    locked w = false ∨ a = .next ∧ c.looksUp = true ∧ fair w = true := by
  cases h with
  | casTaken call => exact .inl hs
  | sleepTaken call hl => exact .inl hl
  | fairSeen timed hf => exact .inr ⟨rfl, rfl, hf⟩
  | dropOff k | dropped k =>
    cases k <;>
      simp_all [Leave.next, Pc.succeeds, Pc.owns, Leave.owns, Pc.basic, Leave.basic]
  | fetchAlone r | released r => cases r <;> simp_all [afterRelease, Pc.succeeds, Pc.owns, Pc.basic]
  | _ => simp_all [Pc.succeeds, Pc.owns, Leave.owns, Pc.basic]

omit [DecidableEq P] in
theorem Flow.carries {w : Word} {c d : Pc P} {e : Entry P} (h : Flow w a c d)
    (he : e ∈ d.carries) : e ∈ c.carries ∨ ∃ r, c = .popTail r := by
  cases h with
  | popTail r | fairTail => exact .inr ⟨_, rfl⟩
  | mark e' n => exact .inl he
  | dropOff k | dropped k =>
    cases k with
    | future held => cases held <;> simp [Leave.next, Pc.carries] at he
    | _ => simp [Leave.next, Pc.carries] at he
  | fetchAlone r | released r => cases r <;> simp [afterRelease, Pc.carries] at he
  | _ => simp [Pc.carries] at he

theorem carries_step {e : Entry P} (hstep : step s (p, a) = some t) (he : e ∈ (t.pc q).carries) :
    e ∈ (s.pc q).carries ∨ e ∈ s.queue := by
  by_cases hq : q = p
  · subst q
    refine ((step_flow hstep).carries he).imp_right fun ⟨r, hpc⟩ => ?_
    cases step_cases hstep with
    | popTail r e' hpc hlast =>
      refine List.mem_of_getLast? ?_
      simp only [goto_fields, Function.update_self] at he
      split at he <;> simp_all [Pc.carries]
    | popNone r hpc hlast =>
      simp only [goto_fields, Function.update_self] at he
      split at he <;> simp [Pc.carries] at he
    | dropFuture held hidle => cases held <;> simp_all
    | _ => simp_all
  · rw [step_others hstep hq] at he
    exact .inl he

theorem Chooses.step (hs : Chooses s h) (hl : FairCalls (s, h) (p, a))
    (hok : OthersLookLate (s, h) (p, a)) (hstep : RawMutex.step s (p, a) = some t) :
    Chooses t (h.note s t p) where
  toLive := by
    refine step_live hs.toLive ?_ hstep
    cases a with
    | next =>
      intro hends
      have hb := hs.basic p
      cases hpc : s.pc p with
      | dropNode k =>
        rw [hpc] at hb
        cases k <;> simp_all [State.endsWait, Leave.isTimeout, Pc.basic, Leave.basic]
      | unlockQueue x =>
        rw [hpc] at hb
        rcases x with _ | _ | k | _
        · simp [State.endsWait, hpc] at hends
        · simp [State.endsWait, hpc] at hends
        · cases k <;> simp_all [State.endsWait, Leave.isTimeout, Pc.basic, Leave.basic]
        · simp [State.endsWait, hpc] at hends
      | _ => simp [State.endsWait, hpc] at hends
    | _ => trivial
  toHands := hs.hands_step hok hstep
  sane := step_sane hs.sane hstep
  basic := step_basic hs.basic hl hstep
  attached := by
    intro e he
    rcases mem_queue_step hstep he with hold | ⟨c, i, hpc, -, rfl⟩
    · exact hs.attached e hold
    · have hb := hs.basic p
      rw [hpc] at hb
      cases c <;> simp_all [Pc.basic, Call.basic, Call.waker]
  held := by
    intro q e he
    rcases carries_step hstep he with hold | hqueue
    · exact hs.held q e hold
    · exact hs.attached e hqueue
  fairly := by
    rw [Choice.note_stolen hs.fairly]
    by_contra hc
    simp only [Bool.not_eq_false, Bool.and_eq_true, Bool.not_eq_true'] at hc
    obtain ⟨⟨hother, hp⟩, ht⟩ := hc
    cases hq : h.chosen with
    | none => simp [hq] at hother
    | some q =>
      rcases (step_flow hstep).succeeds (hs.sane p) (hs.basic p) hp ht with hfree | ⟨rfl, hlooks, hf⟩
      · simp [hs.busy hq] at hfree
      · have hchosen : h.chosen = some p := hok hlooks hf
        simp [hchosen] at hother

end chooses

/-- A waiter that was not chosen and sees the bit takes the hand-off. -/
theorem look_steals {s t : State P} {h : Choice P} {p : P} {a : Act} (hs : Hands s h)
    (hno : ¬ OthersLookLate (s, h) (p, a)) (hstep : step s (p, a) = some t) :
    (h.note s t p).stolen = true := by
  cases a with
  | next =>
    simp only [OthersLookLate, Classical.not_imp] at hno
    obtain ⟨hlooks, hf, hne⟩ := hno
    obtain ⟨q, hq⟩ := Option.ne_none_iff_exists'.mp (hs.raised hf)
    have hqp : q ≠ p := by
      rintro rfl
      exact hne hq
    cases step_cases hstep with
    | fairSeen timed hpc => simp [Choice.note, hpc, hq, hqp, Pc.succeeds, Pc.owns]
    | fairUnseen timed hpc hf' => simp [hf] at hf'
    | _ => simp_all [Pc.looksUp]
  | _ => exact absurd trivial hno

omit [DecidableEq P] in
theorem chooses_init : Chooses (init : State P) noChoice where
  toLive := live_init
  toHands :=
    { exclusive := by rw [view_init]; constructor <;> simp [free]
      marking := by simp [init]
      raised := by simp [init]
      accepting := by simp [init]
      pending := by simp [noChoice] }
  sane := fun _ => trivial
  basic := fun _ => rfl
  attached := by simp [init]
  held := by simp [init, Pc.carries]
  fairly := rfl

theorem reach_order {s : State P × Choice P} {ok : State P × Choice P → P × Act → Prop}
    (h : Reach (recorded step noteChoice) ok (init, noChoice) s) :
    s.1.queue.Sublist s.2.pushed := by
  refine h.invariant (I := fun s => s.1.queue.Sublist s.2.pushed) (by simp [init]) ?_
  rintro ⟨s, h⟩ ⟨p, a⟩ ⟨t, h'⟩ hs - hstep
  obtain ⟨hstep, rfl⟩ := recorded_eq hstep
  simp only [noteChoice, hstep, Option.elim_some]
  exact order_step hs hstep

/-- `unlock_fair` pops the waiter that was queued first of all. In a run of `lock`, `try_lock`,
`unlock` and `unlock_fair` nobody but the chosen waiter gets the lock until that waiter has it if
and only if no other woken waiter looks at the word while `FAIR_BIT` is set. -/
theorem unlock_fair_chooses {s : State P × Choice P} {ls : List (P × Act)}
    (hl : Meets (recorded step noteChoice) FairCalls (init, noChoice) ls)
    (h : run (recorded step noteChoice) (init, noChoice) ls = some s) :
    (∀ p e, s.1.pc p = .popTail .unlockFair → s.1.queue.getLast? = some e →
      (∃ t, recorded step noteChoice s (p, .next) = some t ∧ t.2.chosen = some e.owner) ∧
      ∀ x ∈ s.1.queue, x = e ∨ [x, e].Sublist s.2.pushed) ∧
    (Visits (recorded step noteChoice) (fun s => s.2.stolen = false) (init, noChoice) ls ↔
      Meets (recorded step noteChoice) OthersLookLate (init, noChoice) ls) := by
  constructor
  · intro p e hpc he
    constructor
    · refine ⟨_, by simp [recorded, step, hpc, atomic, queueStep, he]; rfl, ?_⟩
      simp [noteChoice, step, hpc, atomic, queueStep, he, Choice.note]
    · intro x hx
      have horder := reach_order (run_reach hl h)
      rw [queue_eq he, List.mem_append, List.mem_singleton] at hx
      refine hx.symm.imp_right fun hx => ?_
      have hpair : [x, e].Sublist s.1.queue := by
        rw [queue_eq he]
        exact (List.singleton_sublist.mpr hx).append (.refl [e])
      exact hpair.trans horder
  · refine visits_iff_meets (I := fun s => Chooses s.1 s.2) (fun _ hs => hs.fairly) ?_ ?_
      chooses_init hl h
    · rintro ⟨s, h⟩ ⟨p, a⟩ ⟨t, h'⟩ hs hl hok hstep
      obtain ⟨hstep, rfl⟩ := recorded_eq hstep
      simp only [noteChoice, hstep, Option.elim_some]
      exact hs.step hl hok hstep
    · rintro ⟨s, h⟩ ⟨p, a⟩ ⟨t, h'⟩ hs hl hno hstep
      obtain ⟨hstep, rfl⟩ := recorded_eq hstep
      simp only [noteChoice, hstep, Option.elim_some]
      simpa using look_steals hs.toHands hno hstep

instance (s : State P × Choice P) (l : P × Act) : Decidable (FairCalls s l) :=
  match l with
  | (_, .next) => isTrue trivial
  | (_, .start c) => inferInstanceAs (Decidable (c = .tryLock ∨ c = .lockInner false))
  | (_, .release r) => inferInstanceAs (Decidable (r ≠ .bump))
  | (_, .timeout) | (_, .dropFuture) => isFalse id

instance (s : State P × Choice P) (l : P × Act) : Decidable (OthersLookLate s l) :=
  match l with
  | (p, .next) =>
    inferInstanceAs (Decidable ((s.1.pc p).looksUp = true → fair s.1.word = true →
      s.2.chosen = some p))
  | (_, .start _) | (_, .release _) | (_, .timeout) | (_, .dropFuture) => isTrue trivial

/-- Party 2 looks first, and takes the hand-off that was meant for it. -/
theorem unlock_fair_chooses_second : ∃ s : State (Fin 3) × Choice (Fin 3), s.1.pc 2 = .holding ∧
    Visits (recorded step noteChoice) (fun s => s.2.stolen = false)
      ((init : State (Fin 3)), noChoice) (handOverBehindWaiter ++ nexts 2 3) := by
  have hr : ((run (restrict (recorded step noteChoice)
      fun s l => FairCalls s l ∧ OthersLookLate s l) ((init : State (Fin 3)), noChoice)
      (handOverBehindWaiter ++ nexts 2 3)).map fun s => s.1.pc 2) = some .holding := by decide
  obtain ⟨s, hs, hpc⟩ := Option.map_eq_some_iff.mp hr
  obtain ⟨hm, hrun⟩ := restrict_run_meets hs
  exact ⟨s, hpc, (unlock_fair_chooses (hm.mono fun _ _ h => h.1) hrun).2.mpr
    (hm.mono fun _ _ h => h.2)⟩

/-- Party 1, woken by the plain `unlock` before, looks first and takes the hand-off to 2. -/
theorem unlock_fair_overtaken : ¬ ∀ s : State (Fin 3) × Choice (Fin 3),
    Reach (recorded step noteChoice) FairCalls (init, noChoice) s →
    ∀ p q, s.2.chosen = some p → q ≠ p → s.1.pc q ≠ .holding := by
  have hr : ((run (restrict (recorded step noteChoice) FairCalls)
      ((init : State (Fin 3)), noChoice) (handOverBehindWaiter ++ nexts 1 3)).map
        fun s => (s.2.chosen, s.1.pc 1)) = some (some 2, .holding) := by decide
  obtain ⟨s, hs, ho⟩ := Option.map_eq_some_iff.mp hr
  simp only [Prod.mk.injEq] at ho
  intro h
  exact h s (restrict_run_reach hs) 2 1 ho.1 (by decide) ho.2

end Colock.RawMutex
