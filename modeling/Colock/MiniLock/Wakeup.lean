import Colock.MiniLock.Soundness

/-! `MiniLock` loses no wake-up: while the lock is free and threads wait, one of them is about
to be woken or has been; and an `unlock` that does not find the stack empty pops a waker. -/
namespace Colock.MiniLock
open Transition
variable {T : Type*}

def Pc.wakes : Pc T → Bool
  | .wake _ _ => true
  | _ => false

def Pc.contends : Pc T → Bool
  | .lock | .spin _ _ | .newParker | .preparePark _ | .newNode _ | .assertNext _ _
  | .pushOrLock _ _ _ | .push _ _ _ => true
  | .dropFrame _ _ locked => !locked
  | _ => false

/-- The thread was woken, and has since neither got the lock nor pushed itself again. -/
def State.wokenWaiter (s : State T) (t : T) : Prop :=
  (∃ a p, s.pc t = .park a p ∧ s.parker p = some true) ∨ s.woken t ∧ (s.pc t).contends

variable [DecidableEq T]

theorem step_pc {s s' : State T} {t : T} {k : Act} (hs : step s (t, k) = some s') :
    s'.pc = Function.update s.pc t (s'.pc t) := by
  cases step_cases hs <;> simp [State.goto, State.locked]

theorem step_woken {s s' : State T} {t : T} {k : Act} (hs : step s (t, k) = some s') :
    s'.woken = s.woken ∨ ∃ b, s'.woken = Function.update s.woken t b := by
  cases step_cases hs with
  | lockTaken | spinTaken | queuedTaken | tryTaken | push => exact .inr ⟨false, rfl⟩
  | parkEnds => exact .inr ⟨true, rfl⟩
  | _ => exact .inl rfl

theorem step_parker {s s' : State T} {t : T} {k : Act} (hs : step s (t, k) = some s') :
    s'.parker = s.parker ∨ ∃ p b, s'.parker = Function.update s.parker p b ∧
      ((s.pc t).parker? = some p ∨ s.parker p = none ∨ b = some true) := by
  cases step_cases hs with
  | newParker p hpc hfree => exact .inr ⟨p, some false, rfl, .inr (.inl hfree)⟩
  | preparePark p hpc => exact .inr ⟨p, some false, rfl, .inl (by rw [hpc]; rfl)⟩
  | dropFrame a p locked hpc => exact .inr ⟨p, none, rfl, .inl (by rw [hpc]; rfl)⟩
  | wake a w p => exact .inr ⟨p, some true, rfl, .inr (.inr rfl)⟩
  | _ => exact .inl rfl

theorem step_head {s s' : State T} {t : T} {k : Act} (hs : step s (t, k) = some s') :
    s'.head = s.head ∨ getFlag s'.head ∨ s'.head = 0 ∨
      ∃ a w, s'.pc = Function.update s.pc t (.wake a w) := by
  cases step_cases hs with
  | lockTaken | spinTaken | queuedTaken | tryTaken | push | popHead =>
    exact .inr (.inl (by simp [State.locked, State.goto]))
  | unlocked => exact .inr (.inr (.inl rfl))
  | clear a w => exact .inr (.inr (.inr ⟨a, w, rfl⟩))
  | _ => exact .inl rfl

theorem step_contends {s s' : State T} {t : T} {k : Act} (hs : step s (t, k) = some s')
    (hc : (s.pc t).contends) :
    getFlag s'.head ∨ s'.pc t = .fault ∨ s'.woken = s.woken ∧ (s'.pc t).contends := by
  cases step_cases hs with
  | faults => exact .inr (.inl (by simp))
  | lockTaken | spinTaken | queuedTaken | tryTaken | push | popHead =>
    exact .inl (by simp [State.locked, State.goto])
  | dropFrame a p locked hpc =>
    cases locked with
    | true => simp [hpc, Pc.contends] at hc
    | false => exact .inr (.inr ⟨rfl, by simp [Pc.contends]⟩)
  | lockFailed | spinAgain | spinEnds | newParker | preparePark | newNode | assertNext | setNext
  | queuedFailed | pushFailed => exact .inr (.inr ⟨rfl, by simp [Pc.contends]⟩)
  | _ => simp_all [Pc.contends]

theorem Inv.woken_other {s s' : State T} {q : Waiters} (h : Inv s q) {t u : T} {k : Act}
    (hs : step s (t, k) = some s') (hut : u ≠ t) (hw : s.wokenWaiter u) : s'.wokenWaiter u := by
  have hpc : s'.pc u = s.pc u := by rw [step_pc hs, Function.update_of_ne hut]
  rcases hw with ⟨a, p, hu, hp⟩ | ⟨hw, hu⟩
  · refine .inl ⟨a, p, hpc.trans hu, ?_⟩
    rcases step_parker hs with hsame | ⟨p', b, hset, hown⟩
    · rw [hsame, hp]
    · by_cases hpp : p = p'
      · subst hpp
        rcases hown with ht | hfree | hb
        · exact absurd (h.parkers u t p (by rw [hu]; rfl) ht) hut
        · simp [hp] at hfree
        · simp [hset, hb]
      · rw [hset, Function.update_of_ne hpp, hp]
  · refine .inr ⟨?_, hpc ▸ hu⟩
    rcases step_woken hs with hsame | ⟨b, hset⟩
    · rw [hsame, hw]
    · rw [hset, Function.update_of_ne hut, hw]

theorem Inv.woken_self {s s' : State T} {q : Waiters} (h' : Inv s' q) {t : T} {k : Act}
    (hs : step s (t, k) = some s') (hw : s.wokenWaiter t) :
    getFlag s'.head ∨ s'.wokenWaiter t := by
  rcases hw with ⟨a, p, hc, hp⟩ | ⟨hw, hc⟩
  · cases k with
    | step =>
      simp only [step, next, hc, hp, Option.some.injEq] at hs
      subst hs
      exact .inr (.inr (by simp [State.goto, Pc.contends]))
    | _ => simp [step, hc] at hs
  · rcases step_contends hs hc with hflag | hfault | ⟨hsame, hcon⟩
    · exact .inl hflag
    · exact absurd hfault (h'.no_fault t)
    · exact .inr (.inr ⟨by rw [hsame, hw], hcon⟩)

theorem Inv.wakes_one {s s' : State T} {q : Waiters} (h : Inv s q) {t : T} {a : Addr} {w : Waker T}
    (hc : s.pc t = .wake a w) (hs : next s t = some s') :
    ∃ u, s.pc u ≠ s.pc t ∧ ¬ s.wokenWaiter u ∧ s'.wokenWaiter u ∧
      ∀ v, v ≠ u → (s'.wokenWaiter v ↔ s.wokenWaiter v) := by
  obtain ⟨u, p, hu, rfl, hlive, -⟩ := h.wake hc
  obtain ⟨v, b, hv, hp⟩ := h.foreignParker (t := t) (p := p) (by rw [hc]; rfl)
  obtain rfl := h.parkers v u p (by rw [hv]; rfl) (by rw [hu]; rfl)
  simp only [next, hc, wakerOf, hlive, if_true, Option.some.injEq] at hs
  subst hs
  have hut : v ≠ t := by
    rintro rfl
    simp [hc] at hu
  refine ⟨v, by simp [hu, hc], ?_, .inl ⟨a, p, by simp [State.goto, hut, hu]⟩, fun x hxv => ?_⟩
  · rintro (⟨a', p', hu', hp'⟩ | ⟨-, hu'⟩)
    · obtain ⟨-, rfl⟩ : a = a' ∧ p = p' := by simpa using hu.symm.trans hu'
      simp [hp] at hp'
    · simp [hu, Pc.contends] at hu'
  · by_cases hxt : x = t
    · subst hxt
      simp [State.wokenWaiter, State.goto, hc, Pc.contends]
    · have hne : ∀ a' p', s.pc x = .park a' p' → p' ≠ p := by
        rintro a' p' hx rfl
        exact hxv (h.parkers x v p' (by rw [hx]; rfl) (by rw [hu]; rfl))
      simp only [State.wokenWaiter, State.goto, Function.update_of_ne hxt]
      refine or_congr_left (exists_congr fun a' => exists_congr fun p' => and_congr_right fun hx => ?_)
      rw [Function.update_of_ne (hne a' p' hx)]

/-- With the lock free and threads on the stack, one is about to be woken, or was. -/
def State.Alert (s : State T) : Prop :=
  getFlag s.head = false → getPtr s.head ≠ 0 → ∃ t, (s.pc t).wakes ∨ s.wokenWaiter t

theorem Inv.alert {s s' : State T} {q : Waiters} (h : Inv s q) (ha : s.Alert) {l : T × Act}
    (hs : step s l = some s') : s'.Alert := by
  obtain ⟨t, k⟩ := l
  obtain ⟨q', h'⟩ := inv_step h hs
  intro hfree hptr
  rcases step_head hs with hhead | hflag | hzero | ⟨a, w, hpc⟩
  · obtain ⟨u, hu⟩ := ha (hhead ▸ hfree) (hhead ▸ hptr)
    by_cases hut : u = t
    · subst hut
      rcases hu with hu | hu
      · cases hc : s.pc u with
        | wake a w =>
          cases k with
          | step =>
            obtain ⟨v, -, -, hv, -⟩ := h.wakes_one hc hs
            exact ⟨v, .inr hv⟩
          | _ => simp [step, hc] at hs
        | _ => simp [hc, Pc.wakes] at hu
      · exact ⟨u, .inr ((h'.woken_self hs hu).resolve_left (by simp [hfree]))⟩
    · have hpc : s'.pc u = s.pc u := by rw [step_pc hs, Function.update_of_ne hut]
      exact ⟨u, hu.imp (hpc ▸ ·) (h.woken_other hs hut)⟩
  · simp [hfree] at hflag
  · simp [hzero] at hptr
  · exact ⟨t, .inl (by simp [hpc, Pc.wakes])⟩

/-- The steps that `pop` still takes up to its successful `compare_exchange` when the head
stays as it is now. -/
def Pc.rank (now : Word) : Pc T → Nat
  | .pop => 4
  | .popLoad => 3
  | .popNext head => if head = now then 2 else 4
  | .popHead head _ _ => if head = now then 1 else 3
  | _ => 0

omit [DecidableEq T] in
theorem Pc.rank_le (now : Word) (c : Pc T) : c.rank now ≤ 4 := by
  cases c <;> grind [Pc.rank]

omit [DecidableEq T] in
theorem Pc.rank_pos (now : Word) {c : Pc T} (h : c.popping) : 0 < c.rank now := by
  cases c <;> grind [Pc.rank, Pc.popping]

omit [DecidableEq T] in
theorem Pc.rank_change (now then' : Word) (c : Pc T) : c.rank then' ≤ c.rank now + 2 := by
  cases c <;> grind [Pc.rank]

theorem Inv.pop_step {s : State T} {q : Waiters} (h : Inv s q) {t : T} (hpop : (s.pc t).popping) :
    ∃ s', next s t = some s' ∧
      ((s'.pc t).popping ∧ (s'.pc t).rank s'.head < (s.pc t).rank s.head ∧ s'.log = s.log ∨
        ∃ a, s'.pc t = .takeWaker a) := by
  have hflag : getFlag s.head := h.flag.mpr ⟨t, Pc.holds_of_popping hpop⟩
  cases hc : s.pc t with
  | pop =>
    refine ⟨s.goto t .popLoad, by simp [next, hc, hflag], .inl ?_⟩
    simp [Pc.popping, Pc.rank, State.goto]
  | popLoad =>
    refine ⟨s.goto t (.popNext s.head), by simp [next, hc], .inl ?_⟩
    simp [Pc.popping, Pc.rank, State.goto]
  | popNext head =>
    obtain ⟨a, n, -, -, -, hnext, -⟩ := h.next_popNext hc
    refine ⟨_, hnext, .inl ⟨by simp [Pc.popping], ?_, rfl⟩⟩
    by_cases hhead : head = s.head <;> simp [Pc.rank, State.goto, hhead]
  | popHead head a x =>
    by_cases hhead : s.head = head
    · exact ⟨{ s with head := x ||| lockedBit, log := (t, .pop a) :: s.log }.goto t (.takeWaker a),
        by simp [next, hc, hhead], .inr ⟨a, by simp⟩⟩
    · refine ⟨s.goto t (.popNext s.head), by simp [next, hc, hhead], .inl ?_⟩
      simp [Pc.popping, Pc.rank, State.goto, Ne.symm hhead]
  | _ => simp [hc, Pc.popping] at hpop

theorem step_popping {s s' : State T} {t : T} {k : Act} (hpop : (s.pc t).popping)
    (hs : step s (t, k) = some s') : next s t = some s' := by
  cases k with
  | step => exact hs
  | _ =>
    cases step_cases hs
    simp_all [Pc.popping]

theorem Inv.take_step {s s' : State T} {q : Waiters} (h : Inv s q) {t : T} {a : Addr} {k : Act}
    (hc : s.pc t = .takeWaker a) (hs : step s (t, k) = some s') : ∃ w, s'.pc t = .clear a w := by
  obtain ⟨n, w, hn, hw, -⟩ := h.takeWaker hc
  cases k with
  | step =>
    simp only [step, next, hc, hn, hw, Option.some.injEq] at hs
    subst hs
    exact ⟨w, by simp⟩
  | _ => simp [step, hc] at hs

theorem Inv.pop_alone {n : Nat} {s : State T} {q : Waiters} (h : Inv s q) {t : T}
    (hpop : (s.pc t).popping) (hn : (s.pc t).rank s.head ≤ n) :
    ∃ m s' a w, m ≤ n + 1 ∧ run step s (steps t m) = some s' ∧ s'.pc t = .clear a w := by
  induction n generalizing s q with
  | zero => exact absurd hn (Nat.not_le.mpr (Pc.rank_pos s.head hpop))
  | succ n ih =>
    obtain ⟨s₁, hs₁, hnext⟩ := h.pop_step hpop
    obtain ⟨q₁, h₁⟩ := inv_next h hs₁
    have hrun : ∀ m, run step s (steps t (m + 1)) = run step s₁ (steps t m) := by
      intro m
      simp [steps, List.replicate_succ, run, step, hs₁]
    rcases hnext with ⟨hpop₁, hrank, -⟩ | ⟨a, ha⟩
    · obtain ⟨m, s', a, w, hm, hs', hw⟩ := ih h₁ hpop₁ (by omega)
      exact ⟨m + 1, s', a, w, by omega, (hrun m).trans hs', hw⟩
    · have htake : ∃ s', step s₁ (t, .step) = some s' := by simp [step, next, ha]
      obtain ⟨s', hs'⟩ := htake
      obtain ⟨w, hw⟩ := h₁.take_step ha hs'
      exact ⟨2, s', a, w, by omega, (hrun 1).trans (by simp [steps, run, hs']), hw⟩

def Event.isPush : Event → Bool
  | .push _ => true
  | _ => false

def pushes (log : List (T × Event)) : Nat := log.countP (·.2.isPush)

theorem step_log {s s' : State T} {t : T} {k : Act} (hs : step s (t, k) = some s') :
    s'.log = s.log ∨ ∃ e, s'.log = (t, e) :: s.log := by
  cases step_cases hs with
  | push | contended | popHead | wake => exact .inr ⟨_, rfl⟩
  | _ => exact .inl rfl

theorem step_push {s s' : State T} {t : T} {k : Act} (hs : step s (t, k) = some s') :
    s'.head = s.head ∨ (s.pc t).holds ∨ getFlag s.head = false ∨
      ∃ a, s'.log = (t, .push a) :: s.log := by
  cases step_cases hs with
  | lockTaken hpc hhead => exact .inr (.inr (.inl (by simp [hhead])))
  | spinTaken head counter hpc hmax hhead => exact .inr (.inr (.inl (by simp [hhead])))
  | queuedTaken a p head hpc hf hhead => exact .inr (.inr (.inl (by rw [hhead, hf])))
  | tryTaken head hpc hf hhead => exact .inr (.inr (.inl (by rw [hhead, hf])))
  | push a => exact .inr (.inr (.inr ⟨a, rfl⟩))
  | unlocked hpc | popHead _ _ hpc | clear _ _ hpc => exact .inr (.inl (by rw [hpc]; rfl))
  | _ => exact .inl rfl

theorem Inv.rank_step {s s' : State T} {q : Waiters} (h : Inv s q) {t : T} {l : T × Act}
    (hpop : (s.pc t).popping) (hs : step s l = some s') (hpop' : (s'.pc t).popping) :
    (s'.pc t).rank s'.head + (if l.1 = t then 1 else 0) + 2 * pushes s.log ≤
      (s.pc t).rank s.head + 2 * pushes s'.log := by
  obtain ⟨u, k⟩ := l
  by_cases hut : u = t
  · subst hut
    obtain ⟨s₁, hs₁, hnext⟩ := h.pop_step hpop
    obtain rfl := Option.some.inj (hs₁.symm.trans (step_popping hpop hs))
    rcases hnext with ⟨-, hrank, hlog⟩ | ⟨a, ha⟩
    · simp only [hlog, if_true]
      omega
    · simp [ha, Pc.popping] at hpop'
  · have hpc : s'.pc t = s.pc t := by rw [step_pc hs, Function.update_of_ne (Ne.symm hut)]
    have hmono : pushes s.log ≤ pushes s'.log := by
      rcases step_log hs with hlog | ⟨e, hlog⟩ <;> simp [pushes, hlog, List.countP_cons]
    have hhold := Pc.holds_of_popping hpop
    simp only [hut, if_false, hpc]
    rcases step_push hs with hhead | hu | hfree | ⟨a, hlog⟩
    · rw [hhead]
      omega
    · exact absurd (h.alone u t hu hhold) hut
    · simp [h.flag.mpr ⟨t, hhold⟩] at hfree
    · have hchange := Pc.rank_change s.head s'.head (s.pc t)
      have hone : pushes s'.log = pushes s.log + 1 := by
        simp [pushes, hlog, Event.isPush]
      omega

/-- The rounds of `pop` that fail are paid for by pushes. -/
theorem Inv.rank_run {s s' : State T} {q : Waiters} (h : Inv s q) {t : T} {ls : List (T × Act)}
    (hv : Visits step (fun s => (s.pc t).popping) s ls) (hr : run step s ls = some s') :
    (s'.pc t).rank s'.head + ls.countP (·.1 = t) + 2 * pushes s.log ≤
      (s.pc t).rank s.head + 2 * pushes s'.log := by
  induction ls generalizing s q with
  | nil =>
    obtain rfl := Option.some.inj hr
    simp
  | cons l ls ih =>
    obtain ⟨s₁, hs₁, hr⟩ := Option.bind_eq_some_iff.mp hr
    obtain ⟨q₁, h₁⟩ := inv_step h hs₁
    have hrest := hv.2 s₁ hs₁
    have hone := h.rank_step hv.1 hs₁ hrest.start
    have hall := ih h₁ hrest hr
    simp only [List.countP_cons, decide_eq_true_eq]
    omega

def Event.isWake : Event → Bool
  | .wake _ => true
  | _ => false

def contendedBy (log : List (T × Event)) (t : T) : Nat := log.count (t, .contended)

def wakesBy (log : List (T × Event)) (t : T) : Nat := log.countP fun e => e.1 = t ∧ e.2.isWake

def Pc.owes (c : Pc T) : Bool := c.popping || c.carries?.isSome

theorem Inv.step_owes {s s' : State T} {q : Waiters} (h : Inv s q) {t : T} {k : Act}
    (hs : step s (t, k) = some s') :
    (s'.log = s.log ∨ ∃ a, s'.log = (t, .push a) :: s.log ∨ s'.log = (t, .pop a) :: s.log) ∧
        (s'.pc t).owes = (s.pc t).owes ∨
      s'.log = (t, .contended) :: s.log ∧ (s.pc t).owes = false ∧ (s'.pc t).owes ∨
      ∃ a, s'.log = (t, .wake a) :: s.log ∧ (s.pc t).owes ∧ (s'.pc t).owes = false := by
  obtain ⟨q', h'⟩ := inv_step h hs
  have hfault := h'.no_fault t
  cases step_cases hs with
  | faults => simp at hfault
  | popNone hpc =>
    obtain ⟨a, -, -, hptr, -⟩ := h.next_popNext hpc
    exact absurd (hptr.symm.trans getPtr_lockedBit) a.property.1
  | takeWaker a n hpc hn =>
    obtain ⟨w, hw⟩ := h.take_step hpc hs
    exact .inl ⟨.inl rfl, by simp only [hw, hpc]; rfl⟩
  | wakeNone a w hpc hw =>
    obtain ⟨u, p, -, rfl, -⟩ := h.wake hpc
    simp [wakerOf] at hw
  | contended hpc => exact .inr (.inl ⟨rfl, by rw [hpc]; rfl, by simp [Pc.owes, Pc.popping]⟩)
  | wake a w p hpc =>
    refine .inr (.inr ⟨a, rfl, by rw [hpc]; rfl, ?_⟩)
    simp [Pc.owes, Pc.popping, Pc.carries?]
  | push a p hpc =>
    exact .inl ⟨.inr ⟨a, .inl rfl⟩, by simp [hpc, Pc.owes, Pc.popping, Pc.carries?]⟩
  | popHead a x hpc =>
    exact .inl ⟨.inr ⟨a, .inr rfl⟩, by simp [hpc, Pc.owes, Pc.popping, Pc.carries?]⟩
  | dropFrame a p locked hpc =>
    refine .inl ⟨.inl rfl, ?_⟩
    cases locked <;> simp [hpc, Pc.owes, Pc.popping, Pc.carries?]
  | parkAgain => exact .inl ⟨.inl rfl, rfl⟩
  | _ =>
    refine .inl ⟨.inl rfl, ?_⟩
    simp_all [State.locked, Pc.owes, Pc.popping, Pc.carries?]

def State.Balanced (s : State T) (t : T) : Prop :=
  contendedBy s.log t = wakesBy s.log t + if (s.pc t).owes then 1 else 0

theorem Inv.balanced {s s' : State T} {q : Waiters} (h : Inv s q) (hb : ∀ t, s.Balanced t)
    {l : T × Act} (hs : step s l = some s') (t : T) : s'.Balanced t := by
  obtain ⟨u, k⟩ := l
  have ht := hb t
  simp only [State.Balanced] at ht ⊢
  by_cases hut : t = u
  · subst hut
    rcases h.step_owes hs with ⟨hlog, howes⟩ | ⟨hlog, hbefore, hafter⟩ | ⟨a, hlog, hbefore, hafter⟩
    · rcases hlog with hlog | ⟨a, hlog | hlog⟩ <;>
        simpa [hlog, howes, contendedBy, wakesBy, Event.isWake] using ht
    · simpa [hlog, hbefore, hafter, contendedBy, wakesBy, Event.isWake] using ht
    · simpa [hlog, hbefore, hafter, contendedBy, wakesBy, Event.isWake] using ht
  · have hpc : s'.pc t = s.pc t := by rw [step_pc hs, Function.update_of_ne hut]
    rcases step_log hs with hlog | ⟨e, hlog⟩
    · rwa [hlog, hpc]
    · simpa [hlog, hpc, contendedBy, wakesBy, List.count_cons, Ne.symm hut] using ht

theorem reach_wakeup {s : State T} (h : Reach step anyStep init s) :
    (∃ q, Inv s q) ∧ s.Alert ∧ ∀ t, s.Balanced t := by
  refine h.invariant (I := fun s => (∃ q, Inv s q) ∧ s.Alert ∧ ∀ t, s.Balanced t) ⟨⟨_, inv_init⟩, ?_, ?_⟩ ?_
  · intro _ hptr
    exact absurd getPtr_zero hptr
  · intro t
    rfl
  · rintro s l s' ⟨⟨q, hq⟩, ha, hb⟩ - hs
    exact ⟨inv_step hq hs, hq.alert ha hs, hq.balanced hb hs⟩

/-- In every run: while the bit is clear and a node is on the stack, a thread is about to
wake a waiter or a woken waiter has yet to get the lock or push itself again. The
`compare_exchange` of `unlock` fails just when nodes are on the stack; then `pop` leads to a
waker, however other threads push in between, and the waker wakes one sleeping waiter; so a
thread has made one wake for each of its unlocks that found waiters, but for the unlock it
is in. -/
theorem unlock_wakes {s : State T} (h : Reach step anyStep init s) :
    (getFlag s.head = false → getPtr s.head ≠ 0 → ∃ t, (s.pc t).wakes ∨ s.wokenWaiter t) ∧
    (∀ t, s.pc t = .unlock → (s.head ≠ lockedBit ↔ getPtr s.head ≠ 0)) ∧
    (∀ t k s', (s.pc t).popping → step s (t, k) = some s' →
      (s'.pc t).popping ∨ ∃ a, s'.pc t = .takeWaker a) ∧
    (∀ t a k s', s.pc t = .takeWaker a → step s (t, k) = some s' → ∃ w, s'.pc t = .clear a w) ∧
    (∀ t, (s.pc t).popping →
      ∃ n s' a w, n ≤ 5 ∧ run step s (steps t n) = some s' ∧ s'.pc t = .clear a w) ∧
    (∀ t ls s', Visits step (fun s => (s.pc t).popping) s ls → run step s ls = some s' →
      ls.countP (·.1 = t) + 2 * pushes s.log ≤ 4 + 2 * pushes s'.log) ∧
    (∀ t a w s', s.pc t = .wake a w → step s (t, .step) = some s' →
      ∃ u, ¬ s.wokenWaiter u ∧ s'.wokenWaiter u ∧ ∀ v, v ≠ u → (s'.wokenWaiter v ↔ s.wokenWaiter v)) ∧
    ∀ t, contendedBy s.log t = wakesBy s.log t + if (s.pc t).owes then 1 else 0 := by
  obtain ⟨⟨q, hq⟩, halert, hbalanced⟩ := reach_wakeup h
  refine ⟨halert, fun t hc => ?_, fun t k s' hpop hs => ?_, fun t a k s' => hq.take_step,
    fun t hpop => hq.pop_alone hpop (Pc.rank_le ..), fun t ls s' hv hr => ?_,
    fun t a w s' hc hs => ?_, hbalanced⟩
  · have hflag : getFlag s.head := hq.flag.mpr ⟨t, by rw [hc]; rfl⟩
    refine not_congr ⟨fun hhead => by simp [hhead], fun hptr => word_ext ?_ ?_⟩
    · simpa using hptr
    · simpa using hflag
  · obtain ⟨s₁, hs₁, hnext⟩ := hq.pop_step hpop
    obtain rfl := Option.some.inj (hs₁.symm.trans (step_popping hpop hs))
    exact hnext.imp_left And.left
  · have hrun := hq.rank_run hv hr
    have hle := Pc.rank_le s.head (s.pc t)
    omega
  · obtain ⟨u, -, hu⟩ := hq.wakes_one hc hs
    exact ⟨u, hu⟩

/-- 0 goes on to clear the bit, with 1 still on the stack; 2 is about to be woken. -/
theorem unlock_wakes_popsOfTwo : ∃ s : State Nat, Reach step anyStep init s ∧
    getFlag s.head = false ∧ getPtr s.head ≠ 0 ∧ (∃ t, (s.pc t).wakes ∨ s.wokenWaiter t) ∧
    contendedBy s.log 0 = wakesBy s.log 0 + 1 := by
  have hr : ((run step init (popsOfTwo ++ steps 0 2)).map fun s =>
      (getFlag s.head, decide (getPtr s.head ≠ 0), (s.pc 0).owes)) = some (false, true, true) := by
    decide
  obtain ⟨s, hs, ho⟩ := Option.map_eq_some_iff.mp hr
  simp only [Prod.mk.injEq, decide_eq_true_eq] at ho
  obtain ⟨hfree, hptr, howes⟩ := ho
  have hreach := run_reach (meets_any _ _) hs
  obtain ⟨halert, -, -, -, -, -, -, hbalanced⟩ := unlock_wakes hreach
  exact ⟨s, hreach, hfree, hptr, halert hfree hptr, by simpa [howes] using hbalanced 0⟩

end Colock.MiniLock
