import Colock.MiniLock.Stack

/-! `MiniLock` is sound: every operation keeps the invariant, and what follows for the lock
bit, the stack of waiters and every access to another thread's frame. -/
namespace Colock.MiniLock
open Transition
variable {T : Type*} [DecidableEq T]

theorem Inv.next_lock {s s' : State T} {q : Waiters} (h : Inv s q) {t : T}
    (hc : s.pc t = .lock ∨ ∃ head counter, s.pc t = .spin head counter)
    (hs : next s t = some s') : Inv s' q := by
  rcases hc with hc | ⟨head, counter, hc⟩
  · simp only [next, hc, Option.some.injEq] at hs
    subst hs
    split
    · rename_i h0
      exact h.locked hc (by simp [h0]) (by simp [h0]) rfl (by simp [Pc.node?]) (by simp [Pc.parker?])
        rfl (by simp) trivial
    · exact h.goto hc (by simp [Pc.Follows, Pc.holds, Pc.node?, Pc.parker?, Pc.carries?]) trivial
  · simp only [next, hc, Option.some.injEq] at hs
    subst hs
    split
    · split
      · rename_i hhead
        exact h.locked hc (by simp [hhead]) (by simp [hhead]) rfl (by simp [Pc.node?])
          (by simp [Pc.parker?]) rfl (by simp) trivial
      · exact h.goto hc (by simp [Pc.Follows, Pc.holds, Pc.node?, Pc.parker?, Pc.carries?]) trivial
    · exact h.goto hc (by simp [Pc.Follows, Pc.holds, Pc.node?, Pc.parker?, Pc.carries?]) trivial

theorem Inv.next_tryLock {s s' : State T} {q : Waiters} (h : Inv s q) {t : T} {head : Word}
    (hc : s.pc t = .tryLock head) (hs : next s t = some s') : Inv s' q := by
  simp only [next, hc, Option.some.injEq] at hs
  subst hs
  split
  · exact h.goto hc (by simp [Pc.Follows, Pc.holds, Pc.node?, Pc.parker?, Pc.carries?]) trivial
  · rename_i hflag
    split
    · rename_i hhead
      exact h.locked hc (by rw [hhead]) (by simpa [hhead] using hflag) rfl (by simp [Pc.node?])
        (by simp [Pc.parker?]) rfl (by simp) trivial
    · exact h.goto hc (by simp [Pc.Follows, Pc.holds, Pc.node?, Pc.parker?, Pc.carries?]) trivial

theorem Inv.next_pushOrLock {s s' : State T} {q : Waiters} (h : Inv s q) {t : T} {a : Addr} {p : Nat}
    {head : Word} (hc : s.pc t = .pushOrLock a p head) (hs : next s t = some s') : Inv s' q := by
  have hplace := h.place t
  rw [hc] at hplace
  obtain ⟨hp, x, hx⟩ := hplace
  simp only [next, hc, Option.some.injEq] at hs
  subst hs
  split
  · rename_i hflag
    rw [hx]
    refine h.move rfl (fun b => ?_) (fun _ => .inl rfl) rfl rfl ?_ (by simp [Pc.holds])
      (by simp [Pc.node?, hc]) (by simp [Pc.parker?, hc]) (by simp [Pc.carries?]) (by simp [hc])
      ⟨hp, hflag, by simp [State.goto]⟩
    · by_cases hb : b = a
      · exact .inr (.inl (by simp [hc, Pc.node?, hb]))
      · exact .inl (by simp [State.goto, hb])
    · simp [State.goto, Pc.holds, hc]
  · rename_i hflag
    split
    · rename_i hhead
      exact h.locked hc (by rw [hhead]) (by simpa [hhead] using hflag) rfl (by simp [Pc.node?])
        (by simp [Pc.parker?]) rfl (by simp)
        ⟨by simp [State.locked, State.goto, hx], by simp [State.locked, State.goto, hp]⟩
    · exact h.goto hc (by simp [Pc.Follows, Pc.holds, Pc.node?, Pc.parker?, Pc.carries?]) ⟨hp, x, hx⟩

theorem Inv.next_park {s s' : State T} {q : Waiters} (h : Inv s q) {t : T} {a : Addr} {p : Nat}
    (hc : s.pc t = .park a p) (hs : next s t = some s') : Inv s' q := by
  have hplace := h.place t
  rw [hc] at hplace
  obtain ⟨hlive, hplace⟩ := hplace
  simp only [next, hc, Option.some.injEq] at hs
  subst hs
  rcases hplace with ⟨-, hp, -⟩ | ⟨-, hp⟩ | ⟨hout, hp⟩
  · simpa only [hp] using h
  · simpa only [hp] using h
  · simp only [hp]
    refine h.move rfl (fun _ => .inl rfl) (fun _ => .inl rfl) rfl rfl ?_ (by simp [Pc.holds])
      (by simp [Pc.node?, hc]) (by simp [Pc.parker?, hc]) (by simp [Pc.carries?])
      (fun b p' hb => ?_) ⟨hlive, by simp [State.goto, hp]⟩
    · simp [State.goto, Pc.holds, hc]
    · obtain ⟨rfl, -⟩ : a = b ∧ p = p' := by simpa using hc.symm.trans hb
      exact hout

theorem Inv.next_dropFrame {s s' : State T} {q : Waiters} (h : Inv s q) {t : T} {a : Addr} {p : Nat}
    {locked : Bool} (hc : s.pc t = .dropFrame a p locked) (hs : next s t = some s') : Inv s' q := by
  simp only [next, hc, Option.some.injEq] at hs
  subst hs
  have hset : locked → getFlag s.head := fun hl => h.flag.mpr ⟨t, by simpa [hc, Pc.holds] using hl⟩
  refine h.move rfl (fun b => ?_) (fun b => ?_) rfl rfl ?_ ?_ ?_ ?_ ?_ (by simp [hc]) ?_
  · by_cases hb : b = a
    · exact .inr (.inl (by simp [hc, Pc.node?, hb]))
    · exact .inl (by simp [State.goto, hb])
  · by_cases hb : b = p
    · exact .inr (.inl (by simp [hc, Pc.parker?, hb]))
    · exact .inl (by simp [State.goto, hb])
  all_goals cases locked <;> simp_all [State.goto, Pc.holds, Pc.node?, Pc.parker?, Pc.carries?, Place]

theorem Inv.next_unlock {s s' : State T} {q : Waiters} (h : Inv s q) {t : T}
    (hc : s.pc t = .unlock) (hs : next s t = some s') : Inv s' q := by
  have hflag : getFlag s.head := h.flag.mpr ⟨t, by rw [hc]; rfl⟩
  simp only [next, hc, Option.some.injEq] at hs
  subst hs
  split
  · rename_i hhead
    exact h.move rfl (fun _ => .inl rfl) (fun _ => .inl rfl) rfl (by simp [State.goto, hhead])
      (by simp [State.goto, Pc.holds, hc]) (by simp [Pc.holds]) (by simp [Pc.node?])
      (by simp [Pc.parker?]) (by simp [Pc.carries?]) (by simp [hc]) trivial
  · rename_i hhead
    have hlog : Waiters.replay ((t, .contended) :: s.log) = Waiters.replay s.log := by
      simp [Waiters.replay, h.replay, Waiters.after]
    refine h.move rfl (fun _ => .inl rfl) (fun _ => .inl rfl) hlog rfl
      (by simp [State.goto, Pc.holds, hflag]) (by simp [Pc.holds, hc]) (by simp [Pc.node?])
      (by simp [Pc.parker?]) (by simp [Pc.carries?]) (by simp [hc]) fun hempty => hhead ?_
    exact word_ext (by simpa using h.chain.nil_iff.mp hempty) (by simpa using hflag)

theorem Inv.next_pop {s s' : State T} {q : Waiters} (h : Inv s q) {t : T}
    (hc : s.pc t = .pop ∨ s.pc t = .popLoad) (hs : next s t = some s') : Inv s' q := by
  have hflag : getFlag s.head := h.flag.mpr ⟨t, by rcases hc with hc | hc <;> rw [hc] <;> rfl⟩
  have hplace := h.place t
  rcases hc with hc | hc
  · rw [hc] at hplace
    simp only [next, hc, hflag, if_true, Option.some.injEq] at hs
    subst hs
    exact h.goto hc (by simp [Pc.Follows, Pc.holds, Pc.node?, Pc.parker?, Pc.carries?]) hplace
  · rw [hc] at hplace
    simp only [next, hc, Option.some.injEq] at hs
    subst hs
    exact h.goto hc (by simp [Pc.Follows, Pc.holds, Pc.node?, Pc.parker?, Pc.carries?])
      ⟨hflag, h.top hplace⟩

theorem Inv.next_popNext {s : State T} {q : Waiters} (h : Inv s q) {t : T} {head : Word}
    (hc : s.pc t = .popNext head) :
    ∃ a n, a ∈ q.stack ∧ getPtr head = a.asUsizePtr ∧ s.node a = some n ∧
      next s t = some (s.goto t (.popHead head a n.next)) ∧
      Inv (s.goto t (.popHead head a n.next)) q := by
  have hplace := h.place t
  rw [hc] at hplace
  obtain ⟨hflag, a, ha, hptr⟩ := hplace
  obtain ⟨u, p, x, -, -, hx⟩ := h.sleeps ha
  have hhead : head ≠ lockedBit := by
    rintro rfl
    exact a.property.1 (hptr.symm.trans getPtr_lockedBit)
  have hnext : next s t = some (s.goto t (.popHead head a x)) := by
    simp [next, hc, hhead, hptr, asRef_addr, hx]
  refine ⟨a, _, ha, hptr, hx, hnext, h.goto hc ?_ ⟨hflag, ha, hptr, _, hx⟩⟩
  simp [Pc.Follows, Pc.holds, Pc.node?, Pc.parker?, Pc.carries?]

theorem Inv.next_popHead {s s' : State T} {q : Waiters} (h : Inv s q) {t : T} {head : Word} {a : Addr}
    {x : Word} (hc : s.pc t = .popHead head a x) (hs : next s t = some s') : ∃ q', Inv s' q' := by
  have hflag : getFlag s.head := h.flag.mpr ⟨t, by rw [hc]; rfl⟩
  have hplace := h.place t
  rw [hc] at hplace
  simp only [next, hc, Option.some.injEq] at hs
  subst hs
  split
  · rename_i hhead
    obtain ⟨rest, -, hpop⟩ := h.pop (hhead ▸ hc)
    exact ⟨_, hpop⟩
  · exact ⟨q, h.goto hc (by simp [Pc.Follows, Pc.holds, Pc.node?, Pc.parker?, Pc.carries?])
      ⟨hflag, h.top (List.ne_nil_of_mem hplace.2.1)⟩⟩

theorem Inv.next_clear {s : State T} {q : Waiters} (h : Inv s q) {t : T} {a : Addr} {w : Waker T}
    (hc : s.pc t = .clear a w) : Inv ({ s with head := s.head &&& ptrMask }.goto t (.wake a w)) q := by
  have hplace := h.place t
  rw [hc] at hplace
  obtain ⟨ha, u, p, hu, hw⟩ := hplace
  refine h.move rfl (fun _ => .inl rfl) (fun _ => .inl rfl) rfl (by simp [State.goto])
    (by simp [State.goto, Pc.holds, hc]) (by simp [Pc.holds]) (by simp [Pc.node?])
    (by simp [Pc.parker?]) (by simp [Pc.carries?, hc]) (by simp [hc]) ⟨ha, u, p, ?_, hw⟩
  have hut : u ≠ t := by
    rintro rfl
    simp [hc] at hu
  simp [State.goto, hut, hu]

theorem Inv.next_newFrame {s s' : State T} {q : Waiters} (h : Inv s q) {t : T} {k : Act}
    (hk : (∃ p, k = .newParker p) ∨ (∃ a, k = .newNode a) ∨
      k = .step ∧ ∃ p, s.pc t = .preparePark p)
    (hs : step s (t, k) = some s') : Inv s' q := by
  rcases hk with ⟨p, rfl⟩ | ⟨a, rfl⟩ | ⟨rfl, p, hc⟩
  · simp only [step, Option.ite_none_right_eq_some, Option.some.injEq] at hs
    obtain ⟨⟨hc, hfree⟩, rfl⟩ := hs
    refine h.move rfl (fun _ => .inl rfl) (fun b => ?_) rfl rfl (by simp [State.goto, Pc.holds, hc])
      (by simp [Pc.holds]) (by simp [Pc.node?]) (by simp [Pc.parker?, hfree]) (by simp [Pc.carries?])
      (by simp [hc]) (by simp [Place, State.goto])
    by_cases hb : b = p
    · exact .inr (.inr (hb ▸ hfree))
    · exact .inl (by simp [State.goto, hb])
  · simp only [step] at hs
    split at hs
    · rename_i p hc
      have hplace := h.place t
      rw [hc] at hplace
      simp only [Option.ite_none_right_eq_some, Option.some.injEq] at hs
      obtain ⟨hfree, rfl⟩ := hs
      refine h.move rfl (fun b => ?_) (fun _ => .inl rfl) rfl rfl
        (by simp [State.goto, Pc.holds, hc]) (by simp [Pc.holds]) (by simp [Pc.node?, hfree])
        (by simp [Pc.parker?, hc]) (by simp [Pc.carries?]) (by simp [hc])
        ⟨hplace, by simp [State.goto, wakerOf]⟩
      by_cases hb : b = a
      · exact .inr (.inr (hb ▸ hfree))
      · exact .inl (by simp [State.goto, hb])
    · cases hs
  · have hlive : (s.parker p).isSome := by simpa [hc, Place] using h.place t
    simp only [step, next, hc, hlive, if_true, Option.some.injEq] at hs
    subst hs
    refine h.move rfl (fun _ => .inl rfl) (fun b => ?_) rfl rfl (by simp [State.goto, Pc.holds, hc])
      (by simp [Pc.holds]) (by simp [Pc.node?]) (by simp [Pc.parker?, hc]) (by simp [Pc.carries?])
      (by simp [hc]) (by simp [Place, State.goto])
    by_cases hb : b = p
    · exact .inr (.inl (by simp [hc, Pc.parker?, hb]))
    · exact .inl (by simp [State.goto, hb])

theorem Inv.next_push {s s' : State T} {q : Waiters} (h : Inv s q) {t : T} {a : Addr} {p : Nat}
    (hc : s.pc t = .assertNext a p ∨ ∃ head, s.pc t = .push a p head)
    (hs : next s t = some s') : ∃ q', Inv s' q' := by
  have hplace := h.place t
  rcases hc with hc | ⟨head, hc⟩
  · rw [hc] at hplace
    obtain ⟨hp, hn⟩ := hplace
    simp only [next, hc, hn, if_true, Option.some.injEq] at hs
    subst hs
    exact ⟨q, h.goto hc (by simp [Pc.Follows, Pc.holds, Pc.node?, Pc.parker?, Pc.carries?])
      ⟨hp, _, hn⟩⟩
  · rw [hc] at hplace
    obtain ⟨hp, -, hn⟩ := hplace
    simp only [next, hc, Option.some.injEq] at hs
    subst hs
    split
    · rename_i hhead
      exact ⟨_, h.push (hhead ▸ hc)⟩
    · exact ⟨q, h.goto hc (by simp [Pc.Follows, Pc.holds, Pc.node?, Pc.parker?, Pc.carries?])
        ⟨hp, _, hn⟩⟩

theorem inv_next {s s' : State T} {q : Waiters} (h : Inv s q) {t : T} (hs : next s t = some s') :
    ∃ q', Inv s' q' := by
  cases hc : s.pc t with
  | out | held | newParker | newNode | fault => simp [next, hc] at hs
  | lock => exact ⟨q, h.next_lock (.inl hc) hs⟩
  | spin head counter => exact ⟨q, h.next_lock (.inr ⟨head, counter, hc⟩) hs⟩
  | preparePark p => exact ⟨q, h.next_newFrame (k := .step) (.inr (.inr ⟨rfl, p, hc⟩)) hs⟩
  | assertNext a p => exact h.next_push (.inl hc) hs
  | pushOrLock a p head => exact ⟨q, h.next_pushOrLock hc hs⟩
  | push a p head => exact h.next_push (.inr ⟨head, hc⟩) hs
  | park a p => exact ⟨q, h.next_park hc hs⟩
  | dropFrame a p locked => exact ⟨q, h.next_dropFrame hc hs⟩
  | tryLock head => exact ⟨q, h.next_tryLock hc hs⟩
  | assertLocked =>
    have hflag : getFlag s.head := h.flag.mpr ⟨t, by rw [hc]; rfl⟩
    simp only [next, hc, hflag, if_true, Option.some.injEq] at hs
    subst hs
    exact ⟨q, h.goto hc (by simp [Pc.Follows, Pc.holds, Pc.node?, Pc.parker?, Pc.carries?]) trivial⟩
  | unlock => exact ⟨q, h.next_unlock hc hs⟩
  | pop => exact ⟨q, h.next_pop (.inl hc) hs⟩
  | popLoad => exact ⟨q, h.next_pop (.inr hc) hs⟩
  | popNext head =>
    obtain ⟨a, n, -, -, -, hnext, hinv⟩ := h.next_popNext hc
    obtain rfl := Option.some.inj (hnext.symm.trans hs)
    exact ⟨q, hinv⟩
  | popHead head a x => exact h.next_popHead hc hs
  | takeWaker a =>
    obtain ⟨n, w, hn, hw, hinv⟩ := h.takeWaker hc
    simp only [next, hc, hn, hw, Option.some.injEq] at hs
    exact ⟨q, hs ▸ hinv⟩
  | clear a w =>
    simp only [next, hc, Option.some.injEq] at hs
    exact ⟨q, hs ▸ h.next_clear hc⟩
  | wake a w =>
    obtain ⟨u, p, -, rfl, hp, hinv⟩ := h.wake hc
    simp only [next, hc, wakerOf, hp, if_true, Option.some.injEq] at hs
    exact ⟨_, hs ▸ hinv⟩
  | unpark =>
    simp only [next, hc, Option.some.injEq] at hs
    subst hs
    exact ⟨q, h.goto hc (by simp [Pc.Follows, Pc.holds, Pc.node?, Pc.parker?, Pc.carries?]) trivial⟩

theorem Inv.call {s s' : State T} {q : Waiters} (h : Inv s q) {t : T} {k : Act}
    (hk : k = .lock ∨ k = .tryLock ∨ k = .unlock) (hs : step s (t, k) = some s') : Inv s' q := by
  rcases hk with rfl | rfl | rfl
  all_goals
    simp only [step, Option.ite_none_right_eq_some, Option.some.injEq] at hs
    obtain ⟨hc, rfl⟩ := hs
    exact h.goto hc (by simp [Pc.Follows, Pc.holds, Pc.node?, Pc.parker?, Pc.carries?]) trivial

theorem inv_step {s s' : State T} {q : Waiters} (h : Inv s q) {l : T × Act}
    (hs : step s l = some s') : ∃ q', Inv s' q' := by
  obtain ⟨t, k⟩ := l
  cases k with
  | lock => exact ⟨q, h.call (.inl rfl) hs⟩
  | tryLock => exact ⟨q, h.call (.inr (.inl rfl)) hs⟩
  | unlock => exact ⟨q, h.call (.inr (.inr rfl)) hs⟩
  | newParker p => exact ⟨q, h.next_newFrame (.inl ⟨p, rfl⟩) hs⟩
  | newNode a => exact ⟨q, h.next_newFrame (.inr (.inl ⟨a, rfl⟩)) hs⟩
  | step => exact inv_next h hs

omit [DecidableEq T] in
theorem inv_init : Inv (init : State T) ⟨[], []⟩ where
  replay := rfl
  chain := getPtr_zero
  distinct := .nil
  waiting := by simp
  flag := by simp [init, Pc.holds]
  alone := by simp [init, Pc.holds]
  nodes := by simp [init, Pc.node?]
  parkers := by simp [init, Pc.parker?]
  carriers := by simp [init, Pc.carries?]
  place _ := trivial

theorem inv_reach {s : State T} (h : Reach step anyStep init s) : ∃ q, Inv s q :=
  h.invariant (I := fun s => ∃ q, Inv s q) ⟨_, inv_init⟩ fun _ _ _ ⟨_, hs⟩ _ hstep => inv_step hs hstep

omit [DecidableEq T] in
theorem Inv.no_fault {s : State T} {q : Waiters} (h : Inv s q) (t : T) : s.pc t ≠ .fault := by
  intro hc
  have hplace := h.place t
  rw [hc] at hplace
  exact hplace

/-- The pointer to a node of another frame that the next operation follows. -/
def Pc.foreignNode? : Pc T → Option Word
  | .popNext head => if head = lockedBit then none else some (getPtr head)
  | .takeWaker a => some a.asUsizePtr
  | _ => none

/-- The parker of another frame that the next operation writes to. -/
def Pc.foreignParker? : Pc T → Option Nat
  | .wake _ w => w.parker
  | _ => none

omit [DecidableEq T] in
theorem Inv.foreignNode {s : State T} {q : Waiters} (h : Inv s q) {t : T} {x : Word}
    (hx : (s.pc t).foreignNode? = some x) :
    ∃ u a p, x = a.asUsizePtr ∧ s.pc u = .park a p ∧ (s.node a).isSome := by
  have hplace := h.place t
  cases hc : s.pc t with
  | popNext head =>
    rw [hc] at hplace hx
    obtain ⟨-, a, ha, hptr⟩ := hplace
    simp only [Pc.foreignNode?, Option.ite_none_left_eq_some, Option.some.injEq] at hx
    obtain ⟨-, rfl⟩ := hx
    obtain ⟨u, p, y, hu, -, hy⟩ := h.sleeps ha
    exact ⟨u, a, p, hptr, hu, by simp [hy]⟩
  | takeWaker a =>
    rw [hc] at hplace hx
    obtain ⟨-, u, p, y, hu, hy⟩ := hplace
    obtain rfl := Option.some.inj hx
    exact ⟨u, a, p, rfl, hu, by simp [hy]⟩
  | _ => simp [hc, Pc.foreignNode?] at hx

omit [DecidableEq T] in
theorem Inv.foreignParker {s : State T} {q : Waiters} (h : Inv s q) {t : T} {p : Nat}
    (hp : (s.pc t).foreignParker? = some p) :
    ∃ u a, s.pc u = .park a p ∧ s.parker p = some false := by
  have hplace := h.place t
  cases hc : s.pc t with
  | wake a w =>
    rw [hc] at hplace hp
    obtain ⟨ha, u, p', hu, rfl⟩ := hplace
    obtain rfl : p' = p := Option.some.inj hp
    have hpark := h.place u
    rw [hu] at hpark
    rcases hpark.2 with ⟨-, hfalse, -⟩ | ⟨-, hfalse⟩ | ⟨hout, -⟩
    · exact ⟨u, a, hu, hfalse⟩
    · exact ⟨u, a, hu, hfalse⟩
    · exact absurd (by simp [ha]) hout
  | _ => simp [hc, Pc.foreignParker?] at hp

/-- In every run one thread at most holds the lock, and the bit tells whether one does; the
chain from the head word is the stack of the waiters, and each of them sleeps with its waker
in its node; no assertion or `unwrap` fails; no node or parker is accessed after its thread
has gone on; and the log is that of a stack whose nodes are popped and woken once. -/
theorem stack_sound {s : State T} (h : Reach step anyStep init s) :
    (∀ t u, (s.pc t).holds → (s.pc u).holds → t = u) ∧
    (getFlag s.head ↔ ∃ t, (s.pc t).holds) ∧
    (∃ q, Waiters.replay s.log = some q ∧
      Chain s.node (getPtr s.head) q.stack ∧ q.stack.Nodup ∧
      (∀ a ∈ q.stack, ∃ t p x, s.pc t = .park a p ∧ s.parker p = some false ∧
        s.node a = some ⟨x, some (wakerOf p t)⟩) ∧
      ∀ a, times s.log (.push a) = times s.log (.pop a) + q.stack.count a ∧
        times s.log (.pop a) = times s.log (.wake a) + q.popped.count a) ∧
    (∀ t, s.pc t ≠ .fault) ∧
    (∀ t x, (s.pc t).foreignNode? = some x →
      ∃ u a p, x = a.asUsizePtr ∧ s.pc u = .park a p ∧ (s.node a).isSome) ∧
    ∀ t p, (s.pc t).foreignParker? = some p → ∃ u a, s.pc u = .park a p ∧ s.parker p = some false := by
  obtain ⟨q, hq⟩ := inv_reach h
  have hdistinct := (List.nodup_append'.mp hq.distinct).1
  refine ⟨hq.alone, hq.flag, ⟨q, hq.replay, hq.chain, hdistinct, fun a ha => hq.sleeps ha,
    Waiters.times_replay hq.replay⟩, hq.no_fault, fun t x => hq.foreignNode,
    fun t p => hq.foreignParker⟩

def steps (t : T) (n : Nat) : List (T × Act) := List.replicate n (t, .step)

def sleeps (t : T) (p : Nat) (a : Addr) : List (T × Act) :=
  (t, .lock) :: steps t 8 ++ (t, .newParker p) :: steps t 1 ++ (t, .newNode a) :: steps t 4

/-- 0 holds the lock, 1 and 2 go to sleep; then 0 unlocks, up to the pop of a waker. -/
def popsOfTwo : List (Nat × Act) :=
  (0, .lock) :: steps 0 1 ++ sleeps 1 0 ⟨8, by decide⟩ ++ sleeps 2 1 ⟨16, by decide⟩ ++
    (0, .unlock) :: steps 0 6

/-- The last to sleep is popped first. -/
theorem stack_sound_popsOfTwo : ∃ s : State Nat, Reach step anyStep init s ∧
    s.pc 0 = .takeWaker ⟨16, by decide⟩ ∧ (∀ u, (s.pc u).holds → u = 0) ∧
    ∃ q, Waiters.replay s.log = some q ∧ Chain s.node (getPtr s.head) q.stack := by
  have hr : ((run step init popsOfTwo).map fun s => s.pc 0) =
      some (.takeWaker ⟨16, by decide⟩) := by decide
  obtain ⟨s, hs, hpc⟩ := Option.map_eq_some_iff.mp hr
  have hreach := run_reach (meets_any _ _) hs
  obtain ⟨halone, -, ⟨q, hq, hchain, -⟩, -⟩ := stack_sound hreach
  exact ⟨s, hreach, hpc, fun u hu => halone u 0 hu (by rw [hpc]; rfl), q, hq, hchain⟩

end Colock.MiniLock
