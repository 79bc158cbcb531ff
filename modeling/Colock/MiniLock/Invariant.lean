import Colock.MiniLock.Waiters

/-! The invariant of `MiniLock`: the chain of nodes from the head word is the stack of
waiters, one thread at most holds the lock, and every thread may do what its next operation
does. -/
namespace Colock.MiniLock
open Transition
variable {T : Type*}

def Pc.holds : Pc T → Bool
  | .held | .assertLocked | .unlock | .pop | .popLoad | .popNext _ | .popHead _ _ _
  | .takeWaker _ | .clear _ _ => true
  | .dropFrame _ _ locked => locked
  | _ => false

def Pc.node? : Pc T → Option Addr
  | .assertNext a _ | .pushOrLock a _ _ | .push a _ _ | .park a _ | .dropFrame a _ _ => some a
  | _ => none

def Pc.parker? : Pc T → Option Nat
  | .preparePark p | .newNode p => some p
  | .assertNext _ p | .pushOrLock _ p _ | .push _ p _ | .park _ p | .dropFrame _ p _ => some p
  | _ => none

/-- The node that the thread has popped and whose waker it has yet to wake. -/
def Pc.carries? : Pc T → Option Addr
  | .takeWaker a | .clear a _ | .wake a _ => some a
  | _ => none

def Pc.popping : Pc T → Bool
  | .pop | .popLoad | .popNext _ | .popHead _ _ _ => true
  | _ => false

def wakerOf (p : Nat) (t : T) : Waker T := ⟨some p, .thread t⟩

def Place (s : State T) (q : Waiters) (t : T) : Pc T → Prop
  | .preparePark p => (s.parker p).isSome
  | .newNode p => s.parker p = some false
  | .assertNext a p => s.parker p = some false ∧ s.node a = some ⟨0, some (wakerOf p t)⟩
  | .pushOrLock a p _ => s.parker p = some false ∧ ∃ x, s.node a = some ⟨x, some (wakerOf p t)⟩
  | .push a p h => s.parker p = some false ∧ getFlag h ∧
      s.node a = some ⟨getPtr h, some (wakerOf p t)⟩
  | .park a p => (s.node a).isSome ∧
      ((a ∈ q.stack ∧ s.parker p = some false ∧ ∃ x, s.node a = some ⟨x, some (wakerOf p t)⟩) ∨
        (a ∈ q.popped ∧ s.parker p = some false) ∨
        (a ∉ q.stack ++ q.popped ∧ s.parker p = some true))
  | .dropFrame a p _ => (s.node a).isSome ∧ (s.parker p).isSome
  | .pop | .popLoad => q.stack ≠ []
  | .popNext h => getFlag h ∧ ∃ a ∈ q.stack, getPtr h = a.asUsizePtr
  | .popHead h a next => getFlag h ∧ a ∈ q.stack ∧ getPtr h = a.asUsizePtr ∧
      ∃ w, s.node a = some ⟨next, w⟩
  | .takeWaker a => a ∈ q.popped ∧
      ∃ u p x, s.pc u = .park a p ∧ s.node a = some ⟨x, some (wakerOf p u)⟩
  | .clear a w | .wake a w => a ∈ q.popped ∧ ∃ u p, s.pc u = .park a p ∧ w = wakerOf p u
  | .fault => False
  | _ => True

structure Inv (s : State T) (q : Waiters) : Prop where
  replay : Waiters.replay s.log = some q
  chain : Chain s.node (getPtr s.head) q.stack
  distinct : (q.stack ++ q.popped).Nodup
  waiting : ∀ a ∈ q.stack ++ q.popped, ∃ t p, s.pc t = .park a p
  flag : getFlag s.head ↔ ∃ t, (s.pc t).holds
  alone : ∀ t u, (s.pc t).holds → (s.pc u).holds → t = u
  nodes : ∀ t u a, (s.pc t).node? = some a → (s.pc u).node? = some a → t = u
  parkers : ∀ t u p, (s.pc t).parker? = some p → (s.pc u).parker? = some p → t = u
  carriers : ∀ t u a, (s.pc t).carries? = some a → (s.pc u).carries? = some a → t = u
  place : ∀ t, Place s q t (s.pc t)

theorem Place.node_live {s : State T} {q : Waiters} {t : T} {c : Pc T} {a : Addr}
    (h : Place s q t c) (ha : c.node? = some a) : (s.node a).isSome := by
  cases c <;> simp only [Pc.node?, Option.some.injEq, reduceCtorEq] at ha
  all_goals subst ha
  case assertNext => simp [h.2]
  case pushOrLock =>
    obtain ⟨-, x, hx⟩ := h
    simp [hx]
  case push => simp [h.2.2]
  case park => exact h.1
  case dropFrame => exact h.1

theorem Place.parker_live {s : State T} {q : Waiters} {t : T} {c : Pc T} {p : Nat}
    (h : Place s q t c) (hp : c.parker? = some p) : (s.parker p).isSome := by
  cases c <;> simp only [Pc.parker?, Option.some.injEq, reduceCtorEq] at hp
  all_goals subst hp
  case preparePark => exact h
  case newNode => rw [h]; rfl
  case assertNext => rw [h.1]; rfl
  case pushOrLock => rw [h.1]; rfl
  case push => rw [h.1]; rfl
  case park => rcases h.2 with h | h | h <;> simp [h.2]
  case dropFrame => exact h.2

theorem Place.carried {s : State T} {q : Waiters} {t : T} {c : Pc T} {a : Addr}
    (h : Place s q t c) (ha : c.carries? = some a) : a ∈ q.popped := by
  cases c <;> simp only [Pc.carries?, Option.some.injEq, reduceCtorEq] at ha
  all_goals
    subst ha
    exact h.1

structure Keeps (s s' : State T) (q q' : Waiters) (c : Pc T) : Prop where
  live : ∀ a, c.node? = some a → (s.node a).isSome → (s'.node a).isSome
  node : ∀ a, c.node? = some a → (∀ p, c = .park a p → a ∉ q.popped) → s'.node a = s.node a
  stack : ∀ a, c.node? = some a → (a ∈ q'.stack ↔ a ∈ q.stack)
  popped : ∀ a, c.node? = some a → (a ∈ q'.popped ↔ a ∈ q.popped)
  parker : ∀ p, c.parker? = some p → s'.parker p = s.parker p
  popping : c.popping → ∀ a ∈ q.stack, a ∈ q'.stack ∧ s'.node a = s.node a
  carried : ∀ a, c.carries? = some a → a ∈ q'.popped ∧ s'.node a = s.node a
  parked : ∀ u a p, c.carries? = some a → s.pc u = .park a p → s'.pc u = .park a p

theorem Place.frame {s s' : State T} {q q' : Waiters} {t : T} {c : Pc T}
    (hd : (q.stack ++ q.popped).Nodup) (h : Place s q t c) (hk : Keeps s s' q q' c) :
    Place s' q' t c := by
  have hout : ∀ a ∈ q.stack, a ∉ q.popped := fun a ha hp => List.disjoint_of_nodup_append hd ha hp
  cases c with
  | out | lock | spin | newParker | tryLock | held | assertLocked | unlock | unpark => trivial
  | fault => exact h
  | preparePark p =>
    have hp := hk.parker p rfl
    simpa only [Place, hp] using h
  | newNode p => exact (hk.parker p rfl).trans h
  | assertNext a p =>
    exact ⟨(hk.parker p rfl).trans h.1, (hk.node a rfl (by simp)).trans h.2⟩
  | pushOrLock a p head =>
    obtain ⟨hp, x, hx⟩ := h
    exact ⟨(hk.parker p rfl).trans hp, x, (hk.node a rfl (by simp)).trans hx⟩
  | push a p head =>
    obtain ⟨hp, hf, hx⟩ := h
    exact ⟨(hk.parker p rfl).trans hp, hf, (hk.node a rfl (by simp)).trans hx⟩
  | park a p =>
    obtain ⟨hlive, h⟩ := h
    refine ⟨hk.live a rfl hlive, ?_⟩
    rw [List.mem_append, hk.stack a rfl, hk.popped a rfl, hk.parker p rfl, ← List.mem_append]
    rcases h with ⟨hs, hp, x, hx⟩ | h | h
    · exact .inl ⟨hs, hp, x, (hk.node a rfl fun _ _ => hout a hs).trans hx⟩
    · exact .inr (.inl h)
    · exact .inr (.inr h)
  | dropFrame a p locked =>
    have hp := hk.parker p rfl
    exact ⟨hk.live a rfl h.1, by simpa only [hp] using h.2⟩
  | pop | popLoad =>
    obtain ⟨a, ha⟩ := List.exists_mem_of_ne_nil _ h
    exact List.ne_nil_of_mem (hk.popping rfl a ha).1
  | popNext head =>
    obtain ⟨hf, a, ha, hp⟩ := h
    exact ⟨hf, a, (hk.popping rfl a ha).1, hp⟩
  | popHead head a next =>
    obtain ⟨hf, ha, hp, w, hw⟩ := h
    obtain ⟨ha', hn⟩ := hk.popping rfl a ha
    exact ⟨hf, ha', hp, w, hn.trans hw⟩
  | takeWaker a =>
    obtain ⟨ha, u, p, x, hu, hn⟩ := h
    obtain ⟨ha', hn'⟩ := hk.carried a rfl
    exact ⟨ha', u, p, x, hk.parked u a p rfl hu, hn'.trans hn⟩
  | clear a w =>
    obtain ⟨ha, u, p, hu, hw⟩ := h
    exact ⟨(hk.carried a rfl).1, u, p, hk.parked u a p rfl hu, hw⟩
  | wake a w =>
    obtain ⟨ha, u, p, hu, hw⟩ := h
    exact ⟨(hk.carried a rfl).1, u, p, hk.parked u a p rfl hu, hw⟩

theorem unique_step {α : Type*} {f : Pc T → Option α} {s s' : State T} {t : T}
    (hpc : ∀ u, u ≠ t → s'.pc u = s.pc u)
    (hold : ∀ u v a, f (s.pc u) = some a → f (s.pc v) = some a → u = v)
    (hnew : ∀ a, f (s'.pc t) = some a → f (s.pc t) = some a ∨ ∀ w, w ≠ t → f (s.pc w) ≠ some a) :
    ∀ u v a, f (s'.pc u) = some a → f (s'.pc v) = some a → u = v := by
  intro u v a hu hv
  have hother : ∀ w, w ≠ t → f (s'.pc t) = some a → f (s'.pc w) ≠ some a := by
    intro w hwt ht hw
    rw [hpc w hwt] at hw
    rcases hnew a ht with ht | hout
    · exact hwt (hold w t a hw ht)
    · exact hout w hwt hw
  by_cases hut : u = t <;> by_cases hvt : v = t
  · exact hut.trans hvt.symm
  · exact absurd hv (hother v hvt (hut ▸ hu))
  · exact absurd hu (hother u hut (hvt ▸ hv))
  · exact hold u v a (hpc u hut ▸ hu) (hpc v hvt ▸ hv)

variable [DecidableEq T]

theorem Inv.of_step {s s' : State T} {q q' : Waiters} (h : Inv s q) {t : T} {c : Pc T}
    (hupdate : s'.pc = Function.update s.pc t c)
    (hreplay : Waiters.replay s'.log = some q')
    (hchain : Chain s'.node (getPtr s'.head) q'.stack)
    (hdistinct : (q'.stack ++ q'.popped).Nodup)
    (hwaiting : ∀ a ∈ q'.stack ++ q'.popped, ∃ u p, s'.pc u = .park a p)
    (hflag : getFlag s'.head ↔ c.holds ∨ getFlag s.head ∧ ¬ (s.pc t).holds)
    (halone : c.holds → (s.pc t).holds ∨ getFlag s.head = false)
    (hnode : ∀ a, c.node? = some a → (s.pc t).node? = some a ∨ s.node a = none)
    (hparker : ∀ p, c.parker? = some p → (s.pc t).parker? = some p ∨ s.parker p = none)
    (hcarry : ∀ a, c.carries? = some a → (s.pc t).carries? = some a ∨ a ∉ q.popped)
    (hothers : ∀ u, u ≠ t → Place s' q' u (s.pc u)) (hplace : Place s' q' t c) :
    Inv s' q' := by
  have hself : s'.pc t = c := by simp [hupdate]
  have hpc : ∀ u, u ≠ t → s'.pc u = s.pc u := fun u hu => by simp [hupdate, hu]
  rw [← hself] at hflag halone hnode hparker hcarry hplace
  exact {
    replay := hreplay
    chain := hchain
    distinct := hdistinct
    waiting := hwaiting
    flag := by
      rw [hflag]
      constructor
      · rintro (ht | ⟨hf, ht⟩)
        · exact ⟨t, ht⟩
        · obtain ⟨u, hu⟩ := h.flag.mp hf
          have hut : u ≠ t := fun hut => ht (hut ▸ hu)
          exact ⟨u, by rwa [hpc u hut]⟩
      · rintro ⟨u, hu⟩
        by_cases hut : u = t
        · exact .inl (hut ▸ hu)
        · rw [hpc u hut] at hu
          by_cases ht : (s.pc t).holds
          · exact absurd (h.alone u t hu ht) hut
          · exact .inr ⟨h.flag.mpr ⟨u, hu⟩, ht⟩
    alone u v hu hv := by
      have hother : ∀ w, w ≠ t → (s'.pc t).holds → ¬ (s'.pc w).holds := by
        intro w hwt ht hw
        rw [hpc w hwt] at hw
        rcases halone ht with ht | hf
        · exact hwt (h.alone w t hw ht)
        · simp [h.flag.mpr ⟨w, hw⟩] at hf
      by_cases hut : u = t <;> by_cases hvt : v = t
      · exact hut.trans hvt.symm
      · exact absurd hv (hother v hvt (hut ▸ hu))
      · exact absurd hu (hother u hut (hvt ▸ hv))
      · exact h.alone u v (hpc u hut ▸ hu) (hpc v hvt ▸ hv)
    nodes := by
      refine unique_step hpc h.nodes fun a ht => ?_
      refine (hnode a ht).imp_right fun hfree w _ hw => ?_
      simpa [hfree] using (h.place w).node_live hw
    parkers := by
      refine unique_step hpc h.parkers fun p ht => ?_
      refine (hparker p ht).imp_right fun hfree w _ hw => ?_
      simpa [hfree] using (h.place w).parker_live hw
    carriers := by
      refine unique_step hpc h.carriers fun a ht => ?_
      exact (hcarry a ht).imp_right fun hout w _ hw => hout ((h.place w).carried hw)
    place u := by
      by_cases hut : u = t
      · exact hut ▸ hplace
      · rw [hpc u hut]
        exact hothers u hut }

theorem Inv.own_node {s : State T} {q : Waiters} (h : Inv s q) {t : T} {a : Addr}
    (hstay : ∀ a p, s.pc t = .park a p → a ∉ q.stack ++ q.popped)
    (ha : (s.pc t).node? = some a ∨ s.node a = none) :
    a ∉ q.stack ++ q.popped ∧ ∀ u, u ≠ t → (s.pc u).node? ≠ some a := by
  have hother : ∀ u, u ≠ t → (s.pc u).node? ≠ some a := by
    intro u hut hu
    rcases ha with ha | ha
    · exact hut (h.nodes u t a hu ha)
    · simpa [ha] using (h.place u).node_live hu
  refine ⟨fun hmem => ?_, hother⟩
  obtain ⟨u, p, hu⟩ := h.waiting a hmem
  by_cases hut : u = t
  · exact hstay a p (hut ▸ hu) hmem
  · exact hother u hut (by rw [hu]; rfl)

theorem Inv.move {s s' : State T} {q : Waiters} (h : Inv s q) {t : T} {c : Pc T}
    (hpc : s'.pc = Function.update s.pc t c)
    (hn : ∀ a, s'.node a = s.node a ∨ (s.pc t).node? = some a ∨ s.node a = none)
    (hp : ∀ p, s'.parker p = s.parker p ∨ (s.pc t).parker? = some p ∨ s.parker p = none)
    (hlog : Waiters.replay s'.log = Waiters.replay s.log) (hptr : getPtr s'.head = getPtr s.head)
    (hflag : getFlag s'.head ↔ c.holds ∨ getFlag s.head ∧ ¬ (s.pc t).holds)
    (halone : c.holds → (s.pc t).holds ∨ getFlag s.head = false)
    (hnode : ∀ a, c.node? = some a → (s.pc t).node? = some a ∨ s.node a = none)
    (hparker : ∀ p, c.parker? = some p → (s.pc t).parker? = some p ∨ s.parker p = none)
    (hcarry : ∀ a, c.carries? = some a → (s.pc t).carries? = some a)
    (hstay : ∀ a p, s.pc t = .park a p → a ∉ q.stack ++ q.popped) (hplace : Place s' q t c) :
    Inv s' q := by
  have hother : ∀ u, u ≠ t → s'.pc u = s.pc u := fun u hu => by simp [hpc, hu]
  have hsame : ∀ a ∈ q.stack ++ q.popped, s'.node a = s.node a := fun a ha =>
    (hn a).resolve_right fun hown => (h.own_node hstay hown).1 ha
  have hparked : ∀ u a p, a ∈ q.stack ++ q.popped → s.pc u = .park a p → s'.pc u = .park a p := by
    intro u a p ha hu
    by_cases hut : u = t
    · exact absurd ha (hstay a p (hut ▸ hu))
    · rw [hother u hut, hu]
  have hnodes : ∀ u, u ≠ t → ∀ a, (s.pc u).node? = some a → s'.node a = s.node a := fun u hut a hu =>
    (hn a).resolve_right fun hown => (h.own_node hstay hown).2 u hut hu
  have hparkers : ∀ u, u ≠ t → ∀ p, (s.pc u).parker? = some p → s'.parker p = s.parker p := by
    intro u hut p hu
    refine (hp p).resolve_right ?_
    rintro (ht | hfree)
    · exact hut (h.parkers u t p hu ht)
    · simpa [hfree] using (h.place u).parker_live hu
  refine h.of_step hpc (hlog.trans h.replay) ?_ h.distinct (fun a ha => ?_) hflag halone hnode
    hparker (fun a ha => .inl (hcarry a ha)) (fun u hut => ?_) hplace
  · rw [hptr]
    exact h.chain.congr fun a ha => by rw [hsame a (by simp [ha])]
  · obtain ⟨u, p, hu⟩ := h.waiting a ha
    exact ⟨u, p, hparked u a p ha hu⟩
  · refine (h.place u).frame h.distinct ⟨fun a ha hlive => by rwa [hnodes u hut a ha],
      fun a ha _ => hnodes u hut a ha, fun _ _ => Iff.rfl, fun _ _ => Iff.rfl, hparkers u hut,
      fun _ a ha => ⟨ha, hsame a (by simp [ha])⟩, fun a ha => ?_, fun v a p ha hv => ?_⟩
    · have hpop := (h.place u).carried ha
      exact ⟨hpop, hsame a (by simp [hpop])⟩
    · exact hparked v a p (by simp [(h.place u).carried ha]) hv

/-- The thread goes on to `c` with the lock and the frame that it had, and it was not asleep. -/
def Pc.Follows (c₀ c : Pc T) : Prop :=
  c.holds = c₀.holds ∧ (∀ a, c.node? = some a → c₀.node? = some a) ∧
    (∀ p, c.parker? = some p → c₀.parker? = some p) ∧
    (∀ a, c.carries? = some a → c₀.carries? = some a) ∧ ∀ a p, c₀ ≠ .park a p

theorem Inv.goto {s : State T} {q : Waiters} (h : Inv s q) {t : T} {c₀ c : Pc T}
    (hc : s.pc t = c₀) (hf : c₀.Follows c) (hplace : Place (s.goto t c) q t c) :
    Inv (s.goto t c) q := by
  subst hc
  obtain ⟨hholds, hnode, hparker, hcarry, hstay⟩ := hf
  have hset : (s.pc t).holds → getFlag s.head := fun ht => h.flag.mpr ⟨t, ht⟩
  refine h.move rfl (fun _ => .inl rfl) (fun _ => .inl rfl) rfl rfl ?_ ?_ (fun a ha => .inl (hnode a ha))
    (fun p hp => .inl (hparker p hp)) hcarry (fun a p ht => absurd ht (hstay a p)) hplace
  · rw [hholds]
    cases ht : (s.pc t).holds with
    | true => simp [State.goto, hset ht]
    | false => simp [State.goto]
  · rw [hholds]
    exact .inl

theorem Inv.locked {s : State T} {q : Waiters} (h : Inv s q) {t : T} {c₀ c : Pc T} {head : Word}
    (hc : s.pc t = c₀) (hptr : getPtr head = getPtr s.head) (hfree : getFlag s.head = false)
    (hholds : c.holds) (hnode : ∀ a, c.node? = some a → c₀.node? = some a)
    (hparker : ∀ p, c.parker? = some p → c₀.parker? = some p) (hcarry : c.carries? = none)
    (hstay : ∀ a p, c₀ ≠ .park a p) (hplace : Place (s.locked t head c) q t c) :
    Inv (s.locked t head c) q := by
  subst hc
  refine h.move rfl (fun _ => .inl rfl) (fun _ => .inl rfl) rfl (by simp [State.locked, State.goto, hptr])
    (by simp [State.locked, State.goto, hholds]) (fun _ => .inr hfree) (fun a ha => .inl (hnode a ha))
    (fun p hp => .inl (hparker p hp)) (by simp [hcarry]) (fun a p ht => absurd ht (hstay a p)) hplace

end Colock.MiniLock
