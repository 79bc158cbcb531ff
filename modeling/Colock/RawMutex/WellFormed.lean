import Colock.RawMutex.Steps
import Mathlib.Data.List.Nodup

/-! The wait queue, the nodes of the parties and the queue lock fit together in every
reachable state of the mutex, whatever is called. -/
namespace Colock.RawMutex
open Transition
variable {P : Type*} [DecidableEq P]

def Pc.inSection : Pc P → Bool
  | .loadState _ | .sleepCas _ _ | .pushHead _ | .removeNode _ | .popTail _ | .mark _ _
  | .onEmpty | .wake _ _ _ | .clearWait _ | .unlockQueue _ => true
  | _ => false

/-- The number of entries a party that has popped one still counts on. -/
def Pc.count : Pc P → Option Nat
  | .mark _ n | .wake _ _ n => some n
  | .clearWait _ => some 0
  | _ => none

/-- What is known of the node of a party: there is none, it is new, it is off the list, or
it holds a thread's waker or a task's. No party is ever in a `never`. -/
inductive Slot
  | never | bare | fresh | off | thread | task
  deriving DecidableEq

def Call.fresh : Call → Slot
  | .tryLock => .never
  | _ => .fresh

def Call.queued : Call → Slot
  | .tryLock => .never
  | .lockInner _ => .thread
  | .poll _ => .task

def Call.aborted : Call → Slot
  | .tryLock => .never
  | _ => .off

def Leave.slot : Leave → Slot
  | .renew _ | .future _ => .task
  | _ => .thread

def Release.slot : Release → Slot
  | .bump => .bare
  | _ => .task

def Pc.slot : Pc P → Slot
  | .cas (.poll _) _ => .task
  | .cas _ _ | .prepare _ | .bumpLoad => .bare
  | .lockPush c | .loadState c | .sleepCas c _ | .pushHead c => c.fresh
  | .unlockQueue (.pushed c) => c.queued
  | .unlockQueue (.aborted c) => c.aborted
  | .unlockQueue (.dropped _) => .off
  | .park _ | .fairLoad _ | .fairClear => .thread
  | .dropNode k | .lockDrop k | .removeNode k => k.slot
  | .fetchUnlock r | .lockPop r | .popTail r | .wake r _ _ | .clearWait r
  | .unlockQueue (.released r) => r.slot
  | .idle | .holding | .mark _ _ | .onEmpty => .task

def State.Off (s : State P) (p : P) : Prop := ∀ e ∈ s.queue, e.owner ≠ p

def Slot.Holds (s : State P) (p : P) : Slot → Prop
  | .never => False
  | .bare => s.node p = none
  | .fresh => s.node p ≠ none ∧ s.Off p
  | .off => s.Off p
  | .thread => ∀ e ∈ s.queue, e.owner = p → e.data.parker = some e.id
  | .task => ∀ e ∈ s.queue, e.owner = p → e.data.parker = none

def Slot.implies : Slot → Slot → Bool
  | .never, _ => true
  | .bare, b => b != .never && b != .fresh
  | .fresh, b => b != .never && b != .bare
  | .off, b => b == .off || b == .thread || b == .task
  | a, b => a == b

structure Shape (s : State P) : Prop where
  node_lt : ∀ p i, s.node p = some i → i < s.fresh
  node_inj : ∀ p q i, s.node p = some i → s.node q = some i → p = q
  linked : ∀ e ∈ s.queue, s.node e.owner = some e.id
  owners : (s.queue.map Entry.owner).Nodup
  asleep : ∀ e ∈ s.queue, s.woken e.owner = false

structure Fits (s : State P) (p : P) : Prop where
  inside : (s.pc p).inSection = true ↔ s.qlock = some p
  slot : (s.pc p).slot.Holds s p
  count : ∀ n, (s.pc p).count = some n → s.queue.length = n

structure WellFormed (s : State P) : Prop extends Shape s where
  fits : ∀ p, Fits s p

section slots
variable {P : Type*}

theorem Slot.Holds.weaken {s : State P} {p : P} {a b : Slot} (hs : Shape s) (h : a.Holds s p)
    (hab : a.implies b = true) : b.Holds s p := by
  have hoff : s.Off p → b = .off ∨ b = .thread ∨ b = .task → b.Holds s p := by
    rintro ho (rfl | rfl | rfl)
    · exact ho
    · exact fun e he hep => absurd hep (ho e he)
    · exact fun e he hep => absurd hep (ho e he)
  have hbare : s.node p = none → s.Off p := by
    rintro hn e he rfl
    simp [hs.linked e he] at hn
  cases a with
  | never => exact h.elim
  | bare => cases b <;> simp_all [Slot.implies, Slot.Holds]
  | fresh =>
    cases b with
    | fresh => exact h
    | never | bare => simp [Slot.implies] at hab
    | off | thread | task => exact hoff h.2 (by simp)
  | off => exact hoff h (by simpa [Slot.implies, or_assoc] using hab)
  | thread | task =>
    simp only [Slot.implies, beq_iff_eq] at hab
    exact hab ▸ h

theorem Slot.Holds.frame {s t : State P} {p : P} {a : Slot} (h : a.Holds s p)
    (hn : t.node p = s.node p) (hq : ∀ e ∈ t.queue, e.owner = p → e ∈ s.queue) :
    a.Holds t p := by
  have hoff : s.Off p → t.Off p := fun ho e he hep => ho e (hq e he hep) hep
  cases a with
  | never => exact h
  | bare => exact hn.trans h
  | fresh => exact ⟨hn ▸ h.1, hoff h.2⟩
  | off => exact hoff h
  | thread | task => exact fun e he hep => h e (hq e he hep) hep

theorem inSection_of_count {c : Pc P} {n : Nat} (h : c.count = some n) : c.inSection = true := by
  cases c <;> simp_all [Pc.count, Pc.inSection]

end slots

/-- A step of `p` keeps the state well formed when it keeps the queue in shape, leaves `p` where
it may be, and touches neither the nodes nor the entries of others nor a queue that another
party is working on. -/
theorem WellFormed.move {s t : State P} {p : P} (hs : WellFormed s) (hshape : Shape t)
    (hpc : ∀ q, q ≠ p → t.pc q = s.pc q) (hp : Fits t p)
    (hlock : ∀ q, q ≠ p → (t.qlock = some q ↔ s.qlock = some q))
    (hnode : ∀ q, q ≠ p → t.node q = s.node q)
    (hqueue : ∀ e ∈ t.queue, e.owner ≠ p → e ∈ s.queue)
    (hlen : t.queue.length = s.queue.length ∨ s.qlock = some p) : WellFormed t := by
  refine ⟨hshape, fun q => ?_⟩
  by_cases hq : q = p
  · exact hq ▸ hp
  · have hf := hs.fits q
    constructor
    · rw [hpc q hq, hlock q hq]
      exact hf.inside
    · rw [hpc q hq]
      exact hf.slot.frame (hnode q hq) fun e he heq => hqueue e he (heq ▸ hq)
    · intro n hn
      rw [hpc q hq] at hn
      have hin := hf.inside.mp (inSection_of_count hn)
      rcases hlen with hlen | hlen
      · exact hlen ▸ hf.count n hn
      · exact absurd (Option.some.inj (hin.symm.trans hlen)) hq

omit [DecidableEq P] in
theorem WellFormed.weaken {s : State P} {p : P} {a : Slot} (hs : WellFormed s)
    (h : (s.pc p).slot.implies a = true) : a.Holds s p :=
  (hs.fits p).slot.weaken hs.toShape h

theorem WellFormed.quiet {s t : State P} {p : P} (hs : WellFormed s)
    (hqueue : t.queue = s.queue) (hlock : t.qlock = s.qlock) (hfresh : t.fresh = s.fresh)
    (hnode : t.node = s.node) (hpc : ∀ q, q ≠ p → t.pc q = s.pc q)
    (hwoken : ∀ q, s.woken q = false → t.woken q = false)
    (hin : (t.pc p).inSection = (s.pc p).inSection)
    (hslot : (t.pc p).slot.Holds s p)
    (hcount : ∀ n, (t.pc p).count = some n → (s.pc p).count = some n) : WellFormed t := by
  have hshape : Shape t := by
    obtain ⟨h1, h2, h3, h4, h5⟩ := hs.toShape
    constructor
    · simpa only [hnode, hfresh] using h1
    · simpa only [hnode] using h2
    · simpa only [hnode, hqueue] using h3
    · simpa only [hqueue] using h4
    · exact fun e he => hwoken _ (h5 e (hqueue ▸ he))
  have hf := hs.fits p
  refine hs.move hshape hpc ⟨?_, ?_, ?_⟩ (fun q _ => by rw [hlock]) (fun q _ => by rw [hnode])
    (fun e he _ => hqueue ▸ he) (.inl (by rw [hqueue]))
  · rw [hin, hlock]
    exact hf.inside
  · exact hslot.frame (by rw [hnode]) fun e he _ => hqueue ▸ he
  · exact fun n hn => hqueue ▸ hf.count n (hcount n hn)

omit [DecidableEq P] in
theorem sleepNext_place (c : Call) (w : Word) :
    (sleepNext c w : Pc P).inSection = true ∧ (sleepNext c w : Pc P).slot = c.fresh ∧
      (sleepNext c w : Pc P).count = none := by
  unfold sleepNext
  split <;> exact ⟨rfl, rfl, rfl⟩

omit [DecidableEq P] in
theorem Slot.implies_refl (a : Slot) : a.implies a = true := by
  cases a <;> rfl

theorem commit_woken (s : State P) (p q : P) (c : Pc P) (w : Word) (h : s.woken q = false) :
    (s.commit p c w).woken q = false := by
  by_cases hq : q = p
  · subst q
    cases hc : c.owns <;> simp [State.commit, hc, h]
  · rw [(commit_others s p c w q hq).2, h]

omit [DecidableEq P] in
theorem Shape.sub {s t : State P} (hs : Shape s) (hfresh : t.fresh = s.fresh)
    (hnode : t.node = s.node) (hqueue : t.queue.Sublist s.queue)
    (hwoken : ∀ e ∈ t.queue, t.woken e.owner = s.woken e.owner) : Shape t := by
  obtain ⟨h1, h2, h3, h4, h5⟩ := hs
  constructor
  · simpa only [hnode, hfresh] using h1
  · simpa only [hnode] using h2
  · exact fun e he => hnode ▸ h3 e (hqueue.subset he)
  · exact h4.sublist (hqueue.map _)
  · exact fun e he => (hwoken e he).trans (h5 e (hqueue.subset he))

theorem WellFormed.commit {s : State P} {p : P} {c : Pc P} {w : Word} (hs : WellFormed s)
    (hin : c.inSection = (s.pc p).inSection) (hslot : (s.pc p).slot.implies c.slot = true)
    (hcount : ∀ n, c.count = some n → (s.pc p).count = some n) :
    WellFormed (s.commit p c w) := by
  have hplace := hs.weaken hslot
  refine hs.quiet (p := p) rfl rfl rfl rfl (fun q hq => (commit_others s p c w q hq).1)
    (fun q => commit_woken s p q c w) ?_ ?_ ?_ <;> simpa

theorem WellFormed.goto {s : State P} {p : P} {c : Pc P} (hs : WellFormed s)
    (hin : c.inSection = (s.pc p).inSection) (hslot : c.slot.Holds s p)
    (hcount : ∀ n, c.count = some n → (s.pc p).count = some n) : WellFormed (s.goto p c) := by
  refine hs.quiet (p := p) rfl rfl rfl rfl (fun q hq => by simp [hq]) (fun _ h => h) ?_ ?_ ?_ <;>
    simpa

theorem WellFormed.acquire {s : State P} {p : P} {c : Pc P} (hs : WellFormed s)
    (hfree : s.qlock = none) (hin : c.inSection = true)
    (hslot : (s.pc p).slot.implies c.slot = true) (hcount : c.count = none) :
    WellFormed ({ s with qlock := some p }.goto p c) := by
  have hshape : Shape ({ s with qlock := some p }.goto p c) :=
    hs.toShape.sub rfl rfl (List.Sublist.refl _) fun _ _ => rfl
  have hplace : c.slot.Holds ({ s with qlock := some p }.goto p c) p :=
    (hs.weaken hslot).frame rfl fun _ he _ => he
  exact hs.move (p := p) hshape (fun q hq => by simp [hq])
    ⟨by simp [hin], by simpa using hplace, by simp [hcount]⟩
    (fun q hq => by simp [hfree, Ne.symm hq]) (fun _ _ => rfl) (fun _ he _ => he) (.inl rfl)

theorem Shape.newNode {s : State P} {p : P} (hs : Shape s) (ho : s.Off p) :
    Shape (s.newNode p) := by
  obtain ⟨h1, h2, h3, h4, h5⟩ := hs
  have hnode : ∀ q, (s.newNode p).node q = if q = p then some s.fresh else s.node q := by
    intro q
    simp [State.newNode, Function.update_apply]
  have hfresh : (s.newNode p).fresh = s.fresh + 1 := rfl
  constructor
  · intro q i hq
    rw [hnode] at hq
    split at hq
    · cases hq; omega
    · have hlt := h1 q i hq
      omega
  · intro q r i hq hr
    rw [hnode] at hq hr
    split at hq <;> split at hr
    · next hqp hrp => exact hqp.trans hrp.symm
    · cases hq
      exact absurd (h1 r _ hr) (by omega)
    · cases hr
      exact absurd (h1 q _ hq) (by omega)
    · exact h2 q r i hq hr
  · intro e he
    rw [hnode, if_neg (ho e he)]
    exact h3 e he
  · exact h4
  · exact h5

theorem Shape.freeNode {s : State P} {p : P} (hs : Shape s) (ho : s.Off p) (leaves : Bool) :
    Shape (s.freeNode p leaves) := by
  obtain ⟨h1, h2, h3, h4, h5⟩ := hs
  have hnode : ∀ q, (s.freeNode p leaves).node q = if q = p then none else s.node q := by
    intro q
    simp [State.freeNode, Function.update_apply]
  constructor
  · intro q i hq
    rw [hnode] at hq
    split at hq
    · cases hq
    · exact h1 q i hq
  · intro q r i hq hr
    rw [hnode] at hq hr
    split at hq <;> split at hr
    · cases hq
    · cases hq
    · cases hr
    · exact h2 q r i hq hr
  · intro e he
    rw [hnode, if_neg (ho e he)]
    exact h3 e he
  · exact h4
  · intro e he
    rw [freeNode_others s p leaves _ (ho e he)]
    exact h5 e he

theorem Shape.push {s : State P} {p : P} {i : Nat} (hs : Shape s) (ho : s.Off p)
    (hn : s.node p = some i) (c : Call) : Shape (s.push p i c) := by
  obtain ⟨h1, h2, h3, h4, h5⟩ := hs
  refine ⟨h1, h2, ?_, ?_, ?_⟩
  · intro e he
    rcases List.mem_cons.mp he with rfl | he
    · exact hn
    · exact h3 e he
  · simp only [State.push, List.map_cons, List.nodup_cons, List.mem_map, not_exists, not_and]
    exact ⟨fun e he => ho e he, h4⟩
  · intro e he
    rcases List.mem_cons.mp he with rfl | he
    · simp [State.push]
    · simp [State.push, ho e he, h5 e he]

omit [DecidableEq P] in
theorem remove_off {s : State P} {p : P} (hs : Shape s) : (s.remove p).Off p := by
  rintro e he rfl
  simp only [State.remove, List.mem_filter, bne_iff_ne] at he
  exact he.2 (hs.linked e he.1)

omit [DecidableEq P] in
theorem queue_eq {s : State P} {e : Entry P} (he : s.queue.getLast? = some e) :
    s.queue = s.queue.dropLast ++ [e] := by
  obtain ⟨l, hl⟩ := List.getLast?_eq_some_iff.mp he
  simp [hl]

theorem popped_off {s : State P} {e : Entry P} (hs : Shape s) (he : s.queue.getLast? = some e) :
    (s.popped e).Off e.owner := by
  intro x hx heq
  have hn := hs.owners
  rw [queue_eq he, List.map_append, List.nodup_append] at hn
  exact hn.2.2 x.owner (List.mem_map_of_mem hx) e.owner (by simp) heq

theorem Shape.popped {s : State P} {e : Entry P} (hs : Shape s)
    (he : s.queue.getLast? = some e) : Shape (s.popped e) := by
  refine hs.sub rfl rfl (List.dropLast_sublist _) fun x hx => ?_
  simp [State.popped, popped_off hs he x hx]

theorem WellFormed.newNode {s : State P} {p : P} (hs : WellFormed s) (ho : s.Off p)
    (hlock : s.qlock ≠ some p) (c : Call) (hc : c.fresh = .fresh) :
    WellFormed ((s.newNode p).goto p (.lockPush c)) := by
  have hshape : Shape ((s.newNode p).goto p (.lockPush c)) :=
    (hs.toShape.newNode ho).sub rfl rfl (List.Sublist.refl _) fun _ _ => rfl
  have hplace : Slot.fresh.Holds ((s.newNode p).goto p (.lockPush c)) p :=
    ⟨by simp [State.newNode], ho⟩
  exact hs.move (p := p) hshape (fun q hq => by simp [hq])
    ⟨by simp [Pc.inSection, hlock], by simpa [Pc.slot, hc] using hplace, by simp [Pc.count]⟩
    (fun q hq => by simp) (fun q hq => by simp [State.newNode, hq])
    (fun e he _ => by simpa using he) (.inl (by simp))

theorem WellFormed.finish {s : State P} {p : P} (hs : WellFormed s) (ho : s.Off p) (k : Leave)
    (hlock : s.qlock ≠ some p) : WellFormed (s.finish p k) := by
  have hfree : ∀ (leaves : Bool) (c : Pc P), c.inSection = false → c.slot = .bare ∨ c.slot = .task →
      c.count = none → WellFormed ((s.freeNode p leaves).goto p c) := by
    intro leaves c hin hslot hcount
    have hshape : Shape ((s.freeNode p leaves).goto p c) :=
      (hs.toShape.freeNode ho leaves).sub rfl rfl (List.Sublist.refl _) fun _ _ => rfl
    have hnone : ((s.freeNode p leaves).goto p c).node p = none := by simp [State.freeNode]
    have hplace : c.slot.Holds ((s.freeNode p leaves).goto p c) p := by
      have hbare : Slot.bare.Holds ((s.freeNode p leaves).goto p c) p := hnone
      refine hbare.weaken hshape ?_
      rcases hslot with h | h <;> rw [h] <;> rfl
    exact hs.move (p := p) hshape (fun q hq => by simp [hq])
      ⟨by simp [hin, hlock], by simpa using hplace, by simp [hcount]⟩ (fun q hq => by simp)
      (fun q hq => by simp [State.freeNode, hq]) (fun e he _ => by simpa using he)
      (.inl (by simp))
  cases k with
  | retry timed => exact hfree false _ rfl (.inl rfl) rfl
  | success => exact hfree false _ rfl (.inr rfl) rfl
  | timeout => exact hfree true _ rfl (.inr rfl) rfl
  | future held => cases held <;> exact hfree true _ rfl (.inr rfl) rfl
  | renew cx => exact hs.newNode ho hlock (.poll cx) rfl

theorem WellFormed.leave {s : State P} {p : P} {c : Pc P} (hs : WellFormed s)
    (hl : s.qlock = some p) (hin : c.inSection = false)
    (hslot : (s.pc p).slot.implies c.slot = true) (hcount : c.count = none) :
    WellFormed ({ s with qlock := none }.goto p c) := by
  have hshape : Shape ({ s with qlock := none }.goto p c) :=
    hs.toShape.sub rfl rfl (List.Sublist.refl _) fun _ _ => rfl
  have hplace : c.slot.Holds ({ s with qlock := none }.goto p c) p :=
    (hs.weaken hslot).frame rfl fun _ he _ => he
  exact hs.move (p := p) hshape (fun q hq => by simp [hq])
    ⟨by simp [hin], by simpa using hplace, by simp [hcount]⟩
    (fun q hq => by simp [hl, Ne.symm hq]) (fun _ _ => rfl) (fun _ he _ => he) (.inl rfl)

theorem WellFormed.release {s : State P} {p : P} {a : After} (hs : WellFormed s)
    (hpc : s.pc p = .unlockQueue a) : WellFormed (s.release p a) := by
  have hl : s.qlock = some p := (hs.fits p).inside.mp (by rw [hpc]; rfl)
  cases a with
  | pushed c => cases c <;> exact hs.leave hl rfl (by rw [hpc]; rfl) rfl
  | aborted c => cases c <;> exact hs.leave hl rfl (by rw [hpc]; rfl) rfl
  | released r => cases r <;> exact hs.leave hl rfl (by rw [hpc]; rfl) rfl
  | dropped k =>
    have ho : s.Off p := by
      have hslot := (hs.fits p).slot
      rwa [hpc] at hslot
    have hu : WellFormed ({ s with qlock := none }.goto p (.dropNode k)) :=
      hs.leave hl rfl (by rw [hpc]; cases k <;> rfl) rfl
    have heq : ({ s with qlock := none }.goto p (.dropNode k)).finish p k =
        { s with qlock := none }.finish p k := by
      cases k <;> simp [State.finish, State.goto, State.freeNode, State.newNode]
    have hfinish := hu.finish ho k (by simp)
    rwa [heq] at hfinish

omit [DecidableEq P] in
theorem WellFormed.locked {s : State P} {p : P} (hs : WellFormed s)
    (h : (s.pc p).inSection = true) : s.qlock = some p :=
  (hs.fits p).inside.mp h

omit [DecidableEq P] in
theorem WellFormed.outside {s : State P} {p : P} (hs : WellFormed s)
    (h : (s.pc p).inSection = false) : s.qlock ≠ some p := by
  intro hl
  simp [(hs.fits p).inside.mpr hl] at h

theorem WellFormed.push {s : State P} {p : P} {c : Call} {i : Nat} (hs : WellFormed s)
    (hpc : s.pc p = .pushHead c) (hn : s.node p = some i) :
    WellFormed ((s.push p i c).goto p (.unlockQueue (.pushed c))) := by
  have hl : s.qlock = some p := hs.locked (by rw [hpc]; rfl)
  have hslot : c.fresh.Holds s p := by
    have hslot := (hs.fits p).slot
    rwa [hpc] at hslot
  have ho : s.Off p := by
    cases c with
    | tryLock => exact hslot.elim
    | lockInner timed | poll cx => exact hslot.2
  have hshape : Shape ((s.push p i c).goto p (.unlockQueue (.pushed c))) :=
    (hs.toShape.push ho hn c).sub rfl rfl (List.Sublist.refl _) fun _ _ => rfl
  have hplace : c.queued.Holds ((s.push p i c).goto p (.unlockQueue (.pushed c))) p := by
    cases c with
    | tryLock => exact hslot.elim
    | lockInner timed | poll cx =>
      intro e he hep
      rcases List.mem_cons.mp he with rfl | he
      · rfl
      · exact absurd hep (ho e he)
  refine hs.move (p := p) hshape (fun q hq => by simp [hq])
    ⟨by simp [Pc.inSection, hl], by simpa [Pc.slot] using hplace, by simp [Pc.count]⟩
    (fun q hq => by simp) (fun q hq => by simp) (fun e he hep => ?_) (.inr hl)
  rcases List.mem_cons.mp he with rfl | he
  · exact absurd rfl hep
  · exact he

theorem WellFormed.remove {s : State P} {p : P} {k : Leave} (hs : WellFormed s)
    (hpc : s.pc p = .removeNode k) :
    WellFormed ((s.remove p).goto p (.unlockQueue (.dropped k))) := by
  have hl : s.qlock = some p := hs.locked (by rw [hpc]; rfl)
  have hshape : Shape ((s.remove p).goto p (.unlockQueue (.dropped k))) :=
    hs.toShape.sub rfl rfl List.filter_sublist fun _ _ => rfl
  have hplace : Slot.off.Holds ((s.remove p).goto p (.unlockQueue (.dropped k))) p :=
    remove_off hs.toShape
  exact hs.move (p := p) hshape (fun q hq => by simp [hq])
    ⟨by simp [Pc.inSection, hl], by simpa [Pc.slot] using hplace, by simp [Pc.count]⟩
    (fun q hq => by simp) (fun q hq => by simp) (fun e he _ => List.mem_of_mem_filter he) (.inr hl)

theorem WellFormed.popped {s : State P} {p : P} {c : Pc P} {e : Entry P} (hs : WellFormed s)
    (hin : (s.pc p).inSection = true) (he : s.queue.getLast? = some e)
    (hc : c.inSection = true) (hslot : (s.pc p).slot.implies c.slot = true)
    (hcount : ∀ n, c.count = some n → n = s.queue.length - 1) :
    WellFormed ((s.popped e).goto p c) := by
  have hl := hs.locked hin
  have hsub : ∀ x ∈ ((s.popped e).goto p c).queue, x ∈ s.queue := fun x hx =>
    (List.dropLast_sublist _).subset hx
  have hshape : Shape ((s.popped e).goto p c) :=
    (hs.toShape.popped he).sub rfl rfl (List.Sublist.refl _) fun _ _ => rfl
  have hplace : c.slot.Holds ((s.popped e).goto p c) p :=
    (hs.weaken hslot).frame rfl fun x hx _ => hsub x hx
  have hlen : ((s.popped e).goto p c).queue.length = s.queue.length - 1 := by
    simp [State.popped]
  exact hs.move (p := p) hshape (fun q hq => by simp [hq])
    ⟨by simp [hc, hl], by simpa using hplace, fun n hn => hlen.trans (hcount n (by simpa using hn)).symm⟩
    (fun q hq => by simp) (fun q hq => by simp) (fun x hx _ => hsub x hx) (.inr hl)

omit [DecidableEq P] in
theorem off_of_isOnList {s : State P} {p : P} (hs : Shape s) (h : s.isOnList p = false) :
    s.Off p := by
  rintro e he rfl
  have hid := hs.linked e he
  simp only [State.isOnList, List.any_eq_false] at h
  exact h e he (by simp [hid])

theorem step_wellFormed {s t : State P} {l : P × Act} (hs : WellFormed s)
    (h : step s l = some t) : WellFormed t := by
  obtain ⟨p, a⟩ := l
  have sleeps : ∀ (c : Call) (u v : Word), (s.pc p).inSection = true → (s.pc p).slot = c.fresh →
      WellFormed (s.commit p (sleepNext c u) v) := by
    intro c u v hin hslot
    obtain ⟨h1, h2, h3⟩ := sleepNext_place (P := P) c u
    exact hs.commit (h1.trans hin.symm) (by rw [hslot, h2]; exact Slot.implies_refl _) (by simp [h3])
  cases step_cases h with
  | start c hpc hn =>
    refine hs.goto (by rw [hpc]; rfl) ?_ (by rintro _ ⟨⟩)
    cases c with
    | poll cx => exact hs.weaken (by rw [hpc]; rfl)
    | tryLock | lockInner timed => exact hn.resolve_right (by simp [Call.isPoll])
  | release r hpc hn =>
    cases r with
    | unlock | unlockFair =>
      exact hs.goto (by rw [hpc]; rfl) (hs.weaken (by rw [hpc]; rfl)) (by rintro _ ⟨⟩)
    | bump => exact hs.goto (by rw [hpc]; rfl) (hn.resolve_right (by simp)) (by rintro _ ⟨⟩)
  | timeout hpc | park _ _ hpc =>
    exact hs.goto (by rw [hpc]; rfl) (hs.weaken (by rw [hpc]; rfl)) (by rintro _ ⟨⟩)
  | dropFuture held hpc =>
    cases held <;> exact hs.goto (by rw [hpc]; rfl) (hs.weaken (by rw [hpc]; rfl)) (by rintro _ ⟨⟩)
  | casTaken c _ hpc | casFailed c _ hpc | casRetry c _ hpc | sleepTaken c _ hpc =>
    cases c <;> exact hs.commit (by rw [hpc]; rfl) (by rw [hpc]; rfl) (by rintro _ ⟨⟩)
  | loadState c hpc | sleepMark c _ hpc | sleepReload c _ hpc =>
    exact sleeps c _ _ (by rw [hpc]; rfl) (by rw [hpc]; rfl)
  | fairSeen _ hpc | fairUnseen _ hpc | fairClear hpc | onEmpty hpc =>
    exact hs.commit (by rw [hpc]; rfl) (by rw [hpc]; rfl) (by rintro _ ⟨⟩)
  | bumpLoad hpc =>
    split <;> exact hs.commit (by rw [hpc]; rfl) (by rw [hpc]; rfl) (by rintro _ ⟨⟩)
  | fetchUnlock r hpc =>
    split <;> cases r <;>
      exact hs.commit (by rw [hpc]; rfl) (by rw [hpc]; rfl) (by rintro _ ⟨⟩)
  | mark e n hpc =>
    exact hs.commit (by rw [hpc]; rfl) (by rw [hpc]; rfl) fun _ hn => by rw [hpc]; exact hn
  | clearWait r hpc =>
    cases r <;> exact hs.commit (by rw [hpc]; rfl) (by rw [hpc]; rfl) (by rintro _ ⟨⟩)
  | prepare timed hpc =>
    have ho : Slot.off.Holds s p := hs.weaken (by rw [hpc]; rfl)
    exact hs.newNode ho (hs.outside (by rw [hpc]; rfl)) _ rfl
  | lockPush _ hpc hl | lockDrop _ hpc hl | lockPop _ hpc hl =>
    exact hs.acquire hl rfl (by rw [hpc]; exact Slot.implies_refl _) rfl
  | pushHead c i hpc hi => exact hs.push hpc hi
  | dropLinked k hpc =>
    exact hs.goto (by rw [hpc]; rfl) (hs.weaken (by rw [hpc]; exact Slot.implies_refl _))
      (by rintro _ ⟨⟩)
  | dropOff k hpc hoff =>
    exact hs.finish (off_of_isOnList hs.toShape hoff) k (hs.outside (by rw [hpc]; rfl))
  | removeNode k hpc => exact hs.remove hpc
  | popNone r hpc =>
    cases r <;> exact hs.goto (by rw [hpc]; rfl) (hs.weaken (by rw [hpc]; rfl)) (by rintro _ ⟨⟩)
  | popTail r e hpc he =>
    refine hs.popped (by rw [hpc]; rfl) he ?_ ?_ ?_
    · cases r <;> rfl
    · rw [hpc]; cases r <;> rfl
    · cases r <;> simp [Pc.count]
  | wake r e n hpc =>
    refine hs.quiet (p := p) (by simp) (by simp) (by simp) (by simp) (fun q hq => by simp [hq])
      (fun q hq => by simpa using hq) ?_ ?_ ?_
    · rw [hpc]; simp only [goto_fields, Function.update_self]; split <;> rfl
    · simp only [goto_fields, Function.update_self]
      split <;> exact hs.weaken (by rw [hpc]; exact Slot.implies_refl _)
    · intro m hm
      rw [hpc]
      simp only [goto_fields, Function.update_self] at hm
      split at hm
      · next hn => simpa [Pc.count, hn.2] using hm
      · simp [Pc.count] at hm
  | unlockQueue a hpc => exact hs.release hpc

omit [DecidableEq P] in
theorem wellFormed_init : WellFormed (init : State P) := by
  constructor
  · constructor <;> simp [init]
  · intro p
    constructor <;> simp [init, Pc.inSection, Pc.slot, Slot.Holds, Pc.count]

theorem reach_wellFormed {ok : State P → P × Act → Prop} {s : State P}
    (h : Reach step ok init s) : WellFormed s :=
  h.invariant wellFormed_init fun _ _ _ hs _ h => step_wellFormed hs h

end Colock.RawMutex
