import Colock.Barrier.Model
import Mathlib.Data.List.Nodup
import Mathlib.Order.Nat

/-! The wait queue, the nodes and the parkers of the parties and the list lock fit together in
every reachable state of a barrier, whatever becomes of the wakers that are on their way. -/
namespace Colock.Barrier
open Transition
variable {P : Type*} [DecidableEq P]

def Pc.inSection : Pc P → Bool
  | .count _ | .pushHead _ | .popHead _ | .wake _ _ | .unlockList _ _ | .removeNode _
  | .unlockDrop _ => true
  | _ => false

def State.Off (s : State P) (p : P) : Prop := ∀ e ∈ s.queue, e.owner ≠ p

def Leave.leads : Leave → Bool
  | .returns leader => leader
  | _ => false

/-- The party has no entry: its node is new, or it leads a release. -/
def Pc.detached : Pc P → Bool
  | .newParker _ | .lockList _ | .count _ | .pushHead _ | .popHead _ | .wake _ _
  | .unlockList _ false | .unlockDrop _ => true
  | .dropNode k | .lockDrop k | .removeNode k => k.leads
  | _ => false

structure WellFormed (s : State P) : Prop where
  inside : ∀ p, (s.pc p).inSection = true ↔ s.lock = some p
  parker_lt : ∀ p i, s.parker p = some i → i < s.fresh
  parker_inj : ∀ p q i, s.parker p = some i → s.parker q = some i → p = q
  node_parker : ∀ p i, s.node p = some i → s.parker p = some i
  owners : (s.queue.map Entry.owner).Nodup
  linked : ∀ e ∈ s.queue, s.node e.owner = some e.id
  off : ∀ p, (s.pc p).detached = true → s.Off p

omit [DecidableEq P] in
theorem WellFormed.locked {s : State P} {p : P} (hs : WellFormed s)
    (h : (s.pc p).inSection = true) : s.lock = some p :=
  (hs.inside p).mp h

omit [DecidableEq P] in
theorem WellFormed.outside {s : State P} {p : P} (hs : WellFormed s)
    (h : (s.pc p).inSection = false) : s.lock ≠ some p := by
  intro hl
  simp [(hs.inside p).mpr hl] at h

omit [DecidableEq P] in
theorem WellFormed.alone {s : State P} {p q : P} (hs : WellFormed s)
    (hp : (s.pc p).inSection = true) (hq : (s.pc q).inSection = true) : p = q :=
  Option.some.inj ((hs.locked hp).symm.trans (hs.locked hq))

omit [DecidableEq P] in
theorem WellFormed.off_of_isOnList {s : State P} {p : P} (hs : WellFormed s)
    (h : s.isOnList p = false) : s.Off p := by
  rintro e he rfl
  have hid := hs.linked e he
  simp only [State.isOnList, List.any_eq_false] at h
  exact h e he (by simp [hid])

omit [DecidableEq P] in
theorem WellFormed.off_of_node {s : State P} {p : P} (hs : WellFormed s) (h : s.node p = none) :
    s.Off p := by
  rintro e he rfl
  simp [hs.linked e he] at h

omit [DecidableEq P] in
theorem WellFormed.remove_off {s : State P} {p : P} (hs : WellFormed s) : (s.remove p).Off p := by
  rintro e he rfl
  simp only [State.remove, List.mem_filter, bne_iff_ne] at he
  exact he.2 (hs.linked e he.1)

/-- A step of `p` keeps the state well formed when it leaves the other parties, their entries
and a lock they hold alone, and `p` itself in order. -/
theorem WellFormed.move {s t : State P} {p : P} (hs : WellFormed s)
    (hpc : ∀ q, q ≠ p → t.pc q = s.pc q)
    (hin : (t.pc p).inSection = true ↔ t.lock = some p)
    (hlock : ∀ q, q ≠ p → (t.lock = some q ↔ s.lock = some q)) (hfresh : s.fresh ≤ t.fresh)
    (hparker : ∀ q, q ≠ p → t.parker q = s.parker q) (hnode : ∀ q, q ≠ p → t.node q = s.node q)
    (hself : ∀ i, t.parker p = some i → s.parker p = some i ∨ s.fresh ≤ i ∧ i < t.fresh)
    (hown : ∀ i, t.node p = some i → t.parker p = some i)
    (howners : (t.queue.map Entry.owner).Nodup)
    (hlinked : ∀ e ∈ t.queue, e.owner = p → t.node p = some e.id)
    (hqueue : ∀ e ∈ t.queue, e.owner ≠ p → e ∈ s.queue)
    (hoff : (t.pc p).detached = true → t.Off p) : WellFormed t := by
  constructor
  · intro q
    by_cases hq : q = p
    · exact hq ▸ hin
    · rw [hpc q hq, hlock q hq]
      exact hs.inside q
  · intro q i hi
    by_cases hq : q = p
    · subst q
      rcases hself i hi with hold | hnew
      · exact (hs.parker_lt p i hold).trans_le hfresh
      · exact hnew.2
    · exact (hs.parker_lt q i (hparker q hq ▸ hi)).trans_le hfresh
  · have cross : ∀ q i, q ≠ p → t.parker p = some i → t.parker q ≠ some i := by
      intro q i hq hp hqi
      rw [hparker q hq] at hqi
      rcases hself i hp with hold | hnew
      · exact hq (hs.parker_inj q p i hqi hold)
      · have hlt := hs.parker_lt q i hqi
        omega
    intro q r i hq hr
    by_cases hqp : q = p <;> by_cases hrp : r = p
    · rw [hqp, hrp]
    · exact absurd hr (cross r i hrp (hqp ▸ hq))
    · exact absurd hq (cross q i hqp (hrp ▸ hr))
    · exact hs.parker_inj q r i (hparker q hqp ▸ hq) (hparker r hrp ▸ hr)
  · intro q i hi
    by_cases hq : q = p
    · subst q
      exact hown i hi
    · rw [hparker q hq]
      exact hs.node_parker q i (hnode q hq ▸ hi)
  · exact howners
  · intro e he
    by_cases hep : e.owner = p
    · rw [hep]
      exact hlinked e he hep
    · rw [hnode _ hep]
      exact hs.linked e (hqueue e he hep)
  · intro q hq
    by_cases hqp : q = p
    · subst q
      exact hoff hq
    · rintro e he rfl
      exact hs.off e.owner (hpc _ hqp ▸ hq) e (hqueue e he hqp) rfl

theorem WellFormed.jump {s t : State P} {p : P} {c : Pc P} (hs : WellFormed s)
    (ht : t.pc = Function.update s.pc p c) (hqueue : t.queue = s.queue) (hlock : t.lock = s.lock)
    (hfresh : t.fresh = s.fresh) (hparker : t.parker = s.parker) (hnode : t.node = s.node)
    (hin : c.inSection = (s.pc p).inSection) (hoff : c.detached = true → s.Off p) :
    WellFormed t := by
  have hp : t.pc p = c := by simp [ht]
  refine hs.move (p := p) (fun q hq => by simp [ht, hq]) ?_ (fun _ _ => by rw [hlock]) hfresh.ge
    (fun _ _ => by rw [hparker]) (fun _ _ => by rw [hnode]) (fun i hi => .inl (hparker ▸ hi))
    (by rw [hparker, hnode]; exact hs.node_parker p) (by rw [hqueue]; exact hs.owners)
    (fun e he hep => by rw [hnode, ← hep]; exact hs.linked e (hqueue ▸ he))
    (fun e he _ => hqueue ▸ he) fun hc e he => hoff (hp ▸ hc) e (hqueue ▸ he)
  rw [hp, hin, hlock]
  exact hs.inside p

theorem WellFormed.relock {s t : State P} {p : P} {c : Pc P} (hs : WellFormed s)
    (ht : t.pc = Function.update s.pc p c) (hqueue : t.queue = s.queue)
    (hlock : s.lock = none ∧ t.lock = some p ∧ c.inSection = true ∨
      s.lock = some p ∧ t.lock = none ∧ c.inSection = false)
    (hfresh : t.fresh = s.fresh) (hparker : t.parker = s.parker) (hnode : t.node = s.node)
    (hoff : c.detached = true → s.Off p) : WellFormed t := by
  have hp : t.pc p = c := by simp [ht]
  refine hs.move (p := p) (fun q hq => by simp [ht, hq]) ?_ ?_ hfresh.ge
    (fun _ _ => by rw [hparker]) (fun _ _ => by rw [hnode]) (fun i hi => .inl (hparker ▸ hi))
    (by rw [hparker, hnode]; exact hs.node_parker p) (by rw [hqueue]; exact hs.owners)
    (fun e he hep => by rw [hnode, ← hep]; exact hs.linked e (hqueue ▸ he))
    (fun e he _ => hqueue ▸ he) fun hc e he => hoff (hp ▸ hc) e (hqueue ▸ he)
  · rw [hp]
    rcases hlock with ⟨-, hl, hc⟩ | ⟨-, hl, hc⟩ <;> simp [hl, hc]
  · intro q hq
    rcases hlock with ⟨hl, hl', -⟩ | ⟨hl, hl', -⟩ <;> simp [hl, hl', Ne.symm hq]

theorem WellFormed.finish {s : State P} {p : P} (hs : WellFormed s) (lock : Option P)
    (hlock : lock = s.lock ∨ s.lock = some p ∧ lock = none) (hp : lock ≠ some p) (ho : s.Off p)
    (k : Leave) : WellFormed ({ s with lock := lock }.finish p k) := by
  have hout : ((State.finish { s with lock := lock } p k).pc p).inSection = false := by
    cases k <;> simp [State.finish, Pc.inSection]
  have hself : ∀ i, (State.finish { s with lock := lock } p k).parker p = some i →
      s.parker p = some i := by
    intro i hi
    cases k <;> simp_all [State.finish]
  refine hs.move (p := p) (fun q hq => (finish_others _ p k q hq).1) (by simp [hout, hp]) ?_
    (by simp) (fun q hq => (finish_others _ p k q hq).2) (fun q hq => by simp [hq])
    (fun i hi => .inl (hself i hi)) (by simp) (by simpa using hs.owners) ?_
    (fun e he _ => by simpa using he) fun _ e he => ho e (by simpa using he)
  · intro q hq
    rcases hlock with rfl | ⟨hl, rfl⟩
    · simp
    · simp [hl, Ne.symm hq]
  · intro e he hep
    exact absurd hep (ho e (by simpa using he))

theorem step_wellFormed {target : Nat} {s t : State P} {l : P × Act} (hs : WellFormed s)
    (h : step target s l = some t) : WellFormed t := by
  obtain ⟨p, a⟩ := l
  have hoff : (s.pc p).detached = true → s.Off p := hs.off p
  have hlocked : (s.pc p).inSection = true → s.lock = some p := hs.locked
  have houtside : (s.pc p).inSection = false → s.lock ≠ some p := hs.outside
  cases step_cases h with
  | free _ h0 hpc =>
    exact hs.jump (p := p) (c := .out) rfl rfl rfl rfl rfl rfl (by rw [hpc]) (by rintro ⟨⟩)
  | ready cx hpc hflag =>
    exact hs.jump (p := p) (c := .out) rfl rfl rfl rfl rfl rfl (by rw [hpc]; rfl) (by rintro ⟨⟩)
  | wait h0 hpc hnode hparker =>
    exact hs.jump (p := p) rfl rfl rfl rfl rfl rfl (by rw [hpc]; rfl)
      fun _ => hs.off_of_node hnode
  | poll _ _ hpc | dropFuture hpc | renew _ hpc | park _ hpc =>
    exact hs.jump (p := p) rfl rfl rfl rfl rfl rfl (by rw [hpc]; rfl) (by rintro ⟨⟩)
  | newParker c hpc =>
    have ho : s.Off p := hoff (by rw [hpc]; rfl)
    refine hs.move (p := p) (fun q hq => by simp [hq]) ?_ (fun _ _ => Iff.rfl) (Nat.le_succ _)
      (fun q hq => by simp [State.newParker, hq]) (fun q hq => by simp [State.newParker, hq])
      (fun i hi => .inr ?_) (by simp [State.newParker]) hs.owners
      (fun e he hep => absurd hep (ho e he)) (fun e he _ => he) fun _ => ho
    · simp [Pc.inSection, houtside (by rw [hpc]; rfl)]
    · have hi : s.fresh = i := by simpa [State.newParker] using hi
      subst i
      exact ⟨le_rfl, Nat.lt_succ_self _⟩
  | lockList c hpc hl | lockDrop k hpc hl =>
    exact hs.relock (p := p) rfl rfl (.inl ⟨hl, rfl, rfl⟩) rfl rfl rfl
      fun hc => hoff (by rw [hpc]; exact hc)
  | full c hpc | room c hpc | emptied c hpc =>
    exact hs.jump (p := p) rfl rfl rfl rfl rfl rfl (by rw [hpc]; rfl)
      fun _ => hoff (by rw [hpc]; rfl)
  | pushHead c i hpc hi =>
    have ho : s.Off p := hoff (by rw [hpc]; rfl)
    refine hs.move (p := p) (fun q hq => by simp [hq]) ?_ (fun _ _ => Iff.rfl) le_rfl
      (fun _ _ => rfl) (fun _ _ => rfl) (fun _ hi => .inl hi) (hs.node_parker p) ?_ ?_ ?_ ?_
    · simp [Pc.inSection, hlocked (by rw [hpc]; rfl)]
    · simp only [goto_fields, State.push, List.map_cons, List.nodup_cons, List.mem_map, not_exists,
        not_and]
      exact ⟨fun e he => ho e he, hs.owners⟩
    · intro e he hep
      rcases List.mem_cons.mp he with rfl | he
      · exact hi
      · exact absurd hep (ho e he)
    · intro e he hep
      exact (List.mem_cons.mp he).resolve_left fun h => hep (by rw [h])
    · simp [Pc.detached]
  | popHead c e queue hpc hq =>
    have ho : s.Off p := hoff (by rw [hpc]; rfl)
    have hsub : ∀ x ∈ queue, x ∈ s.queue := fun x hx => by simp [hq, hx]
    have howners := hs.owners
    rw [hq, List.map_cons, List.nodup_cons] at howners
    refine hs.move (p := p) (fun q hq => by simp [hq]) ?_ (fun _ _ => Iff.rfl) le_rfl
      (fun _ _ => rfl) (fun _ _ => rfl) (fun _ hi => .inl hi) (hs.node_parker p) howners.2
      (fun x hx hxp => absurd hxp (ho x (hsub x hx))) (fun x hx _ => hsub x hx)
      fun _ x hx => ho x (hsub x hx)
    simp [Pc.inSection, hlocked (by rw [hpc]; rfl)]
  | wake c e hpc =>
    exact hs.jump (p := p) (c := .popHead c) (by simp) (by simp) (by simp) (by simp) (by simp)
      (by simp) (by rw [hpc]; rfl) fun _ => hoff (by rw [hpc]; rfl)
  | unlockList c shouldSleep hpc =>
    have hl := hlocked (by rw [hpc]; rfl)
    cases c with
    | poll cx =>
      exact hs.relock (p := p) (c := .out) rfl rfl (.inr ⟨hl, rfl, rfl⟩) rfl rfl rfl (by rintro ⟨⟩)
    | wait =>
      cases shouldSleep with
      | true =>
        exact hs.relock (p := p) (c := .park) rfl rfl (.inr ⟨hl, rfl, rfl⟩) rfl rfl rfl
          (by rintro ⟨⟩)
      | false =>
        exact hs.relock (p := p) (c := .dropNode (.returns true)) rfl rfl (.inr ⟨hl, rfl, rfl⟩)
          rfl rfl rfl fun _ => hoff (by rw [hpc]; rfl)
  | dropLinked k hpc hon =>
    exact hs.jump (p := p) rfl rfl rfl rfl rfl rfl (by rw [hpc]; rfl)
      fun hc => hoff (by rw [hpc]; exact hc)
  | dropOff k hpc hoff =>
    exact hs.finish s.lock (.inl rfl) (houtside (by rw [hpc]; rfl)) (hs.off_of_isOnList hoff) k
  | removeNode k hpc =>
    have hl := hlocked (by rw [hpc]; rfl)
    refine hs.move (p := p) (fun q hq => by simp [hq]) (by simp [Pc.inSection, hl])
      (fun _ _ => Iff.rfl) le_rfl (fun _ _ => rfl) (fun _ _ => rfl) (fun _ hi => .inl hi)
      (hs.node_parker p) (hs.owners.sublist (List.filter_sublist.map _)) ?_
      (fun e he _ => List.mem_of_mem_filter he) fun _ => hs.remove_off
    rintro e he rfl
    exact hs.linked e (List.mem_of_mem_filter he)
  | unlockDrop k hpc =>
    exact hs.finish none (.inr ⟨hlocked (by rw [hpc]; rfl), rfl⟩) (by rintro ⟨⟩)
      (hoff (by rw [hpc]; rfl)) k

omit [DecidableEq P] in
theorem wellFormed_init : WellFormed (init : State P) := by
  constructor <;> simp [init, Pc.inSection, Pc.detached]

theorem reach_wellFormed {target : Nat} {ok : State P → P × Act → Prop} {s : State P}
    (h : Reach (step target) ok init s) : WellFormed s :=
  h.invariant wellFormed_init fun _ _ _ hs _ h => step_wellFormed hs h

end Colock.Barrier
