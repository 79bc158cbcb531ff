import Colock.Barrier.WellFormed
import Colock.RawMutex.HeldWaker

/-! A leader of `Barrier` calls the wakers it pops while it holds the list lock. A future
that finds its node off the list does not wait for that lock, and may replace or drop the
parker that a popped waker points to. -/
namespace Colock.Barrier
open Transition
variable {P : Type*} [DecidableEq P]

def Pc.carries : Pc P → Option (Entry P)
  | .wake _ e => some e
  | _ => none

def Leave.isReturn : Leave → Bool
  | .returns _ => true
  | _ => false

def Pc.unlinked : Pc P → Bool
  | .newParker _ | .unlockDrop _ => true
  | _ => false

/-- The party's node has not been pushed yet, or its wait is over: it has neither an entry
nor a waker on its way. -/
def Pc.settled : Pc P → Bool
  | .lockList _ | .count _ | .pushHead _ | .popHead _ | .wake _ _ | .unlockList _ false => true
  | .dropNode k | .lockDrop k | .removeNode k => k.isReturn
  | _ => false

def Pc.unpushed : Pc P → Bool
  | .lockList _ | .count _ | .pushHead _ => true
  | _ => false

def State.Unheld (s : State P) (p : P) : Prop :=
  ∀ q, ∀ e ∈ (s.pc q).carries, e.owner ≠ p

/-- Every waker on its way to be called was built from the parker that its wait still uses. -/
def State.WakersLive (s : State P) : Prop :=
  ∀ q, ∀ e ∈ (s.pc q).carries, s.parker e.owner = e.data.parker

def Leave.endsWait : Leave → Bool
  | .renew _ => false
  | _ => true

/-- The next step of the party replaces its parker or drops it. -/
def State.dropsParker (s : State P) (p : P) : Bool :=
  match s.pc p with
  | .newParker _ => true
  | .dropNode k => k.endsWait && !s.isOnList p
  | .unlockDrop k => k.endsWait
  | _ => false

/-- No parker is replaced or dropped while a leader holds a waker for it. -/
def KeepsParker (s : State P) : P × Act → Prop
  | (p, .next) => s.dropsParker p = true → s.Unheld p
  | _ => True

/-- The entry was made with the parker and the node that its owner still has, and its waker
has not been called. -/
structure State.Linked (s : State P) (e : Entry P) : Prop where
  parker : s.parker e.owner = some e.id
  data : e.data.parker = some e.id
  flag : s.flag e.id = false

structure Live (s : State P) : Prop where
  inside : ∀ p, (s.pc p).inSection = true ↔ s.lock = some p
  parker_lt : ∀ p i, s.parker p = some i → i < s.fresh
  parker_inj : ∀ p q i, s.parker p = some i → s.parker q = some i → p = q
  node_parker : ∀ p i, s.node p = some i → s.parker p = some i
  owners : (s.queue.map Entry.owner).Nodup
  node : ∀ e ∈ s.queue, s.node e.owner = some e.id
  linked : ∀ e ∈ s.queue, s.Linked e
  held : ∀ q, ∀ e ∈ (s.pc q).carries, s.Linked e ∧ s.Off e.owner
  unlinked : ∀ p, (s.pc p).unlinked = true → s.Off p
  settled : ∀ p, (s.pc p).settled = true → s.Off p ∧ s.Unheld p
  unused : ∀ p i, (s.pc p).unpushed = true → s.parker p = some i → s.flag i = false

omit [DecidableEq P] in
theorem Live.wakersLive {s : State P} (hs : Live s) : s.WakersLive := fun q e he =>
  (hs.held q e he).1.parker.trans (hs.held q e he).1.data.symm

omit [DecidableEq P] in
theorem inSection_of_carries {c : Pc P} {e : Entry P} (h : e ∈ c.carries) :
    c.inSection = true := by
  cases c <;> simp_all [Pc.carries, Pc.inSection]

omit [DecidableEq P] in
theorem Live.carries_alone {s : State P} {p q : P} {e : Entry P} (hs : Live s)
    (hp : (s.pc p).inSection = true) (hq : e ∈ (s.pc q).carries) : q = p :=
  Option.some.inj (((hs.inside q).mp (inSection_of_carries hq)).symm.trans ((hs.inside p).mp hp))

omit [DecidableEq P] in
theorem detached_cases {c : Pc P} (h : c.detached = true) :
    c.unlinked = true ∨ c.settled = true := by
  cases c with
  | dropNode k | lockDrop k | removeNode k =>
    cases k <;> simp_all [Pc.detached, Leave.leads, Pc.settled, Leave.isReturn]
  | unlockList c shouldSleep => cases shouldSleep <;> simp_all [Pc.detached, Pc.settled]
  | _ => simp_all [Pc.detached, Pc.unlinked, Pc.settled]

omit [DecidableEq P] in
theorem Live.wellFormed {s : State P} (hs : Live s) : WellFormed s where
  inside := hs.inside
  parker_lt := hs.parker_lt
  parker_inj := hs.parker_inj
  node_parker := hs.node_parker
  owners := hs.owners
  linked := hs.node
  off p hp := (detached_cases hp).elim (hs.unlinked p) fun h => (hs.settled p h).1

omit [DecidableEq P] in
theorem WellFormed.live {s : State P} (h : WellFormed s) (linked : ∀ e ∈ s.queue, s.Linked e)
    (held : ∀ q, ∀ e ∈ (s.pc q).carries, s.Linked e ∧ s.Off e.owner)
    (unlinked : ∀ p, (s.pc p).unlinked = true → s.Off p)
    (settled : ∀ p, (s.pc p).settled = true → s.Off p ∧ s.Unheld p)
    (unused : ∀ p i, (s.pc p).unpushed = true → s.parker p = some i → s.flag i = false) : Live s :=
  ⟨h.inside, h.parker_lt, h.parker_inj, h.node_parker, h.owners, h.linked, linked, held, unlinked,
    settled, unused⟩

omit [DecidableEq P] in
/-- Steps of `p` that queue nobody, pop nobody and signal nobody; its own parker stays, or
nobody points to it. -/
theorem Live.move {s t : State P} {p : P} (hs : Live s) (hwf : WellFormed t)
    (hpc : ∀ q, q ≠ p → t.pc q = s.pc q) (hparker : ∀ q, q ≠ p → t.parker q = s.parker q)
    (hflag : ∀ i, i < s.fresh → t.flag i = s.flag i) (hqueue : ∀ e ∈ t.queue, e ∈ s.queue)
    (hcarries : (t.pc p).carries = none)
    (hown : t.parker p = s.parker p ∨ s.Off p ∧ s.Unheld p)
    (hunlinked : (t.pc p).unlinked = true → t.Off p)
    (hsettled : (t.pc p).settled = true → t.Off p ∧ s.Unheld p)
    (hunused : (t.pc p).unpushed = true → ∀ i, t.parker p = some i → t.flag i = false) :
    Live t := by
  have hheld : ∀ q, ∀ e ∈ (t.pc q).carries, e ∈ (s.pc q).carries := by
    intro q e he
    by_cases h : q = p
    · subst q; simp [hcarries] at he
    · rwa [hpc q h] at he
  have hoff : ∀ q, s.Off q → t.Off q := fun q ho e he => ho e (hqueue e he)
  have hunheld : ∀ q, s.Unheld q → t.Unheld q := fun q hu r e he => hu r e (hheld r e he)
  have hlinked : ∀ e, s.Linked e → (e.owner = p → t.parker p = s.parker p) → t.Linked e := by
    intro e he hsame
    refine ⟨?_, he.data, (hflag _ (hs.parker_lt _ _ he.parker)).trans he.flag⟩
    by_cases h : e.owner = p
    · rw [h, hsame h, ← h, he.parker]
    · rw [hparker _ h, he.parker]
  refine hwf.live (fun e he => ?_) (fun q e he => ?_) (fun q hq => ?_) (fun q hq => ?_) ?_
  · exact hlinked e (hs.linked e (hqueue e he)) fun hep =>
      hown.resolve_right fun h => h.1 e (hqueue e he) hep
  · obtain ⟨hold, hoff'⟩ := hs.held q e (hheld q e he)
    exact ⟨hlinked e hold fun hep => hown.resolve_right fun h => h.2 q e (hheld q e he) hep,
      hoff _ hoff'⟩
  · by_cases h : q = p
    · subst q; exact hunlinked hq
    · rw [hpc q h] at hq
      exact hoff q (hs.unlinked q hq)
  · by_cases h : q = p
    · subst q
      exact ⟨(hsettled hq).1, hunheld _ (hsettled hq).2⟩
    · rw [hpc q h] at hq
      exact ⟨hoff q (hs.settled q hq).1, hunheld q (hs.settled q hq).2⟩
  · intro q i hq hi
    by_cases h : q = p
    · subst q; exact hunused hq i hi
    · rw [hpc q h] at hq
      rw [hparker q h] at hi
      rw [hflag i (hs.parker_lt q i hi)]
      exact hs.unused q i hq hi

theorem Live.goto {s t : State P} {p : P} {c : Pc P} (hs : Live s) (hwf : WellFormed t)
    (hpc : t.pc = Function.update s.pc p c) (hparker : t.parker = s.parker)
    (hflag : t.flag = s.flag) (hqueue : ∀ e ∈ t.queue, e ∈ s.queue) (hcarries : c.carries = none)
    (hunlinked : c.unlinked = true → t.Off p)
    (hsettled : c.settled = true → t.Off p ∧ s.Unheld p)
    (hunused : c.unpushed = true → (s.pc p).unpushed = true) : Live t := by
  have hp : t.pc p = c := by simp [hpc]
  refine hs.move (p := p) hwf (fun q hq => by simp [hpc, hq]) (by simp [hparker]) (by simp [hflag])
    hqueue (hp ▸ hcarries) (.inl (by rw [hparker])) (hp ▸ hunlinked) (hp ▸ hsettled) ?_
  rw [hp, hparker, hflag]
  exact fun hc i hi => hs.unused p i (hunused hc) hi

theorem Live.finish {s : State P} {p : P} {k : Leave} (hs : Live s) (lock : Option P)
    (hwf : WellFormed ({ s with lock := lock }.finish p k)) (ho : s.Off p)
    (hu : k.endsWait = true → s.Unheld p) : Live ({ s with lock := lock }.finish p k) := by
  have hoff : State.Off (State.finish { s with lock := lock } p k) p :=
    fun e he => ho e (by simpa using he)
  refine hs.move (p := p) hwf (fun q hq => (finish_others _ p k q hq).1)
    (fun q hq => (finish_others _ p k q hq).2) (fun i _ => by simp) (fun e he => by simpa using he)
    (by cases k <;> simp [State.finish, Pc.carries]) ?_ (fun _ => hoff) (fun h => ⟨hoff, ?_⟩) ?_
  · cases k with
    | renew cx => exact .inl rfl
    | returns leader | future => exact .inr ⟨ho, hu rfl⟩
  · cases k with
    | renew cx => simp [State.finish, Pc.settled] at h
    | returns leader | future => exact hu rfl
  · cases k <;> simp [State.finish, Pc.unpushed]

theorem Live.newParker {s : State P} {p : P} (hs : Live s) (c : Call)
    (hwf : WellFormed ((s.newParker p).goto p (.lockList c))) (ho : s.Off p) (hu : s.Unheld p) :
    Live ((s.newParker p).goto p (.lockList c)) := by
  refine hs.move (p := p) hwf (fun q hq => by simp [hq]) (fun q hq => by simp [State.newParker, hq])
    (fun i hi => by simp [State.newParker, hi.ne]) (fun _ he => he) (by simp [Pc.carries])
    (.inr ⟨ho, hu⟩) (fun _ => ho) (fun _ => ⟨ho, hu⟩) fun _ i hi => ?_
  have hi : s.fresh = i := by simpa [State.newParker] using hi
  simp [State.newParker, hi]

theorem Live.push {s : State P} {p : P} {c : Call} {i : Nat} (hs : Live s)
    (hwf : WellFormed ((s.push p i c).goto p (.unlockList c true)))
    (hpc : s.pc p = .pushHead c) (hn : s.node p = some i) :
    Live ((s.push p i c).goto p (.unlockList c true)) := by
  obtain ⟨ho, hu⟩ := hs.settled p (by rw [hpc]; rfl)
  have hpi := hs.node_parker p i hn
  have hf := hs.unused p i (by rw [hpc]; rfl) hpi
  have hother : ∀ q, q ≠ p → ((s.push p i c).goto p (.unlockList c true)).pc q = s.pc q :=
    fun q hq => by simp [hq]
  have hheld : ∀ q, ∀ e ∈ (((s.push p i c).goto p (.unlockList c true)).pc q).carries,
      e ∈ (s.pc q).carries := by
    intro q e he
    by_cases h : q = p
    · subst q; simp [Pc.carries] at he
    · rwa [hother q h] at he
  have hoff : ∀ q, q ≠ p → s.Off q → ((s.push p i c).goto p (.unlockList c true)).Off q := by
    intro q hq h e he
    rcases List.mem_cons.mp he with rfl | he
    · exact Ne.symm hq
    · exact h e he
  refine hwf.live (fun e he => ?_) (fun q e he => ?_) (fun q hq => ?_) (fun q hq => ?_) ?_
  · rcases List.mem_cons.mp he with rfl | he
    · exact ⟨hpi, by cases c <;> rfl, hf⟩
    · exact ⟨(hs.linked e he).parker, (hs.linked e he).data, (hs.linked e he).flag⟩
  · have he := hheld q e he
    obtain ⟨hold, hold'⟩ := hs.held q e he
    exact ⟨⟨hold.parker, hold.data, hold.flag⟩, hoff _ (hu q e he) hold'⟩
  · by_cases h : q = p
    · subst q; simp [Pc.unlinked] at hq
    · rw [hother q h] at hq
      exact hoff q h (hs.unlinked q hq)
  · by_cases h : q = p
    · subst q; simp [Pc.settled] at hq
    · rw [hother q h] at hq
      obtain ⟨hq, hu⟩ := hs.settled q hq
      exact ⟨hoff q h hq, fun r e he => hu r e (hheld r e he)⟩
  · intro q j hq hj
    by_cases h : q = p
    · subst q; simp [Pc.unpushed] at hq
    · rw [hother q h] at hq
      exact hs.unused q j hq hj

theorem Live.pop {s : State P} {p : P} {c : Call} {e : Entry P} {queue : List (Entry P)}
    (hs : Live s) (hwf : WellFormed ({ s with queue := queue }.goto p (.wake c e)))
    (hpc : s.pc p = .popHead c) (hq : s.queue = e :: queue) :
    Live ({ s with queue := queue }.goto p (.wake c e)) := by
  have hin : (s.pc p).inSection = true := by rw [hpc]; rfl
  obtain ⟨ho, hu⟩ := hs.settled p (by rw [hpc]; rfl)
  have hmem : e ∈ s.queue := by simp [hq]
  have hsub : ∀ x ∈ queue, x ∈ s.queue := fun x hx => by simp [hq, hx]
  have hother : ∀ q, q ≠ p → ({ s with queue := queue }.goto p (.wake c e)).pc q = s.pc q :=
    fun q hq => by simp [hq]
  have howners := hs.owners
  rw [hq, List.map_cons, List.nodup_cons] at howners
  have hheld : ∀ q, ∀ x ∈ (({ s with queue := queue }.goto p (.wake c e)).pc q).carries,
      q = p ∧ x = e := by
    intro q x hx
    by_cases h : q = p
    · subst q
      exact ⟨rfl, by simpa [Pc.carries, eq_comm] using hx⟩
    · rw [hother q h] at hx
      exact absurd (hs.carries_alone hin hx) h
  refine hwf.live (fun x hx => ?_) (fun q x hx => ?_) (fun q hq' => ?_) (fun q hq' => ?_) ?_
  · have hold := hs.linked x (hsub x hx)
    exact ⟨hold.parker, hold.data, hold.flag⟩
  · obtain ⟨rfl, rfl⟩ := hheld q x hx
    have hold := hs.linked x hmem
    exact ⟨⟨hold.parker, hold.data, hold.flag⟩, fun y hy hyx =>
      howners.1 (hyx ▸ List.mem_map_of_mem hy)⟩
  · by_cases h : q = p
    · subst q; simp [Pc.unlinked] at hq'
    · rw [hother q h] at hq'
      exact fun x hx => hs.unlinked q hq' x (hsub x hx)
  · have hold : s.Off q := by
      by_cases h : q = p
      · exact h ▸ ho
      · rw [hother q h] at hq'
        exact (hs.settled q hq').1
    refine ⟨fun x hx => hold x (hsub x hx), fun r x hx => ?_⟩
    rw [(hheld r x hx).2]
    exact hold e hmem
  · intro q j hq' hj
    by_cases h : q = p
    · subst q; simp [Pc.unpushed] at hq'
    · rw [hother q h] at hq'
      exact hs.unused q j hq' hj

theorem Live.signal {s : State P} {p : P} {c : Call} {e : Entry P} (hs : Live s)
    (hwf : WellFormed ((s.signal e).goto p (.popHead c))) (hpc : s.pc p = .wake c e) :
    Live ((s.signal e).goto p (.popHead c)) := by
  have hin : (s.pc p).inSection = true := by rw [hpc]; rfl
  obtain ⟨hlinked, hoff⟩ := hs.held p e (by rw [hpc]; rfl)
  have hother : ∀ q, q ≠ p → ((s.signal e).goto p (.popHead c)).pc q = s.pc q :=
    fun q hq => by simp [hq]
  have hflag : ∀ i, i ≠ e.id → ((s.signal e).goto p (.popHead c)).flag i = s.flag i := by
    intro i hi
    simp [State.signal, hlinked.parker, hi]
  have hheld : ∀ q, (((s.signal e).goto p (.popHead c)).pc q).carries = none := by
    intro q
    by_cases h : q = p
    · subst q; simp [Pc.carries]
    · rw [hother q h, Option.eq_none_iff_forall_not_mem]
      exact fun x hx => h (hs.carries_alone hin hx)
  have hnone : ∀ q, ((s.signal e).goto p (.popHead c)).Unheld q := by
    intro q r x hx
    rw [hheld r] at hx
    cases hx
  refine hwf.live (fun x hx => ?_) (fun q x hx => ?_) (fun q hq => ?_) (fun q hq => ?_) ?_
  · have hx : x ∈ s.queue := by simpa using hx
    have hold := hs.linked x hx
    refine ⟨by simpa using hold.parker, hold.data, (hflag _ ?_).trans hold.flag⟩
    intro hid
    have hparker := hold.parker
    rw [hid] at hparker
    exact hoff x hx (hs.parker_inj _ _ _ hparker hlinked.parker)
  · rw [hheld q] at hx
    cases hx
  · by_cases h : q = p
    · subst q; simp [Pc.unlinked] at hq
    · rw [hother q h] at hq
      exact fun x hx => hs.unlinked q hq x (by simpa using hx)
  · have hold : s.Off q := by
      by_cases h : q = p
      · subst q; exact (hs.settled p (by rw [hpc]; rfl)).1
      · rw [hother q h] at hq
        exact (hs.settled q hq).1
    exact ⟨fun x hx => hold x (by simpa using hx), hnone q⟩
  · intro q i hq hi
    by_cases h : q = p
    · subst q; simp [Pc.unpushed] at hq
    · rw [hother q h] at hq
      have hi : s.parker q = some i := by simpa using hi
      refine (hflag i ?_).trans (hs.unused q i hq hi)
      rintro rfl
      have hsettled : (s.pc q).settled = true := by
        cases hc : s.pc q <;> simp_all [Pc.unpushed, Pc.settled]
      exact (hs.settled q hsettled).2 p e (by rw [hpc]; rfl)
        (hs.parker_inj _ _ _ hlinked.parker hi)

omit [DecidableEq P] in
theorem Live.settled_of_flag {s : State P} {p : P} {i : Nat} (hs : Live s)
    (hi : s.parker p = some i) (hf : s.flag i = true) : s.Off p ∧ s.Unheld p := by
  have woken : ∀ e, s.Linked e → e.owner ≠ p := by
    rintro e he rfl
    obtain rfl : i = e.id := Option.some.inj (hi.symm.trans he.parker)
    simp [he.flag] at hf
  exact ⟨fun e he => woken e (hs.linked e he), fun q e he => woken e (hs.held q e he).1⟩

theorem step_live {target : Nat} {s t : State P} {l : P × Act} (hs : Live s)
    (hok : KeepsParker s l) (h : step target s l = some t) : Live t := by
  have hwf := step_wellFormed hs.wellFormed h
  have hsub : ∀ e ∈ s.queue, e ∈ s.queue := fun _ he => he
  obtain ⟨p, a⟩ := l
  have hsettled : (s.pc p).settled = true → s.Off p ∧ s.Unheld p := hs.settled p
  cases step_cases h with
  | free _ h0 hpc =>
    exact hs.goto (p := p) (c := .out) hwf rfl rfl rfl hsub rfl (by rintro ⟨⟩) (by rintro ⟨⟩)
      (by rintro ⟨⟩)
  | ready cx hpc hflag =>
    exact hs.goto (p := p) (c := .out) hwf rfl rfl rfl hsub rfl (by rintro ⟨⟩) (by rintro ⟨⟩)
      (by rintro ⟨⟩)
  | wait h0 hpc hnode hparker =>
    exact hs.goto (p := p) hwf rfl rfl rfl hsub rfl (fun _ => hs.wellFormed.off_of_node hnode)
      (by rintro ⟨⟩) (by rintro ⟨⟩)
  | poll _ _ hpc | dropFuture hpc | renew _ hpc =>
    exact hs.goto (p := p) hwf rfl rfl rfl hsub rfl (by rintro ⟨⟩) (by rintro ⟨⟩) (by rintro ⟨⟩)
  | newParker c hpc =>
    exact hs.newParker c hwf (hs.unlinked p (by rw [hpc]; rfl))
      (hok (by simp [State.dropsParker, hpc]))
  | lockList c hpc hl | room c hpc =>
    exact hs.goto (p := p) hwf rfl rfl rfl hsub rfl (by rintro ⟨⟩)
      (fun _ => hsettled (by rw [hpc]; rfl)) (fun _ => by rw [hpc]; rfl)
  | full c hpc | emptied c hpc =>
    exact hs.goto (p := p) hwf rfl rfl rfl hsub rfl (by rintro ⟨⟩)
      (fun _ => hsettled (by rw [hpc]; rfl)) (by rintro ⟨⟩)
  | pushHead c i hpc hi => exact hs.push hwf hpc hi
  | popHead c e queue hpc hq => exact hs.pop hwf hpc hq
  | wake c e hpc => exact hs.signal hwf hpc
  | unlockList c shouldSleep hpc =>
    cases c with
    | poll cx =>
      exact hs.goto (p := p) (c := .out) hwf rfl rfl rfl hsub rfl (by rintro ⟨⟩) (by rintro ⟨⟩)
        (by rintro ⟨⟩)
    | wait =>
      cases shouldSleep with
      | true =>
        exact hs.goto (p := p) (c := .park) hwf rfl rfl rfl hsub rfl (by rintro ⟨⟩)
          (by rintro ⟨⟩) (by rintro ⟨⟩)
      | false =>
        exact hs.goto (p := p) (c := .dropNode (.returns true)) hwf rfl rfl rfl hsub rfl
          (by rintro ⟨⟩) (fun _ => hsettled (by rw [hpc]; rfl)) (by rintro ⟨⟩)
  | park i hpc hi hf =>
    exact hs.goto (p := p) hwf rfl rfl rfl hsub rfl (by rintro ⟨⟩)
      (fun _ => hs.settled_of_flag hi hf) (by rintro ⟨⟩)
  | dropLinked k hpc hon | lockDrop k hpc hl =>
    exact hs.goto (p := p) hwf rfl rfl rfl hsub rfl (by rintro ⟨⟩)
      (fun hk => hsettled (by rw [hpc]; exact hk)) (by rintro ⟨⟩)
  | dropOff k hpc hoff =>
    exact hs.finish s.lock hwf (hs.wellFormed.off_of_isOnList hoff)
      fun hk => hok (by simp [State.dropsParker, hpc, hk, hoff])
  | removeNode k hpc =>
    exact hs.goto (p := p) hwf rfl rfl rfl (fun e he => List.mem_of_mem_filter he) rfl
      (fun _ => hs.wellFormed.remove_off) (by rintro ⟨⟩) (by rintro ⟨⟩)
  | unlockDrop k hpc =>
    exact hs.finish none hwf (hs.unlinked p (by rw [hpc]; rfl))
      fun hk => hok (by simp [State.dropsParker, hpc, hk])

/-- A parker that is replaced or dropped under a leader that holds a waker for it leaves that
waker dangling. -/
theorem step_dangles {target : Nat} {s t : State P} {l : P × Act} (hs : Live s)
    (hno : ¬ KeepsParker s l) (h : step target s l = some t) : ¬ t.WakersLive := by
  obtain ⟨p, a⟩ := l
  cases a with
  | next =>
    simp only [KeepsParker, State.Unheld, Classical.not_imp, not_forall, not_not] at hno
    obtain ⟨hdrops, q, e, he, howner⟩ := hno
    obtain ⟨hlinked, -⟩ := hs.held q e he
    have hne : q ≠ p := by
      rintro rfl
      cases hpc : s.pc q <;> simp_all [State.dropsParker, Pc.carries]
    have hgone : t.parker p ≠ some e.id ∧ t.pc q = s.pc q := by
      have hfinish : ∀ (lock : Option P) (k : Leave), k.endsWait = true →
          (State.finish { s with lock := lock } p k).parker p ≠ some e.id := by
        intro lock k hk
        cases k <;> simp_all [Leave.endsWait, State.finish]
      simp only [step] at h
      cases hpc : s.pc p with
      | newParker c =>
        simp only [next, hpc, Option.some.injEq] at h
        subst t
        refine ⟨fun hid => ?_, by simp [hne]⟩
        have hid : s.fresh = e.id := by simpa [State.newParker] using hid
        have hlt := hs.parker_lt _ _ hlinked.parker
        omega
      | dropNode k =>
        simp only [State.dropsParker, hpc, Bool.and_eq_true, Bool.not_eq_true'] at hdrops
        simp only [next, hpc, hdrops.2, Bool.false_eq_true, if_false, Option.some.injEq] at h
        subst t
        exact ⟨hfinish s.lock k hdrops.1, (finish_others s p k q hne).1⟩
      | unlockDrop k =>
        simp only [State.dropsParker, hpc] at hdrops
        simp only [next, hpc, Option.some.injEq] at h
        subst t
        exact ⟨hfinish none k hdrops, (finish_others _ p k q hne).1⟩
      | _ => simp [State.dropsParker, hpc] at hdrops
    intro hlive
    have hparker := hlive q e (by rw [hgone.2]; exact he)
    rw [howner, hlinked.data] at hparker
    exact hgone.1 hparker
  | _ => exact absurd trivial hno

omit [DecidableEq P] in
theorem live_init : Live (init : State P) := by
  constructor <;> simp [init, Pc.inSection, Pc.carries, Pc.unlinked, Pc.settled, Pc.unpushed]

/-- No waker writes to a parker that is gone: in every run of the mutex just as long as no wait
that timed out ends while a releaser holds its waker, and in every run of a barrier just as
long as no future replaces or drops its parker while a leader holds a waker for it. -/
theorem held_wakers_live :
    (∀ (s : RawMutex.State P) (ls : List (P × RawMutex.Act)),
      run RawMutex.step RawMutex.init ls = some s →
      (Visits RawMutex.step RawMutex.State.WakersLive RawMutex.init ls ↔
        Meets RawMutex.step RawMutex.KeepsParker RawMutex.init ls)) ∧
    (∀ (target : Nat) (s : State P) (ls : List (P × Act)), run (step target) init ls = some s →
      (Visits (step target) State.WakersLive init ls ↔
        Meets (step target) KeepsParker init ls)) :=
  ⟨RawMutex.wakers_live, fun _ _ _ h =>
    visits_iff_meets (I := Live) (fun _ hs => hs.wakersLive)
      (fun _ _ _ hs _ hok h => step_live hs hok h)
      (fun _ _ _ hs _ hno h => step_dangles hs hno h) live_init (meets_any _ _) h⟩

instance [Fintype P] (s : State P) (l : P × Act) : Decidable (KeepsParker s l) :=
  match l with
  | (p, .next) =>
    inferInstanceAs (Decidable (s.dropsParker p = true →
      ∀ q, ∀ e ∈ (s.pc q).carries, e.owner ≠ p))
  | (_, .wait) | (_, .poll _) | (_, .dropFuture) => isTrue trivial

def nexts (p : P) (n : Nat) : List (P × Act) := List.replicate n (p, .next)

def wakePending (p q : P) : List (P × Act) :=
  (p, .poll 0) :: nexts p 7 ++ (q, .wait) :: nexts q 4

theorem held_wakers_live_runs :
    Visits RawMutex.step RawMutex.State.WakersLive (RawMutex.init : RawMutex.State (Fin 2))
      (RawMutex.wakeTimed 0 1 ++ RawMutex.nexts 0 1 ++ (1, .timeout) :: RawMutex.nexts 1 1) ∧
    Visits (step 2) State.WakersLive (init : State (Fin 2))
      (wakePending 0 1 ++ nexts 1 1 ++ (0, .poll 1) :: nexts 0 1) := by
  constructor
  · have hr : (run (restrict RawMutex.step RawMutex.KeepsParker) (RawMutex.init : RawMutex.State (Fin 2))
        (RawMutex.wakeTimed 0 1 ++ RawMutex.nexts 0 1 ++ (1, .timeout) :: RawMutex.nexts 1 1)).isSome =
          true := by decide
    obtain ⟨s, hs⟩ := Option.isSome_iff_exists.mp hr
    obtain ⟨hm, h⟩ := restrict_run_meets hs
    exact (held_wakers_live.1 s _ h).mpr hm
  · have hr : (run (restrict (step 2) KeepsParker) (init : State (Fin 2))
        (wakePending 0 1 ++ nexts 1 1 ++ (0, .poll 1) :: nexts 0 1)).isSome = true := by decide
    obtain ⟨s, hs⟩ := Option.isSome_iff_exists.mp hr
    obtain ⟨hm, h⟩ := restrict_run_meets hs
    exact (held_wakers_live.2 2 s _ h).mpr hm

/-- The waiter 1 times out and returns, and the future 0 replaces its parker, while the other
party is about to store to that parker. -/
theorem held_wakers_dangle :
    (¬ ∀ (s : RawMutex.State (Fin 2)) q r e n i, Reach RawMutex.step anyStep RawMutex.init s →
      s.pc q = .wake r e n → e.data.parker = some i → s.node e.owner = some i) ∧
    ¬ ∀ (s : State (Fin 2)) q c e, Reach (step 2) anyStep init s → s.pc q = .wake c e →
      s.parker e.owner = e.data.parker := by
  constructor
  · have hr : ((run RawMutex.step (RawMutex.init : RawMutex.State (Fin 2))
        (RawMutex.wakeTimed 0 1 ++ (1, .timeout) :: RawMutex.nexts 1 1)).map fun s =>
          (s.pc 0, s.node 1)) =
        some (.wake .unlock ⟨0, 1, some 0, .thread 1⟩ 0, none) := by decide
    obtain ⟨s, hs, ho⟩ := Option.map_eq_some_iff.mp hr
    simp only [Prod.mk.injEq] at ho
    intro h
    have hlive := h s 0 _ _ _ 0 (run_reach (meets_any _ _) hs) ho.1 rfl
    simp [ho.2] at hlive
  · have hr : ((run (step 2) (init : State (Fin 2)) (wakePending 0 1 ++ (0, .poll 1) :: nexts 0 3)).map fun s =>
        (s.pc 1, s.parker 0)) = some (.wake .wait ⟨0, 0, some 0, .task 0⟩, some 2) := by decide
    obtain ⟨s, hs, ho⟩ := Option.map_eq_some_iff.mp hr
    simp only [Prod.mk.injEq] at ho
    intro h
    have hlive := h s 1 _ _ (run_reach (meets_any _ _) hs) ho.1
    simp [ho.2] at hlive

end Colock.Barrier
