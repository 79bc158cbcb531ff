import Colock.Barrier.WellFormed
import Mathlib.Data.List.Nodup

/-! What becomes of the entries of a barrier. A ledger is kept beside the state: which entries
were pushed, which ones a release popped, which ones their owners took out, and which calls
were told to be the leader. -/
namespace Colock.Barrier
open Transition
variable {P : Type*} [DecidableEq P]

inductive Event (P : Type*)
  | quiet
  | arrives (e : Entry P)
  | pops (e : Entry P)
  | leads (p : P)
  | withdraws (p : P) (k : Leave) (es : List (Entry P))

def eventOf (s : State P) : P × Act → Event P
  | (p, .next) =>
    match s.pc p with
    | .pushHead c => (s.node p).elim .quiet fun i => .arrives ⟨i, p, c.waker p i⟩
    | .popHead _ => s.queue.head?.elim (.leads p) .pops
    | .removeNode k => .withdraws p k (s.queue.filter fun e => s.node p == some e.id)
    | _ => .quiet
  | _ => .quiet

/-- `popping` holds what the release in progress has popped, and `released` the leader and the
entries of each release that found the queue empty; the latest come first. -/
structure Ledger (P : Type*) where
  pushed : List (Entry P)
  popping : List (Entry P)
  released : List (P × List (Entry P))
  removed : List (P × Leave × Entry P)
  leaders : List P

def blank : Ledger P := ⟨[], [], [], [], []⟩

def Ledger.note (h : Ledger P) : Event P → Ledger P
  | .quiet => h
  | .arrives e => { h with pushed := e :: h.pushed }
  | .pops e => { h with popping := e :: h.popping }
  | .leads p => { h with popping := [], released := (p, h.popping) :: h.released }
  | .withdraws p k es => { h with removed := es.map (fun e => (p, k, e)) ++ h.removed }

def noteLeader (target : Nat) (s : State P) (l : P × Act) (leaders : List P) : List P :=
  (step target s l).elim leaders fun t =>
    if Answers s t l.1 true then l.1 :: leaders else leaders

def keep (target : Nat) (s : State P) (l : P × Act) (h : Ledger P) : Ledger P :=
  { h.note (eventOf s l) with leaders := noteLeader target s l h.leaders }

def Ledger.popped (h : Ledger P) : List (Entry P) :=
  h.popping ++ h.released.flatMap Prod.snd

def Ledger.withdrawn (h : Ledger P) : List (Entry P) :=
  h.removed.map fun r => r.2.2

def Ledger.arrivals (h : Ledger P) : Nat := h.pushed.length + h.released.length

def Event.Moves : Event P → List (Entry P) → List (Entry P) → Prop
  | .quiet, queue, queue' => queue' = queue
  | .arrives e, queue, queue' => queue' = e :: queue
  | .pops e, queue, queue' => queue = e :: queue'
  | .leads _, queue, queue' => queue = [] ∧ queue' = []
  | .withdraws _ _ es, queue, queue' => queue.Perm (es ++ queue')

theorem step_moves {target : Nat} {s t : State P} {p : P} {a : Act}
    (h : step target s (p, a) = some t) : (eventOf s (p, a)).Moves s.queue t.queue := by
  cases step_cases h with
  | removeNode k hpc =>
    simp only [eventOf, hpc, Event.Moves, goto_fields, State.remove, bne]
    exact (List.filter_append_perm _ _).symm
  | pushHead c i hpc hnode => simp [eventOf, hpc, hnode, Event.Moves, State.push]
  | emptied c hpc hq | popHead c e queue hpc hq => simp [eventOf, hpc, hq, Event.Moves]
  | unlockList c b hpc => cases c <;> simp [eventOf, hpc, Event.Moves, State.release]
  | free a => cases a <;> simp_all [eventOf, Event.Moves]
  | wait | poll | dropFuture => simp [eventOf, Event.Moves]
  | _ => simp [eventOf, *, Event.Moves]

/-- Every entry that was pushed is in exactly one place: popped, taken out or queued. -/
def Balanced (queue : List (Entry P)) (h : Ledger P) : Prop :=
  h.pushed.Perm (h.popped ++ h.withdrawn ++ queue)

omit [DecidableEq P] in
theorem Balanced.note {queue queue' : List (Entry P)} {h : Ledger P} {x : Event P}
    (hb : Balanced queue h) (hx : x.Moves queue queue') : Balanced queue' (h.note x) := by
  unfold Balanced at hb ⊢
  cases x with
  | quiet =>
    cases hx
    exact hb
  | arrives e =>
    cases hx
    exact (hb.cons e).trans List.perm_middle.symm
  | pops e =>
    cases hx
    exact hb.trans List.perm_middle
  | leads p =>
    obtain ⟨rfl, rfl⟩ := hx
    exact hb
  | withdraws p k es =>
    have hw : (h.note (.withdraws p k es)).withdrawn = es ++ h.withdrawn := by
      simp [Ledger.note, Ledger.withdrawn, Function.comp_def]
    have hswap : (h.withdrawn ++ (es ++ queue')).Perm (es ++ h.withdrawn ++ queue') := by
      simpa only [List.append_assoc] using List.perm_append_comm.append_right queue'
    rw [hw, List.append_assoc]
    rw [List.append_assoc] at hb
    exact hb.trans (((hx.append_left _).trans hswap).append_left _)

omit [DecidableEq P] in
theorem Ledger.note_popped (h : Ledger P) (x : Event P) {e : Entry P} (he : e ∈ h.popped) :
    e ∈ (h.note x).popped := by
  cases x <;> simp_all [Ledger.note, Ledger.popped]

def Pc.arriving : Pc P → Bool
  | .lockList _ | .count _ | .pushHead _ => true
  | _ => false

structure Numbered (s : State P) (h : Ledger P) : Prop where
  lt : ∀ e ∈ h.pushed, e.id < s.fresh
  nodup : (h.pushed.map Entry.id).Nodup
  new : ∀ p i, (s.pc p).arriving = true → s.parker p = some i → ∀ e ∈ h.pushed, e.id ≠ i

theorem step_fresh {target : Nat} {s t : State P} {p : P} {a : Act}
    (h : step target s (p, a) = some t) : s.fresh ≤ t.fresh := by
  cases step_cases h with
  | newParker c => exact Nat.le_succ _
  | unlockList c b => cases c <;> exact le_rfl
  | _ => simp

theorem step_arriving {target : Nat} {s t : State P} {p : P} {a : Act}
    (h : step target s (p, a) = some t) (ht : (t.pc p).arriving = true) :
    (s.pc p).arriving = true ∧ t.parker p = s.parker p ∧ (∀ e, eventOf s (p, a) ≠ .arrives e) ∨
      t.parker p = some s.fresh := by
  cases step_cases h with
  | newParker c => exact .inr (by simp [State.newParker])
  | lockList c hpc | room c hpc => exact .inl (by simp [hpc, eventOf, Pc.arriving])
  | unlockList c b => cases c <;> cases b <;> simp [State.release, Pc.arriving] at ht
  | dropOff k | unlockDrop k => cases k <;> simp [State.finish, Pc.arriving] at ht
  | _ => simp [Pc.arriving] at ht

omit [DecidableEq P] in
theorem eventOf_arrives {s : State P} {p : P} {a : Act} {e : Entry P}
    (h : eventOf s (p, a) = .arrives e) : ∃ c i,
      a = .next ∧ s.pc p = .pushHead c ∧ s.node p = some i ∧ e = ⟨i, p, c.waker p i⟩ := by
  cases a with
  | next =>
    cases hpc : s.pc p with
    | pushHead c =>
      cases hn : s.node p with
      | none => simp [eventOf, hpc, hn] at h
      | some i =>
        simp only [eventOf, hpc, hn, Option.elim_some, Event.arrives.injEq] at h
        exact ⟨c, i, rfl, rfl, rfl, h.symm⟩
    | popHead c => cases hq : s.queue.head? <;> simp [eventOf, hpc, hq] at h
    | _ => simp [eventOf, hpc] at h
  | _ => simp [eventOf] at h

omit [DecidableEq P] in
theorem Ledger.mem_note {h : Ledger P} {x : Event P} {e : Entry P}
    (he : e ∈ (h.note x).pushed) : e ∈ h.pushed ∨ x = .arrives e := by
  cases x with
  | arrives e' =>
    rcases List.mem_cons.mp he with rfl | hold
    · exact .inr rfl
    · exact .inl hold
  | _ => exact .inl he

theorem Numbered.step {target : Nat} {s t : State P} {h : Ledger P} {p : P} {a : Act}
    (hn : Numbered s h) (hs : WellFormed s) (hstep : step target s (p, a) = some t) :
    Numbered t (h.note (eventOf s (p, a))) := by
  have pushed : ∀ e, eventOf s (p, a) = .arrives e →
      (s.pc p).arriving = true ∧ s.parker p = some e.id := by
    intro e he
    obtain ⟨c, i, -, hpc, hnode, rfl⟩ := eventOf_arrives he
    exact ⟨by rw [hpc]; rfl, hs.node_parker p i hnode⟩
  have hlt : ∀ e ∈ (h.note (eventOf s (p, a))).pushed, e.id < s.fresh := by
    intro e he
    rcases Ledger.mem_note he with hold | hnew
    · exact hn.lt e hold
    · exact hs.parker_lt p e.id (pushed e hnew).2
  constructor
  · exact fun e he => (hlt e he).trans_le (step_fresh hstep)
  · cases hx : eventOf s (p, a) with
    | arrives e =>
      simp only [Ledger.note, List.map_cons, List.nodup_cons, List.mem_map, not_exists, not_and]
      exact ⟨hn.new p e.id (pushed e hx).1 (pushed e hx).2, hn.nodup⟩
    | _ => exact hn.nodup
  · intro q i hq hi e he heq
    by_cases hqp : q = p
    · subst q
      rcases step_arriving hstep hq with ⟨hold, hparker, hno⟩ | hfresh
      · rw [hparker] at hi
        exact hn.new p i hold hi e ((Ledger.mem_note he).resolve_right (hno e)) heq
      · have hlt := hlt e he
        rw [hfresh] at hi
        cases hi
        omega
    · obtain ⟨hpc, hparker⟩ := step_others hstep hqp
      rw [hpc] at hq
      rw [hparker] at hi
      rcases Ledger.mem_note he with hold | hnew
      · exact hn.new q i hq hi e hold heq
      · exact hqp (hs.parker_inj q p i hi (heq ▸ (pushed e hnew).2))

inductive Stage
  | other
  | pushes
  | releases
  | emptied
  deriving DecidableEq

def Pc.stage : Pc P → Stage
  | .pushHead _ => .pushes
  | .popHead _ | .wake _ _ => .releases
  | .unlockList _ false => .emptied
  | _ => .other

/-- The queue never grows past `target - 1`, and a release empties it. -/
structure Sized (target : Nat) (s : State P) (h : Ledger P) : Prop where
  bound : h.popping.length + s.queue.length ≤ target - 1
  full : ∀ p, (s.pc p).stage = .releases → h.popping.length + s.queue.length = target - 1
  room : ∀ p, (s.pc p).stage = .pushes → h.popping.length + s.queue.length < target - 1
  emptied : ∀ p, (s.pc p).stage = .emptied → s.queue = []
  settled : (∀ p, (s.pc p).stage ≠ .releases) → h.popping = []
  released : ∀ r ∈ h.released, r.2.length = target - 1

omit [DecidableEq P] in
theorem Pc.inSection_of_stage {c : Pc P} (h : c.stage ≠ .other) : c.inSection = true := by
  cases c <;> simp_all [Pc.stage, Pc.inSection]

omit [DecidableEq P] in
theorem WellFormed.stage_other {s : State P} {p q : P} (hs : WellFormed s)
    (hp : (s.pc p).inSection = true) (hq : q ≠ p) : (s.pc q).stage = .other := by
  by_contra hc
  exact hq (hs.alone (Pc.inSection_of_stage hc) hp)

omit [DecidableEq P] in
theorem Sized.quiet {target : Nat} {s t : State P} {h : Ledger P} {p : P}
    (hz : Sized target s h) (hqueue : t.queue = s.queue) (hpc : ∀ q, q ≠ p → t.pc q = s.pc q)
    (hs : (s.pc p).stage ≠ .releases) (ht : (t.pc p).stage = .other) : Sized target t h := by
  have old : ∀ q x, x ≠ .other → (t.pc q).stage = x → (s.pc q).stage = x := by
    intro q x hx hq
    by_cases hqp : q = p
    · exact absurd (hq.symm.trans (hqp ▸ ht)) hx
    · exact hpc q hqp ▸ hq
  constructor
  · exact hqueue ▸ hz.bound
  · exact fun q hq => hqueue ▸ hz.full q (old q _ (by rintro ⟨⟩) hq)
  · exact fun q hq => hqueue ▸ hz.room q (old q _ (by rintro ⟨⟩) hq)
  · exact fun q hq => hqueue ▸ hz.emptied q (old q _ (by rintro ⟨⟩) hq)
  · intro hall
    refine hz.settled fun q => ?_
    by_cases hqp : q = p
    · exact hqp ▸ hs
    · exact hpc q hqp ▸ hall q
  · exact hz.released

omit [DecidableEq P] in
theorem Sized.section {target : Nat} {t : State P} {h : Ledger P} {p : P}
    (hother : ∀ q, q ≠ p → (t.pc q).stage = .other)
    (hbound : h.popping.length + t.queue.length ≤ target - 1)
    (hfull : (t.pc p).stage = .releases → h.popping.length + t.queue.length = target - 1)
    (hroom : (t.pc p).stage = .pushes → h.popping.length + t.queue.length < target - 1)
    (hemptied : (t.pc p).stage = .emptied → t.queue = [])
    (hsettled : (t.pc p).stage ≠ .releases → h.popping = [])
    (hreleased : ∀ r ∈ h.released, r.2.length = target - 1) : Sized target t h := by
  have self : ∀ q x, x ≠ .other → (t.pc q).stage = x → q = p := by
    intro q x hx hq
    by_contra hqp
    exact hx (hq.symm.trans (hother q hqp))
  refine ⟨hbound, fun q hq => ?_, fun q hq => ?_, fun q hq => ?_, fun hall => hsettled (hall p),
    hreleased⟩
  · exact hfull (self q _ (by rintro ⟨⟩) hq ▸ hq)
  · exact hroom (self q _ (by rintro ⟨⟩) hq ▸ hq)
  · exact hemptied (self q _ (by rintro ⟨⟩) hq ▸ hq)

theorem Sized.step {target : Nat} {s t : State P} {h : Ledger P} {p : P} {a : Act}
    (hz : Sized target s h) (hs : WellFormed s) (hstep : step target s (p, a) = some t) :
    Sized target t (h.note (eventOf s (p, a))) := by
  have hpc' : ∀ q, q ≠ p → t.pc q = s.pc q := fun q hq => (step_others hstep hq).1
  have hother : (s.pc p).inSection = true → ∀ q, q ≠ p → (t.pc q).stage = .other :=
    fun hp q hq => (hpc' q hq).symm ▸ hs.stage_other hp hq
  have hsettled : (s.pc p).inSection = true → (s.pc p).stage ≠ .releases → h.popping = [] := by
    intro hp hstage
    refine hz.settled fun q => ?_
    by_cases hq : q = p
    · exact hq ▸ hstage
    · simp [hs.stage_other hp hq]
  cases step_cases hstep with
  | full c hpc hlen =>
    have hin : (s.pc p).inSection = true := by rw [hpc]; rfl
    have hnil := hsettled hin (by simp [hpc, Pc.stage])
    simp only [eventOf, hpc, Ledger.note]
    exact .section (hother hin) hz.bound (by simp [hnil, hlen]) (by simp [Pc.stage])
      (by simp [Pc.stage]) (fun _ => hnil) hz.released
  | room c hpc hlen =>
    have hin : (s.pc p).inSection = true := by rw [hpc]; rfl
    have hnil := hsettled hin (by simp [hpc, Pc.stage])
    have hbound := hz.bound
    simp only [eventOf, hpc, Ledger.note]
    refine .section (hother hin) hbound (by simp [Pc.stage]) ?_ (by simp [Pc.stage])
      (fun _ => hnil) hz.released
    intro _
    simp only [hnil, List.length_nil, goto_fields] at hbound ⊢
    omega
  | pushHead c i hpc hnode =>
    have hin : (s.pc p).inSection = true := by rw [hpc]; rfl
    have hnil := hsettled hin (by simp [hpc, Pc.stage])
    have hroom := hz.room p (by rw [hpc]; rfl)
    simp only [eventOf, hpc, hnode]
    refine .section (hother hin) ?_ (by simp [Pc.stage]) (by simp [Pc.stage]) (by simp [Pc.stage])
      (fun _ => hnil) hz.released
    simp only [Option.elim_some, Ledger.note, goto_fields, State.push, List.length_cons]
    omega
  | popHead c e queue hpc hq =>
    have hin : (s.pc p).inSection = true := by rw [hpc]; rfl
    have hfull := hz.full p (by rw [hpc]; rfl)
    simp only [eventOf, hpc, hq]
    have hlen : (e :: h.popping).length + queue.length = target - 1 := by
      simp only [hq, List.length_cons] at hfull ⊢
      omega
    exact .section (hother hin) hlen.le (fun _ => hlen) (by simp [Pc.stage]) (by simp [Pc.stage])
      (by simp [Pc.stage]) hz.released
  | emptied c hpc hq =>
    have hin : (s.pc p).inSection = true := by rw [hpc]; rfl
    have hfull := hz.full p (by rw [hpc]; rfl)
    simp only [eventOf, hpc, hq]
    refine .section (hother hin) (by simp [Ledger.note, hq]) (by simp [Pc.stage])
      (by simp [Pc.stage]) (fun _ => hq) (fun _ => rfl) ?_
    intro r hr
    rcases List.mem_cons.mp hr with rfl | hr
    · simpa [hq] using hfull
    · exact hz.released r hr
  | wake c e hpc =>
    have hin : (s.pc p).inSection = true := by rw [hpc]; rfl
    have hfull := hz.full p (by rw [hpc]; rfl)
    simp only [eventOf, hpc, Ledger.note]
    exact .section (hother hin) (by simpa using hz.bound) (fun _ => by simpa using hfull)
      (by simp [Pc.stage]) (by simp [Pc.stage]) (by simp [Pc.stage]) hz.released
  | removeNode k hpc =>
    have hin : (s.pc p).inSection = true := by rw [hpc]; rfl
    have hnil := hsettled hin (by simp [hpc, Pc.stage])
    have hlen : (s.remove p).queue.length ≤ s.queue.length := List.length_filter_le _ _
    have hbound := hz.bound
    simp only [eventOf, hpc, Ledger.note]
    refine .section (hother hin) ?_ (by simp [Pc.stage]) (by simp [Pc.stage]) (by simp [Pc.stage])
      (fun _ => hnil) hz.released
    simp only [goto_fields]
    omega
  | free a h0 hpc =>
    have hquiet : eventOf s (p, a) = .quiet := by cases a <;> simp [eventOf, hpc]
    rw [hquiet]
    exact hz.quiet rfl hpc' (by simp [hpc, Pc.stage]) (by simp [Pc.stage])
  | unlockList c b hpc =>
    simp only [eventOf, hpc, Ledger.note]
    refine hz.quiet (by cases c <;> rfl) hpc' (by cases b <;> simp [hpc, Pc.stage]) ?_
    cases c <;> cases b <;> simp [State.release, Pc.stage]
  | dropOff k hpc =>
    simp only [eventOf, hpc, Ledger.note]
    exact hz.quiet (by simp) hpc' (by simp [hpc, Pc.stage])
      (by cases k <;> simp [State.finish, Pc.stage])
  | unlockDrop k hpc =>
    simp only [eventOf, hpc, Ledger.note]
    exact hz.quiet (by simp) hpc' (by simp [hpc, Pc.stage])
      (by cases k <;> simp [State.finish, Pc.stage])
  | wait h0 hpc | poll cx h0 hpc | dropFuture hpc =>
    exact hz.quiet rfl hpc' (by simp [hpc, Pc.stage]) (by simp [Pc.stage])
  | ready cx hpc | renew cx hpc | newParker c hpc | lockList c hpc | park i hpc
  | dropLinked k hpc | lockDrop k hpc =>
    simp only [eventOf, hpc, Ledger.note]
    exact hz.quiet rfl hpc' (by simp [hpc, Pc.stage]) (by simp [Pc.stage])

end Colock.Barrier
