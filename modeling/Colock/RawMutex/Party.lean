import Colock.RawMutex.HandOffView
import Colock.RawMutex.WellFormed

/-! The parties of `RawMutex` in runs without fair hand-offs: where they may be, and what a waiter
that was popped keeps until it acquires, queues itself again or gives up. -/
namespace Colock.RawMutex
open Transition HandOff
variable {P : Type*} [DecidableEq P]

def Pc.pops : Pc P → Bool
  | .lockPop r | .popTail r => r != .unlockFair
  | _ => false

def Leave.quits : Leave → Bool
  | .timeout => true
  | .future held => !held
  | _ => false

def Pc.quits : Pc P → Bool
  | .dropNode k | .lockDrop k | .removeNode k | .unlockQueue (.dropped k) => k.quits
  | _ => false

def Call.waits : Call → Bool
  | .tryLock => false
  | _ => true

def Leave.retries : Leave → Bool
  | .retry _ | .renew _ => true
  | _ => false

/-- Inside `lock_inner` or `poll`, or between two polls, on the way to the next attempt to
acquire or to the next `push_head`. -/
def Pc.retries : Pc P → Bool
  | .idle | .prepare _ | .park _ | .fairLoad _ => true
  | .cas c _ | .lockPush c | .loadState c | .sleepCas c _ | .pushHead c => c.waits
  | .dropNode k | .lockDrop k | .removeNode k | .unlockQueue (.dropped k) => k.retries
  | _ => false

def Pc.releases : Pc P → Bool
  | .bumpLoad | .fetchUnlock _ | .lockPop _ | .popTail _ | .wake _ _ _ | .clearWait _
  | .unlockQueue (.released _) => true
  | _ => false

def Pc.between : Pc P → Bool
  | .cas (.lockInner _) _ | .prepare _ => true
  | _ => false

def Pc.plain : Pc P → Bool
  | .fairClear | .mark _ _ | .onEmpty => false
  | .fetchUnlock r | .lockPop r | .popTail r | .wake r _ _ | .clearWait r
  | .unlockQueue (.released r) => r != .unlockFair
  | _ => true

/-- No `unlock_fair`. -/
def Plain : P × Act → Prop
  | (_, .release r) => r ≠ .unlockFair
  | _ => True

/-- Whose wait is over: a poll of the future returned `Ready` after the party last queued itself.
A future that is kept keeps the node of the poll before. -/
def noteReady (s : State P) : P × Act → (P → Bool) → P → Bool
  | (p, .next), ready =>
    match s.pc p with
    | .cas (.poll _) expected => if s.word = expected then Function.update ready p true else ready
    | .unlockQueue (.aborted (.poll _)) => Function.update ready p true
    | .pushHead _ => Function.update ready p false
    | _ => ready
  | _, ready => ready

def Pc.settles : Pc P → Bool
  | .cas (.poll _) _ | .unlockQueue (.aborted (.poll _)) | .pushHead _ => true
  | _ => false

structure Party (s : State P) (q : P) : Prop where
  plain : (s.pc q).plain = true
  free : s.woken q = true → (s.pc q).owns = false
  anchored : s.woken q = true → s.node q ≠ none ∨ (s.pc q).between = true

section parties
variable {P : Type*}

theorem Party.frame {s t : State P} {q : P} (h : Party s q) (hpc : t.pc q = s.pc q)
    (hnode : t.node q = s.node q) (hwoken : t.woken q = true → s.woken q = true) : Party t q := by
  obtain ⟨h1, h2, h3⟩ := h
  constructor
  · rwa [hpc]
  · rw [hpc]
    exact fun hw => h2 (hwoken hw)
  · rw [hpc, hnode]
    exact fun hw => h3 (hwoken hw)

theorem Party.place {t : State P} {p : P} {c : Pc P} (hpc : t.pc p = c) (hplain : c.plain = true)
    (hwoken : t.woken p = true → c.owns = false ∧ (t.node p ≠ none ∨ c.between = true)) :
    Party t p := by
  subst hpc
  exact ⟨hplain, fun hw => (hwoken hw).1, fun hw => (hwoken hw).2⟩

theorem Party.pending {s : State P} {q : P} (h : Party s q) (hw : s.woken q = true)
    (hpc : s.pc q = .idle) : s.node q ≠ none :=
  (h.anchored hw).resolve_right (by simp [hpc, Pc.between])

theorem Flow.plain {w : Word} {a : Act} {c d : Pc P} (h : Flow w a c d) (hc : c.plain = true)
    (hs : c.sane) (hf : fair w = false) (ha : a ≠ .release .unlockFair) : d.plain = true := by
  cases h with
  | unlockFair => exact absurd rfl ha
  | fairSeen timed hf' => simp [hf] at hf'
  | dropOff k | dropped k =>
    cases k with
    | future held => cases held <;> simp [Leave.next, Pc.plain]
    | _ => simp [Leave.next, Pc.plain]
  | fetchWaiting r => simpa [Pc.plain, Pc.sane] using hs
  | fetchAlone r | released r => cases r <;> simp [afterRelease, Pc.plain]
  | _ => simp_all [Pc.plain]

theorem Flow.gives {w : Word} {a : Act} {c d : Pc P} (h : Flow w a c d) (hp : c.plain = true)
    (hc : c.owns = true) (hd : d.owns = false) : ∃ r, c = .fetchUnlock r := by
  cases h with
  | fetchWaiting r | fetchAlone r => exact ⟨r, rfl⟩
  | dropOff k | dropped k =>
    cases k with
    | future held => cases held <;> simp_all [Leave.next, Pc.owns, Leave.owns]
    | _ => simp_all [Leave.next, Pc.owns, Leave.owns]
  | _ => simp_all [Pc.owns, Pc.plain, Leave.owns]

end parties

theorem step_plain {s t : State P} {p : P} {a : Act} (hp : (s.pc p).plain = true)
    (hs : (s.pc p).sane) (hf : fair s.word = false) (ha : a ≠ .release .unlockFair)
    (h : step s (p, a) = some t) : (t.pc p).plain = true ∧ fair t.word = false := by
  refine ⟨(step_flow h).plain hp hs hf ha, ?_⟩
  cases step_cases h with
  | mark e n hpc | onEmpty hpc => simp [hpc, Pc.plain] at hp
  | _ => simp_all

theorem Party.goto {s : State P} {p : P} {c : Pc P} (hp : Party s p) (hplain : c.plain = true)
    (howns : c.owns = true → (s.pc p).owns = true)
    (hbetween : (s.pc p).between = true → c.between = true) : Party (s.goto p c) p := by
  refine .place (c := c) (by simp) hplain fun hw => ⟨?_, (hp.anchored hw).imp_right hbetween⟩
  have hfree := hp.free hw
  cases ho : c.owns with
  | false => rfl
  | true => simp [howns ho] at hfree

theorem Party.commit {s : State P} {p : P} {c : Pc P} {w : Word} (hp : Party s p)
    (hplain : c.plain = true)
    (hbetween : (s.pc p).between = true → c.owns = true ∨ c.between = true) :
    Party (s.commit p c w) p := by
  refine .place (c := c) (by simp) hplain fun hw => ?_
  obtain ⟨ho, hw⟩ : c.owns = false ∧ s.woken p = true := by
    cases hc : c.owns <;> simp_all [State.commit]
  refine ⟨ho, (hp.anchored hw).imp_right fun hb => ?_⟩
  exact (hbetween hb).resolve_left (by simp [ho])

theorem Party.finish {s : State P} {p : P} {k : Leave}
    (hw : s.woken p = true → k.owns = false) : Party (s.finish p k) p := by
  cases k with
  | retry timed =>
    exact .place (c := .cas (.lockInner timed) unlocked) (by simp [State.finish]) rfl
      fun _ => ⟨rfl, .inr rfl⟩
  | renew cx =>
    exact .place (c := .lockPush (.poll cx)) (by simp [State.finish]) rfl
      fun _ => ⟨rfl, .inl (by simp [State.finish, State.newNode])⟩
  | success =>
    refine .place (c := .holding) (by simp [State.finish]) rfl fun h => ?_
    have h : s.woken p = true := by simpa [State.finish, State.freeNode] using h
    simp [Leave.owns, h] at hw
  | timeout =>
    refine .place (c := .idle) (by simp [State.finish]) rfl fun h => ?_
    simp [State.finish, State.freeNode] at h
  | future held =>
    refine .place (c := if held then .holding else .idle) (by simp [State.finish])
      (by cases held <;> rfl) fun h => ?_
    simp [State.finish, State.freeNode] at h

theorem Party.release {s : State P} {p : P} {a : After} (hpc : s.pc p = .unlockQueue a)
    (hp : Party s p) : Party (s.release p a) p := by
  have hu : Party { s with qlock := none } p := hp.frame rfl rfl id
  have move : ∀ c : Pc P, c.plain = true → (c.owns = true → (s.pc p).owns = true) →
      Party ({ s with qlock := none }.goto p c) p := fun c hplain howns =>
    hu.goto hplain howns (by simp [hpc, Pc.between])
  cases a with
  | pushed c => cases c <;> exact move _ rfl (by rintro ⟨⟩)
  | aborted c => cases c <;> exact move _ rfl fun _ => by rw [hpc]; rfl
  | released r => cases r <;> exact move _ rfl (by rintro ⟨⟩)
  | dropped k =>
    have hfree := hp.free
    rw [hpc] at hfree
    exact Party.finish (s := { s with qlock := none }) (k := k) hfree

theorem Party.popped {s : State P} {p : P} {e : Entry P} (hs : WellFormed s)
    (hp : ∀ q, Party s q) (he : e ∈ s.queue) {c : Pc P} (hplain : c.plain = true)
    (howns : c.owns = false) (hbetween : (s.pc p).between = false) :
    ∀ q, Party ((s.popped e).goto p c) q := by
  intro q
  have hnode : s.node e.owner ≠ none := by simp [hs.linked e he]
  by_cases hq : q = p
  · subst q
    refine .place (c := c) (by simp) hplain fun h => ⟨howns, .inl ?_⟩
    by_cases howner : p = e.owner
    · exact howner ▸ hnode
    · have hw : s.woken p = true := by simpa [State.popped, howner] using h
      exact ((hp p).anchored hw).resolve_right (by simp [hbetween])
  · by_cases hqe : q = e.owner
    · subst q
      refine .place (c := s.pc e.owner) (by simp [hq]) (hp _).plain fun h => ⟨?_, .inl hnode⟩
      simpa [State.popped] using h
    · exact (hp q).frame (by simp [hq]) (by simp) (by simp [State.popped, hqe])

theorem party_of_others {s t : State P} {p : P} (hs : ∀ q, Party s q)
    (hpc : ∀ q, q ≠ p → t.pc q = s.pc q) (hnode : ∀ q, q ≠ p → t.node q = s.node q)
    (hwoken : ∀ q, q ≠ p → t.woken q = true → s.woken q = true) (hp : Party t p) :
    ∀ q, Party t q := by
  intro q
  by_cases hq : q = p
  · exact hq ▸ hp
  · exact (hs q).frame (hpc q hq) (hnode q hq) (hwoken q hq)

theorem step_party {s t : State P} {l : P × Act} (hs : WellFormed s) (hsane : ∀ q, (s.pc q).sane)
    (hf : fair s.word = false) (hp : ∀ q, Party s q) (hl : Plain l) (h : step s l = some t) :
    ∀ q, Party t q := by
  obtain ⟨p, a⟩ := l
  have ha : a ≠ .release .unlockFair := by
    rintro rfl
    exact hl rfl
  have hfree := (hp p).free
  have hplain : (t.pc p).plain = true := (step_plain (hp p).plain (hsane p) hf ha h).1
  have goes : ∀ (u : State P) (c : Pc P), t = u.goto p c → u.pc = s.pc → u.node = s.node →
      u.woken = s.woken → (c.owns = true → (s.pc p).owns = true) →
      ((s.pc p).between = true → c.between = true) → ∀ q, Party t q := by
    rintro u c rfl hupc hunode huwoken howns hbetween
    have hu : ∀ q, Party u q := fun q =>
      (hp q).frame (by rw [hupc]) (by rw [hunode]) (by rw [huwoken]; exact id)
    refine party_of_others (p := p) hu (fun q hq => by simp [hq]) (fun _ _ => rfl)
      (fun _ _ hw => hw) ((hu p).goto (by simpa using hplain) ?_ ?_)
    · rwa [hupc]
    · rwa [hupc]
  have commits : ∀ (c : Pc P) (w : Word), t = s.commit p c w →
      ((s.pc p).between = true → c.owns = true ∨ c.between = true) → ∀ q, Party t q := by
    rintro c w rfl hbetween
    exact party_of_others (p := p) hp (fun q hq => (commit_others s p c w q hq).1)
      (fun _ _ => rfl) (fun q hq hw => (commit_others s p c w q hq).2 ▸ hw)
      ((hp p).commit (by simpa using hplain) hbetween)
  cases step_cases h with
  | start c hpc | lockPush _ hpc | lockDrop _ hpc | lockPop _ hpc | park _ _ hpc | dropLinked _ hpc
  | removeNode _ hpc | timeout hpc =>
    exact goes _ _ rfl rfl rfl rfl (by simp [hpc, Pc.owns, Leave.owns]) (by simp [hpc, Pc.between])
  | release r hpc =>
    exact goes _ _ rfl rfl rfl rfl (fun _ => by rw [hpc]; rfl) (by simp [hpc, Pc.between])
  | dropFuture held hpc =>
    refine goes _ _ rfl rfl rfl rfl ?_ ?_ <;> cases held <;>
      simp [hpc, Pc.owns, Leave.owns, Pc.between]
  | wake r e n hpc =>
    refine goes _ _ rfl (by simp) (by simp) (by simp) ?_ (by simp [hpc, Pc.between])
    split <;> rintro ⟨⟩
  | popNone r hpc =>
    refine goes _ _ rfl rfl rfl rfl ?_ (by simp [hpc, Pc.between])
    split
    · next hr => exact fun _ => by rw [hpc, hr]; rfl
    · rintro ⟨⟩
  | casFailed c _ hpc =>
    refine commits _ _ rfl ?_
    cases c <;> simp [hpc, Pc.between, tryFailed]
  | casRetry c _ hpc =>
    refine commits _ _ rfl ?_
    rw [hpc]
    cases c <;> simp [Pc.between]
  | casTaken _ _ hpc => exact commits _ _ rfl fun _ => .inl rfl
  | loadState _ hpc | sleepMark _ _ hpc | sleepReload _ _ hpc | sleepTaken _ _ hpc
  | fairSeen _ hpc | fairUnseen _ hpc | fairClear hpc | bumpLoad hpc | fetchUnlock _ hpc
  | mark _ _ hpc | onEmpty hpc | clearWait _ hpc =>
    exact commits _ _ rfl (by simp [hpc, Pc.between])
  | prepare timed hpc =>
    refine party_of_others (p := p) hp (fun q hq => by simp [hq])
      (fun q hq => by simp [State.newNode, hq]) (fun q _ hw => by simpa using hw) ?_
    exact .place (c := .lockPush (.lockInner timed)) (by simp) rfl fun _ =>
      ⟨rfl, .inl (by simp [State.newNode])⟩
  | pushHead c i hpc =>
    refine party_of_others (p := p) hp (fun q hq => by simp [hq]) (fun _ _ => rfl)
      (fun q hq hw => by simpa [State.push, hq] using hw) ?_
    exact .place (c := .unlockQueue (.pushed c)) (by simp) rfl fun hw => by
      simp [State.push] at hw
  | dropOff k hpc =>
    rw [hpc] at hfree
    exact party_of_others (p := p) hp (fun q hq => (finish_others s p k q hq).1)
      (fun q hq => finish_node s p k q hq)
      (fun q hq hw => (finish_others s p k q hq).2 ▸ hw) (Party.finish hfree)
  | popTail r e hpc he =>
    refine Party.popped hs hp (List.mem_of_getLast? he) (by simpa using hplain) ?_
      (by rw [hpc]; rfl)
    have hr : r ≠ .unlockFair := by
      have hplain := (hp p).plain
      rw [hpc] at hplain
      simpa [Pc.plain] using hplain
    rw [if_neg hr]
    rfl
  | unlockQueue b hpc =>
    exact party_of_others (p := p) hp (fun q hq => (release_others s p b q hq).1)
      (fun q hq => (release_others s p b q hq).2.1)
      (fun q hq hw => (release_others s p b q hq).2.2 ▸ hw) ((hp p).release hpc)

end Colock.RawMutex
