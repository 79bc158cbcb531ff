import Colock.RawMutex.Exclusion
import Colock.RawMutex.WellFormed

/-! `WAIT_BIT` covers the queue of `RawMutex`: it is set before a node is linked, and cleared
by the party that unlinked the last one, inside the same critical section. -/
namespace Colock.RawMutex
open Transition
variable {P : Type*} [DecidableEq P]

/-- Whoever finds the bit clear may take the queue for empty. -/
structure Covers (s : State P) : Prop where
  queued : s.queue ≠ [] → waiting s.word = true
  pushing : ∀ p c, s.pc p = .pushHead c → waiting s.word = true
  marking : ∀ p e n, s.pc p = .mark e n → waiting s.word = true

omit [DecidableEq P] in
theorem Flow.pushHead_waiting {w : Word} {a : Act} {c d : Pc P} {call : Call}
    (h : Flow w a c d) (hd : d = .pushHead call) : waiting w = true ∧ c.count = none := by
  cases h with
  | loadFull c hw | sleepFull c current hw => exact ⟨by simp [hw], rfl⟩
  | dropOff k | dropped k =>
    cases k with
    | future held => cases held <;> simp [Leave.next] at hd
    | _ => simp [Leave.next] at hd
  | fetchAlone r | released r => cases r <;> simp [afterRelease] at hd
  | _ => cases hd

omit [DecidableEq P] in
theorem Flow.mark_popTail {w : Word} {a : Act} {c d : Pc P} {e : Entry P} {n : Nat}
    (h : Flow w a c d) (hd : d = .mark e n) : c = .popTail .unlockFair := by
  cases h with
  | fairTail => rfl
  | dropOff k | dropped k =>
    cases k with
    | future held => cases held <;> simp [Leave.next] at hd
    | _ => simp [Leave.next] at hd
  | fetchAlone r | released r => cases r <;> simp [afterRelease] at hd
  | _ => cases hd

/-- The bit is cleared only by the party that popped the last entry. -/
theorem step_waiting {s t : State P} {p : P} {a : Act} (h : step s (p, a) = some t)
    (hw : waiting s.word = true) : waiting t.word = true ∨ (s.pc p).count = some 0 := by
  cases step_cases h with
  | mark e n hpc =>
    by_cases hn : n = 0
    · exact .inr (by simp [hpc, Pc.count, hn])
    · exact .inl (by simpa [hn] using hw)
  | clearWait r hpc => exact .inr (by rw [hpc]; rfl)
  | _ => simp_all

theorem queue_ne_nil {s t : State P} {p : P} {a : Act} (h : step s (p, a) = some t)
    (hne : t.queue ≠ []) : s.queue ≠ [] ∨ ∃ c, s.pc p = .pushHead c := by
  rcases (step_cases h).queue with hq | ⟨c, -, hpc, -⟩ | hq | hq
  · exact .inl (hq ▸ hne)
  · exact .inr ⟨c, hpc⟩
  · refine .inl fun hnil => hne ?_
    simp [hq, State.remove, hnil]
  · refine .inl fun hnil => hne ?_
    simp [hq, hnil]

theorem popped_ne_nil {s t : State P} {p : P} {a : Act} {e : Entry P} {n : Nat}
    (h : step s (p, a) = some t) (hmark : t.pc p = .mark e n) : s.queue ≠ [] := by
  have hpc := (step_flow h).mark_popTail hmark
  cases step_cases h with
  | popTail r e' hpc he => exact fun hnil => by simp [hnil] at he
  | popNone r hpc' he =>
    obtain rfl : r = .unlockFair := by simpa [hpc] using hpc'.symm
    simp at hmark
  | dropFuture held hidle => cases held <;> simp_all
  | _ => simp_all

theorem step_covers {s t : State P} {l : P × Act} (hs : Covers s) (hwf : WellFormed s)
    (h : step s l = some t) : Covers t := by
  obtain ⟨p, a⟩ := l
  -- the party that clears the bit has the queue lock and has left the queue empty
  have hclear : waiting s.word = true → waiting t.word = true ∨ (s.pc p).count = some 0 ∧
      s.queue = [] ∧ ∀ q, q ≠ p → (s.pc q).inSection = false := by
    intro hw
    refine (step_waiting h hw).imp_right fun hcount => ⟨hcount, ?_, fun q hq => ?_⟩
    · exact List.eq_nil_of_length_eq_zero ((hwf.fits p).count 0 hcount)
    · by_contra hin
      have hl := hwf.locked (inSection_of_count hcount)
      exact hq (Option.some.inj ((hwf.locked (by simpa using hin)).symm.trans hl))
  constructor
  · intro hne
    rcases queue_ne_nil h hne with hsq | ⟨c, hpc⟩
    · exact (hclear (hs.queued hsq)).resolve_right fun hc => hsq hc.2.1
    · exact (hclear (hs.pushing p c hpc)).resolve_right fun hc => by simp [hpc, Pc.count] at hc
  · intro q c hq
    by_cases hqp : q = p
    · subst q
      obtain ⟨hw, hcount⟩ := (step_flow h).pushHead_waiting hq
      exact (hclear hw).resolve_right fun hc => by simp [hcount] at hc
    · have hold : s.pc q = .pushHead c := by rwa [step_others h hqp] at hq
      refine (hclear (hs.pushing q c hold)).resolve_right fun hc => ?_
      simpa [hold, Pc.inSection] using hc.2.2 q hqp
  · intro q e n hq
    by_cases hqp : q = p
    · subst q
      have hsq := popped_ne_nil h hq
      exact (hclear (hs.queued hsq)).resolve_right fun hc => hsq hc.2.1
    · have hold : s.pc q = .mark e n := by rwa [step_others h hqp] at hq
      refine (hclear (hs.marking q e n hold)).resolve_right fun hc => ?_
      simpa [hold, Pc.inSection] using hc.2.2 q hqp

theorem reach_covers {ok : State P → P × Act → Prop} {s : State P} (h : Reach step ok init s) :
    Covers s := by
  have hboth : WellFormed s ∧ Covers s := by
    refine h.invariant (I := fun s => WellFormed s ∧ Covers s) ⟨wellFormed_init, ?_⟩ ?_
    · constructor <;> simp [init]
    · exact fun _ _ _ hs _ h => ⟨step_wellFormed hs.1 h, step_covers hs.2 hs.1 h⟩
  exact hboth.2

/-- In every reachable state a queued node comes with `WAIT_BIT`; `unlock_fair` finds the bit
set when it has popped the last waiter, and its `fetch_xor` then clears it. -/
theorem wait_covers_queue {s : State P} (h : Reach step anyStep init s) :
    (s.queue ≠ [] → waiting s.word = true) ∧
    ∀ p e, s.pc p = .mark e 0 → waiting s.word = true ∧
      ∃ t, step s (p, .next) = some t ∧ waiting t.word = false := by
  have hs := reach_covers h
  refine ⟨hs.queued, fun p e hpc => ?_⟩
  have hw := hs.marking p e 0 hpc
  refine ⟨hw, _, by simp [step, hpc, atomic]; rfl, by simp [hw]⟩

theorem wait_covers_queue_handOver :
    ∃ s : State (Fin 2), Reach step anyStep init s ∧ (∃ e, s.pc 0 = .mark e 0) ∧
    (s.queue ≠ [] → waiting s.word = true) ∧
    ∀ p e, s.pc p = .mark e 0 → waiting s.word = true ∧
      ∃ t, step s (p, .next) = some t ∧ waiting t.word = false := by
  have hr : ((run step (init : State (Fin 2)) (timedSleeps 0 1 ++
      (0, .release .unlockFair) :: nexts 0 2)).map fun s => s.pc 0) =
        some (.mark ⟨0, 1, some 0, .thread 1⟩ 0) := by decide
  obtain ⟨s, hs, hpc⟩ := Option.map_eq_some_iff.mp hr
  have hreach := run_reach (meets_any _ _) hs
  exact ⟨s, hreach, ⟨_, hpc⟩, wait_covers_queue hreach⟩

end Colock.RawMutex
