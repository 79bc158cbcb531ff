import Colock.MiniLock.Model

/-! The stack of waiters that the lock is meant to keep: nodes leave it last in, first out,
and a popped node is woken once. -/
namespace Colock.MiniLock
variable {T : Type*}

/-- The nodes pushed and not yet popped, the last one first, and the nodes popped and not
yet woken. -/
structure Waiters where
  stack : List Addr
  popped : List Addr

/-- The only events a stack of waiters admits: a node that waits is not pushed again, only
the top is popped, and only a popped node is woken. -/
def Waiters.after (q : Waiters) : Event → Option Waiters
  | .push a => if a ∈ q.stack ++ q.popped then none else some ⟨a :: q.stack, q.popped⟩
  | .pop a =>
    match q.stack with
    | b :: bs => if b = a then some ⟨bs, a :: q.popped⟩ else none
    | [] => none
  | .wake a => if a ∈ q.popped then some ⟨q.stack, q.popped.erase a⟩ else none
  | .contended => some q

def Waiters.replay : List (T × Event) → Option Waiters
  | [] => some ⟨[], []⟩
  | e :: log => (replay log).bind fun q => q.after e.2

def times (log : List (T × Event)) (e : Event) : Nat := (log.map (·.2)).count e

/-- Each push of a node is answered by one pop, but for the nodes that still wait, and each
pop by one wake, but for the nodes yet to be woken. -/
theorem Waiters.times_replay {log : List (T × Event)} {q : Waiters} (h : replay log = some q)
    (a : Addr) :
    times log (.push a) = times log (.pop a) + q.stack.count a ∧
      times log (.pop a) = times log (.wake a) + q.popped.count a := by
  induction log generalizing q with
  | nil =>
    obtain rfl : ⟨[], []⟩ = q := Option.some.inj h
    simp [times]
  | cons e log ih =>
    obtain ⟨q₀, h₀, h⟩ := Option.bind_eq_some_iff.mp h
    obtain ⟨hpush, hpop⟩ := ih h₀
    obtain ⟨t, e⟩ := e
    simp only [times] at hpush hpop ⊢
    cases e with
    | push b =>
      simp only [after, Option.ite_none_left_eq_some, Option.some.injEq] at h
      obtain ⟨-, rfl⟩ := h
      simp [List.count_cons, hpush, hpop]
      omega
    | pop b =>
      simp only [after] at h
      split at h
      · rename_i c bs hstack
        simp only [Option.ite_none_right_eq_some, Option.some.injEq] at h
        obtain ⟨rfl, rfl⟩ := h
        simp [List.count_cons, hpush, hpop, hstack]
        omega
      · cases h
    | wake b =>
      simp only [after, Option.ite_none_right_eq_some, Option.some.injEq] at h
      obtain ⟨hb, rfl⟩ := h
      have hcount : 0 < q₀.popped.count b := List.count_pos_iff.mpr hb
      simp [List.count_cons, List.count_erase, hpush, hpop]
      by_cases hba : b = a
      · subst hba
        simp
        omega
      · simp [hba]
    | contended =>
      obtain rfl := Option.some.inj h
      simpa [List.count_cons] using ⟨hpush, hpop⟩

/-- The nodes met from the pointer `p` on by following `next`. -/
def Chain (node : Addr → Option (Node T)) : Word → List Addr → Prop
  | p, [] => p = 0
  | p, a :: as => p = a.asUsizePtr ∧ ∃ n, node a = some n ∧ Chain node n.next as

theorem Chain.congr {node node' : Addr → Option (Node T)} {p : Word} {as : List Addr}
    (h : Chain node p as) (ha : ∀ a ∈ as, (node' a).map (·.next) = (node a).map (·.next)) :
    Chain node' p as := by
  induction as generalizing p with
  | nil => exact h
  | cons a as ih =>
    obtain ⟨hp, n, hn, hrest⟩ := h
    have hnext := ha a (by simp)
    rw [hn, Option.map_some, Option.map_eq_some_iff] at hnext
    obtain ⟨n', hn', hnext⟩ := hnext
    exact ⟨hp, n', hn', hnext ▸ ih hrest fun b hb => ha b (by simp [hb])⟩

theorem Chain.nil_iff {node : Addr → Option (Node T)} {p : Word} {as : List Addr}
    (h : Chain node p as) : as = [] ↔ p = 0 := by
  cases as with
  | nil => exact iff_of_true rfl h
  | cons a as => exact iff_of_false (by simp) fun hp => a.property.1 (h.1.symm.trans hp)

theorem Chain.top {node : Addr → Option (Node T)} {a : Addr} {as : List Addr}
    (h : Chain node a.asUsizePtr as) :
    ∃ n rest, as = a :: rest ∧ node a = some n ∧ Chain node n.next rest := by
  cases as with
  | nil => exact absurd h a.property.1
  | cons b rest =>
    obtain ⟨hb, n, hn, hrest⟩ := h
    obtain rfl := Addr.ext hb
    exact ⟨n, rest, rfl, hn, hrest⟩

theorem Chain.untagged {node : Addr → Option (Node T)} {p : Word} {as : List Addr}
    (h : Chain node p as) : getPtr p = p := by
  cases as with
  | nil => exact (show p = 0 from h) ▸ getPtr_zero
  | cons a as => rw [h.1, getPtr_addr]

end Colock.MiniLock
