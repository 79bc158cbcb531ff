import Mathlib.Data.List.Nodup
import Mathlib.Data.List.Perm.Basic

/-! The way of items through a queue: an item is put at the head, may be taken out by whoever
put it there, and at the tail comes into somebody's hands, who delivers it. Nothing is lost or
delivered twice, and what is delivered is delivered in the order in which it came. -/
namespace Custody
variable {α : Type*}

structure Items (α : Type*) where
  pushed : List α
  queued : List α
  carried : List α
  delivered : List α
  withdrawn : List α

def Items.inOrder (c : Items α) : List α := c.queued ++ c.carried ++ c.delivered

inductive Moves (c : Items α) : Items α → Prop
  | quiet : Moves c c
  | push (a : α) : Moves c { c with pushed := a :: c.pushed, queued := a :: c.queued }
  | withdraw (f : α → Bool) : Moves c { c with
      queued := c.queued.filter fun a => !f a
      withdrawn := c.queued.filter f ++ c.withdrawn }
  | pop (a : α) (h : c.queued.getLast? = some a) :
      Moves c { c with queued := c.queued.dropLast, carried := a :: c.carried }
  | deliver (a : α) (h : c.carried.getLast? = some a) :
      Moves c { c with carried := c.carried.dropLast, delivered := a :: c.delivered }

/-- Every item is in one place, and those that were not withdrawn are in order. -/
structure Kept (c : Items α) : Prop where
  order : c.inOrder.Sublist c.pushed
  places : c.pushed.Perm (c.inOrder ++ c.withdrawn)

theorem kept_nothing : Kept (⟨[], [], [], [], []⟩ : Items α) :=
  ⟨List.Sublist.refl _, List.Perm.refl _⟩

theorem dropLast_snoc {l : List α} {a : α} (h : l.getLast? = some a) : l.dropLast ++ [a] = l := by
  obtain ⟨r, rfl⟩ := List.getLast?_eq_some_iff.mp h
  simp

theorem Moves.kept {c d : Items α} (h : Moves c d) (hc : Kept c) : Kept d := by
  obtain ⟨horder, hplaces⟩ := hc
  cases h with
  | quiet => exact ⟨horder, hplaces⟩
  | push a => exact ⟨horder.cons_cons a, hplaces.cons a⟩
  | withdraw f =>
    constructor
    · have hsub : (c.queued.filter fun a => !f a).Sublist c.queued := List.filter_sublist
      exact ((hsub.append_right _).append_right _).trans horder
    · have hsplit : (c.queued.filter (fun a => !f a) ++ c.queued.filter f).Perm c.queued :=
        List.perm_append_comm.trans (List.filter_append_perm f c.queued)
      have hswap : (c.queued.filter f ++ (c.carried ++ c.delivered)).Perm
          (c.carried ++ c.delivered ++ c.queued.filter f) := List.perm_append_comm
      have hlater : (c.queued.filter f ++ (c.carried ++ (c.delivered ++ c.withdrawn))).Perm
          (c.carried ++ (c.delivered ++ (c.queued.filter f ++ c.withdrawn))) := by
        simpa only [List.append_assoc] using
          hswap.append_right c.withdrawn
      refine hplaces.trans ?_
      simp only [Items.inOrder, List.append_assoc]
      refine (hsplit.symm.append_right _).trans ?_
      rw [List.append_assoc]
      exact hlater.append_left _
  | pop a h | deliver a h =>
    -- the item goes from the end of one list to the head of the next
    have hsame := dropLast_snoc h
    constructor
    · rw [Items.inOrder, ← hsame] at horder
      simpa [Items.inOrder] using horder
    · rw [Items.inOrder, ← hsame] at hplaces
      simpa [Items.inOrder] using hplaces

theorem not_both_orders {l : List α} {a b : α} (hl : l.Nodup) (hab : [a, b].Sublist l) :
    ¬ [b, a].Sublist l := by
  induction l with
  | nil => simp at hab
  | cons x l ih =>
    obtain ⟨hx, hl⟩ := List.nodup_cons.mp hl
    intro hba
    cases hab with
    | cons _ hab =>
      cases hba with
      | cons _ hba => exact ih hl hab hba
      | cons_cons _ hba => exact hx (hab.subset (by simp))
    | cons_cons _ hab =>
      cases hba with
      | cons _ hba => exact hx (hba.subset (by simp))
      | cons_cons _ hba => exact hx (by simpa using hab)

/-- When `a` came after `b` and was delivered, `b` was delivered or withdrawn. -/
theorem Kept.no_overtaking {c : Items α} {a b : α} (hc : Kept c) (hpushed : c.pushed.Nodup)
    (hafter : [a, b].Sublist c.pushed) (ha : a ∈ c.delivered) :
    b ∈ c.delivered ∨ b ∈ c.withdrawn := by
  have hb : b ∈ c.inOrder ++ c.withdrawn := hc.places.subset (hafter.subset (by simp))
  simp only [Items.inOrder, List.mem_append] at hb
  have early : b ∉ c.queued ++ c.carried := by
    intro hb
    have hboth : ([b] ++ [a]).Sublist (c.queued ++ c.carried ++ c.delivered) :=
      (List.singleton_sublist.mpr hb).append (List.singleton_sublist.mpr ha)
    exact not_both_orders hpushed hafter (hboth.trans hc.order)
  simp only [List.mem_append] at early
  tauto

theorem Kept.nodup {c : Items α} (hc : Kept c) (hpushed : c.pushed.Nodup) :
    (c.inOrder ++ c.withdrawn).Nodup :=
  hc.places.nodup_iff.mp hpushed

end Custody
