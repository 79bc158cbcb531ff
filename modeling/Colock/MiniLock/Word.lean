import Mathlib.Data.BitVec

/-! The head word of `MiniLock`: a pointer to the top node, tagged with the lock bit. -/
namespace Colock.MiniLock

abbrev Word := BitVec 64

def lockedBit : Word := 0b1
def ptrMask : Word := ~~~lockedBit

def getPtr (w : Word) : Word := w &&& ptrMask

def getFlag (w : Word) : Bool := w &&& lockedBit == lockedBit

/-- The addresses that a node can have: not null, and aligned to 2 bytes. -/
def Addr : Type := { a : Word // a ≠ 0 ∧ getFlag a = false }

instance : DecidableEq Addr := inferInstanceAs (DecidableEq { a : Word // a ≠ 0 ∧ getFlag a = false })

def Addr.asUsizePtr (a : Addr) : Word := a.val

/-- `as_ref()`; `none` for null, and for a word that is no address of a node. -/
def asRef (p : Word) : Option Addr :=
  if h : p ≠ 0 ∧ getFlag p = false then some ⟨p, h⟩ else none

theorem getElem_lockedBit {i : Nat} (hi : i < 64) : lockedBit[i] = decide (i = 0) := by
  simp [lockedBit]

theorem getElem_getPtr (w : Word) {i : Nat} (hi : i < 64) :
    (getPtr w)[i] = (w[i] && decide (i ≠ 0)) := by
  simp [getPtr, ptrMask, getElem_lockedBit]

theorem getFlag_eq (w : Word) : getFlag w = w[0] := by
  have hand : w &&& lockedBit = if w[0] then lockedBit else 0 := by
    ext i hi
    by_cases h0 : i = 0
    · subst h0
      cases hw : w[0] <;> simp [hw, getElem_lockedBit]
    · cases hw : w[0] <;> simp [getElem_lockedBit, h0]
  rw [getFlag, hand]
  cases w[0] <;> decide

@[simp] theorem getFlag_or (w : Word) : getFlag (w ||| lockedBit) = true := by
  simp [getFlag_eq, getElem_lockedBit]

@[simp] theorem getPtr_or (w : Word) : getPtr (w ||| lockedBit) = getPtr w := by
  ext i hi
  by_cases h0 : i = 0 <;> simp [getElem_getPtr, getElem_lockedBit, h0]

@[simp] theorem getFlag_mask (w : Word) : getFlag (w &&& ptrMask) = false := by
  simp [getFlag_eq, ptrMask, getElem_lockedBit]

@[simp] theorem getPtr_mask (w : Word) : getPtr (w &&& ptrMask) = getPtr w := by
  simp [getPtr, BitVec.and_assoc]

theorem getPtr_eq_self {w : Word} (h : getFlag w = false) : getPtr w = w := by
  rw [getFlag_eq] at h
  ext i hi
  by_cases h0 : i = 0
  · subst h0
    simp [getElem_getPtr, h]
  · simp [getElem_getPtr, h0]

theorem word_ext {w v : Word} (hp : getPtr w = getPtr v) (hf : getFlag w = getFlag v) : w = v := by
  rw [getFlag_eq, getFlag_eq] at hf
  ext i hi
  by_cases h0 : i = 0
  · subst h0
    exact hf
  · have hbit := congrArg (·[i]) hp
    simpa [getElem_getPtr, h0] using hbit

@[simp] theorem getFlag_zero : getFlag 0#64 = false := by decide
@[simp] theorem getFlag_lockedBit : getFlag lockedBit = true := by decide
@[simp] theorem getPtr_zero : getPtr 0#64 = 0 := by decide
@[simp] theorem getPtr_lockedBit : getPtr lockedBit = 0 := by decide

@[simp] theorem getPtr_addr (a : Addr) : getPtr a.asUsizePtr = a.asUsizePtr :=
  getPtr_eq_self a.property.2

theorem asRef_addr (a : Addr) : asRef a.asUsizePtr = some a := dif_pos a.property

theorem Addr.ext {a b : Addr} (h : a.asUsizePtr = b.asUsizePtr) : a = b := Subtype.ext h

end Colock.MiniLock
