import Mathlib.Data.BitVec

/-! The state word of `RawMutex`: an `AtomicU8` of which three bits are used. -/
namespace Colock.RawMutex

abbrev Word := BitVec 8

def unlocked : Word := 0
def lockedBit : Word := 0b1
def waitBit : Word := 0b10
def fairBit : Word := 0b100

def locked (w : Word) : Bool := w &&& lockedBit != 0

def waiting (w : Word) : Bool := w &&& waitBit != 0

def fair (w : Word) : Bool := w &&& fairBit != 0

@[simp] theorem bits_unlocked :
    locked unlocked = false ∧ waiting unlocked = false ∧ fair unlocked = false := by decide

@[simp] theorem bits_lockedBit :
    locked lockedBit = true ∧ waiting lockedBit = false ∧ fair lockedBit = false := by decide

@[simp] theorem bits_lockedWait :
    locked (lockedBit ||| waitBit) = true ∧ waiting (lockedBit ||| waitBit) = true ∧
      fair (lockedBit ||| waitBit) = false := by decide

@[simp] theorem bits_setLocked (w : Word) :
    locked (w ||| lockedBit) = true ∧ waiting (w ||| lockedBit) = waiting w ∧
      fair (w ||| lockedBit) = fair w := by
  revert w; decide

@[simp] theorem bits_clearLocked (w : Word) :
    locked (w &&& ~~~lockedBit) = false ∧ waiting (w &&& ~~~lockedBit) = waiting w ∧
      fair (w &&& ~~~lockedBit) = fair w := by
  revert w; decide

@[simp] theorem bits_clearWait (w : Word) :
    locked (w &&& ~~~waitBit) = locked w ∧ waiting (w &&& ~~~waitBit) = false ∧
      fair (w &&& ~~~waitBit) = fair w := by
  revert w; decide

@[simp] theorem bits_setFair (w : Word) :
    locked (w ||| fairBit) = locked w ∧ waiting (w ||| fairBit) = waiting w ∧
      fair (w ||| fairBit) = true := by
  revert w; decide

@[simp] theorem bits_clearFair (w : Word) :
    locked (w &&& ~~~fairBit) = locked w ∧ waiting (w &&& ~~~fairBit) = waiting w ∧
      fair (w &&& ~~~fairBit) = false := by
  revert w; decide

@[simp] theorem bits_toggle (w : Word) :
    locked (w ^^^ (waitBit ||| fairBit)) = locked w ∧
      waiting (w ^^^ (waitBit ||| fairBit)) = !waiting w ∧
      fair (w ^^^ (waitBit ||| fairBit)) = !fair w := by
  revert w; decide

end Colock.RawMutex
