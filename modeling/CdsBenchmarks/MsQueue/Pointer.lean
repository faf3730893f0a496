import Mathlib.Algebra.Group.Nat.Defs
import Mathlib.Data.Nat.Basic

/-! The tagged pointers of `ms-queue/queue.h`: a node index in the low half of a word and
a counter in the high half. -/

namespace Cds.MsQueue

/-- An `unsigned int`. -/
abbrev UInt := BitVec 32

/-- `pointer`, an `unsigned long long`. -/
abbrev Pointer := BitVec 64

def ptrMask : Pointer := 0xffffffff

def countMask : Pointer := 0xffffffff <<< 32

/-- `MAKE_POINTER(ptr, count)`, where the cast in the macro makes `count` a `pointer`. -/
def makePointer (ptr : UInt) (count : Pointer) : Pointer := (count <<< 32) ||| ptr.setWidth 64

def setPtr (p : Pointer) (val : UInt) : Pointer := (p &&& ~~~ptrMask) ||| val.setWidth 64

def getCount (p : Pointer) : UInt := ((p &&& countMask) >>> 32).setWidth 32

def getPtr (p : Pointer) : UInt := (p &&& ptrMask).setWidth 32

/-- `MAKE_POINTER(ptr, get_count(p) + 1)`. -/
def bump (ptr : UInt) (p : Pointer) : Pointer := makePointer ptr ((getCount p).setWidth 64 + 1)

theorem getLsbD_ptrMask (i : ℕ) : ptrMask.getLsbD i = decide (i < 32) := by
  have : ptrMask = (BitVec.allOnes 32).setWidth 64 := rfl
  rw [this, BitVec.getLsbD_setWidth, BitVec.getLsbD_allOnes]
  by_cases hi : i < 32
  · simp [hi, Nat.lt_trans hi]
  · simp [hi]

theorem getLsbD_countMask (i : ℕ) : countMask.getLsbD i = (decide (i < 64) && !decide (i < 32)) := by
  have : countMask = (BitVec.allOnes 32).setWidth 64 <<< 32 := rfl
  rw [this, BitVec.getLsbD_shiftLeft, BitVec.getLsbD_setWidth, BitVec.getLsbD_allOnes]
  by_cases hi : i < 64
  · have h₁ : i - 32 < 64 := by omega
    have h₂ : i - 32 < 32 := by omega
    simp [hi, h₁, h₂]
  · simp [hi]

@[simp] theorem getPtr_makePointer (ptr : UInt) (count : Pointer) :
    getPtr (makePointer ptr count) = ptr := by
  apply BitVec.eq_of_getLsbD_eq
  intro i hi
  have h64 : i < 64 := Nat.lt_trans hi (by decide)
  simp only [getPtr, makePointer, BitVec.getLsbD_setWidth, BitVec.getLsbD_and, BitVec.getLsbD_or,
    BitVec.getLsbD_shiftLeft, getLsbD_ptrMask]
  simp [hi, h64]

@[simp] theorem getPtr_setPtr (p : Pointer) (val : UInt) : getPtr (setPtr p val) = val := by
  apply BitVec.eq_of_getLsbD_eq
  intro i hi
  have h64 : i < 64 := Nat.lt_trans hi (by decide)
  simp only [getPtr, setPtr, BitVec.getLsbD_setWidth, BitVec.getLsbD_and, BitVec.getLsbD_or,
    BitVec.getLsbD_not,
    getLsbD_ptrMask]
  simp [hi, h64]

theorem getCount_makePointer (ptr : UInt) (count : Pointer) :
    getCount (makePointer ptr count) = count.setWidth 32 := by
  apply BitVec.eq_of_getLsbD_eq
  intro i hi
  have h64 : 32 + i < 64 := by omega
  have h32 : ¬32 + i < 32 := by omega
  simp only [getCount, makePointer, BitVec.getLsbD_setWidth, BitVec.getLsbD_ushiftRight,
    BitVec.getLsbD_and,
    BitVec.getLsbD_or, BitVec.getLsbD_shiftLeft, getLsbD_countMask]
  simp [hi, h64, h32]

@[simp] theorem getCount_setPtr (p : Pointer) (val : UInt) : getCount (setPtr p val) = getCount p := by
  apply BitVec.eq_of_getLsbD_eq
  intro i hi
  have h64 : 32 + i < 64 := by omega
  simp only [getCount, setPtr, BitVec.getLsbD_setWidth, BitVec.getLsbD_ushiftRight, BitVec.getLsbD_and,
    BitVec.getLsbD_or, BitVec.getLsbD_not, getLsbD_ptrMask, getLsbD_countMask]
  simp [hi, h64]

@[simp] theorem getPtr_bump (ptr : UInt) (p : Pointer) : getPtr (bump ptr p) = ptr :=
  getPtr_makePointer ..

@[simp] theorem getCount_bump (ptr : UInt) (p : Pointer) : getCount (bump ptr p) = getCount p + 1 := by
  rw [bump, getCount_makePointer, BitVec.setWidth_add _ _ (by decide),
    BitVec.setWidth_setWidth_of_le _ (by decide),
    BitVec.setWidth_eq]
  rfl

/-- The counter grows unless it wraps. -/
theorem getCount_bump_toNat (ptr : UInt) {p : Pointer} (h : (getCount p).toNat + 1 < 2 ^ 32) :
    (getCount (bump ptr p)).toNat = (getCount p).toNat + 1 := by
  rw [getCount_bump]
  bv_omega

end Cds.MsQueue
