import CdsBenchmarks.Concurrent.Program
import Mathlib.Algebra.Group.Nat.Defs

/-! The eventcount of `spsc-bugfix/eventcount.h`, every atomic access, plain shared access,
mutex and condition-variable operation one step. `cv.wait` releases the mutex and falls
asleep in one step; a thread wakes when it has been notified, or spuriously. -/

namespace Cds.Eventcount
open Concurrent

/-- A C `unsigned`. -/
abbrev Word := BitVec 32

/-- The flag that a thread is about to wait. -/
def flag : Word := 0x80000000

def mask : Word := 0x7FFFFFFF

/-- The fields of class `eventcount`; `guard` is the owner of the mutex, and `asleep` marks
the threads in `cv.wait` that have not been notified. -/
structure Mem (T : Type*) where
  count : Word
  waiters : Word
  guard : Option T
  asleep : T → Bool

def eventcount (T : Type*) : Mem T := ⟨0, 0, none, fun _ => false⟩

/-- The points before a shared access, and `done` with what the call returns. -/
inductive Pc
  | get
  | waitLoad (cmp : Word)
  | waitLock (cmp : Word)
  | waitRecheck (cmp : Word)
  | waitRead
  | waitStore (waiters : Word)
  | waitCv
  | asleep
  | relock
  | waitUnlock
  | signal
  | signalLock (cmp : Word)
  | signalCas (cmp : Word)
  | signalRead
  | signalReset (w : Word)
  | signalUnlock (w : Word)
  | notifyAll
  | done (r : Option Word)
deriving DecidableEq, Repr

/-- The start of `signal_impl(cmp)`. -/
def signalImpl (cmp : Word) : Pc := if cmp &&& flag ≠ 0 then .signalLock cmp else .done none

/-- `guard.lock` succeeds only if the mutex is free. -/
def lock {T : Type*} (me : T) (m : Mem T) (l : Pc) : Option (Mem T × Pc) :=
  match m.guard with
  | none => some ({ m with guard := some me }, l)
  | some _ => none

/-- The next step of a call. If `spurious`, the weak compare-exchange fails spuriously and
a sleeping thread wakes spuriously. -/
def access {T : Type*} [DecidableEq T] (me : T) (spurious : Bool) (m : Mem T) : Pc → Option (Mem T × Pc)
  | .get => some ({ m with count := m.count ||| flag }, .done (some (m.count &&& mask)))
  | .waitLoad cmp => if cmp = m.count &&& mask then some (m, .waitLock cmp) else some (m, .done none)
  | .waitLock cmp => lock me m (.waitRecheck cmp)
  | .waitRecheck cmp => if cmp = m.count &&& mask then some (m, .waitRead) else some (m, .waitUnlock)
  -- `waiters += 1` is a load and a store
  | .waitRead => some (m, .waitStore m.waiters)
  | .waitStore waiters => some ({ m with waiters := waiters + 1 }, .waitCv)
  | .waitCv => some ({ m with guard := none, asleep := Function.update m.asleep me true }, .asleep)
  | .asleep =>
    if m.asleep me && !spurious then none
    else some ({ m with asleep := Function.update m.asleep me false }, .relock)
  | .relock => lock me m .waitUnlock
  | .waitUnlock => some ({ m with guard := none }, .done none)
  | .signal => some (m, signalImpl m.count)
  | .signalLock cmp => lock me m (.signalCas cmp)
  -- a failed compare-exchange leaves the current count in `cmp`
  | .signalCas cmp =>
    if m.count = cmp && !spurious then some ({ m with count := (cmp + 1) &&& mask }, .signalRead)
    else some (m, .signalCas m.count)
  | .signalRead => some (m, .signalReset m.waiters)
  | .signalReset w => some ({ m with waiters := 0 }, .signalUnlock w)
  | .signalUnlock w => some ({ m with guard := none }, if w ≠ 0 then .notifyAll else .done none)
  | .notifyAll => some ({ m with asleep := fun _ => false }, .done none)
  | .done _ => none

section Waiting
variable {T : Type*} [DecidableEq T] {me : T} {b : Bool} {m : Mem T} {cmp : Word}

/-- The count has not changed, so that the thread goes on to wait. -/
theorem access_waitLoad (h : cmp = m.count &&& mask) :
    access me b m (.waitLoad cmp) = some (m, .waitLock cmp) := if_pos h

theorem access_waitRecheck (h : cmp = m.count &&& mask) :
    access me b m (.waitRecheck cmp) = some (m, .waitRead) := if_pos h

end Waiting

/-! ## The flag and the count -/

theorem toNat_and_mask (x : Word) : (x &&& mask).toNat = x.toNat % 2 ^ 31 := by
  rw [BitVec.toNat_and, show mask.toNat = 2 ^ 31 - 1 from rfl, Nat.and_two_pow_sub_one_eq_mod]

theorem and_flag (x : Word) : x &&& flag = if 2 ^ 31 ≤ x.toNat then flag else 0 := by
  rw [show flag = BitVec.twoPow 32 31 from rfl, BitVec.and_twoPow, show x.getLsbD 31 = x.msb from rfl,
    BitVec.msb_eq_decide]
  simp

theorem and_flag_ne_zero (x : Word) : x &&& flag ≠ 0 ↔ 2 ^ 31 ≤ x.toNat := by
  rw [and_flag]
  split <;> simp_all [flag]

/-- Setting the flag keeps what is under the mask. -/
theorem toNat_or_flag (x : Word) : (x ||| flag).toNat = x.toNat % 2 ^ 31 + 2 ^ 31 := by
  have hor : x ||| flag = (x &&& mask) ||| flag := by
    have hflag : flag = ~~~mask := rfl
    ext i hi
    simp only [hflag, BitVec.getElem_or, BitVec.getElem_and, BitVec.getElem_not]
    grind
  have hand : (x &&& mask) &&& flag = 0 := by
    rw [BitVec.and_assoc, show mask &&& flag = 0#32 from rfl]
    exact BitVec.and_zero
  rw [hor, ← BitVec.add_eq_or_of_and_eq_zero _ _ hand, BitVec.toNat_add, toNat_and_mask,
    show flag.toNat = 2 ^ 31 from rfl]
  omega

/-- Counting up from 1 wraps to 0. -/
theorem reaches_zero {P : Word → Prop} (h₁ : P 1) (hs : ∀ x, P x → P (x + 1)) : P 0 := by
  have h : ∀ k : ℕ, P (BitVec.ofNat 32 (k + 1)) := by
    intro k
    induction k with
    | zero => exact h₁
    | succ k ih =>
      rw [BitVec.ofNat_add]
      exact hs _ ih
  exact h (2 ^ 32 - 1)

/-- The only `waiters += 1` that leaves 0. -/
theorem add_one_ne_zero {w : Word} (h : w ≠ 0xFFFFFFFF) : w + 1 ≠ 0 := by
  intro h₀
  refine h ?_
  rw [show (0xFFFFFFFF : Word) = 0 - 1 from rfl, ← h₀]
  exact (BitVec.add_sub_cancel w 1).symm

/-! ## The mutex -/

/-- Inside the mutex. -/
def Pc.owns : Pc → Bool
  | .waitRecheck _ | .waitRead | .waitStore _ | .waitCv | .waitUnlock => true
  | .signalCas _ | .signalRead | .signalReset _ | .signalUnlock _ => true
  | _ => false

theorem lock_eq_some {T : Type*} {me : T} {m m' : Mem T} {l l' : Pc} :
    lock me m l = some (m', l') ↔ m.guard = none ∧ m' = { m with guard := some me } ∧ l' = l := by
  unfold lock
  cases m.guard <;> simp [eq_comm]

/-- A thread that owns the mutex keeps it until its own unlock, and others leave it alone. -/
theorem access_guard {T : Type*} [DecidableEq T] {me : T} {b : Bool} {m m' : Mem T} {l l' : Pc}
    (h : access me b m l = some (m', l')) (hl : l.owns → m.guard = some me) :
    (l'.owns → m'.guard = some me) ∧ ∀ u, u ≠ me → (m'.guard = some u ↔ m.guard = some u) := by
  have hother : m.guard = some me → ∀ u, u ≠ me → m.guard ≠ some u := by
    rintro heq u hu h
    exact hu (Option.some.inj (h.symm.trans heq))
  cases l <;> simp only [access, reduceCtorEq, lock_eq_some, Option.some.injEq, Prod.mk.injEq] at h
  case waitLock | signalLock | relock =>
    obtain ⟨hnone, rfl, rfl⟩ := h
    exact ⟨fun _ => rfl, fun u hu => by simp [hnone, Ne.symm hu]⟩
  case waitCv | waitUnlock | signalUnlock w =>
    obtain ⟨rfl, rfl⟩ := h
    refine ⟨fun ho => ?_, fun u hu => by simp [hother (hl rfl) u hu]⟩
    first | exact absurd ho (by decide) | (split at ho <;> exact absurd ho Bool.false_ne_true)
  case waitLoad | waitRecheck | asleep | signalCas =>
    split at h <;> simp only [reduceCtorEq, Option.some.injEq, Prod.mk.injEq] at h <;>
      obtain ⟨rfl, rfl⟩ := h <;> exact ⟨by first | exact fun _ => hl rfl | exact nofun,
        fun _ _ => Iff.rfl⟩
  case signal =>
    obtain ⟨rfl, rfl⟩ := h
    refine ⟨fun ho => ?_, fun _ _ => Iff.rfl⟩
    unfold signalImpl at ho
    split at ho <;> exact absurd ho Bool.false_ne_true
  all_goals
    obtain ⟨rfl, rfl⟩ := h
    exact ⟨by first | exact fun _ => hl rfl | exact nofun, fun _ _ => Iff.rfl⟩

end Cds.Eventcount
