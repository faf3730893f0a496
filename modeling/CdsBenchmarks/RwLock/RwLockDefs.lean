import CdsBenchmarks.Concurrent.Program
import Mathlib.Data.Int.Notation

/-! The reader-writer lock of `linuxrwlocks/linuxrwlocks.c`, every atomic access one step
on a 32-bit signed counter whose `fetch_add` and `fetch_sub` wrap. A thread holds at most
one lock and unlocks only what it holds. -/

namespace Cds.RwLock
open Concurrent

abbrev CInt := BitVec 32

/-- `RW_LOCK_BIAS`. -/
def bias : ℤ := 0x00100000

def rwLockBias : CInt := 0x00100000

structure Mem where
  lock : CInt
deriving DecidableEq, Repr

/-- What a thread holds between calls. -/
inductive Held
  | nothing
  | read
  | write
deriving DecidableEq, Repr

inductive Op
  | readCanLock | writeCanLock
  | readLock | writeLock
  | readTrylock | writeTrylock
  | readUnlock | writeUnlock
deriving DecidableEq, Repr

/-- The points before an atomic access, named after the access. -/
inductive Pc
  | rest (h : Held)
  | readCan (h : Held)
  | writeCan (h : Held)
  | readSub | readUndo | readSpin
  | writeSub | writeUndo | writeSpin
  | readTry | readTryUndo
  | writeTry | writeTryUndo
  | readUnlock | writeUnlock
deriving DecidableEq, Repr

inductive Event
  | call (o : Op)
  /-- The result of a call; `none` for `void`. -/
  | ret (v : Option ℤ)
deriving DecidableEq, Repr

inductive Act
  | call (o : Op)
  | run
deriving DecidableEq, Repr

/-- The calls a thread may make, given what it holds. -/
def Op.entry : Op → Held → Option Pc
  | .readCanLock, h => some (.readCan h)
  | .writeCanLock, h => some (.writeCan h)
  | .readLock, .nothing => some .readSub
  | .writeLock, .nothing => some .writeSub
  | .readTrylock, .nothing => some .readTry
  | .writeTrylock, .nothing => some .writeTry
  | .readUnlock, .read => some .readUnlock
  | .writeUnlock, .write => some .writeUnlock
  | _, _ => none

def access (m : Mem) : Pc → Option (Mem × Pc × List Event)
  | .rest _ => none
  | .readCan h => some (m, .rest h, [.ret (some (if 0 < m.lock.toInt then 1 else 0))])
  | .writeCan h => some (m, .rest h, [.ret (some (if m.lock = rwLockBias then 1 else 0))])
  | .readSub =>
    if m.lock.toInt ≤ 0 then some (⟨m.lock - 1⟩, .readUndo, [])
    else some (⟨m.lock - 1⟩, .rest .read, [.ret none])
  | .readUndo => some (⟨m.lock + 1⟩, .readSpin, [])
  | .readSpin => if m.lock.toInt ≤ 0 then some (m, .readSpin, []) else some (m, .readSub, [])
  | .writeSub =>
    if m.lock ≠ rwLockBias then some (⟨m.lock - rwLockBias⟩, .writeUndo, [])
    else some (⟨m.lock - rwLockBias⟩, .rest .write, [.ret none])
  | .writeUndo => some (⟨m.lock + rwLockBias⟩, .writeSpin, [])
  | .writeSpin => if m.lock ≠ rwLockBias then some (m, .writeSpin, []) else some (m, .writeSub, [])
  | .readTry =>
    if 0 < m.lock.toInt then some (⟨m.lock - 1⟩, .rest .read, [.ret (some 1)])
    else some (⟨m.lock - 1⟩, .readTryUndo, [])
  | .readTryUndo => some (⟨m.lock + 1⟩, .rest .nothing, [.ret (some 0)])
  | .writeTry =>
    if m.lock = rwLockBias then some (⟨m.lock - rwLockBias⟩, .rest .write, [.ret (some 1)])
    else some (⟨m.lock - rwLockBias⟩, .writeTryUndo, [])
  | .writeTryUndo => some (⟨m.lock + rwLockBias⟩, .rest .nothing, [.ret (some 0)])
  | .readUnlock => some (⟨m.lock + 1⟩, .rest .nothing, [.ret none])
  | .writeUnlock => some (⟨m.lock + rwLockBias⟩, .rest .nothing, [.ret none])

def step (a : Act) (m : Mem) (l : Pc) : Option (Mem × Pc × List Event) :=
  match a, l with
  | .call o, .rest h => (o.entry h).map fun l' => (m, l', [.call o])
  | .call _, _ => none
  | .run, l => access m l

def program (T : Type*) : Program T Mem Pc Act Event := ⟨fun _ => step⟩

def start (T : Type*) : Config T Mem Pc := ⟨⟨rwLockBias⟩, fun _ => .rest .nothing⟩

/-! ## Who holds and who is mid-attempt -/

/-- Holds the read lock: from its successful `fetch_sub` to its `read_unlock`'s `fetch_add`. -/
def Pc.readHolder : Pc → Bool
  | .rest .read | .readCan .read | .writeCan .read | .readUnlock => true
  | _ => false

def Pc.writeHolder : Pc → Bool
  | .rest .write | .readCan .write | .writeCan .write | .writeUnlock => true
  | _ => false

/-- Between a failed `fetch_sub` of 1 and its compensating `fetch_add`. -/
def Pc.readDebt : Pc → Bool
  | .readUndo | .readTryUndo => true
  | _ => false

def Pc.writeDebt : Pc → Bool
  | .writeUndo | .writeTryUndo => true
  | _ => false

end Cds.RwLock
