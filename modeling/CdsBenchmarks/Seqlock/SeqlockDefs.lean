import CdsBenchmarks.Concurrent.Linearizability
import Mathlib.Algebra.Group.Nat.Defs

/-! The sequence lock of `seqlock/seqlock.cc`, every atomic access one step. `_seq` is a
32-bit `int`: `fetch_add` wraps in two's complement and `%` is the truncating remainder.
Under sequential consistency the fences and `thrd_yield` are no steps. -/

namespace Cds.Seqlock
open Concurrent

/-- A C `int`. -/
abbrev CInt := BitVec 32

/-- The fields of class `seqlock`. -/
structure Mem where
  seq : CInt
  data1 : CInt
  data2 : CInt
deriving DecidableEq, Repr

def seqlock : Mem := ⟨0, 0, 0⟩

inductive Op
  | read
  | write (data1 data2 : CInt)
deriving DecidableEq, Repr

/-- What a call leaves behind: `*data1, *data2` for a read, nothing for a write. -/
abbrev Res := Option (CInt × CInt)

inductive Pc
  | idle
  | readSeq
  | readData1 (oldSeq : CInt)
  | readData2 (oldSeq data1 : CInt)
  | readCheck (oldSeq data1 data2 : CInt)
  | writeSeq (data1 data2 : CInt)
  | writeCas (oldSeq data1 data2 : CInt)
  | writeData1 (data1 data2 : CInt)
  | writeData2 (data1 data2 : CInt)
  | writeAdd (data1 data2 : CInt)
  | ret (r : Res)
deriving DecidableEq, Repr

inductive Act
  | call (o : Op)
  | run
deriving DecidableEq, Repr

/-- The test `old_seq % 2 == 1`. -/
def busy (oldSeq : CInt) : Bool := oldSeq.srem 2 == 1

/-- The first program point of a call. -/
def Op.entry : Op → Pc
  | .read => .readSeq
  | .write d1 d2 => .writeSeq d1 d2

/-- The next shared access of a thread inside a call. -/
def access (m : Mem) : Pc → Option (Mem × Pc × List (Mark Op Res))
  | .idle => none
  | .readSeq => if busy m.seq then some (m, .readSeq, []) else some (m, .readData1 m.seq, [])
  | .readData1 oldSeq => some (m, .readData2 oldSeq m.data1, [])
  | .readData2 oldSeq d1 => some (m, .readCheck oldSeq d1 m.data2, [])
  | .readCheck oldSeq d1 d2 =>
    if m.seq = oldSeq then some (m, .ret (some (d1, d2)), [.lin]) else some (m, .readSeq, [])
  | .writeSeq d1 d2 =>
    if busy m.seq then some (m, .writeSeq d1 d2, []) else some (m, .writeCas m.seq d1 d2, [])
  | .writeCas oldSeq d1 d2 =>
    if m.seq = oldSeq then some ({ m with seq := oldSeq + 1 }, .writeData1 d1 d2, [])
    else some (m, .writeSeq d1 d2, [])
  | .writeData1 d1 d2 => some ({ m with data1 := d1 }, .writeData2 d1 d2, [])
  | .writeData2 d1 d2 => some ({ m with data2 := d2 }, .writeAdd d1 d2, [])
  -- the final `fetch_add`: the write takes effect
  | .writeAdd _ _ => some ({ m with seq := m.seq + 1 }, .ret none, [.lin])
  | .ret r => some (m, .idle, [.ret r])

def step (a : Act) (m : Mem) (l : Pc) : Option (Mem × Pc × List (Mark Op Res)) :=
  match a with
  | .call o => if l = .idle then some (m, o.entry, [.call o]) else none
  | .run => access m l

def program (T : Type*) : Program T Mem Pc Act (Mark Op Res) := ⟨fun _ => step⟩

def start (T : Type*) : Config T Mem Pc := ⟨seqlock, fun _ => .idle⟩

/-- Between the successful `compare_exchange` and the final `fetch_add` of a write. -/
def Pc.inWindow : Pc → Bool
  | .writeData1 .. | .writeData2 .. | .writeAdd .. => true
  | _ => false

/-- Past the parity test of `read`, in the same iteration. -/
def Pc.pastTest : Pc → Bool
  | .readData1 .. | .readData2 .. | .readCheck .. => true
  | _ => false

/-! ## The parity test -/

theorem toInt_srem_two (x : CInt) : (x.srem 2).toInt =
    if x.toNat % 2 = 0 then 0 else if x.toNat < 2 ^ 31 then 1 else -1 := by
  have hx := x.isLt
  have h2 : (2 : CInt).toInt = 2 := by decide
  rw [BitVec.toInt_srem, BitVec.toInt_eq_toNat_cond, h2, Int.tmod_eq_emod]
  split_ifs <;> omega

theorem busy_iff (x : CInt) : busy x = true ↔ x.toNat % 2 = 1 ∧ x.toNat < 2 ^ 31 := by
  have h := toInt_srem_two x
  have h1 : (1 : CInt).toInt = 1 := by decide
  rw [busy, beq_iff_eq, ← BitVec.toInt_inj, h, h1]
  split_ifs <;> simp <;> omega

/-- An odd value for which `%` is `-1`, so that the parity test does not see it. -/
def hiddenOdd (x : CInt) : Bool := x.srem 2 == -1

theorem hiddenOdd_iff (x : CInt) : hiddenOdd x = true ↔ x.toNat % 2 = 1 ∧ 2 ^ 31 ≤ x.toNat := by
  have h := toInt_srem_two x
  have h1 : (-1 : CInt).toInt = -1 := by decide
  rw [hiddenOdd, beq_iff_eq, ← BitVec.toInt_inj, h, h1]
  split_ifs <;> simp <;> omega

theorem odd_iff (x : CInt) : x.toNat % 2 = 1 ↔ busy x = true ∨ hiddenOdd x = true := by
  rw [busy_iff, hiddenOdd_iff]
  omega

@[simp] theorem toNat_succ_mod_two (x : CInt) : (x + 1).toNat % 2 = (x.toNat + 1) % 2 := by
  have hx := x.isLt
  rw [BitVec.toNat_add, show (1 : CInt).toNat = 1 from rfl]
  omega

end Cds.Seqlock
