import CdsBenchmarks.Concurrent.Program
import Mathlib.Data.Int.Notation

/-! The queue lock of `mcs-lock/mcs-lock.cc`, every atomic access one step. Each thread has
one guard, so a node is named by its thread; the node is used again for the next
acquisition. -/

namespace Cds.McsLock
open Concurrent

/-- `m_tail` and the two fields of every thread's `m_node`; `none` is `NULL`. -/
structure Mem (T : Type*) where
  tail : Option T
  next : T → Option T
  gate : T → ℤ

/-- The points before an atomic access, between calls, and in the critical section. -/
inductive Pc (T : Type*)
  | out
  | lockNext | lockGate | exchange
  | link (pred : T)
  | spin
  | crit
  | unlockNext | unlockCas | waitNext
  | release (next : T)
deriving DecidableEq, Repr

inductive Event
  | lock | exchanged | entered
  | unlock | unlocked
deriving DecidableEq, Repr

inductive Act
  | lock | unlock | run
deriving DecidableEq, Repr

variable {T : Type*} [DecidableEq T]

def access (me : T) (m : Mem T) : Pc T → Option (Mem T × Pc T × List Event)
  | .out => none
  | .lockNext => some ({ m with next := Function.update m.next me none }, .lockGate, [])
  | .lockGate => some ({ m with gate := Function.update m.gate me 1 }, .exchange, [])
  | .exchange =>
    match m.tail with
    | none => some ({ m with tail := some me }, .crit, [.exchanged, .entered])
    | some pred => some ({ m with tail := some me }, .link pred, [.exchanged])
  | .link pred => some ({ m with next := Function.update m.next pred (some me) }, .spin, [])
  | .spin => if m.gate me ≠ 0 then some (m, .spin, []) else some (m, .crit, [.entered])
  | .crit => none
  | .unlockNext =>
    match m.next me with
    | none => some (m, .unlockCas, [])
    | some next => some (m, .release next, [])
  | .unlockCas =>
    if m.tail = some me then some ({ m with tail := none }, .out, [.unlocked])
    else some (m, .waitNext, [])
  | .waitNext =>
    match m.next me with
    | none => some (m, .waitNext, [])
    | some next => some (m, .release next, [])
  | .release next => some ({ m with gate := Function.update m.gate next 0 }, .out, [.unlocked])

def step (me : T) (a : Act) (m : Mem T) (l : Pc T) : Option (Mem T × Pc T × List Event) :=
  match a with
  | .lock => if l = .out then some (m, .lockNext, [.lock]) else none
  | .unlock => if l = .crit then some (m, .unlockNext, [.unlock]) else none
  | .run => access me m l

variable (T) in
def program : Program T (Mem T) (Pc T) Act Event := ⟨step⟩

variable (T) in
omit [DecidableEq T] in
/-- The mutex and the nodes as constructed. -/
def start : Config T (Mem T) (Pc T) := ⟨⟨none, fun _ => none, fun _ => 0⟩, fun _ => .out⟩

end Cds.McsLock
