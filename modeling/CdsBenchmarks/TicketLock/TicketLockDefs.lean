import CdsBenchmarks.Concurrent.Trace

/-! The ticket lock of `ticket-lock/lock.c`, every atomic access one step. Both counters
are `atomic_uint` and wrap. -/

namespace Cds.TicketLock
open Concurrent

structure Mem where
  ticket : BitVec 32
  turn : BitVec 32
deriving DecidableEq, Repr

/-- The points before an atomic access, between calls (`out`), and between the return of
`lock` and the call of `unlock` (`crit`). -/
inductive Pc
  | out
  | fetchAdd
  | spin (ticket : BitVec 32)
  | crit
  | unlockLoad
  | unlockStore (turn : BitVec 32)
deriving DecidableEq, Repr

inductive Event
  | lock | drawn | entered
  | unlock | unlocked
deriving DecidableEq, Repr

inductive Act
  | lock | unlock | run
deriving DecidableEq, Repr

def access (m : Mem) : Pc → Option (Mem × Pc × List Event)
  | .out => none
  | .fetchAdd => some ({ m with ticket := m.ticket + 1 }, .spin m.ticket, [.drawn])
  | .spin ticket =>
    if m.turn = ticket then some (m, .crit, [.entered]) else some (m, .spin ticket, [])
  | .crit => none
  | .unlockLoad => some (m, .unlockStore m.turn, [])
  | .unlockStore turn => some ({ m with turn := turn + 1 }, .out, [.unlocked])

def step (a : Act) (m : Mem) (l : Pc) : Option (Mem × Pc × List Event) :=
  match a with
  | .lock => if l = .out then some (m, .fetchAdd, [.lock]) else none
  | .unlock => if l = .crit then some (m, .unlockLoad, [.unlock]) else none
  | .run => access m l

def program (T : Type*) : Program T Mem Pc Act Event := ⟨fun _ => step⟩

/-- The lock after `initTicketLock`, every thread outside. -/
def start (T : Type*) : Config T Mem Pc := ⟨⟨0, 0⟩, fun _ => .out⟩

/-- Between the return of `lock` and the store in `unlock`. -/
def Pc.inside : Pc → Bool
  | .crit | .unlockLoad | .unlockStore _ => true
  | _ => false

/-- A ticket is drawn and the store in `unlock` is still to come. -/
def Pc.outstanding : Pc → Bool
  | .out | .fetchAdd => false
  | _ => true

end Cds.TicketLock
