import CdsBenchmarks.Concurrent.Trace

/-! The bounded queue of `mpmc-queue/mpmc-queue.cc`, every atomic access one step. The two
operations differ in the tests and in the counters they use, so that both are one program
with a `Side`: `read_fetch` and `read_consume`, or `write_prepare` and `write_publish`. -/

namespace Cds.MpmcQueue
open Concurrent

/-- A C `unsigned int`. -/
abbrev Word := BitVec 32

/-- A C `size_t`. -/
abbrev Size := BitVec 64

/-- The atomic fields of `mpmc_boundq_1_alt`. -/
structure Mem where
  rdwr : Word
  read : Word
  written : Word
deriving DecidableEq, Repr

def mpmcBoundq : Mem := ⟨0, 0, 0⟩

inductive Side
  | read | write
deriving DecidableEq, Repr

def rdOf (rdwr : Word) : Word := (rdwr >>> 16) &&& 0xFFFF

def wrOf (rdwr : Word) : Word := rdwr &&& 0xFFFF

/-- The points before an atomic access; `hold` is between the two calls. -/
inductive Pc
  | idle
  | load (s : Side)
  | cas (s : Side) (rdwr : Word)
  | wait (s : Side) (rd wr : Word)
  | hold (s : Side) (bin : Size)
deriving DecidableEq, Repr

inductive Event
  | call (s : Side)
  /-- The successful compare-exchange. -/
  | granted (s : Side)
  /-- The return of a bin, or of `NULL`. -/
  | returned (s : Side) (bin : Option Size)
  /-- The `fetch_add` of `read_consume` or `write_publish`. -/
  | finished (s : Side) (bin : Size)
deriving DecidableEq, Repr

inductive Act
  | call (s : Side)
  | run
  /-- A weak compare-exchange fails spuriously. -/
  | spurious
  | finish
deriving DecidableEq, Repr

section Sides
variable (tSize : Size)

/-- The queue is empty, or full. -/
def Side.refuses (rdwr : Word) : Side → Bool
  | .read => wrOf rdwr == rdOf rdwr
  | .write => (wrOf rdwr).setWidth 64 == ((rdOf rdwr).setWidth 64 + tSize) &&& 0xFFFF

/-- The value that the compare-exchange stores. -/
def Side.next (rdwr : Word) : Side → Word
  | .read => rdwr + ((1 : Word) <<< 16)
  | .write => (rdOf rdwr <<< 16) ||| ((wrOf rdwr + 1) &&& 0xFFFF)

/-- The exit condition of the wait loop. -/
def Side.ready (m : Mem) (rd wr : Word) : Side → Bool
  | .read => m.written &&& 0xFFFF == wr
  | .write => m.read &&& 0xFFFF == rd

/-- The index of the bin in `m_array`. -/
def Side.bin (rd wr : Word) : Side → Size
  | .read => rd.setWidth 64 % tSize
  | .write => wr.setWidth 64 % tSize

def Side.finish (m : Mem) : Side → Mem
  | .read => { m with read := m.read + 1 }
  | .write => { m with written := m.written + 1 }

/-- The test of the value `rdwr` before the compare-exchange. -/
def test (s : Side) (rdwr : Word) : Pc × List Event :=
  if s.refuses tSize rdwr then (.idle, [.returned s none]) else (.cas s rdwr, [])

def access (spurious : Bool) (m : Mem) : Pc → Option (Mem × Pc × List Event)
  | .idle => none
  | .load s => some (m, test tSize s m.rdwr)
  | .cas s rdwr =>
    if m.rdwr = rdwr && !spurious then
      some ({ m with rdwr := s.next rdwr }, .wait s (rdOf rdwr) (wrOf rdwr), [.granted s])
    -- a failed compare-exchange leaves the current value in `rdwr`
    else some (m, test tSize s m.rdwr)
  | .wait s rd wr =>
    if s.ready m rd wr then
      some (m, .hold s (s.bin tSize rd wr), [.returned s (some (s.bin tSize rd wr))])
    else some (m, .wait s rd wr, [])
  | .hold _ _ => none

def step (a : Act) (m : Mem) (l : Pc) : Option (Mem × Pc × List Event) :=
  match a with
  | .call s => if l = .idle then some (m, .load s, [.call s]) else none
  | .run => access tSize false m l
  | .spurious => access tSize true m l
  | .finish =>
    match l with
    | .hold s bin => some (s.finish m, .idle, [.finished s bin])
    | _ => none

def program (T : Type*) : Program T Mem Pc Act Event := ⟨fun _ => step tSize⟩

end Sides

def start (T : Type*) : Config T Mem Pc := ⟨mpmcBoundq, fun _ => .idle⟩

/-! ## What a trace says -/

def isCall : Event → Bool
  | .call _ => true
  | _ => false

def isReturn : Event → Bool
  | .returned _ _ => true
  | _ => false

/-- The number of calls of `read_fetch` and `write_prepare` that have not returned. -/
def inFlight {T : Type*} (h : List (T × Event)) : ℕ :=
  h.countP (fun e => isCall e.2) - h.countP fun e => isReturn e.2

/-- The return of `NULL`, `read_consume` and `write_publish` end an operation. -/
def isEnd : Event → Bool
  | .returned _ none | .finished _ _ => true
  | _ => false

/-- The number of operations in flight, each from its call to its end. -/
def operations {T : Type*} (h : List (T × Event)) : ℕ :=
  h.countP (fun e => isCall e.2) - h.countP fun e => isEnd e.2

def isFinish (s : Side) : Event → Bool
  | .finished s' _ => s' = s
  | _ => false

/-- The number of consumes or of publishes. -/
def finishes {T : Type*} (s : Side) (h : List (T × Event)) : ℕ := h.countP fun e => isFinish s e.2

end Cds.MpmcQueue
