import CdsBenchmarks.Concurrent.Linearizability
import Mathlib.Data.BitVec
import Mathlib.Data.Finset.Insert

/-! The read-copy-update pair of `read-copy-update/rcu.cc`, every atomic access one step.
Sums of `int` wrap; a published `Data` is never freed. -/

namespace Cds.Rcu
open Concurrent

/-- A C `int`. -/
abbrev CInt := BitVec 32

/-- `dataPtr`, the fields of the `Data` at every address, and the addresses in use. -/
structure Mem (A : Type*) where
  dataPtr : A
  data1 : A → CInt
  data2 : A → CInt
  used : Finset A

inductive Op
  | read
  | write (data1 data2 : CInt)
deriving DecidableEq, Repr

/-- What a call leaves behind: `*data1, *data2` for a read, nothing for a write. -/
abbrev Res := Option (CInt × CInt)

/-- The points before an atomic access. `x` is a loaded field of `prev`. -/
inductive Pc (A : Type*)
  | idle
  | readPtr
  | readData1 (res : A)
  | readData2 (res : A) (data1 : CInt)
  | writeNew (data1 data2 : CInt)
  | writePtr (data1 data2 : CInt) (tmp : A)
  | incLoad1 (data1 data2 : CInt) (tmp prev : A)
  | incStore1 (data1 data2 : CInt) (tmp prev : A) (x : CInt)
  | incLoad2 (data1 data2 : CInt) (tmp prev : A)
  | incStore2 (data1 data2 : CInt) (tmp prev : A) (x : CInt)
  | writeCas (data1 data2 : CInt) (tmp prev : A)
  | ret (r : Res)
deriving DecidableEq, Repr

inductive Event
  | call (o : Op)
  | loaded
  | swung (data1 data2 : CInt)
  | ret (r : Res)
deriving DecidableEq, Repr

/-- The operation an idle thread calls, or the address `new` returns. -/
inductive Act (A : Type*)
  | call (o : Op)
  | alloc (a : A)
  | run

variable {T A : Type*} [DecidableEq A]

def Op.entry : Op → Pc A
  | .read => .readPtr
  | .write d1 d2 => .writeNew d1 d2

def access (m : Mem A) : Pc A → Option (Mem A × Pc A × List Event)
  | .idle => none
  | .readPtr => some (m, .readData1 m.dataPtr, [.loaded])
  | .readData1 res => some (m, .readData2 res (m.data1 res), [])
  | .readData2 res d1 => some (m, .ret (some (d1, m.data2 res)), [])
  | .writeNew _ _ => none
  | .writePtr d1 d2 tmp => some (m, .incLoad1 d1 d2 tmp m.dataPtr, [])
  | .incLoad1 d1 d2 tmp prev => some (m, .incStore1 d1 d2 tmp prev (m.data1 prev), [])
  | .incStore1 d1 d2 tmp prev x =>
    some ({ m with data1 := Function.update m.data1 tmp (x + d1) }, .incLoad2 d1 d2 tmp prev, [])
  | .incLoad2 d1 d2 tmp prev => some (m, .incStore2 d1 d2 tmp prev (m.data2 prev), [])
  | .incStore2 d1 d2 tmp prev x =>
    some ({ m with data2 := Function.update m.data2 tmp (x + d2) }, .writeCas d1 d2 tmp prev, [])
  | .writeCas d1 d2 tmp prev =>
    if m.dataPtr = prev then some ({ m with dataPtr := tmp }, .ret none, [.swung d1 d2])
    else some (m, .writePtr d1 d2 tmp, [])
  | .ret r => some (m, .idle, [.ret r])

def step (a : Act A) (m : Mem A) (l : Pc A) : Option (Mem A × Pc A × List Event) :=
  match a with
  | .call o => if l = .idle then some (m, o.entry, [.call o]) else none
  | .alloc a =>
    match l with
    | .writeNew d1 d2 =>
      if a ∈ m.used then none else some ({ m with used := insert a m.used }, .writePtr d1 d2 a, [])
    | _ => none
  | .run => access m l

variable (T A) in
def program : Program T (Mem A) (Pc A) (Act A) Event := ⟨fun _ => step⟩

omit [DecidableEq A] in
/-- No call is in progress yet; `dataPtr` is initialised and the rest of the memory arbitrary. -/
def start (T : Type*) (m : Mem A) : Config T (Mem A) (Pc A) := ⟨m, fun _ => .idle⟩

/-- The pair `dataPtr` points to. -/
def Mem.pair (m : Mem A) : CInt × CInt := (m.data1 m.dataPtr, m.data2 m.dataPtr)

/-! ## What a trace says -/

/-- The arguments of the writes, in the order of their successful compare_exchanges. -/
def writes (h : List (T × Event)) : List (CInt × CInt) :=
  h.filterMap fun x => match x.2 with
    | .swung d1 d2 => some (d1, d2)
    | _ => none

/-- The pair `s` with every write of the trace added. -/
def plus (s : CInt × CInt) (h : List (T × Event)) : CInt × CInt :=
  (s.1 + ((writes h).map Prod.fst).sum, s.2 + ((writes h).map Prod.snd).sum)

/-- The points of linearization: the load of a read, the compare_exchange of a write. -/
def Event.mark : Event → Mark Op Res
  | .call o => .call o
  | .loaded | .swung _ _ => .lin
  | .ret r => .ret r

def marks (h : List (T × Event)) : List (T × Mark Op Res) := h.map fun x => (x.1, x.2.mark)

/-- A pair of counters that grow by the arguments of a write. -/
def counters (s : CInt × CInt) : ObjectSpec (CInt × CInt) Op Res where
  init := s
  post s o r s' :=
    match o with
    | .read => r = some s ∧ s' = s
    | .write d1 d2 => r = none ∧ s' = (s.1 + d1, s.2 + d2)

end Cds.Rcu
