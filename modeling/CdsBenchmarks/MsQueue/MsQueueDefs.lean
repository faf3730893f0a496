import CdsBenchmarks.Concurrent.Trace
import CdsBenchmarks.MsQueue.Pointer
import Mathlib.Data.List.FinRange

/-! The queue of `ms-queue/queue.c`, every shared access one step. A search of a thread's
own free list is one step, since no other thread reads or writes that list. -/

namespace Cds.MsQueue
open Concurrent

/-- `MAX_FREELIST`. -/
def maxFreelist : ℕ := 4

/-- `INITIAL_FREE`. -/
def initialFree : ℕ := 2

/-- `MAX_NODES`. -/
def maxNodes : ℕ := 0xf

/-- `POISON_IDX`. -/
def poisonIdx : UInt := 0x666

/-- The queue with its nodes, and the free list of each of `n` threads. -/
structure Mem (n : ℕ) where
  head : Pointer
  tail : Pointer
  value : UInt → UInt
  next : UInt → Pointer
  freeLists : Fin n → Fin maxFreelist → UInt

variable {n : ℕ}

def Mem.setFree (m : Mem n) (t : Fin n) (i : Fin maxFreelist) (node : UInt) : Mem n :=
  { m with freeLists := Function.update m.freeLists t (Function.update (m.freeLists t) i node) }

/-- The first slot of the own free list that holds a node, which is taken out. -/
def newNode (t : Fin n) (m : Mem n) : Option (Mem n × UInt) :=
  ((List.finRange maxFreelist).find? fun i => m.freeLists t i ≠ 0).map fun i =>
    (m.setFree t i 0, m.freeLists t i)

/-- The node goes into the first empty slot of the own free list, if there is one. -/
def reclaim (t : Fin n) (m : Mem n) (node : UInt) : Mem n :=
  match (List.finRange maxFreelist).find? fun i => m.freeLists t i = 0 with
  | some i => m.setFree t i node
  | none => m

/-- `2 + i * MAX_FREELIST + j`. -/
def initialNode (i : Fin n) (j : Fin maxFreelist) : UInt := BitVec.ofNat 32 (2 + i * maxFreelist + j)

/-- `init_queue(q, n)` on a queue and a block from `malloc` with any content. -/
def initQueue (m : Mem n) : Mem n where
  head := makePointer 1 0
  tail := makePointer 1 0
  value := m.value
  next node := if node = 1 then makePointer 0 0
    else if ∃ i j, j.val < initialFree ∧ node = initialNode (n := n) i j then makePointer poisonIdx 0
    else m.next node
  freeLists i j := if j.val < initialFree then initialNode i j else m.freeLists i j

inductive Op
  | enqueue (val : UInt)
  | dequeue
deriving DecidableEq, Repr

inductive Res
  | void
  | returnFalse
  | returnTrue (retVal reclaimNode : UInt)
deriving DecidableEq, Repr

/-- The points before an access, with the local variables still to be used. -/
inductive Pc
  | idle
  | enqNew (val : UInt)
  | enqValue (val node : UInt)
  | enqLoad (val node : UInt)
  | enqStore (val node : UInt) (tmp : Pointer)
  | enqTail (val node : UInt)
  | enqNext (val node : UInt) (tail : Pointer)
  | enqCheck (val node : UInt) (tail next : Pointer)
  | enqLink (val node : UInt) (tail next : Pointer)
  | enqReload (val node : UInt) (tail : Pointer)
  | enqHelp (val node : UInt) (tail : Pointer) (ptr : UInt)
  | enqSwing (node : UInt) (tail : Pointer)
  | deqHead
  | deqTail (head : Pointer)
  | deqNext (head tail : Pointer)
  | deqCheck (head tail next : Pointer)
  | deqHelp (tail next : Pointer)
  | deqValue (head next : Pointer)
  | deqUnlink (head next : Pointer) (retVal : UInt)
  | deqReclaim (head : Pointer) (retVal : UInt)
  | ret (r : Res)
  /-- A failed `MODEL_ASSERT`. -/
  | failed
deriving DecidableEq, Repr

inductive Act
  | call (o : Op)
  | run
deriving DecidableEq, Repr

/-- The words with a counter. -/
inductive Tagged
  | head
  | tail
  | next (node : UInt)
deriving DecidableEq, Repr

/-- Calls and returns, successful compare-exchanges, those that link a new node and unlink
the first one, and the loads of `head`'s `next` in `dequeue`. -/
inductive Event
  | call (o : Op)
  | cas (w : Tagged)
  | link (val : UInt)
  | look
  | unlink
  | ret (r : Res)
deriving DecidableEq, Repr

def Op.entry : Op → Pc
  | .enqueue val => .enqNew val
  | .dequeue => .deqHead

/-- A compare-exchange on `tail`. -/
def casTail (m : Mem n) (tail : Pointer) (ptr : UInt) (l : Pc) : Mem n × Pc × List Event :=
  if m.tail = tail then ({ m with tail := bump ptr tail }, l, [.cas .tail]) else (m, l, [])

/-- The next access of a call by thread `t`. -/
def access (t : Fin n) (m : Mem n) : Pc → Option (Mem n × Pc × List Event)
  | .idle => none
  | .enqNew val =>
    match newNode t m with
    | some (m, node) => some (m, .enqValue val node, [])
    | none => some (m, .failed, [])
  | .enqValue val node =>
      some ({ m with value := Function.update m.value node val }, .enqLoad val node, [])
  | .enqLoad val node => some (m, .enqStore val node (m.next node), [])
  | .enqStore val node tmp =>
    some ({ m with next := Function.update m.next node (setPtr tmp 0) }, .enqTail val node, [])
  | .enqTail val node => some (m, .enqNext val node m.tail, [])
  | .enqNext val node tail => some (m, .enqCheck val node tail (m.next (getPtr tail)), [])
  | .enqCheck val node tail next =>
    if tail = m.tail then
      if getPtr next = 0 then some (m, .enqLink val node tail next, [])
      else some (m, .enqReload val node tail, [])
    else some (m, .enqTail val node, [])
  | .enqLink val node tail next =>
    if m.next (getPtr tail) = next then
      some ({ m with next := Function.update m.next (getPtr tail) (bump node next) },
        .enqSwing node tail,
        [.cas (.next (getPtr tail)), .link val])
    else some (m, .enqReload val node tail, [])
  | .enqReload val node tail => some (m, .enqHelp val node tail (getPtr (m.next (getPtr tail))), [])
  | .enqHelp val node tail ptr => some (casTail m tail ptr (.enqTail val node))
  | .enqSwing node tail => some (casTail m tail node (.ret .void))
  | .deqHead => some (m, .deqTail m.head, [])
  | .deqTail head => some (m, .deqNext head m.tail, [])
  | .deqNext head tail => some (m, .deqCheck head tail (m.next (getPtr head)), [.look])
  | .deqCheck head tail next =>
    if m.head = head then
      if getPtr head = getPtr tail then
        if getPtr next ≠ poisonIdx then
          if getPtr next = 0 then some (m, .ret .returnFalse, []) else some (m, .deqHelp tail next, [])
        else some (m, .failed, [])
      else some (m, .deqValue head next, [])
    else some (m, .deqHead, [])
  | .deqHelp tail next => some (casTail m tail (getPtr next) .deqHead)
  | .deqValue head next => some (m, .deqUnlink head next (m.value (getPtr next)), [])
  | .deqUnlink head next retVal =>
    if m.head = head then
      some ({ m with head := bump (getPtr next) head }, .deqReclaim head retVal, [.cas .head, .unlink])
    else some (m, .deqHead, [])
  | .deqReclaim head retVal =>
      some (reclaim t m (getPtr head), .ret (.returnTrue retVal (getPtr head)), [])
  | .ret r => some (m, .idle, [.ret r])
  | .failed => none

def step (t : Fin n) (a : Act) (m : Mem n) (l : Pc) : Option (Mem n × Pc × List Event) :=
  match a with
  | .call o => if l = .idle then some (m, o.entry, [.call o]) else none
  | .run => access t m l

variable (n) in
def program : Program (Fin n) (Mem n) Pc Act Event := ⟨step⟩

def start (m : Mem n) : Config (Fin n) (Mem n) Pc := ⟨initQueue m, fun _ => .idle⟩

/-- Fewer than `2^32` compare-exchanges succeed on any word. -/
def NoWrap (tr : List (Fin n × Event)) : Prop := ∀ w, occurrences (.cas w) tr < 2 ^ 32

/-! ## The atomic queue -/

inductive Status
  | idle
  | enqueueing (val : UInt)
  | enqueued
  /-- `empty` says whether the queue was empty at the last load of `head`'s `next`. -/
  | dequeueing (empty : Bool)
  | dequeued (val : UInt)
deriving DecidableEq, Repr

/-- The elements, oldest first, and how far the call of each thread is. -/
structure Fifo (T : Type*) where
  queue : List UInt
  status : T → Status

variable {T : Type*} [DecidableEq T]

def Fifo.set (q : Fifo T) (t : T) (x : Status) : Fifo T :=
  { q with status := Function.update q.status t x }

/-- What an event of `t` does to the atomic queue, if it is allowed: an enqueue appends its
value at its `link`, a dequeue removes the first element at its `unlink` and returns it,
and it returns false only if it saw the queue empty. -/
def Fifo.next (q : Fifo T) (t : T) : Event → Option (Fifo T)
  | .call o =>
    match q.status t with
    | .idle => some (q.set t (match o with
      | .enqueue val => .enqueueing val
      | .dequeue => .dequeueing false))
    | _ => none
  | .cas _ => some q
  | .link val =>
    if q.status t = .enqueueing val then some ({ q with queue := q.queue ++ [val] }.set t .enqueued)
    else none
  | .look =>
    match q.status t with
    | .dequeueing _ => some (q.set t (.dequeueing q.queue.isEmpty))
    | _ => none
  | .unlink =>
    match q.status t, q.queue with
    | .dequeueing _, val :: queue => some ({ q with queue := queue }.set t (.dequeued val))
    | _, _ => none
  | .ret r =>
    match q.status t, r with
    | .enqueued, .void => some (q.set t .idle)
    | .dequeueing true, .returnFalse => some (q.set t .idle)
    | .dequeued val, .returnTrue retVal _ => if retVal = val then some (q.set t .idle) else none
    | _, _ => none

/-- The atomic queue after a trace, if it allows the trace. -/
def fifo (tr : List (T × Event)) : Option (Fifo T) :=
  tr.foldlM (fun q e => q.next e.1 e.2) ⟨[], fun _ => .idle⟩

/-- The values that have been linked, in order. -/
def linked (tr : List (T × Event)) : List UInt :=
  tr.filterMap fun e => match e.2 with
    | .link val => some val
    | _ => none

end Cds.MsQueue
