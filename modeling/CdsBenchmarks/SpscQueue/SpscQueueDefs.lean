import CdsBenchmarks.SpscQueue.EventcountDefs

/-! The single-producer single-consumer queue of `spsc-bugfix/queue.cc`, every shared access
one step. Nodes are numbered in the order of their `new` and a number is never used
again, so that `deleted` tells for good which nodes are gone. -/

namespace Cds.SpscQueue
open Concurrent
open Eventcount (Word)

/-- A C `int`, the element type. -/
abbrev CInt := BitVec 32

inductive Thread
  | producer | consumer
deriving DecidableEq, Repr

/-- The fields of class `spsc_queue`, and the heap of its nodes. -/
structure Mem where
  next : ℕ → Option ℕ
  data : ℕ → CInt
  deleted : ℕ → Bool
  fresh : ℕ
  head : ℕ
  tail : ℕ
  ec : Eventcount.Mem Thread

/-- The queue as constructed: one node, which is both `head` and `tail`. -/
def spscQueue : Mem :=
  ⟨fun _ => none, fun _ => 0, fun _ => false, 1, 0, 0, Eventcount.eventcount Thread⟩

/-- The three calls of `try_dequeue` in `dequeue`, the second with the count got before it. -/
inductive Site
  | first
  | second (cmp : Word)
  | third
deriving DecidableEq, Repr

inductive Pc
  | idle
  | enqNew (data : CInt)
  | enqHead (data : CInt) (n : ℕ)
  | enqLink (data : CInt) (n h : ℕ)
  | enqMove (n : ℕ)
  | signal (p : Eventcount.Pc)
  | deqTail (s : Site)
  | deqNext (s : Site) (t : ℕ)
  | deqData (s : Site) (t n : ℕ)
  | deqDelete (s : Site) (t n : ℕ) (data : CInt)
  /-- In `ec.get` or `ec.wait`. -/
  | event (p : Eventcount.Pc)
  | deqRet (data : CInt)
deriving DecidableEq, Repr

inductive Event
  | enqueue (data : CInt)
  /-- The store to `head->next`. -/
  | linked (data : CInt)
  | notified
  | dequeue
  /-- `delete (t); tail = n;`. -/
  | unlinked (data : CInt)
  | returned (data : CInt)
deriving DecidableEq, Repr

inductive Act
  | enqueue (data : CInt)
  | dequeue
  | run
  /-- A weak compare-exchange fails, or the sleeping thread wakes, spuriously. -/
  | spurious
deriving DecidableEq, Repr

/-- Where `dequeue` goes on after a `try_dequeue` that returned `data`. -/
def Site.resume (data : CInt) : Site → Pc
  | .first => if data = 0 then .event .get else .deqRet data
  | .second cmp => if data = 0 then .event (.waitLoad cmp) else .deqRet data
  | .third => if data = 0 then .event .get else .deqRet data

theorem Site.resume_of_ne_zero {data : CInt} (h : data ≠ 0) (s : Site) :
    s.resume data = .deqRet data := by
  cases s <;> exact if_neg h

/-- `signal` returns at the end of `enqueue`. -/
def afterSignal : Eventcount.Pc → Pc
  | .done _ => .idle
  | p => .signal p

/-- `get` is followed by the second `try_dequeue`, `wait` by the third. -/
def afterEvent : Eventcount.Pc → Pc
  | .done (some cmp) => .deqTail (.second cmp)
  | .done none => .deqTail .third
  | p => .event p

/-- Inside the mutex of the eventcount. -/
def Pc.owns : Pc → Bool
  | .signal p | .event p => p.owns
  | _ => false

theorem owns_afterSignal {p : Eventcount.Pc} (h : (afterSignal p).owns) : p.owns := by
  cases p <;> exact h

theorem owns_afterEvent {p : Eventcount.Pc} (h : (afterEvent p).owns) : p.owns := by
  cases p with
  | done r => cases r <;> exact absurd h Bool.false_ne_true
  | _ => exact h

def access (me : Thread) (spurious : Bool) (m : Mem) : Pc → Option (Mem × Pc × List Event)
  | .idle => none
  | .enqNew data => some ({ m with data := Function.update m.data m.fresh data
                                   next := Function.update m.next m.fresh none
                                   fresh := m.fresh + 1 }, .enqHead data m.fresh, [])
  | .enqHead data n => some (m, .enqLink data n m.head, [])
  | .enqLink data n h =>
    some ({ m with next := Function.update m.next h (some n) }, .enqMove n, [.linked data])
  | .enqMove n => some ({ m with head := n }, .signal .signal, [])
  | .signal p => (Eventcount.access me spurious m.ec p).map fun r =>
      ({ m with ec := r.1 }, afterSignal r.2, if p = .notifyAll then [.notified] else [])
  | .deqTail s => some (m, .deqNext s m.tail, [])
  | .deqNext s t =>
    match m.next t with
    | none => some (m, s.resume 0, [])
    | some n => some (m, .deqData s t n, [])
  | .deqData s t n => some (m, .deqDelete s t n (m.data n), [])
  | .deqDelete s t n data => some ({ m with deleted := Function.update m.deleted t true, tail := n },
      s.resume data, [.unlinked data])
  | .event p => (Eventcount.access me spurious m.ec p).map fun r =>
    ({ m with ec := r.1 }, afterEvent r.2, [])
  | .deqRet data => some (m, .idle, [.returned data])

def step (me : Thread) (a : Act) (m : Mem) (l : Pc) : Option (Mem × Pc × List Event) :=
  match a with
  | .enqueue data =>
    if me = .producer ∧ l = .idle then some (m, .enqNew data, [.enqueue data]) else none
  | .dequeue => if me = .consumer ∧ l = .idle then some (m, .deqTail .first, [.dequeue]) else none
  | .run => access me false m l
  | .spurious => access me true m l

def program : Program Thread Mem Pc Act Event := ⟨step⟩

theorem step_event {me : Thread} {m : Mem} {e : Eventcount.Mem Thread} {p p' : Eventcount.Pc}
    (h : Eventcount.access me false m.ec p = some (e, p')) :
    program.step me .run m (.event p) = some ({ m with ec := e }, afterEvent p', []) := by
  change (Eventcount.access me false m.ec p).map _ = _
  rw [h]
  rfl

def start : Config Thread Mem Pc := ⟨spscQueue, fun _ => .idle⟩

/-! ## What a trace and a state say -/

/-- The values whose store to `head->next` has been executed, in order. -/
def linkedValues (h : List (Thread × Event)) : List CInt :=
  h.filterMap fun e => match e.2 with
    | .linked data => some data
    | _ => none

/-- The values `dequeue` has returned, in order. -/
def returnedValues (h : List (Thread × Event)) : List CInt :=
  h.filterMap fun e => match e.2 with
    | .returned data => some data
    | _ => none

/-- The values of the nodes the consumer has unlinked, in order. -/
def unlinkedValues (h : List (Thread × Event)) : List CInt :=
  h.filterMap fun e => match e.2 with
    | .unlinked data => some data
    | _ => none

theorem linkedValues_append (h h' : List (Thread × Event)) :
    linkedValues (h ++ h') = linkedValues h ++ linkedValues h' := List.filterMap_append ..

theorem returnedValues_append (h h' : List (Thread × Event)) :
    returnedValues (h ++ h') = returnedValues h ++ returnedValues h' := List.filterMap_append ..

theorem unlinkedValues_append (h h' : List (Thread × Event)) :
    unlinkedValues (h ++ h') = unlinkedValues h ++ unlinkedValues h' := List.filterMap_append ..

/-- The values in the nodes strictly after `n` along `next`. -/
inductive Contents (m : Mem) : ℕ → List CInt → Prop
  | nil {n} (h : m.next n = none) : Contents m n []
  | cons {n k vs} (h : m.next n = some k) (hk : Contents m k vs) : Contents m n (m.data k :: vs)

/-- The value unlinked and not yet returned. -/
def Pc.holding : Pc → List CInt
  | .deqRet data => [data]
  | _ => []

/-- The node that the next step dereferences or deletes. -/
def Pc.touches : Pc → Option ℕ
  | .enqLink _ _ h => some h
  | .deqNext _ t => some t
  | .deqData _ _ n => some n
  | .deqDelete _ t _ _ => some t
  | _ => none

/-- Not about to unlink a node that holds 0, the sign of an empty queue. -/
def Pc.keeps : Pc → Bool
  | .deqDelete _ _ _ data => data ≠ 0
  | _ => true

def UnlinksNoZero (c : Config Thread Mem Pc) (t : Thread) (_ : Act) : Prop := (c.loc t).keeps

/-- Every value passed to `enqueue` is nonzero. -/
def NonzeroValues (h : List (Thread × Event)) : Prop :=
  ∀ t data, (t, .enqueue data) ∈ h → data ≠ 0

theorem NonzeroValues.of_append {h h' : List (Thread × Event)} (hn : NonzeroValues (h ++ h')) :
    NonzeroValues h := fun t data hmem => hn t data (List.mem_append_left _ hmem)

end Cds.SpscQueue
