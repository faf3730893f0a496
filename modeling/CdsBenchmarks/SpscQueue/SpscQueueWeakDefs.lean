import CdsBenchmarks.Concurrent.Handover
import CdsBenchmarks.SpscQueue.SpscQueueDefs

/-! The queue of `spsc-bugfix` under the memory orders of `queue.cc` and `eventcount.h`. The
atomic objects are the `next` fields of the nodes and `count`. The mutex is the chain of its
owners: `lock` acquires what the last `unlock` has released. The condition variable by
itself orders nothing. -/

namespace Cds.SpscQueue.Weak
open Concurrent Program
open Eventcount (Word flag mask signalImpl)

inductive Cell
  | next (n : ℕ)
  | count
  | guard
deriving DecidableEq, Repr

abbrev Cell.Val : Cell → Type
  | .next _ => Option ℕ
  | .count => Word
  | .guard => Option Thread

/-- What is not atomic, with the life of the field `next` of a node, which an atomic access
of the field only reads. -/
inductive Place
  | head
  | tail
  | waiters
  | data (n : ℕ)
  | link (n : ℕ)
deriving DecidableEq, Repr

/-- The plain fields of the queue, its nodes and its eventcount; `asleep` marks the threads in
`cv.wait` that have not been notified. -/
structure Plain where
  data : ℕ → CInt
  fresh : ℕ
  head : ℕ
  tail : ℕ
  waiters : Word
  asleep : Thread → Bool

def Plain.init : Plain := ⟨fun _ => 0, 1, 0, 0, 0, fun _ => false⟩

abbrev Code := Instr Cell Cell.Val (Outcome Plain Pc Event Place)

/-- `guard.lock`, which waits where the mutex is not free. -/
def lock (me : Thread) (m : Plain) (wait l : Pc) : Code :=
  .rmw .acquire .relaxed .guard (fun o => if o = none then some (some me) else none) fun o =>
    ⟨m, if o = none then l else wait, [], []⟩

def unlock (m : Plain) (l : Pc) : Code := .rmw .release .relaxed .guard (fun _ => some none)
    fun _ => ⟨m, l, [], []⟩

/-- The next step of a call of the eventcount, which goes on at `go` of the point it leads to. -/
def event (me : Thread) (spurious : Bool) (m : Plain) (go : Eventcount.Pc → Pc) : Eventcount.Pc →
    Option Code
  | .get => some (.rmw .acqRel .acqRel .count (fun c => some (c ||| flag)) fun c =>
      ⟨m, go (.done (some (c &&& mask))), [], []⟩)
  | .waitLoad cmp => some (.load .acqRel .count fun c =>
      ⟨m, go (if cmp = c &&& mask then .waitLock cmp else .done none), [], []⟩)
  | .waitLock cmp => some (lock me m (go (.waitLock cmp)) (go (.waitRecheck cmp)))
  | .waitRecheck cmp => some (.load .acqRel .count fun c =>
      ⟨m, go (if cmp = c &&& mask then .waitRead else .waitUnlock), [], []⟩)
  | .waitRead => some (.plain ⟨m, go (.waitStore m.waiters), [], [(.waiters, false)]⟩)
  | .waitStore waiters =>
    some (.plain ⟨{ m with waiters := waiters + 1 }, go .waitCv, [], [(.waiters, true)]⟩)
  | .waitCv => some (unlock { m with asleep := Function.update m.asleep me true } (go .asleep))
  | .asleep =>
    if m.asleep me && !spurious then none
    else some (.plain ⟨{ m with asleep := Function.update m.asleep me false }, go .relock, [], []⟩)
  | .relock => some (lock me m (go .relock) (go .waitUnlock))
  | .waitUnlock => some (unlock m (go (.done none)))
  | .signal => some (.rmw .acqRel .acqRel .count (fun c => some (c + 0)) fun c =>
      ⟨m, go (signalImpl c), [], []⟩)
  | .signalLock cmp => some (lock me m (go (.signalLock cmp)) (go (.signalCas cmp)))
  | .signalCas cmp => some (.rmw .relaxed .relaxed .count
      (fun c => if c = cmp && !spurious then some ((cmp + 1) &&& mask) else none) fun c =>
      ⟨m, go (if c = cmp && !spurious then .signalRead else .signalCas c), [], []⟩)
  | .signalRead => some (.plain ⟨m, go (.signalReset m.waiters), [], [(.waiters, false)]⟩)
  | .signalReset w => some (.plain ⟨{ m with waiters := 0 }, go (.signalUnlock w), [],
      [(.waiters, true)]⟩)
  | .signalUnlock w => some (unlock m (go (if w ≠ 0 then .notifyAll else .done none)))
  | .notifyAll => some (.plain ⟨{ m with asleep := fun _ => false }, go (.done none), [.notified], []⟩)
  | .done _ => none

/-- The accesses with their memory orders. -/
def access (me : Thread) (spurious : Bool) (m : Plain) (l : Pc) : Option Code :=
  match l with
  | .idle => none
  -- the constructor of the node stores 0 to `next`
  | .enqNew data => some (.store .acqRel (.next m.fresh) (none : Option ℕ)
      ⟨{ m with data := Function.update m.data m.fresh data, fresh := m.fresh + 1 }, .enqHead data
      m.fresh,
        [], [(.data m.fresh, true), (.link m.fresh, true)]⟩)
  | .enqHead data n => some (.plain ⟨m, .enqLink data n m.head, [], [(.head, false)]⟩)
  | .enqLink data n h => some (.store .release (.next h) (some n)
      ⟨m, .enqMove n, [.linked data], [(.link h, false)]⟩)
  | .enqMove n => some (.plain ⟨{ m with head := n }, .signal .signal, [], [(.head, true)]⟩)
  | .signal p => event me spurious m afterSignal p
  | .deqTail s => some (.plain ⟨m, .deqNext s m.tail, [], [(.tail, false)]⟩)
  | .deqNext s t => some (.load .acquire (.next t) fun next =>
      match next with
      | none => ⟨m, s.resume 0, [], [(.link t, false)]⟩
      | some n => ⟨m, .deqData s t n, [], [(.link t, false)]⟩)
  | .deqData s t n => some (.plain ⟨m, .deqDelete s t n (m.data n), [], [(.data n, false)]⟩)
  | .deqDelete s t n data => some (.plain ⟨{ m with tail := n }, s.resume data, [.unlinked data],
      [(.data t, true), (.link t, true), (.tail, true)]⟩)
  | .event p => event me spurious m afterEvent p
  | .deqRet data => some (.plain ⟨m, .idle, [.returned data], []⟩)

def order (me : Thread) (a : Act) (m : Plain) (l : Pc) : Option Code :=
  match a with
  | .enqueue data =>
    if me = .producer ∧ l = .idle then some (.plain ⟨m, .enqNew data, [.enqueue data], []⟩) else none
  | .dequeue =>
    if me = .consumer ∧ l = .idle then some (.plain ⟨m, .deqTail .first, [.dequeue], []⟩) else none
  | .run => access me false m l
  | .spurious => access me true m l

abbrev WeakMem := Shared Cell Thread Cell.Val Plain

abbrev WeakEvent := Event ⊕ Use Place Thread

abbrev WeakPc := Views Cell Thread × Pc

abbrev WeakConfig := Config Thread WeakMem WeakPc

def program : Program Thread WeakMem WeakPc (Act × ℕ) WeakEvent := weak order

/-- The memory of a node that is not yet constructed holds anything. -/
def cell (garbage : ℕ → Option ℕ) : (x : Cell) → x.Val
  | .next n => if n = 0 then none else garbage n
  | .count => (0 : Word)
  | .guard => none

def start (garbage : ℕ → Option ℕ) : WeakConfig := weakStart Thread (cell garbage) .init .idle

theorem start_msg {garbage : ℕ → Option ℕ} {x : Cell} {k : ℕ} {a : Message Cell Thread x.Val} :
    (start garbage).mem.msg x k = some a ↔ k = 0 ∧ a = ⟨cell garbage x, .init⟩ := weakStart_msg

/-! ## What a trace and a state say -/

/-- The values in the nodes strictly after `n` along the last writes to `next`. -/
inductive Contents (m : WeakMem) : ℕ → List CInt → Prop
  | nil {n i a} (h : m.msg.Last (.next n) i a) (ha : a.val = none) : Contents m n []
  | cons {n k i a vs} (h : m.msg.Last (.next n) i a) (ha : a.val = some k) (hk : Contents m k vs) :
    Contents m n (m.plain.data k :: vs)

/-- The consumer deletes node `n`. -/
def Deletes (a : Thread × Use Place Thread) (n : ℕ) : Prop :=
  a.1 = .consumer ∧ a.2.write = true ∧ a.2.place = .link n

/-- No node is used after it has been deleted. -/
def NoUseAfterDelete (h : List (Thread × Use Place Thread)) : Prop :=
  h.Pairwise fun a b => ∀ n, Deletes a n → b.2.place ≠ .data n ∧ b.2.place ≠ .link n

end Cds.SpscQueue.Weak
