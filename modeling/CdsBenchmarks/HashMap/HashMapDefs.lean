import CdsBenchmarks.Concurrent.Linearizability

/-! The hash map of `concurrent-hashmap/hashmap.cc`, every atomic access and every lock and
unlock of a segment one step. The fields `hash` and `key` of an entry are written once,
before it is published, and are read together with the access that follows. -/

namespace Cds.HashMap
open Concurrent

/-- A C `int`. -/
abbrev CInt := BitVec 32

/-- The heap of entries, the bins, and the owner of each segment's mutex. An entry is
named by its address; entries are never freed. -/
structure Mem (T : Type*) where
  key : ℕ → CInt
  hash : ℕ → CInt
  value : ℕ → CInt
  next : ℕ → Option ℕ
  fresh : ℕ
  table : CInt → Option ℕ
  segMutex : CInt → Option T

/-- The map as constructed. -/
def hashMap (T : Type*) : Mem T :=
  ⟨fun _ => 0, fun _ => 0, fun _ => 0, fun _ => none, 0, fun _ => none, fun _ => none⟩

/-- `DEFAULT_INITIAL_CAPACITY`. -/
def capacity : CInt := 16

/-- `SEGMENT_MASK`. -/
def segmentMask : CInt := 15

def hashKey (x : CInt) : CInt := x

/-- `hash & (capacity - 1)`. -/
def index (key : CInt) : CInt := hashKey key &&& (capacity - 1)

def segment (key : CInt) : CInt := hashKey key &&& segmentMask

inductive Op
  | get (key : CInt)
  | put (key value : CInt)
deriving DecidableEq, Repr

/-- The points before an access, with the local variables still to be used: `f` is
`firstPtr` and `e` the entry looked at. -/
inductive Pc
  | idle
  | getFirst (key : CInt)
  | getEntry (key : CInt) (f : Option ℕ) (e : ℕ)
  | getLock (key : CInt) (f e : Option ℕ)
  | getReload (key : CInt) (f e : Option ℕ)
  | getLocked (key : CInt) (e : ℕ)
  | getUnlock (key res : CInt)
  | putLock (key value : CInt)
  | putFirst (key value : CInt)
  | putEntry (key value : CInt) (f : Option ℕ) (e : ℕ)
  | putStore (key value : CInt) (e : ℕ) (oldValue : CInt)
  | putNew (key value : CInt) (f : Option ℕ)
  | putValue (key value : CInt) (f : Option ℕ) (n : ℕ)
  | putNext (key : CInt) (f : Option ℕ) (n : ℕ)
  | putPublish (key : CInt) (n : ℕ)
  | putUnlock (key res : CInt)
  | ret (res : CInt)
  /-- A failed `MODEL_ASSERT`. -/
  | failed
deriving DecidableEq, Repr

inductive Act
  | call (o : Op)
  | run
deriving DecidableEq, Repr

def Op.entry : Op → Pc
  | .get key => if key ≠ 0 then .getFirst key else .failed
  | .put key value => if key ≠ 0 ∧ value ≠ 0 then .putLock key value else .failed

variable {T : Type*}

/-- `e->hash == hash && eq(key, e->key)`. -/
def found (m : Mem T) (key : CInt) (e : ℕ) : Bool := m.hash e = hashKey key && key = m.key e

/-- The unlocked traversal at `e`. -/
def getWalk (key : CInt) (f : Option ℕ) : Option ℕ → Pc
  | none => .getLock key f none
  | some e => .getEntry key f e

/-- The traversal under the lock at `e`. -/
def lockedWalk (key : CInt) : Option ℕ → Pc
  | none => .getUnlock key 0
  | some e => .getLocked key e

def putWalk (key value : CInt) (f : Option ℕ) : Option ℕ → Pc
  | none => .putNew key value f
  | some e => .putEntry key value f e

def lock (me : T) (m : Mem T) (key : CInt) (l : Pc) : Option (Mem T × Pc × List (Mark Op CInt)) :=
  match m.segMutex (segment key) with
  | none => some ({ m with segMutex := Function.update m.segMutex (segment key) (some me) }, l, [])
  | some _ => none

def unlock (m : Mem T) (key : CInt) : Mem T :=
  { m with segMutex := Function.update m.segMutex (segment key) none }

/-- The next access of a call. A call takes effect at its mark `lin`. -/
def access (me : T) (m : Mem T) : Pc → Option (Mem T × Pc × List (Mark Op CInt))
  | .idle => none
  | .getFirst key => some (m, getWalk key (m.table (index key)) (m.table (index key)), [])
  | .getEntry key f e =>
    if found m key e then
      if m.value e ≠ 0 then some (m, .ret (m.value e), [.lin])
      else some (m, .getLock key f (some e), [])
    else some (m, getWalk key f (m.next e), [])
  | .getLock key f e => lock me m key (.getReload key f e)
  | .getReload key f e =>
    if e ≠ none ∨ f ≠ m.table (index key) then
      some (m, lockedWalk key (m.table (index key)), if m.table (index key) = none then [.lin] else [])
    else some (m, .getUnlock key 0, [.lin])
  | .getLocked key e =>
    if found m key e then some (m, .getUnlock key (m.value e), [.lin])
    else some (m, lockedWalk key (m.next e), if m.next e = none then [.lin] else [])
  | .getUnlock key res => some (unlock m key, .ret res, [])
  | .putLock key value => lock me m key (.putFirst key value)
  | .putFirst key value => some (m, putWalk key value (m.table (index key)) (m.table (index key)), [])
  | .putEntry key value f e =>
    if found m key e then some (m, .putStore key value e (m.value e), [])
    else some (m, putWalk key value f (m.next e), [])
  | .putStore key value e oldValue =>
    some ({ m with value := Function.update m.value e value }, .putUnlock key oldValue, [.lin])
  | .putNew key value f => some ({ m with hash := Function.update m.hash m.fresh (hashKey key)
                                          key := Function.update m.key m.fresh key
                                          fresh := m.fresh + 1 }, .putValue key value f m.fresh, [])
  | .putValue key value f n =>
    some ({ m with value := Function.update m.value n value }, .putNext key f n, [])
  | .putNext key f n => some ({ m with next := Function.update m.next n f }, .putPublish key n, [])
  | .putPublish key n =>
    some ({ m with table := Function.update m.table (index key) (some n) }, .putUnlock key 0, [.lin])
  | .putUnlock key res => some (unlock m key, .ret res, [])
  | .ret res => some (m, .idle, [.ret res])
  | .failed => none

def step (me : T) (a : Act) (m : Mem T) (l : Pc) : Option (Mem T × Pc × List (Mark Op CInt)) :=
  match a with
  | .call o => if l = .idle then some (m, o.entry, [.call o]) else none
  | .run => access me m l

variable (T) in
def program : Program T (Mem T) Pc Act (Mark Op CInt) := ⟨step⟩

variable (T) in
def start : Config T (Mem T) Pc := ⟨hashMap T, fun _ => .idle⟩

/-- The atomic finite map; an absent key has value 0. -/
def finiteMap : ObjectSpec (CInt → CInt) Op CInt where
  init _ := 0
  post s o r s' :=
    match o with
    | .get key => r = s key ∧ s' = s
    | .put key value => r = s key ∧ s' = Function.update s key value

end Cds.HashMap
