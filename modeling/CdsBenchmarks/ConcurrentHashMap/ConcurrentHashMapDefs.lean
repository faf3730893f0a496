import CdsBenchmarks.Concurrent.Hindsight
import Mathlib.Algebra.Ring.Nat

/-! The hash map of `concurrent-hashmap/ConcurrentHashMap.java`, every access to a field or an
array slot that can change, and every lock and unlock of a segment, one step. The fields `key`,
`hash` and `next` of an entry are final: a reference to an entry is the list that starts with
it, and walking along it is no step. -/

namespace Cds.ConcurrentHashMap
open Concurrent

/-- A Java `int`. -/
abbrev JInt := BitVec 32

/-- What the map is built with: `hashCode` of a key, and the `loadFactor`, of which only
`(int)(capacity * loadFactor / CONCURRENCY_LEVEL)` is used. -/
structure Env (K : Type*) where
  hashCode : K → JInt
  share : ℕ → JInt

/-- An entry, without its field `value`, and named by its address. -/
structure Entry (K : Type*) where
  addr : ℕ
  key : K
  hash : JInt
deriving DecidableEq, Repr

/-- An entry reference: the entry and those after it; `null` is the empty list. -/
abbrev Bin (K : Type*) := List (Entry K)

/-- The fields `value`, the arrays, with the slots `bins tab i` and the length of array `tab`,
the fields of the map, and the owner and `count` of each segment. -/
structure Mem (T K V : Type*) where
  value : ℕ → Option V
  fresh : ℕ
  bins : ℕ → ℕ → Bin K
  length : ℕ → ℕ
  tables : ℕ
  table : ℕ
  threshold : JInt
  votesForResize : JInt
  lock : ℕ → Option T
  count : ℕ → JInt

/-- `CONCURRENCY_LEVEL`, which is `segments.length`. -/
def concurrencyLevel : ℕ := 32

/-- `MINIMUM_CAPACITY`. -/
def minimumCapacity : ℕ := 32

/-- `MAXIMUM_CAPACITY`. -/
def maximumCapacity : ℕ := 2 ^ 30

def bitcount (w : JInt) : JInt :=
  let w := w - ((0xaaaaaaaa &&& w) >>> 1)
  let w := (w &&& 0x33333333) + ((w >>> 2) &&& 0x33333333)
  let w := (w + (w >>> 4)) &&& 0x0f0f0f0f
  let w := w + (w >>> 8)
  let w := w + (w >>> 16)
  w &&& 0xff

/-- The loop of `p2capacity`. -/
def double (cap : ℕ) : ℕ → ℕ → ℕ
  | 0, result => result
  | n + 1, result => if result < cap then double cap n (2 * result) else result

def p2capacity (initialCapacity : JInt) : ℕ :=
  if maximumCapacity < initialCapacity.toNat then maximumCapacity
  else double initialCapacity.toNat 25 minimumCapacity

section Hash
variable {K : Type*}

def hash (E : Env K) (x : K) : JInt :=
  let h := E.hashCode x
  (h <<< 7) - h + (h >>> 9) + (h >>> 17)

/-- `h & (length - 1)`. -/
def index (h : JInt) (length : ℕ) : ℕ := (h &&& (BitVec.ofNat 32 length - 1)).toNat

/-- `h & SEGMENT_MASK`. -/
def segment (h : JInt) : ℕ := (h &&& 31).toNat

variable [DecidableEq K]

/-- `e.hash == hash && eq(key, e.key)`. -/
def Entry.is (E : Env K) (key : K) (e : Entry K) : Bool := e.hash = ConcurrentHashMap.hash E key && key = e.key

/-- Along the list to the first entry with the key. -/
def walk (E : Env K) (key : K) (l : Bin K) : Bin K := l.dropWhile fun e => !e.is E key

/-- What `==` compares of two references. -/
def address (l : Bin K) : Option ℕ := l.head?.map Entry.addr

/-- The loop of `rehash` that finds `lastRun` and `lastIdx`, for the new length. -/
def run (length : ℕ) (lastRun : Bin K) (lastIdx : ℕ) : Bin K → Bin K × ℕ
  | [] => (lastRun, lastIdx)
  | e :: next =>
    if index e.hash length ≠ lastIdx then run length (e :: next) (index e.hash length) next
    else run length lastRun lastIdx next

end Hash

/-! ## The points of each method, before an access -/

inductive Get (K V : Type*)
  | table
  | first (tab : ℕ)
  | value (f : Bin K) (e : Entry K)
  | lock (f : Bin K) (e : Option (Entry K))
  | retable (f : Bin K) (e : Option (Entry K))
  | refirst (f : Bin K) (e : Option (Entry K)) (tab : ℕ)
  | revalue (e : Entry K)
  | unlock (r : Option V)
deriving DecidableEq, Repr

inductive Put (K V : Type*)
  | lock
  | table
  | first (tab : ℕ)
  | old (e : Entry K)
  | value (e : Entry K) (oldValue : Option V)
  | new (tab : ℕ) (f : Bin K)
  | store (tab : ℕ) (newEntry : Bin K)
  | count (tab : ℕ)
  | threshold (tab : ℕ) (segcount : JInt)
  | votes (tab : ℕ) (segcount : JInt)
  | vote (tab : ℕ) (segcount : JInt)
  | voteStore (tab : ℕ) (segcount votes : JInt)
  | voted (tab : ℕ) (segcount votes : JInt)
  | max (tab : ℕ) (segcount : JInt)
  | unlock (r : Option V)
deriving DecidableEq, Repr

inductive Remove (K V : Type*)
  | lock
  | table
  | first (tab : ℕ)
  | old (tab : ℕ) (f : Bin K) (e : Entry K) (next : Bin K)
  | null (tab : ℕ) (f : Bin K) (e : Entry K) (next : Bin K) (oldValue : Option V)
  | clone (tab : ℕ) (p : Bin K) (e : Entry K) (head : Bin K) (oldValue : Option V)
  | count (oldValue : Option V)
  | unlock (r : Option V)
deriving DecidableEq, Repr

/-- `resize` and `rehash`. -/
inductive Resize (K : Type*)
  | lock (i tab : ℕ)
  | test (i tab : ℕ)
  | votes
  | table
  | max
  | new (old : ℕ)
  | bin (i old new : ℕ)
  | clone (i old new : ℕ) (p lastRun : Bin K)
  | link (i old new : ℕ) (p lastRun : Bin K) (e : Entry K)
  | unlock (i : ℕ)
deriving DecidableEq, Repr

inductive Clear (K : Type*)
  | lock
  | table
  | bin (tab i : ℕ)
  | entry (tab i : ℕ) (e : Bin K)
  | count (tab i : ℕ)
  | unlock
deriving DecidableEq, Repr

/-- `size` and `isEmpty`. -/
inductive Count
  | lock
  | read
  | unlock (n : JInt)
deriving DecidableEq, Repr

inductive Contains (K : Type*)
  | lock
  | table
  | unlock (tab : ℕ)
  | bin (tab i : ℕ)
  | entry (tab i : ℕ) (e : Bin K)
deriving DecidableEq, Repr

/-- The first loop of `putAll`. -/
inductive Reserve
  | lock
  | table
  | threshold (tab : ℕ)
  | unlock (tab : ℕ) (max : JInt)
deriving DecidableEq, Repr

/-- The constructor of `HashIterator`, and its `hasNext`, which `next` may have called. -/
inductive Iterate
  | lock
  | table
  | unlock (tab : ℕ)
  | synchLock (i tab : ℕ)
  | synchUnlock (i tab : ℕ)
  | value (next : Bool)
  | bin (next : Bool)
deriving DecidableEq, Repr

/-- `putAll` is the caller of `resize` if there is an `n`, else `put`. In `clear`, `size`,
`isEmpty` and `containsValue` `s` is the segment. -/
inductive Pc (K V : Type*)
  | idle
  | get (key : K) (p : Get K V)
  | put (key : K) (value : V) (p : Put K V)
  | remove (key : K) (value : Option V) (p : Remove K V)
  | resize (n : Option JInt) (p : Resize K)
  | clear (s : ℕ) (p : Clear K)
  | count (empty : Bool) (s : ℕ) (c : JInt) (p : Count)
  | contains (value : V) (s : ℕ) (p : Contains K)
  | reserve (n : JInt) (p : Reserve)
  | iterator (p : Iterate)
deriving DecidableEq, Repr

/-- An iterator; `index` is one more than the field. -/
structure Iter (K V : Type*) where
  tab : ℕ
  index : ℕ
  entry : Bin K
  current : Option (K × V)
  lastReturned : Option (Entry K)
deriving DecidableEq, Repr

/-- A thread in one of the methods, and the iterator it has. -/
structure Loc (K V : Type*) where
  pc : Pc K V
  iter : Option (Iter K V)
deriving DecidableEq, Repr

/-- The operations on one key. -/
inductive Op (K V : Type*)
  | get (key : K)
  | put (key : K) (value : V)
  | remove (key : K) (value : Option V)
deriving DecidableEq, Repr

inductive Query (V : Type*)
  | clear
  | size
  | isEmpty
  | containsValue (value : V)
  | reserve (n : JInt)
  | iterator
  | hasNext
  | next
  | remove
deriving DecidableEq, Repr

inductive Answer (K V : Type*)
  | void
  | int (n : JInt)
  | bool (b : Bool)
  | entry (key : K) (value : V)
  | noSuchElement
  | illegalState
deriving DecidableEq, Repr

inductive Event (K V : Type*)
  | mark (m : Mark (Op K V) (Option V))
  | ask (q : Query V)
  | answer (a : Answer K V)
deriving DecidableEq, Repr

inductive Act (K V : Type*)
  | call (o : Op K V)
  | ask (q : Query V)
  | run
deriving DecidableEq, Repr

variable {T K V : Type*}

/-- The table as constructed. -/
def concurrentHashMap (T V : Type*) (E : Env K) (initialCapacity : JInt) : Mem T K V :=
  ⟨fun _ => none, 0, fun _ _ => [], fun _ => p2capacity initialCapacity, 1, 0,
    E.share (p2capacity initialCapacity) + 1, 0, fun _ => none, fun _ => 0⟩

def acquire (me : T) (m : Mem T K V) (s : ℕ) : Option (Mem T K V) :=
  match m.lock s with
  | none => some { m with lock := Function.update m.lock s (some me) }
  | some _ => none

def release (m : Mem T K V) (s : ℕ) : Mem T K V :=
  { m with lock := Function.update m.lock s none }

def Mem.store (m : Mem T K V) (a : ℕ) (v : Option V) : Mem T K V :=
  { m with value := Function.update m.value a v }

/-- `tab[i] = l`. -/
def Mem.storeBin (m : Mem T K V) (tab i : ℕ) (l : Bin K) : Mem T K V :=
  { m with bins := Function.update m.bins tab (Function.update (m.bins tab) i l) }

/-- `new Entry(hash, key, value, next)` has the next address. -/
def Mem.alloc (m : Mem T K V) (v : Option V) : Mem T K V :=
  { m with value := Function.update m.value m.fresh v, fresh := m.fresh + 1 }

def Mem.storeCount (m : Mem T K V) (s : ℕ) (n : JInt) : Mem T K V :=
  { m with count := Function.update m.count s n }

/-- `newTable(capacity)`. -/
def newTable (E : Env K) (m : Mem T K V) (capacity : ℕ) : Mem T K V :=
  { m with threshold := E.share capacity + 1
           bins := Function.update m.bins m.tables fun _ => []
           length := Function.update m.length m.tables capacity
           tables := m.tables + 1 }

/-- The slot of the key. -/
def Mem.bin (E : Env K) (m : Mem T K V) (tab : ℕ) (key : K) : Bin K :=
  m.bins tab (index (hash E key) (m.length tab))

/-- The mapping the current table stands for. -/
def Mem.contents [DecidableEq K] (E : Env K) (m : Mem T K V) (key : K) : Option V :=
  match walk E key (m.bin E m.table key) with
  | [] => none
  | e :: _ => m.value e.addr

def Op.entry : Op K V → Pc K V
  | .get key => .get key .table
  | .put key value => .put key value .lock
  | .remove key value => .remove key value .lock

abbrev Outcome (T K V : Type*) := Option (Mem T K V × Pc K V × List (Event K V))

section Methods
variable [DecidableEq K] [DecidableEq V] (E : Env K) (me : T) (m : Mem T K V)

def Get.access (key : K) : Get K V → Outcome T K V
  | .table => some (m, .get key (.first m.table), [])
  | .first tab =>
    match walk E key (m.bin E tab key) with
    | [] => some (m, .get key (.lock (m.bin E tab key) none), [])
    | e :: _ => some (m, .get key (.value (m.bin E tab key) e), [])
  | .value f e =>
    match m.value e.addr with
    | some v => some (m, .idle, [.mark (.ret (some v))])
    | none => some (m, .get key (.lock f (some e)), [])
  | .lock f e => (acquire me m (segment (hash E key))).map (·, .get key (.retable f e), [])
  | .retable f e => some (m, .get key (.refirst f e m.table), [])
  | .refirst f e tab =>
    if e ≠ none ∨ address f ≠ address (m.bin E tab key) then
      match walk E key (m.bin E tab key) with
      | [] => some (m, .get key (.unlock none), [])
      | e :: _ => some (m, .get key (.revalue e), [])
    else some (m, .get key (.unlock none), [])
  | .revalue e => some (m, .get key (.unlock (m.value e.addr)), [])
  | .unlock r => some (release m (segment (hash E key)), .idle, [.mark (.ret r)])

/-- `1 << (hash & SEGMENT_MASK)`. -/
def bit (h : JInt) : JInt := 1 <<< segment h

def Put.access (key : K) (value : V) : Put K V → Outcome T K V
  | .lock => (acquire me m (segment (hash E key))).map (·, .put key value .table, [])
  | .table => some (m, .put key value (.first m.table), [])
  | .first tab =>
    match walk E key (m.bin E tab key) with
    | [] => some (m, .put key value (.new tab (m.bin E tab key)), [])
    | e :: _ => some (m, .put key value (.old e), [])
  | .old e => some (m, .put key value (.value e (m.value e.addr)), [])
  | .value e oldValue =>
    some (m.store e.addr (some value), .put key value (.unlock oldValue), [.mark .lin])
  | .new tab f =>
    some (m.alloc (some value), .put key value (.store tab (⟨m.fresh, key, hash E key⟩ :: f)), [])
  | .store tab newEntry =>
    some (m.storeBin tab (index (hash E key) (m.length tab)) newEntry, .put key value (.count tab),
      [.mark .lin])
  | .count tab =>
    let segcount := m.count (segment (hash E key)) + 1
    some (m.storeCount (segment (hash E key)) segcount, .put key value (.threshold tab segcount), [])
  | .threshold tab segcount =>
    if segcount.slt m.threshold then some (m, .put key value (.unlock none), [])
    else some (m, .put key value (.votes tab segcount), [])
  | .votes tab segcount =>
    if m.votesForResize &&& bit (hash E key) = 0 then some (m, .put key value (.vote tab segcount), [])
    else some (m, .put key value (.voted tab segcount m.votesForResize), [])
  | .vote tab segcount =>
    some (m, .put key value (.voteStore tab segcount (m.votesForResize ||| bit (hash E key))), [])
  | .voteStore tab segcount v =>
    some ({ m with votesForResize := v }, .put key value (.voted tab segcount v), [])
  | .voted tab segcount v =>
    some (release m (segment (hash E key)),
      if BitVec.sle (BitVec.ofNat 32 (concurrencyLevel / 4)) (bitcount v) then
        .resize none (.lock 0 tab)
      else .put key value (.max tab segcount), [])
  | .max tab segcount =>
    if (m.threshold * BitVec.ofNat 32 concurrencyLevel).slt segcount then
      some (m, .resize none (.lock 0 tab), [])
    else some (m, .idle, [.mark (.ret none)])
  | .unlock r => some (release m (segment (hash E key)), .idle, [.mark (.ret r)])

def Remove.access (key : K) (value : Option V) : Remove K V → Outcome T K V
  | .lock => (acquire me m (segment (hash E key))).map (·, .remove key value .table, [])
  | .table => some (m, .remove key value (.first m.table), [])
  | .first tab =>
    match walk E key (m.bin E tab key) with
    | [] => some (m, .remove key value (.unlock none), [.mark .lin])
    | e :: next => some (m, .remove key value (.old tab (m.bin E tab key) e next), [])
  | .old tab f e next =>
    if value ≠ none ∧ value ≠ m.value e.addr then
      some (m, .remove key value (.unlock none), [.mark .lin])
    else some (m, .remove key value (.null tab f e next (m.value e.addr)), [])
  | .null tab f e next oldValue =>
    some (m.store e.addr none, .remove key value (.clone tab f e next oldValue), [.mark .lin])
  | .clone tab p e head oldValue =>
    match p with
    | [] => none
    | q :: p =>
      if q.addr = e.addr then
        some (m.storeBin tab (index (hash E key) (m.length tab)) head,
          .remove key value (.count oldValue), [])
      else some (m.alloc (m.value q.addr),
        .remove key value (.clone tab p e (⟨m.fresh, q.key, q.hash⟩ :: head) oldValue), [])
  | .count oldValue =>
    some (m.storeCount (segment (hash E key)) (m.count (segment (hash E key)) - 1),
      .remove key value (.unlock oldValue), [])
  | .unlock r => some (release m (segment (hash E key)), .idle, [.mark (.ret r)])

/-- The loop of `rehash` that clones, at `p`. -/
def cloning (i oldTab newTab : ℕ) (p lastRun : Bin K) : Resize K :=
  if address p = address lastRun then .bin (i + 1) oldTab newTab else .clone i oldTab newTab p lastRun

def Resize.access (n : Option JInt) : Resize K → Outcome T K V
  | .lock i tab => (acquire me m i).map (·, .resize n (.test i tab), [])
  | .test i tab =>
    if tab = m.table then
      if i + 1 < concurrencyLevel then some (m, .resize n (.lock (i + 1) tab), [])
      else some (m, .resize n .votes, [])
    else some (m, .resize n (.unlock i), [])
  | .votes => some ({ m with votesForResize := 0 }, .resize n .table, [])
  | .table =>
    if maximumCapacity ≤ m.length m.table then some (m, .resize n .max, [])
    else some (m, .resize n (.new m.table), [])
  | .max => some ({ m with threshold := 0x7fffffff }, .resize n (.unlock (concurrencyLevel - 1)), [])
  | .new oldTab => some (newTable E m (2 * m.length oldTab), .resize n (.bin 0 oldTab m.tables), [])
  | .bin i oldTab newTab =>
    if i < m.length oldTab then
      match m.bins oldTab i with
      | [] => some (m, .resize n (.bin (i + 1) oldTab newTab), [])
      | [e] =>
        some (m.storeBin newTab (index e.hash (m.length newTab)) [e], .resize n (.bin (i + 1) oldTab newTab), [])
      | e :: next =>
        let last := run (m.length newTab) (e :: next) (index e.hash (m.length newTab)) next
        some (m.storeBin newTab last.2 last.1, .resize n (cloning i oldTab newTab (e :: next) last.1), [])
    else some ({ m with table := newTab }, .resize n (.unlock (concurrencyLevel - 1)), [])
  | .clone i oldTab newTab p lastRun =>
    match p with
    | [] => none
    | q :: _ => some (m.alloc (m.value q.addr),
      .resize n (.link i oldTab newTab p lastRun ⟨m.fresh, q.key, q.hash⟩), [])
  | .link i oldTab newTab p lastRun e =>
    let k := index e.hash (m.length newTab)
    some (m.storeBin newTab k (e :: m.bins newTab k), .resize n (cloning i oldTab newTab p.tail lastRun), [])
  | .unlock 0 => some (release m 0, match n with
    | none => .idle
    | some n => .reserve n .lock, if n = none then [.mark (.ret none)] else [])
  | .unlock (i + 1) => some (release m (i + 1), .resize n (.unlock i), [])

/-- `clear` removes the mappings one after the other; each is recorded as a `remove`. -/
def Clear.access (s : ℕ) : Clear K → Outcome T K V
  | .lock => (acquire me m s).map (·, .clear s .table, [])
  | .table => some (m, .clear s (if s < m.length m.table then .bin m.table s else .unlock), [])
  | .bin tab i => some (m, .clear s (.entry tab i (m.bins tab i)), [])
  | .entry tab i (e :: l) => some (m.store e.addr none, .clear s (.entry tab i l),
    [.mark (.call (.remove e.key none)), .mark .lin, .mark (.ret (m.value e.addr))])
  | .entry tab i [] => some (m.storeBin tab i [], .clear s (.count tab i), [])
  | .count tab i => some (m.storeCount s 0, .clear s (if i + concurrencyLevel < m.length tab then
      .bin tab (i + concurrencyLevel) else .unlock), [])
  | .unlock =>
    if s + 1 < concurrencyLevel then some (release m s, .clear (s + 1) .lock, [])
    else some (release m s, .idle, [.answer .void])

def Count.access (empty : Bool) (s : ℕ) (c : JInt) : Count → Outcome T K V
  | .lock => (acquire me m s).map (·, .count empty s c .read, [])
  | .read => some (m, .count empty s c (.unlock (m.count s)), [])
  | .unlock n =>
    if empty ∧ n ≠ 0 then some (release m s, .idle, [.answer (.bool false)])
    else if s + 1 < concurrencyLevel then some (release m s, .count empty (s + 1) (c + n) .lock, [])
    else some (release m s, .idle, [.answer (if empty then .bool true else .int (c + n))])

/-- The loops of `containsValue`, at entry `l` of bin `i`. -/
def containing (value : V) (s tab i : ℕ) (l : Bin K) : Outcome T K V :=
  if l ≠ [] then some (m, .contains value s (.entry tab i l), [])
  else if i + concurrencyLevel < m.length tab then
    some (m, .contains value s (.bin tab (i + concurrencyLevel)), [])
  else if s + 1 < concurrencyLevel then some (m, .contains value (s + 1) .lock, [])
  else some (m, .idle, [.answer (.bool false)])

def Contains.access (value : V) (s : ℕ) : Contains K → Outcome T K V
  | .lock => (acquire me m s).map (·, .contains value s .table, [])
  | .table => some (m, .contains value s (.unlock m.table), [])
  | .unlock tab =>
    if s < m.length tab then some (release m s, .contains value s (.bin tab s), [])
    else containing (release m s) value s tab s []
  | .bin tab i => containing m value s tab i (m.bins tab i)
  | .entry tab i l =>
    match l with
    | [] => none
    | e :: l =>
      if m.value e.addr = some value then some (m, .idle, [.answer (.bool true)])
      else containing m value s tab i l

def Reserve.access (n : JInt) : Reserve → Outcome T K V
  | .lock => (acquire me m 0).map (·, .reserve n .table, [])
  | .table => some (m, .reserve n (.threshold m.table), [])
  | .threshold tab =>
    some (m, .reserve n (.unlock tab (m.threshold * BitVec.ofNat 32 concurrencyLevel)), [])
  | .unlock tab max =>
    if n.slt max then some (release m 0, .idle, [.answer .void])
    else some (release m 0, .resize (some n) (.lock 0 tab), [])

def Pc.access : Pc K V → Outcome T K V
  | .idle => none
  | .get key p => p.access E me m key
  | .put key value p => p.access E me m key value
  | .remove key value p => p.access E me m key value
  | .resize n p => p.access E me m n
  | .clear s p => p.access me m s
  | .count empty s c p => p.access me m empty s c
  | .contains value s p => p.access me m value s
  | .reserve n p => p.access me m n
  | .iterator _ => none

end Methods

/-! ## Iterators -/

abbrev IterOutcome (T K V : Type*) := Option (Mem T K V × Loc K V × List (Event K V))

variable (me : T) (m : Mem T K V)

/-- `hasNext` has found `currentKey` and `currentValue`. -/
def Iter.found (it : Iter K V) (next : Bool) (e : Entry K) (v : V) : Loc K V × List (Event K V) :=
  if next then
    (⟨.idle, some { it with lastReturned := some e, current := none, entry := it.entry.tail }⟩,
      [.answer (.entry e.key v)])
  else (⟨.idle, some { it with current := some (e.key, v) }⟩, [.answer (.bool true)])

/-- The loop of `hasNext`. -/
def Iter.look (it : Iter K V) (next : Bool) : Loc K V × List (Event K V) :=
  if it.entry ≠ [] then (⟨.iterator (.value next), some it⟩, [])
  else if it.index ≠ 0 then (⟨.iterator (.bin next), some it⟩, [])
  else (⟨.idle, some { it with current := none }⟩,
    [.answer (if next then .noSuchElement else .bool false)])

def Iterate.access (iter : Option (Iter K V)) : Iterate → IterOutcome T K V
  | .lock => (acquire me m 0).map (·, ⟨.iterator .table, iter⟩, [])
  | .table => some (m, ⟨.iterator (.unlock m.table), iter⟩, [])
  | .unlock tab => some (release m 0, ⟨.iterator (.synchLock 1 tab), iter⟩, [])
  | .synchLock i tab => (acquire me m i).map (·, ⟨.iterator (.synchUnlock i tab), iter⟩, [])
  | .synchUnlock i tab =>
    if i + 1 < concurrencyLevel then
      some (release m i, ⟨.iterator (.synchLock (i + 1) tab), iter⟩, [])
    else some (release m i, ⟨.idle, some ⟨tab, m.length tab, [], none, none⟩⟩, [.answer .void])
  | .value next =>
    match iter with
    | none => none
    | some it =>
      match it.entry with
      | [] => none
      | e :: l =>
        match m.value e.addr with
        | some v => some (m, it.found next e v)
        | none => some (m, { it with entry := l }.look next)
  | .bin next =>
    match iter with
    | none => none
    | some it => some (m, { it with entry := m.bins it.tab (it.index - 1),
                                    index := it.index - 1 }.look next)

/-- The call of a method that is not on one key. -/
def ask (iter : Option (Iter K V)) : Query V → Option (Loc K V × List (Event K V))
  | .clear => some (⟨.clear 0 .lock, iter⟩, [])
  | .size => some (⟨.count false 0 0 .lock, iter⟩, [])
  | .isEmpty => some (⟨.count true 0 0 .lock, iter⟩, [])
  | .containsValue value => some (⟨.contains value 0 .lock, iter⟩, [])
  | .reserve n => some (if n = 0 then (⟨.idle, iter⟩, [.answer .void]) else (⟨.reserve n .lock, iter⟩, []))
  | .iterator => some (⟨.iterator .lock, none⟩, [])
  | .hasNext => iter.map (·.look false)
  | .next => iter.map fun it =>
    match it.current, it.entry with
    | some (_, v), e :: _ => it.found true e v
    | _, _ => it.look true
  | .remove => iter.map fun it =>
    match it.lastReturned with
    | none => (⟨.idle, iter⟩, [.answer .illegalState])
    | some e => (⟨.remove e.key none .lock, some { it with lastReturned := none }⟩,
      [.mark (.call (.remove e.key none))])

section Program
variable [DecidableEq K] [DecidableEq V] (E : Env K)

def step (me : T) (a : Act K V) (m : Mem T K V) (l : Loc K V) : IterOutcome T K V :=
  match a with
  | .call o => if l.pc = .idle then some (m, ⟨o.entry, l.iter⟩, [.mark (.call o)]) else none
  | .ask q =>
    if l.pc = .idle then (ask l.iter q).map fun r => (m, r.1, .ask q :: r.2) else none
  | .run =>
    match l.pc with
    | .iterator p => p.access me m l.iter
    | p => (p.access E me m).map fun r => (r.1, ⟨r.2.1, l.iter⟩, r.2.2)

variable (T V) in
def program : Program T (Mem T K V) (Loc K V) (Act K V) (Event K V) := ⟨step E⟩

variable (T V) in
def start (initialCapacity : JInt) : Config T (Mem T K V) (Loc K V) :=
  ⟨concurrentHashMap T V E initialCapacity, fun _ => ⟨.idle, none⟩⟩

end Program

/-- The atomic finite map. -/
def finiteMap (K V : Type*) [DecidableEq K] : ObjectSpec (K → Option V) (Op K V) (Option V) where
  init _ := none
  post s o r s' :=
    match o with
    | .get key => r = s key ∧ s' = s
    | .put key value => r = s key ∧ s' = Function.update s key (some value)
    | .remove key value =>
      (value = none ∨ value = s key) ∧ r = s key ∧ s' = Function.update s key none ∨
        value ≠ none ∧ value ≠ s key ∧ r = none ∧ s' = s

/-- The calls and returns of the operations on one key. -/
def marks (tr : List (T × Event K V)) : List (T × Mark (Op K V) (Option V)) :=
  tr.filterMap fun e =>
    match e.2 with
    | .mark m => some (e.1, m)
    | _ => none

end Cds.ConcurrentHashMap
