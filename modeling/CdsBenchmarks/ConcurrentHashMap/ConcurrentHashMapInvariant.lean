import CdsBenchmarks.ConcurrentHashMap.ConcurrentHashMapBins
import Mathlib.Data.Finset.Card

/-! What holds in every state of the map, what each thread knows at each point, and what a step
leaves to the other threads. An entry that has left the current table keeps its value, which its
key had when it left. -/

namespace Cds.ConcurrentHashMap
open Concurrent Program

variable {T K V : Type*}

/-- An entry is its creator's before it is in the current table, and retired afterwards. -/
inductive Kind (T : Type*)
  | priv (t : T)
  | live
  | retired

/-- `s` is the map and `st` the status of each thread's call. Thread `t` has seen the map in the
states `past t` since its last call. `chain a` is the list that starts with the entry at `a`. -/
structure World (T K V : Type*) where
  mem : Mem T K V
  hist : List (T × Event K V)
  s : K → Option V
  st : T → Status (Op K V) (Option V)
  past : T → (K → Option V) → Prop
  chain : ℕ → Bin K
  kind : ℕ → Kind T

section Definitions
variable (E : Env K) (w : World T K V)

def Formed : Bin K → Prop
  | [] => True
  | e :: l => (w.chain e.addr = e :: l ∧ e.addr < w.mem.fresh ∧ e.hash = hash E e.key) ∧ Formed l

structure Slot (tab i : ℕ) : Prop where
  formed : Formed E w (w.mem.bins tab i)
  index : ∀ e ∈ w.mem.bins tab i, index e.hash (w.mem.length tab) = i
  keys : ((w.mem.bins tab i).map Entry.key).Nodup

/-- In the current table. -/
def Live (e : Entry K) : Prop :=
  e ∈ w.mem.bins w.mem.table (index e.hash (w.mem.length w.mem.table))

/-- The segment has `n` keys. -/
def Bound (s : K → Option V) (sg n : ℕ) : Prop :=
  ∃ ks : Finset K, (∀ k, k ∈ ks ↔ segment (hash E k) = sg ∧ s k ≠ none) ∧ ks.card = n

/-- No entry of the segment, but `e`, is invalidated. -/
def FullBut (sg : ℕ) (e : Option (Entry K)) : Prop :=
  ∀ a, Live w a → segment a.hash = sg → some a ≠ e → w.s a.key ≠ none

/-- `count` is `d` off, as seen from the keys. -/
def Counts (sg : ℕ) (d : JInt) : Prop :=
  ∃ n, Bound E w.s sg n ∧ w.mem.count sg = BitVec.ofNat 32 n + d

/-- As a segment is left by whoever unlocks it. -/
structure Tidy (sg : ℕ) : Prop where
  full : FullBut w sg none
  counts : Counts E w sg 0

structure Heap : Prop where
  locks : ∀ sg t, w.mem.lock sg = some t → sg < concurrencyLevel
  last : ∀ sg < concurrencyLevel, w.mem.lock sg = none → w.mem.tables = w.mem.table + 1
  capacity : ∀ id ≤ w.mem.table, Capacity (w.mem.length id)
  slot : ∀ id ≤ w.mem.table, ∀ i, Slot E w id i
  live : ∀ e, Live w e → w.mem.value e.addr = w.s e.key ∧ w.kind e.addr = .live
  bound : ∀ k, w.s k ≠ none → ∃ e ∈ w.mem.bin E w.mem.table k, e.key = k
  free : ∀ sg, w.mem.lock sg = none → Tidy E w sg

structure Glob [DecidableEq T] [DecidableEq K] : Prop where
  replay : (finiteMap K V).Hindsight (marks w.hist) w.s w.st w.past
  now : ∀ t, w.past t w.s
  heap : Heap E w

/-! ## What a step leaves to the others -/

/-- The segment `sg` and its values stay as they are. -/
structure Frozen (w w' : World T K V) (sg : ℕ) : Prop where
  table : w'.mem.table = w.mem.table
  tables : w'.mem.tables = w.mem.tables
  length : w'.mem.length = w.mem.length
  others : ∀ id, id ≠ w.mem.table → w'.mem.bins id = w.mem.bins id
  slots : ∀ i, i % concurrencyLevel = sg → w'.mem.bins w.mem.table i = w.mem.bins w.mem.table i
  value : ∀ e, Live w e → segment e.hash = sg → w'.mem.value e.addr = w.mem.value e.addr
  s : ∀ k, segment (hash E k) = sg → w'.s k = w.s k
  count : w'.mem.count sg = w.mem.count sg

/-- What every step keeps. -/
structure Common (w w' : World T K V) : Prop where
  fresh : w.mem.fresh ≤ w'.mem.fresh
  chain : ∀ a < w.mem.fresh, w'.chain a = w.chain a
  retired : ∀ a < w.mem.fresh, w.kind a = .retired →
    w'.kind a = .retired ∧ w'.mem.value a = w.mem.value a
  live : ∀ e, Live w e → Live w' e ∨ w'.kind e.addr = .retired ∧ w'.mem.value e.addr = w'.s e.key
  length : ∀ id ≤ w.mem.table, w'.mem.length id = w.mem.length id
  stale : ∀ id < w.mem.table, w'.mem.bins id = w.mem.bins id
  table : w'.mem.table = w.mem.table ∨
    w.mem.table < w'.mem.table ∧ w'.s = w.s ∧ w'.mem.bins w.mem.table = w.mem.bins w.mem.table

/-- What thread `u` relies on in the steps of the others. -/
structure Rely (u : T) (w w' : World T K V) : Prop where
  common : Common w w'
  priv : ∀ a < w.mem.fresh, w.kind a = .priv u → w'.kind a = .priv u ∧ w'.mem.value a = w.mem.value a
  past : ∀ x, w.past u x → w'.past u x
  st : w'.st u = w.st u
  owned : ∀ sg, w.mem.lock sg = some u → w'.mem.lock sg = some u ∧ Frozen E w w' sg

/-! ## What a thread knows -/

/-- The entry is in the current table, or left it since the call. -/
def Sees (t : T) (e : Entry K) : Prop :=
  Live w e ∨ e.addr < w.mem.fresh ∧ w.kind e.addr = .retired ∧
    ∃ x, w.past t x ∧ x e.key = w.mem.value e.addr

/-- Some time since the call the key had no value. -/
def Absent (t : T) (k : K) : Prop := ∃ x, w.past t x ∧ x k = none

/-- The table is the current one, or was since the call. -/
def Snap (t : T) (tab : ℕ) : Prop :=
  tab = w.mem.table ∨ tab < w.mem.table ∧ (∀ i, ∀ e ∈ w.mem.bins tab i, Sees w t e) ∧
    ∀ k, Lacks k (w.mem.bin E tab k) → Absent w t k

structure Holds (t : T) (sg : ℕ) : Prop where
  lock : w.mem.lock sg = some t
  tidy : Tidy E w sg
  last : w.mem.tables = w.mem.table + 1

/-- Holds a segment in which `e` is invalidated and `count` is `d` off. -/
structure HoldsOff (t : T) (sg : ℕ) (e : Option (Entry K)) (d : JInt) : Prop where
  lock : w.mem.lock sg = some t
  full : FullBut w sg e
  counts : Counts E w sg d
  last : w.mem.tables = w.mem.table + 1

/-- Holds all segments. -/
def HoldsAll (t : T) : Prop := ∀ j < concurrencyLevel, w.mem.lock j = some t ∧ Tidy E w j

/-- Holds the segment of the key, and has its slot in the current table. -/
structure HoldsBin (t : T) (key : K) (tab : ℕ) : Prop where
  holds : Holds E w t (segment (hash E key))
  table : tab = w.mem.table

/-- The unlocked traversal has met no entry with the key. -/
def Unmet (key : K) (f : Bin K) (e : Option (Entry K)) : Prop :=
  e = none → Formed E w f ∧ Lacks key f

def GetAt (t : T) (key : K) : Get K V → Prop
  | .table => True
  | .first tab => Snap E w t tab
  | .value _ e => e.key = key ∧ Sees w t e
  | .lock f e => Unmet E w key f e
  | .retable f e => Unmet E w key f e ∧ Holds E w t (segment (hash E key))
  | .refirst f e tab => Unmet E w key f e ∧ HoldsBin E w t key tab
  | .revalue e => Holds E w t (segment (hash E key)) ∧ Live w e ∧ e.key = key
  | .unlock r => Holds E w t (segment (hash E key)) ∧ ∃ x, w.past t x ∧ x key = r

/-- The entry to be put in front of the slot. -/
structure NewEntry (t : T) (key : K) (value : V) (e : Entry K) (f : Bin K) : Prop where
  keyed : e.key = key
  bin : f = w.mem.bin E w.mem.table key
  lacks : Lacks key f
  formed : Formed E w (e :: f)
  priv : w.kind e.addr = .priv t
  value : w.mem.value e.addr = some value

def PutAt (t : T) (key : K) (value : V) : Put K V → Prop
  | .lock => w.st t = .pending (.put key value)
  | .table => w.st t = .pending (.put key value) ∧ Holds E w t (segment (hash E key))
  | .first tab => w.st t = .pending (.put key value) ∧ HoldsBin E w t key tab
  | .old e => w.st t = .pending (.put key value) ∧ Holds E w t (segment (hash E key)) ∧ Live w e ∧
      e.key = key
  | .value e oldValue => w.st t = .pending (.put key value) ∧ Holds E w t (segment (hash E key)) ∧
      Live w e ∧ e.key = key ∧ oldValue = w.s key
  | .new tab f => w.st t = .pending (.put key value) ∧ HoldsBin E w t key tab ∧
      f = w.mem.bin E tab key ∧ Lacks key f
  | .store tab l => w.st t = .pending (.put key value) ∧ HoldsBin E w t key tab ∧
      ∃ e f, l = e :: f ∧ NewEntry E w t key value e f
  | .count _ => w.st t = .done (.put key value) none ∧
      HoldsOff E w t (segment (hash E key)) none (-1)
  | .threshold _ _ | .votes _ _ | .vote _ _ | .voteStore _ _ _ | .voted _ _ _ =>
      w.st t = .done (.put key value) none ∧ Holds E w t (segment (hash E key))
  | .max _ _ => w.st t = .done (.put key value) none
  | .unlock r => w.st t = .done (.put key value) r ∧ Holds E w t (segment (hash E key))

/-- The entry with the key, in its slot of the current table. -/
structure Found (key : K) (f : Bin K) (e : Entry K) (next : Bin K) : Prop where
  keyed : e.key = key
  bin : f = w.mem.bin E w.mem.table key
  split : ∃ pre, f = pre ++ e :: next

/-- `c` is a copy of `q` that is not yet in the table. -/
structure Copy (t : T) (q c : Entry K) : Prop where
  keyed : c.key = q.key
  priv : w.kind c.addr = .priv t
  value : w.mem.value c.addr = w.s q.key

/-- The entries before `p` are cloned in `head`, in front of the entries after `e`. -/
structure Cloned (t : T) (key : K) (p : Bin K) (e : Entry K) (head : Bin K) : Prop where
  keyed : e.key = key
  none : w.s key = none
  formed : Formed E w head
  split : ∃ pre rest clones next, w.mem.bin E w.mem.table key = pre ++ p ∧ p = rest ++ e :: next ∧
    head = clones ++ next ∧ List.Forall₂ (Copy w t) pre.reverse clones

def RemoveAt (t : T) (key : K) (value : Option V) : Remove K V → Prop
  | .lock => w.st t = .pending (.remove key value)
  | .table => w.st t = .pending (.remove key value) ∧ Holds E w t (segment (hash E key))
  | .first tab => w.st t = .pending (.remove key value) ∧ HoldsBin E w t key tab
  | .old tab f e next => w.st t = .pending (.remove key value) ∧ HoldsBin E w t key tab ∧
      Found E w key f e next
  | .null tab f e next oldValue => w.st t = .pending (.remove key value) ∧ HoldsBin E w t key tab ∧
      Found E w key f e next ∧ oldValue = w.s key ∧ (value = none ∨ value = w.s key)
  | .clone tab p e head oldValue => w.st t = .done (.remove key value) oldValue ∧
      HoldsOff E w t (segment (hash E key)) (some e) 1 ∧ tab = w.mem.table ∧ Cloned E w t key p e head
  | .count oldValue => w.st t = .done (.remove key value) oldValue ∧
      HoldsOff E w t (segment (hash E key)) none 1
  | .unlock r => w.st t = .done (.remove key value) r ∧ Holds E w t (segment (hash E key))

/-- What the table `tab` in preparation has of the entries `P` of the current table. -/
structure Copied (t : T) (tab : ℕ) (P : Entry K → Prop) : Prop where
  slot : ∀ i, Slot E w tab i
  old : ∀ i, ∀ c ∈ w.mem.bins tab i, w.mem.value c.addr = w.s c.key ∧
    (Live w c ∨ w.kind c.addr = .priv t) ∧ ∃ e, P e ∧ e.key = c.key
  all : ∀ e, P e → ∃ c ∈ w.mem.bins tab (index e.hash (w.mem.length tab)), c.key = e.key

/-- The entries before slot `i`. -/
def Before (i : ℕ) (e : Entry K) : Prop := ∃ j < i, e ∈ w.mem.bins w.mem.table j

structure Building (oldTab newTab : ℕ) : Prop where
  old : oldTab = w.mem.table
  table : newTab = w.mem.table + 1
  tables : w.mem.tables = newTab + 1
  length : w.mem.length newTab = 2 * w.mem.length w.mem.table
  small : w.mem.length w.mem.table < maximumCapacity

/-- `lastRun` ends the list of slot `i`, and the entries before `p` are cloned. -/
structure Cloning (t : T) (i newTab : ℕ) (p lastRun : Bin K) : Prop where
  lt : i < w.mem.length w.mem.table
  last : lastRun ≠ []
  split : ∃ pre rest, w.mem.bins w.mem.table i = pre ++ p ∧ p = rest ++ lastRun ∧
    Copied E w t newTab fun e => Before w i e ∨ e ∈ pre ∨ e ∈ lastRun

/-- The caller of `resize`. -/
def Caller (t : T) : Option JInt → Prop
  | none => ∃ o, w.st t = .done o none
  | some _ => w.st t = .idle

def ResizeAt (t : T) : Resize K → Prop
  | .lock i _ => i < concurrencyLevel ∧ ∀ j < i, Holds E w t j
  | .test i _ => i < concurrencyLevel ∧ ∀ j ≤ i, Holds E w t j
  | .unlock i => ∀ j ≤ i, Holds E w t j
  | .votes | .table | .max => ∀ j < concurrencyLevel, Holds E w t j
  | .new oldTab => (∀ j < concurrencyLevel, Holds E w t j) ∧ oldTab = w.mem.table ∧
      w.mem.length w.mem.table < maximumCapacity
  | .bin i oldTab newTab => HoldsAll E w t ∧ Building w oldTab newTab ∧
      Copied E w t newTab (Before w i)
  | .clone i oldTab newTab p lastRun => HoldsAll E w t ∧ Building w oldTab newTab ∧
      Cloning E w t i newTab p lastRun ∧ p ≠ lastRun
  | .link i oldTab newTab p lastRun e => HoldsAll E w t ∧ Building w oldTab newTab ∧
      Cloning E w t i newTab p lastRun ∧ p ≠ lastRun ∧ (∃ q, p.head? = some q ∧ Copy w t q e) ∧
      Formed E w (e :: w.mem.bins newTab (index e.hash (w.mem.length newTab)))

/-- The slots of segment `s` before `i` are empty. -/
def Emptied (s i : ℕ) : Prop := ∀ j < i, j % concurrencyLevel = s → w.mem.bins w.mem.table j = []

structure Clearing (t : T) (s tab i : ℕ) : Prop where
  lock : w.mem.lock s = some t
  table : tab = w.mem.table
  last : w.mem.tables = w.mem.table + 1
  slot : i % concurrencyLevel = s
  lt : i < w.mem.length w.mem.table

def ClearAt (t : T) (s : ℕ) : Clear K → Prop
  | .lock => True
  | .table => Holds E w t s
  | .bin tab i => Clearing w t s tab i ∧ Emptied w s i
  | .entry tab i l => Clearing w t s tab i ∧ Emptied w s i ∧
      ∃ pre, w.mem.bins w.mem.table i = pre ++ l ∧ ∀ e ∈ pre, w.s e.key = none
  | .count tab i => Clearing w t s tab i ∧ Emptied w s (i + 1)
  | .unlock => w.mem.lock s = some t ∧ w.mem.tables = w.mem.table + 1 ∧
      Emptied w s (w.mem.length w.mem.table) ∧ w.mem.count s = 0

def CountAt (t : T) (s : ℕ) : Count → Prop
  | .lock => True
  | .read | .unlock _ => Holds E w t s

def ContainsAt (t : T) (s : ℕ) : Contains K → Prop
  | .table | .unlock _ => Holds E w t s
  | _ => True

def ReserveAt (t : T) : Reserve → Prop
  | .lock => True
  | .table | .threshold _ | .unlock _ _ => Holds E w t 0

def IterateAt (t : T) : Iterate → Prop
  | .table | .unlock _ => Holds E w t 0
  | .synchLock i _ => i < concurrencyLevel
  | .synchUnlock i _ => i < concurrencyLevel ∧ Holds E w t i
  | _ => True

def At (t : T) : Pc K V → Prop
  | .idle => w.st t = .idle
  | .get key p => w.st t = .pending (.get key) ∧ GetAt E w t key p
  | .put key value p => PutAt E w t key value p
  | .remove key value p => RemoveAt E w t key value p
  | .resize n p => Caller w t n ∧ ResizeAt E w t p
  | .clear s p => w.st t = .idle ∧ s < concurrencyLevel ∧ ClearAt E w t s p
  | .count _ s _ p => w.st t = .idle ∧ s < concurrencyLevel ∧ CountAt E w t s p
  | .contains _ s p => w.st t = .idle ∧ s < concurrencyLevel ∧ ContainsAt E w t s p
  | .reserve _ p => w.st t = .idle ∧ ReserveAt E w t p
  | .iterator p => w.st t = .idle ∧ IterateAt E w t p

end Definitions

end Cds.ConcurrentHashMap
