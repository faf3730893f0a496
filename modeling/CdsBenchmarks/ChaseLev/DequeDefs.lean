import CdsBenchmarks.Concurrent.Linearizability
import Mathlib.Algebra.Group.Nat.Defs

/-! The work-stealing deque of `chase-lev-deque-bugfix/deque.c`, every atomic access one
step. Fences order nothing here: accesses already happen one after the other. -/

namespace Cds.ChaseLev
open Concurrent

/-- A C `int`. -/
abbrev CInt := BitVec 32

/-- A `size_t`. -/
abbrev Size := BitVec 64

def EMPTY : CInt := 0xffffffff

def ABORT : CInt := 0xfffffffe

/-- The two arrays there can be: the one a deque is created with, and `newArray`. -/
inductive Arr
  | initial
  | new
deriving DecidableEq, Repr

structure Mem where
  top : Size
  bottom : Size
  array : Arr
  newArray : Option Arr
  size : Arr → Size
  buffer : Arr → ℕ → CInt

/-- `a->buffer[i] = v`. -/
def Mem.store (m : Mem) (a : Arr) (i : ℕ) (v : CInt) : Mem :=
  { m with buffer := Function.update m.buffer a (Function.update (m.buffer a) i v) }

/-- `create_size(size)`; no `newArray` is allocated. -/
def createSize (size : CInt) : Mem where
  top := 0
  bottom := 0
  array := .initial
  newArray := none
  size := fun
    | .initial => size.signExtend 64
    | .new => 0
  buffer _ _ := 0

/-- `create()`, which allocates `newArray` with room for 8. -/
def create : Mem where
  top := 0
  bottom := 0
  array := .initial
  newArray := some .new
  size := fun
    | .initial => 2
    | .new => 8
  buffer _ _ := 0

inductive Op
  | push (x : CInt)
  | take
  | steal
deriving DecidableEq, Repr

/-- The points before an access, with the local variables still to be used; `sz` is an
`int` and `newA` is `new_a`. -/
inductive Pc
  | idle
  | takeBottom
  | takeArray (b : Size)
  | takeLower (b : Size) (a : Arr)
  | takeTop (b : Size) (a : Arr)
  | takeSize (b : Size) (a : Arr) (t : Size)
  | takeBuffer (b : Size) (a : Arr) (t : Size) (sz : CInt)
  | takeCas (b t : Size) (x : CInt)
  | takeRestore (b : Size) (x : CInt)
  | pushBottom (x : CInt)
  | pushTop (x : CInt) (b : Size)
  | pushArray (x : CInt) (b t : Size)
  | pushCheck (x : CInt) (b t : Size) (a : Arr)
  | resizeArray (x : CInt) (b : Size)
  | resizeSize (x : CInt) (b : Size) (a : Arr)
  | resizeTop (x : CInt) (b : Size) (a : Arr) (size : Size) (newA : Option Arr)
  | resizeBottom (x : CInt) (b : Size) (a : Arr) (size : Size) (newA : Option Arr) (top : Size)
  | resizeNewSize (x : CInt) (b : Size) (a : Arr) (size : Size) (newA : Option Arr) (top bottom : Size)
  | resizeLoad (x : CInt) (b : Size) (a : Arr) (size : Size) (newA : Arr) (i bottom : Size)
  | resizeStore (x : CInt) (b : Size) (a : Arr) (size : Size) (newA : Arr) (i bottom : Size) (v : CInt)
  | resizePublish (x : CInt) (b : Size) (newA : Arr)
  | pushReload (x : CInt) (b : Size)
  | pushSize (x : CInt) (b : Size) (a : Arr)
  | pushBuffer (x : CInt) (b : Size) (a : Arr) (size : Size)
  | pushPublish (b : Size)
  | stealTop
  | stealBottom (t : Size)
  | stealArray (t : Size)
  | stealSize (t : Size) (a : Arr)
  | stealBuffer (t : Size) (a : Arr) (sz : CInt)
  | stealCas (t : Size) (x : CInt)
  | ret (r : Option CInt)
  /-- `newArray` was NULL. -/
  | crash
deriving DecidableEq, Repr

inductive Act
  | call (o : Op)
  | run
deriving DecidableEq, Repr

/-- Calls and returns, the access at which a call takes effect, and calls of `resize`. -/
inductive Event
  | call (o : Op)
  | lin
  | ret (r : Option CInt)
  | resize
deriving DecidableEq, Repr

def Event.mark : Event → Option (Mark Op (Option CInt))
  | .call o => some (.call o)
  | .lin => some .lin
  | .ret r => some (.ret r)
  | .resize => none

def Op.entry : Op → Pc
  | .push x => .pushBottom x
  | .take => .takeBottom
  | .steal => .stealTop

/-- The slot `i % sz` for an `int sz`, which `%` converts to `size_t`. -/
def intSlot (i : Size) (sz : CInt) : ℕ := (i % sz.signExtend 64).toNat

theorem toNat_signExtend {size : CInt} (h : 0 < size.toInt) :
    (size.signExtend 64).toNat = size.toNat ∧ 0 < size.toNat ∧ size.toNat < 2 ^ 31 := by
  have hmsb : size.msb = false := by
    rw [BitVec.msb_eq_toInt]
    exact decide_eq_false (by omega)
  have hlt := BitVec.msb_eq_false_iff_two_mul_lt.mp hmsb
  rw [BitVec.toInt_eq_toNat_of_msb hmsb] at h
  rw [BitVec.signExtend_eq_setWidth_of_msb_false hmsb, BitVec.toNat_setWidth,
    Nat.mod_eq_of_lt (by omega)]
  exact ⟨rfl, by omega, by omega⟩

/-- A size that fits an `int` comes back from one. -/
theorem signExtend_setWidth {s : Size} (h : s.toNat < 2 ^ 31) : (s.setWidth 32).signExtend 64 = s := by
  have hmsb : (s.setWidth 32).msb = false := by
    rw [BitVec.msb_eq_false_iff_two_mul_lt, BitVec.toNat_setWidth, Nat.mod_eq_of_lt (by omega)]
    omega
  rw [BitVec.signExtend_eq_setWidth_of_msb_false hmsb]
  bv_omega

/-- The copying loop at `i`. -/
def resizeLoop (x : CInt) (b : Size) (a : Arr) (size : Size) (newA : Arr) (i bottom : Size) : Pc :=
  if i < bottom then .resizeLoad x b a size newA i bottom else .resizePublish x b newA

/-- The next access of a call. -/
def access (m : Mem) : Pc → Option (Mem × Pc × List Event)
  | .idle => none
  | .takeBottom => some (m, .takeArray (m.bottom - 1), [])
  | .takeArray b => some (m, .takeLower b m.array, [])
  | .takeLower b a => some ({ m with bottom := b }, .takeTop b a, [])
  | .takeTop b a =>
    if m.top ≤ b then some (m, .takeSize b a m.top, if m.top = b then [] else [.lin])
    else some (m, .takeRestore b EMPTY, [.lin])
  | .takeSize b a t => some (m, .takeBuffer b a t ((m.size a).setWidth 32), [])
  | .takeBuffer b a t sz =>
    if t = b then some (m, .takeCas b t (m.buffer a (intSlot b sz)), [])
    else some (m, .ret (some (m.buffer a (intSlot b sz))), [])
  | .takeCas b t x =>
    if m.top = t then some ({ m with top := t + 1 }, .takeRestore b x, [.lin])
    else some (m, .takeRestore b EMPTY, [.lin])
  | .takeRestore b x => some ({ m with bottom := b + 1 }, .ret (some x), [])
  | .pushBottom x => some (m, .pushTop x m.bottom, [])
  | .pushTop x b => some (m, .pushArray x b m.top, [])
  | .pushArray x b t => some (m, .pushCheck x b t m.array, [])
  | .pushCheck x b t a =>
    if b - t > m.size a - 1 then some (m, .resizeArray x b, [.resize])
    else some (m, .pushSize x b a, [])
  | .resizeArray x b => some (m, .resizeSize x b m.array, [])
  | .resizeSize x b a => some (m, .resizeTop x b a (m.size a) m.newArray, [])
  | .resizeTop x b a size newA => some (m, .resizeBottom x b a size newA m.top, [])
  | .resizeBottom x b a size newA top => some (m, .resizeNewSize x b a size newA top m.bottom, [])
  | .resizeNewSize x b a size newA top bottom =>
    match newA with
    | none => some (m, .crash, [])
    | some newA => some ({ m with size := Function.update m.size newA (size <<< 1) },
        resizeLoop x b a size newA top bottom, [])
  | .resizeLoad x b a size newA i bottom =>
    some (m, .resizeStore x b a size newA i bottom (m.buffer a (i % size).toNat), [])
  | .resizeStore x b a size newA i bottom v =>
    some (m.store newA (i % (size <<< 1)).toNat v, resizeLoop x b a size newA (i + 1) bottom, [])
  | .resizePublish x b newA => some ({ m with array := newA }, .pushReload x b, [])
  | .pushReload x b => some (m, .pushSize x b m.array, [])
  | .pushSize x b a => some (m, .pushBuffer x b a (m.size a), [])
  | .pushBuffer x b a size => some (m.store a (b % size).toNat x, .pushPublish b, [])
  | .pushPublish b => some ({ m with bottom := b + 1 }, .ret none, [.lin])
  | .stealTop => some (m, .stealBottom m.top, [])
  | .stealBottom t =>
    if t < m.bottom then some (m, .stealArray t, []) else some (m, .ret (some EMPTY), [.lin])
  | .stealArray t => some (m, .stealSize t m.array, [])
  | .stealSize t a => some (m, .stealBuffer t a ((m.size a).setWidth 32), [])
  | .stealBuffer t a sz => some (m, .stealCas t (m.buffer a (intSlot t sz)), [])
  | .stealCas t x =>
    if m.top = t then some ({ m with top := t + 1 }, .ret (some x), [.lin])
    else some (m, .ret (some ABORT), [.lin])
  | .ret r => some (m, .idle, [.ret r])
  | .crash => none

variable {T : Type*}

def step (_ : T) (a : Act) (m : Mem) (l : Pc) : Option (Mem × Pc × List Event) :=
  match a with
  | .call o => if l = .idle then some (m, o.entry, [.call o]) else none
  | .run => access m l

variable (T) in
def program : Program T Mem Pc Act Event := ⟨step⟩

variable (T) in
/-- All threads idle. -/
def start (m : Mem) : Config T Mem Pc := ⟨m, fun _ => .idle⟩

def history (tr : List (T × Event)) : List (T × Mark Op (Option CInt)) :=
  tr.filterMap fun e => e.2.mark.map (e.1, ·)

/-- How often `resize` has been called. -/
def resizes (tr : List (T × Event)) : ℕ := occurrences .resize tr

/-- Only `owner` pushes and takes, only the others steal, the values `EMPTY` and `ABORT` are
not pushed, and `bottom` does not wrap. -/
def inRole [DecidableEq T] (owner t : T) (l : Pc) : Act → Bool
  | .call (.push x) => t = owner && x ≠ EMPTY && x ≠ ABORT
  | .call .take => t = owner
  | .call .steal => t ≠ owner
  | .run =>
    match l with
    | .pushPublish b => b + 1 ≠ 0
    | _ => true

def byRole [DecidableEq T] (owner : T) (c : Config T Mem Pc) (t : T) (a : Act) : Prop :=
  inRole owner t (c.loc t) a

/-- The first call of `owner` is a push. -/
def PushFirst (owner : T) (tr : List (T × Event)) : Prop :=
  ∀ pre post, tr = pre ++ (owner, .call .take) :: post → ∃ x, (owner, .call (.push x)) ∈ pre

/-- A deque as made, and how many calls of `resize` it is to serve. -/
inductive Made : Mem → ℕ → Prop
  | create : Made create 1
  | createSize (size : CInt) (h : 0 < size.toInt) : Made (createSize size) 0

/-- The atomic deque, newest element last. A steal may return `EMPTY` or `ABORT` at any
time, and then removes nothing. -/
def deque : ObjectSpec (List CInt) Op (Option CInt) where
  init := []
  post s o r s' :=
    match o with
    | .push x => r = none ∧ s' = s ++ [x]
    | .take => (∃ x, r = some x ∧ x ≠ EMPTY ∧ x ≠ ABORT ∧ s = s' ++ [x]) ∨
        (r = some EMPTY ∧ s = [] ∧ s' = [])
    | .steal => (∃ x, r = some x ∧ x ≠ EMPTY ∧ x ≠ ABORT ∧ s = x :: s') ∨
        ((r = some EMPTY ∨ r = some ABORT) ∧ s' = s)

end Cds.ChaseLev
