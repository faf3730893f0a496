import CdsBenchmarks.Concurrent.Observe
import CdsBenchmarks.Concurrent.ReleaseSequence
import Mathlib.Order.Lattice
import Mathlib.Order.Defs.LinearOrder

/-! The C11 memory model without load buffering, operationally. The writes to a location
stand at times, which are their modification order. A thread may read any write that is not
older than one it knows of, and what it knows is its view. A write carries a view for the
acquire operations that read it, or a read-modify-write after it. Sequentially consistent
operations are taken to be acquire and release operations. -/

namespace Cds.Concurrent
open Program

/-- The last write known at each location, by its time, and for each thread the number of
its steps known. -/
abbrev View (X T : Type*) := (X → ℕ) × (T → ℕ)

namespace View
variable {X T : Type*}

abbrev time (v : View X T) : X → ℕ := v.1

abbrev clock (v : View X T) : T → ℕ := v.2

/-- The initial writes. -/
def init : View X T := (fun _ => 0, fun _ => 0)

theorem init_le (v : View X T) : init ≤ v := ⟨fun _ => Nat.zero_le _, fun _ => Nat.zero_le _⟩

/-- The write to `x` at time `k`. -/
def single [DecidableEq X] (x : X) (k : ℕ) : View X T := (Function.update (fun _ => 0) x k, fun _ => 0)

@[simp] theorem time_single [DecidableEq X] (x : X) (k : ℕ) :
    (single x k : View X T).time x = k := by simp [single, time]

end View

structure Message (X T V : Type*) where
  val : V
  view : View X T

/-- The writes so far, by location and time. -/
abbrev Messages (X T : Type*) (V : X → Type*) := (x : X) → ℕ → Option (Message X T (V x))

namespace Messages
variable {X T : Type*} {V : X → Type*} {m : Messages X T V} {x y : X} {k n : ℕ}
  {a b : Message X T (V x)}

/-- Every location has its initial write, which all threads know. -/
def initial (v : (x : X) → V x) : Messages X T V := fun x k => if k = 0 then some ⟨v x, .init⟩ else none

/-- The writes to `x` are the initial one and `n` read-modify-writes, which leave no gaps. -/
def Chain (m : Messages X T V) (x : X) (n : ℕ) : Prop := ∀ k, (m x k).isSome ↔ k ≤ n

def Extends (m m' : Messages X T V) : Prop := ∀ x k a, m x k = some a → m' x k = some a

theorem chain_initial {v : (x : X) → V x} : (initial v : Messages X T V).Chain x 0 := by
  intro k
  by_cases hk : k = 0 <;> simp [initial, hk]

theorem initial_eq_some {v : (x : X) → V x} :
    (initial v : Messages X T V) x k = some a ↔ k = 0 ∧ a = ⟨v x, .init⟩ := by
  by_cases hk : k = 0 <;> simp [initial, hk, eq_comm]

/-- A read-modify-write reads the last write of a chain. -/
theorem Chain.eq_of_isNone (h : m.Chain x n) (hk : m x k = some a) (hs : m x (k + 1) = none) : k = n := by
  have hle : k ≤ n := (h k).mp (by simp [hk])
  have hgt : ¬k + 1 ≤ n := fun hle' => by simpa [hs] using (h (k + 1)).mpr hle'
  omega

variable [DecidableEq X]

def put (m : Messages X T V) (x : X) (k : ℕ) (a : Message X T (V x)) : Messages X T V :=
  Function.update m x (Function.update (m x) k (some a))

@[simp] theorem put_self : m.put x k a x k = some a := by simp [put]

theorem put_time_of_ne (hn : n ≠ k) : m.put x k a x n = m x n := by simp [put, hn]

theorem put_of_ne (hy : y ≠ x) : m.put x k a y = m y := by simp [put, hy]

theorem of_put (hy : y ≠ x) {c : Message X T (V y)} (h : m.put x k a y n = some c) : m y n = some c := by
  rwa [put_of_ne hy] at h

theorem put_eq_some : m.put x k a x n = some b ↔ n = k ∧ b = a ∨ n ≠ k ∧ m x n = some b := by
  by_cases hn : n = k
  · subst hn
    simp [eq_comm]
  · simp [put_time_of_ne hn, hn]

theorem extends_put (h : m x k = none) : m.Extends (m.put x k a) := by
  intro y n b hb
  by_cases hy : y = x
  · subst hy
    have hn : n ≠ k := fun hn => by simp [hn ▸ hb] at h
    rwa [put_time_of_ne hn]
  · rwa [put_of_ne hy]

theorem Chain.put (h : m.Chain x n) : (m.put x (n + 1) a).Chain x (n + 1) := by
  intro k
  by_cases hk : k = n + 1
  · subst hk
    simp
  · rw [put_time_of_ne hk, h k]
    omega

end Messages

/-- What a thread knows, what an acquire fence would add, and what it knew at its last
release fence. -/
structure Views (X T : Type*) where
  cur : View X T
  acq : View X T
  rel : View X T

namespace Views
variable {X T : Type*} [DecidableEq X]

def read (o : MemoryOrder) (x : X) (k : ℕ) (v : View X T) (w : Views X T) : Views X T :=
  ⟨(if o.acquires then w.cur ⊔ v else w.cur) ⊔ View.single x k, w.acq ⊔ v, w.rel⟩

def write (x : X) (k : ℕ) (w : Views X T) : Views X T := { w with cur := w.cur ⊔ View.single x k }

/-- The view of a message that the thread has written at time `k`. -/
def released (o : MemoryOrder) (x : X) (k : ℕ) (w : Views X T) : View X T :=
  (if o.releases then w.cur else w.rel) ⊔ View.single x k

def fence (o : MemoryOrder) (w : Views X T) : Views X T :=
  let cur := if o.acquires then w.cur ⊔ w.acq else w.cur
  ⟨cur, w.acq, if o.releases then cur else w.rel⟩

omit [DecidableEq X] in
def tick [DecidableEq T] (t : T) (w : Views X T) : Views X T :=
  { w with cur := (w.cur.time, Function.update w.cur.clock t (w.cur.clock t + 1)) }

section
variable {o : MemoryOrder} {x : X} {k : ℕ} {v : View X T} {w : Views X T}

theorem cur_le_read : w.cur ≤ (w.read o x k v).cur := by
  refine le_trans ?_ le_sup_left
  split_ifs
  · exact le_sup_left
  · exact le_rfl

theorem le_time_read : k ≤ (w.read o x k v).cur.time x := by
  have h : View.single x k ≤ (w.read o x k v).cur := le_sup_right
  simpa using h.1 x

theorem le_cur_read (ho : o.acquires = true) : v ≤ (w.read o x k v).cur := by
  simp only [read, ho, if_true]
  exact le_sup_right.trans le_sup_left

theorem acq_le_read : w.acq ≤ (w.read o x k v).acq := le_sup_left

theorem le_acq_read : v ≤ (w.read o x k v).acq := le_sup_right

theorem cur_le_write : w.cur ≤ (w.write x k).cur := le_sup_left

theorem le_time_write : k ≤ (w.write x k).cur.time x := by
  have h : View.single x k ≤ (w.write x k).cur := le_sup_right
  simpa using h.1 x

theorem cur_le_released (ho : o.releases = true) : w.cur ≤ w.released o x k := by
  simp only [released, ho, if_true]
  exact le_sup_left

theorem rel_le_released (ho : o.releases = false) : w.rel ≤ w.released o x k := by
  simp only [released, ho, Bool.false_eq_true, if_false]
  exact le_sup_left

end

variable {o : MemoryOrder} {w : Views X T}

omit [DecidableEq X]

theorem cur_le_fence : w.cur ≤ (w.fence o).cur := by
  cases h : o.acquires <;> simp [fence, h]

theorem acq_le_fence (ho : o.acquires = true) : w.acq ≤ (w.fence o).cur := by
  simp [fence, ho]

theorem rel_fence (ho : o.releases = true) : (w.fence o).rel = (w.fence o).cur := by
  simp [fence, ho]

theorem cur_le_tick [DecidableEq T] {t : T} : w.cur ≤ (w.tick t).cur := by
  refine ⟨le_rfl, fun u => ?_⟩
  by_cases hu : u = t
  · subst hu
    simp [tick]
  · simp [tick, hu]

end Views

/-! ## Instructions -/

/-- One step of a thread: its access of the atomic locations, and what it goes on with. -/
inductive Instr (X : Type*) (V : X → Type*) (O : Type*)
  | load (o : MemoryOrder) (x : X) (next : V x → O)
  | store (o : MemoryOrder) (x : X) (v : V x) (next : O)
  /-- The value read becomes `f` of it. Where `f` gives none it stays, and the order is `fail`. -/
  | rmw (o fail : MemoryOrder) (x : X) (f : V x → Option (V x)) (next : V x → O)
  | fence (o : MemoryOrder) (next : O)
  | plain (next : O)

namespace Instr
variable {X T O : Type*} {V : X → Type*} [DecidableEq X]

/-- The effect where the access is of the write at time `k`, or makes one at that time. -/
def exec (k : ℕ) (m : Messages X T V) (w : Views X T) :
    Instr X V O → Option (Messages X T V × Views X T × O)
  | .load o x next => (m x k).bind fun a =>
    if w.cur.time x ≤ k then some (m, w.read o x k a.view, next a.val) else none
  | .store o x v next =>
    if (m x k).isNone ∧ w.cur.time x < k then
      some (m.put x k ⟨v, (w.write x k).released o x k⟩, w.write x k, next)
    else none
  | .rmw o fail x f next => (m x k).bind fun a =>
    if w.cur.time x ≤ k then
      match f a.val with
      | none => some (m, w.read fail x k a.view, next a.val)
      | some v =>
        let w' := (w.read o x k a.view).write x (k + 1)
        if (m x (k + 1)).isNone then
          some (m.put x (k + 1) ⟨v, a.view ⊔ w'.released o x (k + 1)⟩, w', next a.val)
        else none
    else none
  | .fence o next => some (m, w.fence o, next)
  | .plain next => some (m, w, next)

variable {k : ℕ} {m m' : Messages X T V} {w w' : Views X T} {o fail : MemoryOrder} {x : X} {r : O}

theorem exec_load {next : V x → O} (h : (load o x next).exec k m w = some (m', w', r)) :
    ∃ a, m x k = some a ∧ w.cur.time x ≤ k ∧ m' = m ∧ w' = w.read o x k a.view ∧ r = next a.val := by
  obtain ⟨a, ha, h⟩ := Option.bind_eq_some_iff.mp h
  split at h <;> cases h
  exact ⟨a, ha, by assumption, rfl, rfl, rfl⟩

theorem exec_store {v : V x} {next : O} (h : (store o x v next).exec k m w = some (m', w', r)) :
    m x k = none ∧ w.cur.time x < k ∧ m' = m.put x k ⟨v, (w.write x k).released o x k⟩ ∧
      w' = w.write x k ∧ r = next := by
  simp only [exec] at h
  split at h <;> cases h
  next hk => exact ⟨Option.isNone_iff_eq_none.mp hk.1, hk.2, rfl, rfl, rfl⟩

theorem exec_rmw {f : V x → Option (V x)} {next : V x → O}
    (h : (rmw o fail x f next).exec k m w = some (m', w', r)) :
    ∃ a, m x k = some a ∧ w.cur.time x ≤ k ∧ r = next a.val ∧
      ((f a.val = none ∧ m' = m ∧ w' = w.read fail x k a.view) ∨
        ∃ v, f a.val = some v ∧ m x (k + 1) = none ∧ w' = (w.read o x k a.view).write x (k + 1) ∧
          m' = m.put x (k + 1) ⟨v, a.view ⊔ w'.released o x (k + 1)⟩) := by
  obtain ⟨a, ha, h⟩ := Option.bind_eq_some_iff.mp h
  refine ⟨a, ha, ?_⟩
  split at h
  · next hk =>
    split at h
    · next hf =>
      cases h
      exact ⟨hk, rfl, .inl ⟨hf, rfl, rfl⟩⟩
    · next v hf =>
      simp only at h
      split at h <;> cases h
      next hn => exact ⟨hk, rfl, .inr ⟨v, hf, Option.isNone_iff_eq_none.mp hn, rfl, rfl⟩⟩
  · cases h

theorem exec_fence {next : O} (h : (fence (X := X) (V := V) o next).exec k m w = some (m', w', r)) :
    m' = m ∧ w' = w.fence o ∧ r = next := by
  cases h
  exact ⟨rfl, rfl, rfl⟩

theorem exec_plain {next : O} (h : (plain (X := X) (V := V) next).exec k m w = some (m', w', r)) :
    m' = m ∧ w' = w ∧ r = next := by
  cases h
  exact ⟨rfl, rfl, rfl⟩

theorem exec_cur_le {i : Instr X V O} (h : i.exec k m w = some (m', w', r)) : w.cur ≤ w'.cur := by
  cases i with
  | load o x next =>
    obtain ⟨a, -, -, -, rfl, -⟩ := exec_load h
    exact Views.cur_le_read
  | store o x v next =>
    obtain ⟨-, -, -, rfl, -⟩ := exec_store h
    exact Views.cur_le_write
  | rmw o fail x f next =>
    obtain ⟨a, -, -, -, ⟨-, -, rfl⟩ | ⟨v, -, -, rfl, -⟩⟩ := exec_rmw h
    · exact Views.cur_le_read
    · exact Views.cur_le_read.trans Views.cur_le_write
  | fence o next =>
    cases h
    exact Views.cur_le_fence
  | plain next =>
    cases h
    exact le_rfl

end Instr

/-! ## Programs -/

/-- A plain access of the object `place`, with what its thread knew then. -/
structure Use (Y T : Type*) where
  place : Y
  write : Bool
  clock : T → ℕ

/-- How a thread goes on after an access: the new plain memory, the next program point, what
is emitted, and the plain accesses made. -/
structure Outcome (σ L ε Y : Type*) where
  plain : σ
  loc : L
  events : List ε := []
  uses : List (Y × Bool) := []

@[ext] structure Shared (X T : Type*) (V : X → Type*) (σ : Type*) where
  msg : Messages X T V
  plain : σ

variable {X T σ L α ε Y : Type*} {V : X → Type*} [DecidableEq X] [DecidableEq T]

/-- The trace of a step: its events and its uses of plain memory. -/
def Outcome.trace (r : Outcome σ L ε Y) (v : View X T) : List (ε ⊕ Use Y T) :=
  r.events.map .inl ++ (r.uses.map fun y => ⟨y.1, y.2, v.clock⟩).map .inr

/-- The program whose threads run `code`. An action also gives the time of the write that
the step accesses. -/
def weak (code : T → α → σ → L → Option (Instr X V (Outcome σ L ε Y))) :
    Program T (Shared X T V σ) (Views X T × L) (α × ℕ) (ε ⊕ Use Y T) where
  step t a m l := (code t a.1 m.plain l.2).bind fun i =>
    (i.exec a.2 m.msg (l.1.tick t)).map fun r =>
      (⟨r.1, r.2.2.plain⟩, (r.2.1, r.2.2.loc), r.2.2.trace r.2.1.cur)

theorem weak_step {code : T → α → σ → L → Option (Instr X V (Outcome σ L ε Y))} {t : T} {a : α × ℕ}
    {m m' : Shared X T V σ} {l l' : Views X T × L} {es : List (ε ⊕ Use Y T)}
    (h : (weak code).step t a m l = some (m', l', es)) :
    ∃ i r, code t a.1 m.plain l.2 = some i ∧ i.exec a.2 m.msg (l.1.tick t) = some (m'.msg, l'.1, r) ∧
      m'.plain = r.plain ∧ l'.2 = r.loc ∧ es = r.trace l'.1.cur := by
  obtain ⟨i, hi, h⟩ := Option.bind_eq_some_iff.mp h
  obtain ⟨⟨ms, w, r⟩, hr, heq⟩ := Option.map_eq_some_iff.mp h
  cases heq
  exact ⟨i, r, hi, hr, rfl, rfl, rfl⟩

/-- The threads at `l`, with the initial writes. -/
def weakStart (T : Type*) (v : (x : X) → V x) (m : σ) (l : L) : Config T (Shared X T V σ) (Views X T × L) :=
  ⟨⟨.initial v, m⟩, fun _ => (⟨.init, .init, .init⟩, l)⟩

omit [DecidableEq X] [DecidableEq T] in
theorem weakStart_msg {v : (x : X) → V x} {m : σ} {l : L} {x : X} {k : ℕ} {a : Message X T (V x)} :
    (weakStart T v m l).mem.msg x k = some a ↔ k = 0 ∧ a = ⟨v x, .init⟩ := Messages.initial_eq_some

end Cds.Concurrent
