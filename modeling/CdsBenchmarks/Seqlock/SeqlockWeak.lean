import CdsBenchmarks.Seqlock.SeqlockRegister
import CdsBenchmarks.Concurrent.DataRace
import CdsBenchmarks.Concurrent.SequentialConsistency

/-! The sequence lock under the memory orders of `seqlock/seqlock.cc`. The release fence of
`write` and the acquire fence of `read` make the second load of `_seq` recent enough: the two
relaxed loads of a read that returns found the stores of one write. -/

namespace Cds.Seqlock.Weak
open Concurrent Program

inductive Cell
  | seq
  | data1
  | data2
deriving DecidableEq, Repr

inductive Pc
  | idle
  | readSeq
  | readData1 (oldSeq : CInt)
  | readData2 (oldSeq data1 : CInt)
  | readFence (oldSeq data1 data2 : CInt)
  | readCheck (oldSeq data1 data2 : CInt)
  | writeSeq (data1 data2 : CInt)
  | writeCas (oldSeq data1 data2 : CInt)
  | writeFence (data1 data2 : CInt)
  | writeData1 (data1 data2 : CInt)
  | writeData2 (data1 data2 : CInt)
  | writeAdd (data1 data2 : CInt)
  | ret (r : Res)
deriving DecidableEq, Repr

def entry : Op → Pc
  | .read => .readSeq
  | .write d1 d2 => .writeSeq d1 d2

abbrev Code := Instr Cell (fun _ => CInt) (Outcome Unit Pc (Mark Op Res) Empty)

variable {T : Type*}

/-- The accesses with their memory orders. -/
def order (_ : T) (a : Act) (_ : Unit) (l : Pc) : Option Code :=
  match a with
  | .call o => if l = .idle then some (.plain ⟨(), entry o, [.call o], []⟩) else none
  | .run => match l with
    | .idle => none
    | .readSeq =>
      some (.load .acquire .seq fun s => ⟨(), if busy s then .readSeq else .readData1 s, [], []⟩)
    | .readData1 old => some (.load .relaxed .data1 fun x => ⟨(), .readData2 old x, [], []⟩)
    | .readData2 old d1 => some (.load .relaxed .data2 fun x => ⟨(), .readFence old d1 x, [], []⟩)
    | .readFence old d1 d2 => some (.fence .acquire ⟨(), .readCheck old d1 d2, [], []⟩)
    | .readCheck old d1 d2 =>
      some (.load .relaxed .seq fun s =>
        if s = old then ⟨(), .ret (some (d1, d2)), [.lin], []⟩ else ⟨(), .readSeq, [], []⟩)
    | .writeSeq d1 d2 => some (.load .acquire .seq fun s =>
        ⟨(), if busy s then .writeSeq d1 d2 else .writeCas s d1 d2, [], []⟩)
    | .writeCas old d1 d2 =>
      some (.rmw .relaxed .relaxed .seq (fun s => if s = old then some (old + 1) else none) fun s =>
        ⟨(), if s = old then .writeFence d1 d2 else .writeSeq d1 d2, [], []⟩)
    | .writeFence d1 d2 => some (.fence .release ⟨(), .writeData1 d1 d2, [], []⟩)
    | .writeData1 d1 d2 => some (.store .relaxed .data1 d1 ⟨(), .writeData2 d1 d2, [], []⟩)
    | .writeData2 d1 d2 => some (.store .relaxed .data2 d2 ⟨(), .writeAdd d1 d2, [], []⟩)
    | .writeAdd _ _ => some (.rmw .release .release .seq (fun s => some (s + 1)) fun _ =>
        ⟨(), .ret none, [.lin], []⟩)
    | .ret r => some (.plain ⟨(), .idle, [.ret r], []⟩)

abbrev WeakMem (T : Type*) := Shared Cell T (fun _ => CInt) Unit

abbrev WeakEvent (T : Type*) := Mark Op Res ⊕ Use Empty T

variable (T) in
def program [DecidableEq T] : Program T (WeakMem T) (Views Cell T × Pc) (Act × ℕ) (WeakEvent T) :=
  weak order

/-- The initial values of the constructor. -/
def cell (x : Cell) : CInt :=
  match x with
  | .seq => seqlock.seq
  | .data1 => seqlock.data1
  | .data2 => seqlock.data2

def start (T : Type*) : Config T (WeakMem T) (Views Cell T × Pc) := weakStart T cell () .idle

theorem start_msg {x : Cell} {k : ℕ} {a : Message Cell T CInt} :
    (start T).mem.msg x k = some a ↔ k = 0 ∧ a = ⟨cell x, .init⟩ := weakStart_msg

/-! ## Sessions -/

/-- `vers` holds the pairs written so far, `session x i` is the number of the write that made
the store to `x` at time `i`, `writer` is between its `compare_exchange` and its `fetch_add`,
and `pend` are the threads in a write before the `fetch_add`. -/
structure World (T : Type*) where
  mem : WeakMem T
  hist : List (T × WeakEvent T)
  vers : Versions (CInt × CInt) Op Res
  session : Cell → ℕ → ℕ
  st : T → Status Op Res
  writer : Option T
  pend : Finset T

/-- How often `_seq` was incremented. -/
def World.n (w : World T) : ℕ := 2 * w.vers.size + if w.writer.isSome then 1 else 0

/-- The component of a pair that is stored in `x`. -/
def part (x : Cell) (d : CInt × CInt) : CInt :=
  match x with
  | .data2 => d.2
  | _ => d.1

/-- The view `v` has the stores of the first `j` writes. -/
def Knows (w : World T) (v : View Cell T) (j : ℕ) : Prop :=
  ∀ x ≠ Cell.seq, ∀ i b, w.mem.msg x i = some b →
    (w.session x i ≤ j → i ≤ v.time x) ∧ (w.session x i < j → i < v.time x)

/-- What is known of a store to a data field. -/
structure Stored (w : World T) (x : Cell) (i : ℕ) (b : Message Cell T CInt) : Prop where
  val : w.session x i ≤ w.vers.size → b.val = part x (w.vers.state (w.session x i))
  since : 2 * w.session x i ≤ b.view.time .seq + 1
  closed : w.writer = none → w.session x i ≤ w.vers.size

structure Glob (w : World T) : Prop where
  serial : Serial register (events w.hist) w.vers w.st
  chain : w.mem.msg.Chain .seq w.n
  seq : ∀ k b, w.mem.msg .seq k = some b → b.val = BitVec.ofNat 32 k
  known : ∀ j b, w.mem.msg .seq (2 * j) = some b → Knows w b.view j
  data : ∀ x ≠ Cell.seq, ∀ i b, w.mem.msg x i = some b → Stored w x i b
  pend : ∀ t, t ∈ w.pend ↔ ∃ d1 d2, w.st t = .pending (.write d1 d2)
  writer : ∀ t, w.writer = some t → t ∈ w.pend
  count : w.vers.size + w.pend.card = writeCalls (events w.hist)

/-- The even value `old` was loaded after `j` writes. -/
structure Snap (w : World T) (v : View Cell T) (old : CInt) (j : ℕ) : Prop where
  seq : old = BitVec.ofNat 32 (2 * j)
  le : j ≤ w.vers.size
  known : Knows w v j
  time : 2 * j ≤ v.time .seq

structure Reading (t : T) (w : World T) (v : View Cell T) (old : CInt) (j : ℕ) : Prop where
  st : w.st t = .pending .read
  snap : Snap w v old j
  upTo : UpTo (events w.hist) w.vers t j

/-- The value `d` of `x` was stored by write `j` or a later one, and `v` has what its
writer knew at the release fence. -/
def Loaded (w : World T) (v : View Cell T) (x : Cell) (j : ℕ) (d : CInt) : Prop :=
  ∃ i b, w.mem.msg x i = some b ∧ b.val = d ∧ j ≤ w.session x i ∧ b.view ≤ v

/-- Thread `t` is in the window of a write. -/
structure Owns (t : T) (w : World T) (v : View Cell T) (d1 d2 : CInt) : Prop where
  st : w.st t = .pending (.write d1 d2)
  writer : w.writer = some t
  rel : w.n ≤ v.time .seq

/-- The writer has view `v` and knows all stores to `x`: those of the earlier writes and, once
it has stored `d`, its own, which is the last. -/
def Wrote (w : World T) (v : View Cell T) (x : Cell) (d : Option CInt) : Prop :=
  ∀ i b, w.mem.msg x i = some b → i ≤ v.time x ∧
    ((w.session x i ≤ w.vers.size ∧ (d.isSome → i < v.time x)) ∨
      (w.session x i = w.vers.size + 1 ∧ d = some b.val))

def At (t : T) (w : World T) (u : Views Cell T) : Pc → Prop
  | .idle => w.st t = .idle
  | .readSeq => w.st t = .pending .read
  | .readData1 old => ∃ j, Reading t w u.cur old j
  | .readData2 old d1 => ∃ j, Reading t w u.cur old j ∧ Loaded w u.acq .data1 j d1
  | .readFence old d1 d2 =>
    ∃ j, Reading t w u.cur old j ∧ Loaded w u.acq .data1 j d1 ∧ Loaded w u.acq .data2 j d2
  | .readCheck old d1 d2 =>
    ∃ j, Reading t w u.cur old j ∧ Loaded w u.cur .data1 j d1 ∧ Loaded w u.cur .data2 j d2
  | .writeSeq d1 d2 => w.st t = .pending (.write d1 d2) ∧ w.writer ≠ some t
  | .writeCas old d1 d2 =>
    (w.st t = .pending (.write d1 d2) ∧ w.writer ≠ some t) ∧ ∃ j, Snap w u.cur old j
  | .writeFence d1 d2 => Owns t w u.cur d1 d2 ∧ Wrote w u.cur .data1 none ∧ Wrote w u.cur .data2 none
  | .writeData1 d1 d2 => Owns t w u.rel d1 d2 ∧ Wrote w u.cur .data1 none ∧ Wrote w u.cur .data2 none
  | .writeData2 d1 d2 => Owns t w u.rel d1 d2 ∧ Wrote w u.cur .data1 (some d1) ∧ Wrote w u.cur .data2 none
  | .writeAdd d1 d2 =>
    Owns t w u.rel d1 d2 ∧ Wrote w u.cur .data1 (some d1) ∧ Wrote w u.cur .data2 (some d2)
  | .ret r => ∃ o, w.st t = .done o r

/-- The calls of the thread took effect on versions it knows. -/
def Local (t : T) (w : World T) (x : Views Cell T × Pc) : Prop :=
  (∃ k, 2 * k ≤ x.1.cur.time .seq ∧ UpTo (events w.hist) w.vers t k) ∧ At t w x.1 x.2

/-- What the other threads see of a step of `t`. -/
structure Guar (t : T) (w w' : World T) : Prop where
  st : ∀ u, u ≠ t → w'.st u = w.st u
  upTo : ∀ u k, u ≠ t → UpTo (events w.hist) w.vers u k → UpTo (events w'.hist) w'.vers u k
  size : w.vers.size ≤ w'.vers.size
  kept : ∀ x i b, w.mem.msg x i = some b → w'.mem.msg x i = some b ∧ w'.session x i = w.session x i
  fresh : ∀ x ≠ Cell.seq, ∀ i b, w'.mem.msg x i = some b →
    w.mem.msg x i = some b ∨ w'.session x i = w.vers.size + 1
  writer : ∀ u, u ≠ t → (w'.writer = some u ↔ w.writer = some u)
  own : ∀ u, u ≠ t → w.writer = some u → w'.vers.size = w.vers.size ∧
    ∀ x ≠ Cell.seq, w'.mem.msg x = w.mem.msg x ∧ w'.session x = w.session x

section Mono
variable {t : T} {w : World T} {v v' : View Cell T} {x : Cell} {j : ℕ} {d d1 d2 old : CInt}

theorem Knows.mono (h : Knows w v j) (hv : v ≤ v') : Knows w v' j :=
  fun x hx i b hb => ⟨fun hs => ((h x hx i b hb).1 hs).trans (hv.1 x),
    fun hs => Nat.lt_of_lt_of_le ((h x hx i b hb).2 hs) (hv.1 x)⟩

theorem Snap.mono (h : Snap w v old j) (hv : v ≤ v') : Snap w v' old j :=
  ⟨h.seq, h.le, h.known.mono hv, h.time.trans (hv.1 _)⟩

theorem Reading.mono (h : Reading t w v old j) (hv : v ≤ v') : Reading t w v' old j :=
  ⟨h.st, h.snap.mono hv, h.upTo⟩

theorem Loaded.mono (h : Loaded w v x j d) (hv : v ≤ v') : Loaded w v' x j d := by
  obtain ⟨i, b, hb, hd, hj, hle⟩ := h
  exact ⟨i, b, hb, hd, hj, hle.trans hv⟩

theorem Owns.mono (h : Owns t w v d1 d2) (hv : v ≤ v') : Owns t w v' d1 d2 :=
  ⟨h.st, h.writer, h.rel.trans (hv.1 _)⟩

theorem Wrote.mono {o : Option CInt} (h : Wrote w v x o) (hv : v ≤ v') : Wrote w v' x o := by
  intro i b hb
  obtain ⟨hi, h⟩ := h i b hb
  exact ⟨hi.trans (hv.1 _), h.imp_left fun hs => ⟨hs.1, fun ho => (hs.2 ho).trans_le (hv.1 _)⟩⟩

/-- The store found by a load is not older than the version known. -/
theorem Knows.le_session (h : Knows w v j) (hx : x ≠ .seq) {i : ℕ} {b : Message Cell T CInt}
    (hb : w.mem.msg x i = some b) (hi : v.time x ≤ i) : j ≤ w.session x i := by
  by_contra hlt
  exact Nat.not_lt_of_le hi ((h x hx i b hb).2 (Nat.lt_of_not_le hlt))

end Mono

section Stable
variable {t u : T} {w w' : World T} {v : View Cell T} {x : Cell} {j : ℕ} {d d1 d2 old : CInt}

theorem Guar.refl (t : T) (w : World T) : Guar t w w where
  st _ _ := rfl
  upTo _ _ _ h := h
  size := le_rfl
  kept _ _ _ h := ⟨h, rfl⟩
  fresh _ _ _ _ h := .inl h
  writer _ _ := Iff.rfl
  own _ _ _ := ⟨rfl, fun _ _ => ⟨rfl, rfl⟩⟩

theorem Guar.knows (hgu : Guar t w w') (hj : j ≤ w.vers.size) (h : Knows w v j) : Knows w' v j := by
  intro x hx i b hb
  rcases hgu.fresh x hx i b hb with hb | hs
  · rw [(hgu.kept x i b hb).2]
    exact h x hx i b hb
  · rw [hs]
    exact ⟨fun hle => by omega, fun hlt => by omega⟩

theorem Guar.snap (hgu : Guar t w w') (h : Snap w v old j) : Snap w' v old j :=
  ⟨h.seq, h.le.trans hgu.size, hgu.knows h.le h.known, h.time⟩

theorem Guar.reading (hgu : Guar t w w') (hu : u ≠ t) (h : Reading u w v old j) :
    Reading u w' v old j := ⟨(hgu.st u hu).trans h.st, hgu.snap h.snap, hgu.upTo u j hu h.upTo⟩

theorem Guar.loaded (hgu : Guar t w w') (h : Loaded w v x j d) : Loaded w' v x j d := by
  obtain ⟨i, b, hb, hd, hj, hle⟩ := h
  obtain ⟨hb', hs⟩ := hgu.kept x i b hb
  exact ⟨i, b, hb', hd, hs ▸ hj, hle⟩

theorem Guar.owns (hgu : Guar t w w') (hu : u ≠ t) (h : Owns u w v d1 d2) : Owns u w' v d1 d2 := by
  have hwr := (hgu.writer u hu).mpr h.writer
  refine ⟨(hgu.st u hu).trans h.st, hwr, ?_⟩
  have hrel := h.rel
  rw [World.n, h.writer] at hrel
  rwa [World.n, hwr, (hgu.own u hu h.writer).1]

theorem Wrote.congr {o : Option CInt} (h : Wrote w v x o) (hsize : w'.vers.size = w.vers.size)
    (hm : w'.mem.msg x = w.mem.msg x ∧ w'.session x = w.session x) : Wrote w' v x o := by
  intro i b hb
  rw [hsize, hm.2]
  exact h i b (hm.1 ▸ hb)

theorem Guar.wrote (hgu : Guar t w w') (hu : u ≠ t) (ho : Owns u w v d1 d2) {v' : View Cell T}
    {o : Option CInt} (hx : x ≠ .seq) (h : Wrote w v' x o) : Wrote w' v' x o :=
  h.congr (hgu.own u hu ho.writer).1 ((hgu.own u hu ho.writer).2 x hx)

theorem At.stable (hu : u ≠ t) {y : Views Cell T} {l : Pc} (hl : At u w y l) (hgu : Guar t w w') :
    At u w' y l := by
  have hst := hgu.st u hu
  have hwr := hgu.writer u hu
  cases l with
  | idle | readSeq => exact hst.trans hl
  | readData1 old =>
    obtain ⟨j, hr⟩ := hl
    exact ⟨j, hgu.reading hu hr⟩
  | readData2 old d1 =>
    obtain ⟨j, hr, h1⟩ := hl
    exact ⟨j, hgu.reading hu hr, hgu.loaded h1⟩
  | readFence old d1 d2 | readCheck old d1 d2 =>
    obtain ⟨j, hr, h1, h2⟩ := hl
    exact ⟨j, hgu.reading hu hr, hgu.loaded h1, hgu.loaded h2⟩
  | writeSeq d1 d2 => exact ⟨hst.trans hl.1, fun h => hl.2 (hwr.mp h)⟩
  | writeCas old d1 d2 =>
    obtain ⟨⟨hs, hw⟩, j, hsnap⟩ := hl
    exact ⟨⟨hst.trans hs, fun h => hw (hwr.mp h)⟩, j, hgu.snap hsnap⟩
  | writeFence d1 d2 | writeData1 d1 d2 | writeData2 d1 d2 | writeAdd d1 d2 =>
    obtain ⟨ho, h1, h2⟩ := hl
    exact ⟨hgu.owns hu ho, hgu.wrote hu ho (by simp) h1, hgu.wrote hu ho (by simp) h2⟩
  | ret r =>
    obtain ⟨o, ho⟩ := hl
    exact ⟨o, hst.trans ho⟩

end Stable

/-! ## The steps -/

def assertions : Assertions T (WeakMem T) (Views Cell T × Pc) (WeakEvent T) (World T) where
  mem := World.mem
  hist := World.hist
  glob := Glob
  loc := Local
  guar := Guar

section Steps
variable {t : T} {w : World T} {x y : Views Cell T × Pc}

theorem Glob.lt (hg : Glob w) (hadm : writeCalls (events w.hist) < 2 ^ 30) : w.n < 2 ^ 31 := by
  have hcount := hg.count
  unfold World.n
  cases hwr : w.writer with
  | none =>
    simp only [Option.isSome_none, Bool.false_eq_true, if_false]
    omega
  | some u =>
    have := Finset.card_pos.mpr ⟨u, hg.writer u hwr⟩
    simp only [Option.isSome_some, if_true]
    omega

/-- Below `2 ^ 31` the value of `_seq` is the number of increments, and its parity is seen. -/
theorem eq_of_ofNat {k k' n : ℕ} (hn : n < 2 ^ 31) (hk : k ≤ n) (hk' : k' ≤ n)
    (h : BitVec.ofNat 32 k = BitVec.ofNat 32 k') : k = k' := by
  have h := congrArg BitVec.toNat h
  rw [BitVec.toNat_ofNat, BitVec.toNat_ofNat] at h
  omega

theorem even_of_not_busy {k n : ℕ} (hn : n < 2 ^ 31) (hk : k ≤ n)
    (hb : busy (BitVec.ofNat 32 k) = false) : k % 2 = 0 := by
  by_contra hodd
  have : busy (BitVec.ofNat 32 k) = true := by
    rw [busy_iff, BitVec.toNat_ofNat]
    omega
  simp [hb] at this

/-- A load of `_seq` that passes the parity test is a snapshot. -/
theorem Glob.snap (hg : Glob w) (hadm : writeCalls (events w.hist) < 2 ^ 30) {k : ℕ}
    {b : Message Cell T CInt} (hb : w.mem.msg .seq k = some b) (hbusy : busy b.val = false)
    {v : View Cell T} (hbv : b.view ≤ v) (hk : k ≤ v.time .seq) :
    ∃ j, k = 2 * j ∧ Snap w v b.val j := by
  have hle : k ≤ w.n := (hg.chain k).mp (by simp [hb])
  rw [hg.seq k b hb] at hbusy
  have heven := even_of_not_busy (hg.lt hadm) hle hbusy
  obtain ⟨j, rfl⟩ : ∃ j, k = 2 * j := ⟨k / 2, by omega⟩
  refine ⟨j, rfl, hg.seq _ b hb, ?_, (hg.known j b hb).mono hbv, hk⟩
  unfold World.n at hle
  split at hle <;> omega

/-- A step that changes nothing but the point and the views of the thread. -/
theorem follows_quiet (hg : Glob w) (hl : Local t w x) (hv : x.1.cur ≤ y.1.cur)
    (hy : At t w y.1 y.2) : assertions.Follows t w w.mem y [] := by
  obtain ⟨⟨k, hk, hup⟩, -⟩ := hl
  exact Assertions.follows_quiet hg ⟨⟨k, hk.trans (hv.1 _), hup⟩, hy⟩ (.refl t w)

variable [DecidableEq T]

/-- The world after thread `t` emitted `e` and moved to status `z`. -/
def World.mark (w : World T) (t : T) (e : Mark Op Res) (z : Status Op Res) : World T :=
  { w with hist := w.hist ++ [(t, .inl e)], st := Function.update w.st t z }

omit [DecidableEq T] in
theorem events_snoc (h : List (T × WeakEvent T)) (t : T) (e : Mark Op Res) :
    events (h ++ [(t, .inl e)]) = events h ++ [(t, e)] := by simp [events]

omit [DecidableEq T] in
theorem writeCalls_snoc {h : List (T × Mark Op Res)} {e : Mark Op Res} (he : isWriteCall e = false) :
    writeCalls (h ++ [(t, e)]) = writeCalls h := by
  have h0 : writeCalls [(t, e)] = 0 := by simp [writeCalls, he]
  rw [writeCalls_append, h0, Nat.add_zero]

/-- A call, a return, or a read that takes effect on version `j`. -/
theorem follows_mark (hg : Glob w) (hl : Local t w x) {e : Mark Op Res} {z : Status Op Res}
    {V : Versions (CInt × CInt) Op Res} {p : Finset T} {j : ℕ}
    (hs : Serial register (events w.hist ++ [(t, e)]) V (Function.update w.st t z))
    (hsize : V.size = w.vers.size) (hstate : V.state = w.vers.state)
    (hup : ∀ u k, (u = t → j ≤ k) → UpTo (events w.hist) w.vers u k →
      UpTo (events w.hist ++ [(t, e)]) V u k)
    (hp : ∀ u, u ∈ p ↔ ∃ d1 d2, Function.update w.st t z u = .pending (.write d1 d2))
    (hw : w.writer ≠ some t) (hcount : w.vers.size + p.card = writeCalls (events w.hist ++ [(t, e)]))
    (hv : x.1.cur ≤ y.1.cur) (hj : 2 * j ≤ y.1.cur.time .seq)
    (hy : At t { w.mark t e z with vers := V, pend := p } y.1 y.2) :
    assertions.Follows t w w.mem y [.inl e] := by
  obtain ⟨⟨k, hk, hupk⟩, -⟩ := hl
  let w' : World T := { w.mark t e z with vers := V, pend := p }
  have hev : events w'.hist = events w.hist ++ [(t, e)] := events_snoc ..
  have hn : w'.n = w.n := congrArg (2 * · + if w.writer.isSome then 1 else 0) hsize
  have hgu : Guar t w w' := by
    refine { Guar.refl t w with
      st := fun u hu => Function.update_of_ne hu ..
      upTo := fun u k hu h => hev ▸ hup u k (fun heq => absurd heq hu) h
      size := Nat.le_of_eq hsize.symm
      own := fun u _ _ => ⟨hsize, fun _ _ => ⟨rfl, rfl⟩⟩ }
  have hknown : ∀ {v i}, Knows w v i → Knows w' v i := fun h => h
  refine ⟨w', rfl, rfl, ⟨hev ▸ hs, hn.symm ▸ hg.chain, hg.seq, fun i b hb => hknown (hg.known i b hb),
    fun c hc i b hb => ?_, hp, fun u hu => ?_, ?_⟩, ⟨⟨max k j, ?_, ?_⟩, hy⟩, hgu⟩
  · obtain ⟨h₁, h₂, h₃⟩ := hg.data c hc i b hb
    exact ⟨fun h => by rw [h₁ (hsize ▸ h)]; exact (congrArg (part c) (congrFun hstate _)).symm, h₂,
      fun h => hsize ▸ h₃ h⟩
  · have hut : u ≠ t := fun h => hw (h ▸ hu)
    obtain ⟨d1, d2, hd⟩ := (hg.pend u).mp (hg.writer u hu)
    exact (hp u).mpr ⟨d1, d2, (Function.update_of_ne hut ..).trans hd⟩
  · rw [hev, ← hcount]
    exact congrArg (· + p.card) hsize
  · have hk' : 2 * k ≤ y.1.cur.time .seq := hk.trans (hv.1 _)
    omega
  · exact hev ▸ hup t _ (fun _ => Nat.le_max_right ..) (hupk.mono (Nat.le_max_left ..))

/-- A thread that is not in a write does not count, whatever it does. -/
theorem Glob.pend_of (hg : Glob w) {z : Status Op Res} (hst : ∀ d1 d2, w.st t ≠ .pending (.write d1 d2))
    (hz : ∀ d1 d2, z ≠ .pending (.write d1 d2)) (u : T) :
    u ∈ w.pend ↔ ∃ d1 d2, Function.update w.st t z u = .pending (.write d1 d2) := by
  rw [hg.pend]
  by_cases hu : u = t
  · subst hu
    simp [hst, hz]
  · rw [Function.update_of_ne hu]

omit [DecidableEq T] in
theorem Glob.writer_ne (hg : Glob w) (hst : ∀ d1 d2, w.st t ≠ .pending (.write d1 d2)) :
    w.writer ≠ some t := by
  intro h
  obtain ⟨d1, d2, hd⟩ := (hg.pend t).mp (hg.writer t h)
  exact hst d1 d2 hd

omit [DecidableEq T] in
theorem Glob.upTo (hg : Glob w) {e : Mark Op Res} {j : ℕ} (u : T) (k : ℕ) (_ : u = t → j ≤ k)
    (h : UpTo (events w.hist) w.vers u k) : UpTo (events w.hist ++ [(t, e)]) w.vers u k :=
  hg.serial.placed.upTo_append h

theorem follows_call (hg : Glob w) (hl : Local t w x) (hx : w.st t = .idle) (o : Op)
    (hv : x.1.cur ≤ y.1.cur) (hy : y.2 = entry o) :
    assertions.Follows t w w.mem y [.inl (.call o)] := by
  have hst : ∀ d1 d2, w.st t ≠ .pending (.write d1 d2) := by simp [hx]
  have hw := hg.writer_ne hst
  have hserial := hg.serial.call hx o
  cases o with
  | read =>
    refine follows_mark hg hl hserial rfl rfl (hg.upTo (j := 0)) (hg.pend_of hst (by simp)) hw ?_ hv
      (Nat.zero_le _) ?_
    · rw [writeCalls_snoc rfl, hg.count]
    · rw [hy]
      exact Function.update_self ..
  | write d1 d2 =>
    have ht : t ∉ w.pend := fun h => by
      obtain ⟨d1, d2, hd⟩ := (hg.pend t).mp h
      exact hst d1 d2 hd
    refine follows_mark (p := insert t w.pend) hg hl hserial rfl rfl (hg.upTo (j := 0)) (fun u => ?_) hw
      ?_ hv (Nat.zero_le _) ?_
    · rw [Finset.mem_insert, hg.pend]
      by_cases hu : u = t
      · subst hu
        simp
      · rw [Function.update_of_ne hu]
        exact or_iff_right hu
    · have h1 : writeCalls [(t, Mark.call (.write d1 d2))] = 1 := rfl
      rw [writeCalls_append, h1, Finset.card_insert_of_notMem ht, ← hg.count, Nat.add_assoc]
    · rw [hy]
      exact ⟨Function.update_self .., hw⟩

theorem follows_ret (hg : Glob w) (hl : Local t w x) {r : Res} {o : Op} (hx : w.st t = .done o r)
    (hv : x.1.cur ≤ y.1.cur) (hy : y.2 = .idle) :
    assertions.Follows t w w.mem y [.inl (.ret r)] := by
  have hst : ∀ d1 d2, w.st t ≠ .pending (.write d1 d2) := by simp [hx]
  refine follows_mark hg hl (hg.serial.ret hx) rfl rfl (hg.upTo (j := 0)) (hg.pend_of hst (by simp))
    (hg.writer_ne hst) ?_ hv (Nat.zero_le _) ?_
  · rw [writeCalls_snoc rfl, hg.count]
  · rw [hy]
    exact Function.update_self ..

omit [DecidableEq T] in
/-- What was loaded is the pair of version `j` if `_seq` was not known to be incremented since. -/
theorem Glob.loaded (hg : Glob w) {v : View Cell T} {j : ℕ} (hj : j ≤ w.vers.size)
    {c : Cell} (hc : c ≠ .seq) {d : CInt} (h : Loaded w v c j d) (hv : v.time .seq ≤ 2 * j) :
    d = part c (w.vers.state j) := by
  obtain ⟨i, b, hb, rfl, hle, hbv⟩ := h
  obtain ⟨hval, hsince, -⟩ := hg.data c hc i b hb
  have hseq : b.view.time .seq ≤ v.time .seq := hbv.1 _
  obtain rfl : j = w.session c i := by omega
  exact hval hj

/-- The load that finds `_seq` unchanged: the read takes effect on the version of its snapshot. -/
theorem follows_readCheck (hg : Glob w) (hl : Local t w x) {j : ℕ} {old d1 d2 : CInt}
    (hr : Reading t w x.1.cur old j) (h1 : Loaded w x.1.cur .data1 j d1)
    (h2 : Loaded w x.1.cur .data2 j d2) (hle : x.1.cur.time .seq ≤ 2 * j) (hv : x.1.cur ≤ y.1.cur)
    (hy : y.2 = .ret (some (d1, d2))) : assertions.Follows t w w.mem y [.inl .lin] := by
  have hst : ∀ d1 d2, w.st t ≠ .pending (.write d1 d2) := by simp [hr.st]
  have hread : (d1, d2) = w.vers.state j :=
    Prod.ext (hg.loaded hr.snap.le (by simp) h1 hle) (hg.loaded hr.snap.le (by simp) h2 hle)
  obtain ⟨i, hi, hs⟩ := hg.serial.read (r := some (d1, d2)) hr.st hr.snap.le hr.upTo ⟨by rw [hread], rfl⟩
  refine follows_mark (j := j) hg hl hs rfl rfl (fun u k hu h => ?_) (hg.pend_of hst (by simp))
    (hg.writer_ne hst) ?_ hv (hr.snap.time.trans (hv.1 _)) ?_
  · exact (hg.serial.placed.upTo_append h).read ((callAt_append_of_lt hi.lt).mpr hi) hu
  · rw [writeCalls_snoc rfl, hg.count]
  · rw [hy]
    exact ⟨.read, Function.update_self ..⟩

omit [DecidableEq T] in
/-- The compare_exchange succeeds on the last increment: the window opens. -/
theorem follows_writeCas (hg : Glob w) (hadm : writeCalls (events w.hist) < 2 ^ 30) (hl : Local t w x)
    {j k : ℕ} {old d1 d2 : CInt} (hst : w.st t = .pending (.write d1 d2)) (hs : Snap w x.1.cur old j)
    {a b : Message Cell T CInt} (ha : w.mem.msg .seq k = some a)
    (hnext : w.mem.msg .seq (k + 1) = none) (hold : a.val = old) (hb : b.val = old + 1)
    (hv : x.1.cur ≤ y.1.cur) (hky : k + 1 ≤ y.1.cur.time .seq) (hy : y.2 = .writeFence d1 d2) :
    assertions.Follows t w ⟨w.mem.msg.put .seq (k + 1) b, ()⟩ y [] := by
  obtain rfl := hg.chain.eq_of_isNone ha hnext
  have hn := hg.lt hadm
  have hj : 2 * j ≤ w.n := by
    have := hs.le
    unfold World.n
    omega
  have hseq : w.n = 2 * j := eq_of_ofNat hn le_rfl hj (by rw [← hg.seq _ a ha, hold, hs.seq])
  have hnone : w.writer = none := by
    by_contra hne
    simp only [World.n, Option.isSome_iff_ne_none.mpr hne, if_true] at hseq
    omega
  obtain rfl : j = w.vers.size := by
    simp only [World.n, hnone, Option.isSome_none, Bool.false_eq_true, if_false] at hseq
    omega
  let w' : World T := { w with mem := ⟨w.mem.msg.put .seq (w.n + 1) b, ()⟩, writer := some t }
  have hm : ∀ {c}, c ≠ Cell.seq → w'.mem.msg c = w.mem.msg c := fun hc => Messages.put_of_ne hc
  have hn' : w'.n = w.n + 1 := by
    rw [hseq]
    rfl
  have hknown : ∀ {v i}, Knows w v i → Knows w' v i := fun h c hc i b hb => h c hc i b (hm hc ▸ hb)
  have hnothing : ∀ {c}, c ≠ Cell.seq → Wrote w' y.1.cur c none := by
    intro c hc i b hb
    have hb : w.mem.msg c i = some b := hm hc ▸ hb
    have hle := (hg.data c hc i b hb).closed hnone
    exact ⟨((hs.known c hc i b hb).1 hle).trans (hv.1 c), .inl ⟨hle, by simp⟩⟩
  obtain ⟨⟨i, hi, hup⟩, -⟩ := hl
  refine ⟨w', rfl, (List.append_nil _).symm, ⟨hg.serial, hn' ▸ hg.chain.put, fun i c hc => ?_,
    fun i c hc => ?_, fun c hc i d hd => ?_, hg.pend, fun u hu => ?_, hg.count⟩,
    ⟨⟨i, hi.trans (hv.1 _), hup⟩, ?_⟩, ?_⟩
  · have hc : w.mem.msg.put .seq (w.n + 1) b .seq i = some c := hc
    rcases Messages.put_eq_some.mp hc with ⟨rfl, rfl⟩ | ⟨-, hc⟩
    · rw [hb, hs.seq, hseq, BitVec.ofNat_add _ 1]
      rfl
    · exact hg.seq i c hc
  · have hc : w.mem.msg.put .seq (w.n + 1) b .seq (2 * i) = some c := hc
    rcases Messages.put_eq_some.mp hc with ⟨heq, rfl⟩ | ⟨-, hc⟩
    · omega
    · exact hknown (hg.known i c hc)
  · obtain ⟨h₁, h₂, h₃⟩ := hg.data c hc i d (hm hc ▸ hd)
    exact ⟨h₁, h₂, fun h => absurd h (by simp [w'])⟩
  · obtain rfl : t = u := Option.some.inj hu
    exact (hg.pend t).mpr ⟨d1, d2, hst⟩
  · rw [hy]
    exact ⟨⟨hst, rfl, hn' ▸ hky⟩, hnothing (by simp), hnothing (by simp)⟩
  · refine { Guar.refl t w with
      kept := fun c i d hd => ⟨Messages.extends_put hnext c i d hd, rfl⟩
      fresh := fun c hc i d hd => .inl (hm hc ▸ hd)
      writer := fun u hu => ?_
      own := fun u hu hw => absurd hw (by simp [hnone]) }
    simp [w', hnone, Ne.symm hu]

/-- The world after the write in the window stored to `c`. -/
def World.store (w : World T) (c : Cell) (i : ℕ) (b : Message Cell T CInt) : World T :=
  { w with
    mem := ⟨w.mem.msg.put c i b, ()⟩
    session := Function.update w.session c (Function.update (w.session c) i (w.vers.size + 1)) }

section Store
variable {c d : Cell} {i k : ℕ} {a b : Message Cell T CInt} {v v' : View Cell T} {z : CInt}

omit [DecidableEq T]

theorem store_of_ne (hd : d ≠ c) : (w.store c i b).mem.msg d = w.mem.msg d ∧
    (w.store c i b).session d = w.session d :=
  ⟨Messages.put_of_ne hd, Function.update_of_ne hd ..⟩

theorem store_cases (h : (w.store c i b).mem.msg c k = some a) :
    ((w.store c i b).session c k = w.vers.size + 1 ∧ k = i ∧ a = b) ∨
      ((w.store c i b).session c k = w.session c k ∧ w.mem.msg c k = some a) := by
  have h : w.mem.msg.put c i b c k = some a := h
  rcases Messages.put_eq_some.mp h with ⟨rfl, rfl⟩ | ⟨hk, h⟩
  · exact .inl ⟨by simp [World.store], rfl, rfl⟩
  · exact .inr ⟨by simp [World.store, hk], h⟩

theorem guar_store (hw : w.writer = some t) (hfree : w.mem.msg c i = none) :
    Guar t w (w.store c i b) := by
  refine { Guar.refl t w with
    kept := fun d k a ha => ⟨Messages.extends_put hfree d k a ha, ?_⟩
    fresh := fun d _ k a ha => ?_
    own := fun u hu hw' => absurd (Option.some.inj (hw'.symm.trans hw)) hu }
  · by_cases hd : d = c
    · subst hd
      have hk : k ≠ i := fun h => by simp [h ▸ ha] at hfree
      simp [World.store, hk]
    · rw [(store_of_ne hd).2]
  · by_cases hd : d = c
    · subst hd
      exact (store_cases ha).symm.imp And.right And.left
    · exact .inl ((store_of_ne hd).1 ▸ ha)

theorem Glob.store (hg : Glob w) (hw : w.writer = some t) (hc : c ≠ .seq)
    (hfree : w.mem.msg c i = none) (hb : w.n ≤ b.view.time .seq) : Glob (w.store c i b) := by
  have hseq : (w.store c i b).mem.msg .seq = w.mem.msg .seq := (store_of_ne (Ne.symm hc)).1
  have hgu : Guar t w (w.store c i b) := guar_store hw hfree
  refine ⟨hg.serial, fun k => ?_, fun k a ha => hg.seq k a (hseq ▸ ha), fun j a ha => ?_,
    fun d hd k a ha => ?_, hg.pend, hg.writer, hg.count⟩
  · exact hseq ▸ hg.chain k
  · have ha : w.mem.msg .seq (2 * j) = some a := hseq ▸ ha
    have hj : 2 * j ≤ w.n := (hg.chain _).mp (by simp [ha])
    refine hgu.knows ?_ (hg.known j a ha)
    unfold World.n at hj
    split at hj <;> omega
  · by_cases hdc : d = c
    · subst hdc
      rcases store_cases ha with ⟨hs, rfl, rfl⟩ | ⟨hs, ha⟩
      · refine ⟨fun h => absurd (hs ▸ h) (Nat.not_succ_le_self _), ?_, fun h => ?_⟩
        · simp only [World.n, hw, Option.isSome_some, if_true] at hb
          omega
        · have h : w.writer = none := h
          simp [hw] at h
      · obtain ⟨h₁, h₂, h₃⟩ := hg.data d hd k a ha
        exact ⟨fun h => by rw [hs] at h ⊢; exact h₁ h, hs ▸ h₂, fun h => hs ▸ h₃ h⟩
    · obtain ⟨hm, hs⟩ := store_of_ne (w := w) (i := i) (b := b) hdc
      obtain ⟨h₁, h₂, h₃⟩ := hg.data d hd k a (hm ▸ ha)
      exact ⟨fun h => by rw [hs] at h ⊢; exact h₁ h, hs ▸ h₂, fun h => hs ▸ h₃ h⟩

theorem Wrote.store_self (h : Wrote w v c none) (hi : v.time c < i) (hiv : i ≤ v'.time c) :
    Wrote (w.store c i b) v' c (some b.val) := by
  intro k a ha
  rcases store_cases ha with ⟨hs, rfl, rfl⟩ | ⟨hs, ha⟩
  · exact ⟨hiv, .inr ⟨hs, rfl⟩⟩
  · obtain ⟨hk, ⟨hle, -⟩ | ⟨-, hd⟩⟩ := h k a ha
    · exact ⟨by omega, .inl ⟨hs ▸ hle, fun _ => by omega⟩⟩
    · cases hd

theorem Wrote.store {o : Option CInt} (h : Wrote w v d o) (hd : d ≠ c) : Wrote (w.store c i b) v d o :=
  h.congr rfl (store_of_ne hd)

end Store

omit [DecidableEq T] in
/-- At the final `fetch_add` the view of the writer has all stores. -/
theorem knows_of_wrote {v : View Cell T} {d : CInt × CInt}
    (h : ∀ c ≠ Cell.seq, Wrote w v c (some (part c d))) : Knows w v (w.vers.size + 1) := by
  intro c hc i b hb
  obtain ⟨hi, ⟨-, hlt⟩ | ⟨hs, -⟩⟩ := h c hc i b hb
  · exact ⟨fun _ => hi, fun _ => hlt rfl⟩
  · exact ⟨fun _ => hi, fun hlt => absurd (hs ▸ hlt) (Nat.lt_irrefl _)⟩

omit [DecidableEq T] in
/-- A store of the write in its window. -/
theorem follows_store (hg : Glob w) (hl : Local t w x) {c : Cell} {i : ℕ} {d1 d2 : CInt}
    {b : Message Cell T CInt} (ho : Owns t w x.1.rel d1 d2) (hc : c ≠ .seq)
    (hfree : w.mem.msg c i = none) (hb : x.1.rel ≤ b.view) (hv : x.1.cur ≤ y.1.cur)
    (hy : At t (w.store c i b) y.1 y.2) : assertions.Follows t w ⟨w.mem.msg.put c i b, ()⟩ y [] := by
  obtain ⟨⟨k, hk, hup⟩, -⟩ := hl
  exact ⟨w.store c i b, rfl, (List.append_nil _).symm,
    hg.store ho.writer hc hfree (ho.rel.trans (hb.1 _)), ⟨⟨k, hk.trans (hv.1 _), hup⟩, hy⟩,
    guar_store ho.writer hfree⟩

/-- The final `fetch_add` publishes the pair as the next version. -/
theorem follows_writeAdd (hg : Glob w) {k : ℕ} {d1 d2 : CInt}
    (ho : Owns t w x.1.rel d1 d2) (h1 : Wrote w x.1.cur .data1 (some d1))
    (h2 : Wrote w x.1.cur .data2 (some d2))
    {a b : Message Cell T CInt} (ha : w.mem.msg .seq k = some a)
    (hnext : w.mem.msg .seq (k + 1) = none) (hb : b.val = a.val + 1) (hbv : x.1.cur ≤ b.view)
    (hky : k + 1 ≤ y.1.cur.time .seq) (hy : y.2 = .ret none) :
    assertions.Follows t w ⟨w.mem.msg.put .seq (k + 1) b, ()⟩ y [.inl .lin] := by
  obtain rfl := hg.chain.eq_of_isNone ha hnext
  obtain ⟨hst, hwr, -⟩ := ho
  have hn : w.n = 2 * w.vers.size + 1 := by simp [World.n, hwr]
  obtain ⟨i, hi, hs⟩ := hg.serial.write (r := none) (s := (d1, d2)) hst ⟨rfl, rfl⟩
  let w' : World T :=
    { w.mark t .lin (.done (.write d1 d2) none) with
      mem := ⟨w.mem.msg.put .seq (w.n + 1) b, ()⟩
      vers := w.vers.write (d1, d2) (i, .write d1 d2, none)
      writer := none
      pend := w.pend.erase t }
  have hev : events w'.hist = events w.hist ++ [(t, .lin)] := events_snoc ..
  have hm : ∀ {c}, c ≠ Cell.seq → w'.mem.msg c = w.mem.msg c := fun hc => Messages.put_of_ne hc
  have hn' : w'.n = w.n + 1 := by
    rw [hn]
    rfl
  have hstate : ∀ j ≤ w.vers.size, w'.vers.state j = w.vers.state j := fun j hj =>
    Function.update_of_ne (by omega) ..
  have hlast : w'.vers.state (w.vers.size + 1) = (d1, d2) := Function.update_self ..
  have hwrote : ∀ c ≠ Cell.seq, Wrote w x.1.cur c (some (part c (d1, d2))) := by
    intro c hc
    cases c
    · exact absurd rfl hc
    · exact h1
    · exact h2
  have hknown : ∀ {v j}, Knows w v j → Knows w' v j := fun h c hc i b hb => h c hc i b (hm hc ▸ hb)
  have hup : ∀ {u n}, UpTo (events w.hist) w.vers u n → (u = t → w.vers.size + 1 ≤ n) →
      UpTo (events w'.hist) w'.vers u n := by
    intro u n h hu
    rw [hev]
    exact (hg.serial.placed.upTo_append h).write ((callAt_append_of_lt hi.lt).mpr hi) hu
  have hmem : t ∈ w.pend := hg.writer t hwr
  refine ⟨w', rfl, rfl, ⟨hev ▸ hs, hn' ▸ hg.chain.put, fun n c hc => ?_, fun n c hc => ?_,
    fun c hc n d hd => ?_, fun u => ?_, fun u hu => by simp [w'] at hu, ?_⟩,
    ⟨⟨w.vers.size + 1, by omega, hup (fun n hn _ _ _ => Nat.le_succ_of_le hn) fun _ => le_rfl⟩, ?_⟩, ?_⟩
  · have hc : w.mem.msg.put .seq (w.n + 1) b .seq n = some c := hc
    rcases Messages.put_eq_some.mp hc with ⟨rfl, rfl⟩ | ⟨-, hc⟩
    · rw [hb, hg.seq _ a ha, BitVec.ofNat_add _ 1]
      rfl
    · exact hg.seq n c hc
  · have hc : w.mem.msg.put .seq (w.n + 1) b .seq (2 * n) = some c := hc
    rcases Messages.put_eq_some.mp hc with ⟨heq, rfl⟩ | ⟨-, hc⟩
    · obtain rfl : n = w.vers.size + 1 := by omega
      exact hknown ((knows_of_wrote hwrote).mono hbv)
    · exact hknown (hg.known n c hc)
  · have hd : w.mem.msg c n = some d := hm hc ▸ hd
    obtain ⟨hval, hsince, -⟩ := hg.data c hc n d hd
    obtain ⟨-, ⟨hle, -⟩ | ⟨heq, hz⟩⟩ := hwrote c hc n d hd
    · exact ⟨fun _ => (hval hle).trans (congrArg (part c) (hstate _ hle).symm), hsince,
        fun _ => Nat.le_succ_of_le hle⟩
    · have heq' : w'.session c n = w.vers.size + 1 := heq
      exact ⟨fun _ => by rw [heq', hlast, Option.some.inj hz], hsince, fun _ => Nat.le_of_eq heq⟩
  · simp only [w', Finset.mem_erase, World.mark]
    by_cases hu : u = t
    · subst hu
      simp
    · rw [Function.update_of_ne hu, hg.pend]
      exact and_iff_right hu
  · have hcard := Finset.card_erase_add_one hmem
    rw [hev, writeCalls_snoc rfl, ← hg.count, ← hcard]
    exact Nat.add_right_comm ..
  · rw [hy]
    exact ⟨_, Function.update_self ..⟩
  · refine ⟨fun u hu => Function.update_of_ne hu .., fun u n hu h => hup h fun heq => absurd heq hu,
      Nat.le_succ _, fun c n d hd => ⟨Messages.extends_put hnext c n d hd, rfl⟩,
      fun c hc n d hd => .inl (hm hc ▸ hd), fun u hu => ?_, fun u hu hw => ?_⟩
    · simp [w', hwr, Ne.symm hu]
    · exact absurd (Option.some.inj (hw.symm.trans hwr)) hu

/-- Every step of a run with fewer than `2 ^ 30` writes. -/
theorem follows_step (hg : Glob w) (hadm : writeCalls (events w.hist) < 2 ^ 30) (hl : Local t w x)
    {a : Act × ℕ} {m : WeakMem T} {es : List (WeakEvent T)}
    (hs : (program T).step t a w.mem x = some (m, y, es)) : assertions.Follows t w m y es := by
  obtain ⟨a, k⟩ := a
  obtain ⟨msg, u⟩ := m
  obtain ⟨i, r, hi, hx, -, hy, rfl⟩ := weak_step hs
  have htick : x.1.cur ≤ (x.1.tick t).cur := Views.cur_le_tick
  have hv : x.1.cur ≤ y.1.cur := htick.trans (Instr.exec_cur_le hx)
  have hat := hl.2
  obtain ⟨xv, xl⟩ := x
  cases a with
  | call o =>
    obtain ⟨rfl, rfl⟩ : xl = .idle ∧ Instr.plain ⟨(), entry o, [.call o], []⟩ = i := by
      simpa [order] using hi
    obtain ⟨rfl, -, rfl⟩ := Instr.exec_plain hx
    exact follows_call hg hl hat o hv hy
  | run =>
    cases xl <;> simp only [order, Option.some.injEq, reduceCtorEq] at hi <;> subst hi
    case readSeq =>
      obtain ⟨b, hb, hk, rfl, hw, rfl⟩ := Instr.exec_load hx
      refine follows_quiet hg hl hv ?_
      by_cases hbusy : busy b.val = true
      · rw [hy, if_pos hbusy]
        exact hat
      · rw [hy, if_neg hbusy]
        obtain ⟨j, rfl, hsnap⟩ := hg.snap hadm hb (by simpa using hbusy)
          (hw ▸ Views.le_cur_read rfl) (hw ▸ Views.le_time_read)
        obtain ⟨⟨n, hn, hup⟩, -⟩ := hl
        have hj : n ≤ j := by
          have : 2 * n ≤ 2 * j := hn.trans ((htick.1 _).trans hk)
          omega
        exact ⟨j, hat, hsnap, hup.mono hj⟩
    case readData1 old =>
      obtain ⟨b, hb, hk, rfl, hw, rfl⟩ := Instr.exec_load hx
      obtain ⟨j, hr⟩ := hat
      refine follows_quiet hg hl hv ?_
      rw [hy]
      exact ⟨j, hr.mono hv, k, b, hb, rfl,
        hr.snap.known.le_session (by simp) hb ((htick.1 _).trans hk), hw ▸ Views.le_acq_read⟩
    case readData2 old d1 =>
      obtain ⟨b, hb, hk, rfl, hw, rfl⟩ := Instr.exec_load hx
      obtain ⟨j, hr, h1⟩ := hat
      have hacq : (xv.tick t).acq ≤ y.1.acq := hw ▸ Views.acq_le_read
      refine follows_quiet hg hl hv ?_
      rw [hy]
      exact ⟨j, hr.mono hv, h1.mono hacq, k, b, hb, rfl,
        hr.snap.known.le_session (by simp) hb ((htick.1 _).trans hk), hw ▸ Views.le_acq_read⟩
    case readFence old d1 d2 =>
      obtain ⟨rfl, hw, rfl⟩ := Instr.exec_fence hx
      obtain ⟨j, hr, h1, h2⟩ := hat
      have hacq : (xv.tick t).acq ≤ y.1.cur := hw ▸ Views.acq_le_fence rfl
      refine follows_quiet hg hl hv ?_
      rw [hy]
      exact ⟨j, hr.mono hv, h1.mono hacq, h2.mono hacq⟩
    case readCheck old d1 d2 =>
      obtain ⟨b, hb, hk, rfl, hw, rfl⟩ := Instr.exec_load hx
      obtain ⟨j, hr, h1, h2⟩ := hat
      by_cases hold : b.val = old
      · rw [if_pos hold] at hy ⊢
        have hle : k ≤ w.n := (hg.chain k).mp (by simp [hb])
        have hj : 2 * j ≤ w.n := by
          have := hr.snap.le
          unfold World.n
          omega
        obtain rfl : k = 2 * j :=
          eq_of_ofNat (hg.lt hadm) hle hj (by rw [← hg.seq _ b hb, hold, hr.snap.seq])
        exact follows_readCheck hg hl hr h1 h2 ((htick.1 _).trans hk) hv hy
      · rw [if_neg hold] at hy ⊢
        exact follows_quiet hg hl hv (hy ▸ hr.st)
    case writeSeq d1 d2 =>
      obtain ⟨b, hb, hk, rfl, hw, rfl⟩ := Instr.exec_load hx
      refine follows_quiet hg hl hv ?_
      by_cases hbusy : busy b.val = true
      · rw [hy, if_pos hbusy]
        exact hat
      · rw [hy, if_neg hbusy]
        obtain ⟨j, -, hsnap⟩ := hg.snap hadm hb (by simpa using hbusy)
          (hw ▸ Views.le_cur_read rfl) (hw ▸ Views.le_time_read)
        exact ⟨hat, j, hsnap⟩
    case writeCas old d1 d2 =>
      obtain ⟨⟨hst, hne⟩, j, hsnap⟩ := hat
      obtain ⟨b, hb, hk, rfl, ⟨hf, rfl, hw⟩ | ⟨z, hf, hnext, hw, rfl⟩⟩ := Instr.exec_rmw hx
      · have hold : b.val ≠ old := fun heq => by simp [heq] at hf
        refine follows_quiet hg hl hv ?_
        rw [hy, if_neg hold]
        exact ⟨hst, hne⟩
      · obtain ⟨hold, rfl⟩ : b.val = old ∧ old + 1 = z := by simpa using hf
        exact follows_writeCas hg hadm hl hst hsnap hb hnext hold rfl hv (hw ▸ Views.le_time_write)
          (by rw [hy, if_pos hold])
    case writeFence d1 d2 =>
      obtain ⟨rfl, hw, rfl⟩ := Instr.exec_fence hx
      obtain ⟨ho, h1, h2⟩ := hat
      have hrel : xv.cur ≤ y.1.rel := by
        rw [hw, Views.rel_fence rfl]
        exact htick.trans Views.cur_le_fence
      refine follows_quiet hg hl hv ?_
      rw [hy]
      exact ⟨ho.mono hrel, h1.mono hv, h2.mono hv⟩
    case writeData1 d1 d2 =>
      obtain ⟨hfree, hk, rfl, hw, rfl⟩ := Instr.exec_store hx
      obtain ⟨ho, h1, h2⟩ := hat
      have hi := Nat.lt_of_le_of_lt (htick.1 _) hk
      have hrel : ((xv.tick t).write .data1 k).rel ≤
          ((xv.tick t).write .data1 k).released .relaxed .data1 k := Views.rel_le_released rfl
      refine follows_store hg hl ho (by simp) hfree hrel hv ?_
      rw [hy, hw]
      exact ⟨⟨ho.st, ho.writer, ho.rel⟩, h1.store_self hi Views.le_time_write,
        (h2.store (by simp)).mono (hw ▸ hv)⟩
    case writeData2 d1 d2 =>
      obtain ⟨hfree, hk, rfl, hw, rfl⟩ := Instr.exec_store hx
      obtain ⟨ho, h1, h2⟩ := hat
      have hi := Nat.lt_of_le_of_lt (htick.1 _) hk
      have hrel : ((xv.tick t).write .data2 k).rel ≤
          ((xv.tick t).write .data2 k).released .relaxed .data2 k := Views.rel_le_released rfl
      refine follows_store hg hl ho (by simp) hfree hrel hv ?_
      rw [hy, hw]
      exact ⟨⟨ho.st, ho.writer, ho.rel⟩, (h1.store (by simp)).mono (hw ▸ hv),
        h2.store_self hi Views.le_time_write⟩
    case writeAdd d1 d2 =>
      obtain ⟨ho, h1, h2⟩ := hat
      obtain ⟨b, hb, hk, rfl, ⟨hf, -⟩ | ⟨z, hf, hnext, hw, rfl⟩⟩ := Instr.exec_rmw hx
      · cases hf
      cases hf
      exact follows_writeAdd hg ho h1 h2 hb hnext rfl
        ((hv.trans (Views.cur_le_released rfl)).trans le_sup_right) (hw ▸ Views.le_time_write) hy
    case ret r =>
      obtain ⟨rfl, -, rfl⟩ := Instr.exec_plain hx
      obtain ⟨o, ho⟩ := hat
      exact follows_ret hg hl ho hv hy

end Steps

variable [DecidableEq T]

def outline : Outline (program T) anyStep (fun tr => writeCalls (events tr) < 2 ^ 30) (World T) where
  toAssertions := assertions
  step hg hl hs _ hadm := by
    refine follows_step hg ?_ (hl _) hs
    rw [events_append, writeCalls_append] at hadm
    exact Nat.lt_of_le_of_lt (Nat.le_add_right ..) hadm
  stable hu _ _ hl hgu := by
    obtain ⟨⟨k, hk, hup⟩, hat⟩ := hl
    exact ⟨⟨k, hk, hgu.upTo _ _ hu hup⟩, hat.stable hu hgu⟩

theorem holds_start : (outline (T := T)).Holds ⟨(start T).mem, [], .initial (0, 0), fun _ _ => 0,
    fun _ => .idle, none, ∅⟩ [] (start T) where
  mem := rfl
  hist := rfl
  glob := by
    refine ⟨.nil register, Messages.chain_initial, fun k b hb => ?_, fun j b hb x _ i c hc => ?_,
      fun x hx i b hb => ⟨fun _ => ?_, Nat.zero_le _, fun _ => Nat.zero_le _⟩, by simp, by simp, rfl⟩
    · obtain ⟨rfl, rfl⟩ := start_msg.mp hb
      rfl
    · obtain ⟨rfl, -⟩ := start_msg.mp hc
      obtain ⟨hj, -⟩ := start_msg.mp hb
      exact ⟨fun _ => Nat.zero_le _, fun h => by omega⟩
    · obtain ⟨-, rfl⟩ := start_msg.mp hb
      cases x
      · exact absurd rfl hx
      · rfl
      · rfl
  loc _ := ⟨⟨0, Nat.zero_le _, fun _ _ x hx => by simp [Versions.initial] at hx⟩, rfl⟩

/-- **The sequence lock under weak memory.** While `_seq` does not wrap, the calls can be put
in an order, which keeps the order of the calls of each thread, in which every read returns
the pair of the last write before it. -/
theorem weak_register {tr : List (T × WeakEvent T)} {c : Config T (WeakMem T) (Views Cell T × Pc)}
    (h : (program T).Run anyStep (start T) tr c) (hw : writeCalls (events tr) < 2 ^ 30) :
    SequentiallyConsistent register (events tr) := by
  have hadm : ∀ {h h' : List (T × WeakEvent T)}, writeCalls (events (h ++ h')) < 2 ^ 30 →
      writeCalls (events h) < 2 ^ 30 := by
    intro h h' hlt
    rw [events_append, writeCalls_append] at hlt
    exact Nat.lt_of_le_of_lt (Nat.le_add_right ..) hlt
  obtain ⟨w, hw⟩ := outline.sound hadm holds_start h hw
  have hhist : w.hist = tr := hw.hist
  exact hhist ▸ hw.glob.serial.sequentiallyConsistent

/-- The theorem where a read finds a new first and an old second component and starts over. -/
theorem weak_register_torn : ∃ (tr : List (Bool × WeakEvent Bool))
    (c : Config Bool (WeakMem Bool) (Views Cell Bool × Pc)),
    (program Bool).Run anyStep (start Bool) tr c ∧
      events tr = [(true, .call (.write 3 4)), (true, .lin), (true, .ret none), (false, .call .read),
        (false, .lin), (false, .ret (some (3, 4)))] ∧
      SequentiallyConsistent register (events tr) := by
  have h₀ : (program Bool).Run anyStep (start Bool) [] (start Bool) := .start
  have h₁ := h₀.solo true [(.call (.write 3 4), 0), (.run, 0), (.run, 0), (.run, 0), (.run, 1), (.run, 1),
    (.run, 1), (.run, 0)] _ _ _ rfl
  have h₂ := h₁.solo false [(.call .read, 0), (.run, 0), (.run, 1), (.run, 0), (.run, 0), (.run, 1),
    (.run, 2), (.run, 1), (.run, 1), (.run, 0), (.run, 2), (.run, 0)] _ _ _ rfl
  exact ⟨_, _, h₂, by decide, weak_register h₂ (by decide)⟩

end Cds.Seqlock.Weak
