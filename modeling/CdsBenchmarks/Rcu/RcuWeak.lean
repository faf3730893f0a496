import CdsBenchmarks.Rcu.RcuDefs
import CdsBenchmarks.Concurrent.DataRace
import CdsBenchmarks.Concurrent.SequentialConsistency

/-! The read-copy-update pair under the memory orders of `read-copy-update/rcu.cc`. A read may
return an old pair, but never parts of two, and no thread sees the pair go back. -/

namespace Cds.Rcu
open Concurrent Program

inductive Cell (A : Type)
  | dataPtr
  | data1 (a : A)
  | data2 (a : A)
deriving DecidableEq, Repr

variable {T : Type*} {A : Type}

abbrev Cell.Val : Cell A → Type
  | .dataPtr => A
  | .data1 _ | .data2 _ => CInt

/-- The values before the first call. -/
def Mem.cell (m : Mem A) : (x : Cell A) → x.Val
  | .dataPtr => m.dataPtr
  | .data1 a => m.data1 a
  | .data2 a => m.data2 a

variable [DecidableEq A]

/-- The accesses with their memory orders. The plain memory is the set of the addresses in use. -/
def order (_ : T) (a : Act A) (used : Finset A) (l : Pc A) :
    Option (Instr (Cell A) Cell.Val (Outcome (Finset A) (Pc A) Event Empty)) :=
  match a with
  | .call o => if l = .idle then some (.plain ⟨used, o.entry, [.call o], []⟩) else none
  | .alloc a =>
    match l with
    | .writeNew d1 d2 =>
      if a ∈ used then none else some (.plain ⟨insert a used, .writePtr d1 d2 a, [], []⟩)
    | _ => none
  | .run => match l with
    | .idle => none
    | .readPtr => some (.load .acquire .dataPtr fun res => ⟨used, .readData1 res, [.loaded], []⟩)
    | .readData1 res => some (.load .relaxed (.data1 res) fun x => ⟨used, .readData2 res x, [], []⟩)
    | .readData2 res d1 =>
      some (.load .relaxed (.data2 res) fun x => ⟨used, .ret (some (d1, x)), [], []⟩)
    | .writeNew _ _ => none
    | .writePtr d1 d2 tmp =>
      some (.load .acquire .dataPtr fun prev => ⟨used, .incLoad1 d1 d2 tmp prev, [], []⟩)
    | .incLoad1 d1 d2 tmp prev =>
      some (.load .relaxed (.data1 prev) fun x => ⟨used, .incStore1 d1 d2 tmp prev x, [], []⟩)
    | .incStore1 d1 d2 tmp prev x =>
      some (.store .relaxed (.data1 tmp) (x + d1) ⟨used, .incLoad2 d1 d2 tmp prev, [], []⟩)
    | .incLoad2 d1 d2 tmp prev =>
      some (.load .relaxed (.data2 prev) fun x => ⟨used, .incStore2 d1 d2 tmp prev x, [], []⟩)
    | .incStore2 d1 d2 tmp prev x =>
      some (.store .relaxed (.data2 tmp) (x + d2) ⟨used, .writeCas d1 d2 tmp prev, [], []⟩)
    | .writeCas d1 d2 tmp prev =>
      some (.rmw .release .relaxed .dataPtr (fun v => if v = prev then some tmp else none) fun v =>
        if v = prev then ⟨used, .ret none, [.swung d1 d2], []⟩
        else ⟨used, .writePtr d1 d2 tmp, [], []⟩)
    | .ret r => some (.plain ⟨used, .idle, [.ret r], []⟩)

abbrev WeakMem (T : Type*) (A : Type) := Shared (Cell A) T Cell.Val (Finset A)

abbrev WeakEvent (T : Type*) := Event ⊕ Use Empty T

variable (T A) in
def weakProgram [DecidableEq T] :
    Program T (WeakMem T A) (Views (Cell A) T × Pc A) (Act A × ℕ) (WeakEvent T) := weak order

omit [DecidableEq A] in
def weakInit (T : Type*) (m : Mem A) : Config T (WeakMem T A) (Views (Cell A) T × Pc A) :=
  weakStart T m.cell m.used .idle

omit [DecidableEq A] in
theorem weakInit_msg {m : Mem A} {x : Cell A} {k : ℕ} {a : Message (Cell A) T x.Val} :
    (weakInit T m).mem.msg x k = some a ↔ k = 0 ∧ a = ⟨m.cell x, .init⟩ := weakStart_msg

namespace Weak

/-! ## Versions and private buffers -/

/-- `vers` holds the pairs published so far; `version a` is the number of the one at
address `a`, and `owner a` the thread whose write has its buffer there. -/
structure World (T : Type*) (A : Type) where
  mem : WeakMem T A
  hist : List (T × WeakEvent T)
  vers : Versions (CInt × CInt) Op Res
  version : A → Option ℕ
  owner : A → Option T
  st : T → Status Op Res

def World.marks (w : World T A) : List (T × Mark Op Res) := Rcu.marks (events w.hist)

/-- The cell `x` is a field of the pair at address `a`. -/
def FieldOf (x : Cell A) (a : A) : Prop := x = .data1 a ∨ x = .data2 a

/-- Whoever has view `v` finds `z` in the cell `x`. -/
def Finds (w : World T A) (v : View (Cell A) T) (x : Cell A) (z : x.Val) : Prop :=
  ∀ i b, v.time x ≤ i → w.mem.msg x i = some b → b.val = z

/-- Version `k` is at address `a`, and a thread with view `v` reads it there. -/
structure Sees (w : World T A) (v : View (Cell A) T) (a : A) (k : ℕ) : Prop where
  version : w.version a = some k
  data1 : Finds w v (.data1 a) (w.vers.state k).1
  data2 : Finds w v (.data2 a) (w.vers.state k).2

/-- The view `v` has all the writes to the fields of `a`. -/
def Covers (w : World T A) (v : View (Cell A) T) (a : A) : Prop :=
  ∀ x, FieldOf x a → ∀ i b, w.mem.msg x i = some b → i ≤ v.time x

structure Glob (s : CInt × CInt) (w : World T A) : Prop where
  serial : Serial (counters s) w.marks w.vers w.st
  chain : w.mem.msg.Chain .dataPtr w.vers.size
  ptr : ∀ k b, w.mem.msg .dataPtr k = some b → Sees w b.view b.val k
  fresh : ∀ a, a ∉ w.mem.plain → w.version a = none ∧ w.owner a = none ∧ Covers w .init a
  own : ∀ a t, w.owner a = some t → w.version a = none
  bound : ∀ a k, w.version a = some k → k ≤ w.vers.size

/-- Thread `t` writes with buffer `tmp`. -/
structure Writing (t : T) (w : World T A) (v : View (Cell A) T) (d1 d2 : CInt) (tmp : A) : Prop where
  st : w.st t = .pending (.write d1 d2)
  owner : w.owner tmp = some t
  covers : Covers w v tmp

def At (t : T) (w : World T A) (v : View (Cell A) T) : Pc A → Prop
  | .idle => w.st t = .idle
  | .readPtr => w.st t = .pending .read
  | .readData1 res => ∃ k, w.st t = .done .read (some (w.vers.state k)) ∧ Sees w v res k
  | .readData2 res x => ∃ k, w.st t = .done .read (some (w.vers.state k)) ∧ Sees w v res k ∧
      x = (w.vers.state k).1
  | .writeNew d1 d2 => w.st t = .pending (.write d1 d2)
  | .writePtr d1 d2 tmp => Writing t w v d1 d2 tmp
  | .incLoad1 d1 d2 tmp prev => Writing t w v d1 d2 tmp ∧ ∃ k, Sees w v prev k
  | .incStore1 d1 d2 tmp prev x =>
    Writing t w v d1 d2 tmp ∧ ∃ k, Sees w v prev k ∧ x = (w.vers.state k).1
  | .incLoad2 d1 d2 tmp prev =>
    Writing t w v d1 d2 tmp ∧ ∃ k, Sees w v prev k ∧ Finds w v (.data1 tmp) ((w.vers.state k).1 + d1)
  | .incStore2 d1 d2 tmp prev x => Writing t w v d1 d2 tmp ∧ ∃ k, Sees w v prev k ∧
      Finds w v (.data1 tmp) ((w.vers.state k).1 + d1) ∧ x = (w.vers.state k).2
  | .writeCas d1 d2 tmp prev => Writing t w v d1 d2 tmp ∧ ∃ k, Sees w v prev k ∧
      Finds w v (.data1 tmp) ((w.vers.state k).1 + d1) ∧ Finds w v (.data2 tmp) ((w.vers.state k).2 + d2)
  | .ret r => ∃ o, w.st t = .done o r

/-- The calls of the thread took effect on versions it knows. -/
def Local (t : T) (w : World T A) (x : Views (Cell A) T × Pc A) : Prop :=
  UpTo w.marks w.vers t (x.1.cur.time .dataPtr) ∧ At t w x.1.cur x.2

section Mono
omit [DecidableEq A]
variable {t : T} {w w' : World T A} {v v' : View (Cell A) T} {a : A} {k : ℕ} {x : Cell A} {z : x.Val}

theorem FieldOf.ne_dataPtr (h : FieldOf x a) : Cell.dataPtr ≠ x := by
  rcases h with rfl | rfl <;> simp

theorem FieldOf.unique {c : A} (h : FieldOf x a) (hc : FieldOf x c) : a = c := by
  rcases h with rfl | rfl <;> simpa [FieldOf] using hc

theorem Finds.mono (h : Finds w v x z) (hv : v ≤ v') : Finds w v' x z :=
  fun i b hi hb => h i b ((hv.1 _).trans hi) hb

theorem Finds.congr (h : Finds w v x z) (hm : w'.mem.msg x = w.mem.msg x) : Finds w' v x z :=
  fun i b hi hb => h i b hi (hm ▸ hb)

theorem Sees.mono (h : Sees w v a k) (hv : v ≤ v') : Sees w v' a k :=
  ⟨h.version, h.data1.mono hv, h.data2.mono hv⟩

theorem Covers.mono (h : Covers w v a) (hv : v ≤ v') : Covers w v' a :=
  fun x hx i b hb => (h x hx i b hb).trans (hv.1 _)

theorem Covers.congr (h : Covers w v a) (hm : ∀ x, FieldOf x a → w'.mem.msg x = w.mem.msg x) :
    Covers w' v a := fun x hx i b hb => h x hx i b (hm x hx ▸ hb)

theorem Writing.mono {d1 d2 : CInt} (h : Writing t w v d1 d2 a) (hv : v ≤ v') :
    Writing t w v' d1 d2 a := ⟨h.st, h.owner, h.covers.mono hv⟩

end Mono

/-! ## A store to a field -/

/-- The world after message `b` came to cell `x` at time `i`. -/
def World.store (w : World T A) (x : Cell A) (i : ℕ) (b : Message (Cell A) T x.Val) : World T A :=
  { w with mem := ⟨w.mem.msg.put x i b, w.mem.plain⟩ }

section Store
variable {t : T} {w : World T A} {v v' : View (Cell A) T} {a : A} {x y : Cell A} {i : ℕ}
  {b : Message (Cell A) T x.Val}

theorem World.store_of_ne (h : y ≠ x) : (w.store x i b).mem.msg y = w.mem.msg y :=
  Messages.put_of_ne h

theorem Covers.store (h : Covers w v a) (hv : v ≤ v') (hi : i ≤ v'.time x) :
    Covers (w.store x i b) v' a := by
  intro y hy j c hc
  by_cases hyx : y = x
  · subst hyx
    rcases Messages.put_eq_some.mp hc with ⟨rfl, -⟩ | ⟨-, hc⟩
    · exact hi
    · exact (h y hy j c hc).trans (hv.1 _)
  · exact (h y hy j c (World.store_of_ne hyx ▸ hc)).trans (hv.1 _)

theorem Writing.store {d1 d2 : CInt} (h : Writing t w v d1 d2 a) (hv : v ≤ v') (hi : i ≤ v'.time x) :
    Writing t (w.store x i b) v' d1 d2 a := ⟨h.st, h.owner, h.covers.store hv hi⟩

/-- The message that comes after all the messages of the buffer is the one to find. -/
theorem Covers.finds_store (h : Covers w v a) (hx : FieldOf x a) (hi : v.time x < i)
    (hi' : i ≤ v'.time x) : Finds (w.store x i b) v' x b.val := by
  intro j c hj hc
  rcases Messages.put_eq_some.mp hc with ⟨rfl, rfl⟩ | ⟨-, hc⟩
  · rfl
  · have := h x hx j c hc
    omega

end Store

/-- What the other threads see of a step of `t`. -/
structure Guar (t : T) (w w' : World T A) : Prop where
  st : ∀ u, u ≠ t → w'.st u = w.st u
  upTo : ∀ u k, u ≠ t → UpTo w.marks w.vers u k → UpTo w'.marks w'.vers u k
  state : ∀ k ≤ w.vers.size, w'.vers.state k = w.vers.state k
  version : ∀ a k, w.version a = some k → w'.version a = some k
  owner : ∀ a u, u ≠ t → w.owner a = some u → w'.owner a = some u
  /-- The fields of published pairs and of the buffers of others are left alone. -/
  fields : ∀ a, (∃ k, w.version a = some k) ∨ (∃ u, u ≠ t ∧ w.owner a = some u) →
    ∀ x, FieldOf x a → w'.mem.msg x = w.mem.msg x

omit [DecidableEq A] in
theorem Guar.refl (t : T) (w : World T A) : Guar t w w :=
  ⟨fun _ _ => rfl, fun _ _ _ h => h, fun _ _ => rfl, fun _ _ h => h, fun _ _ _ h => h,
    fun _ _ _ _ => rfl⟩

section Stable
omit [DecidableEq A]
variable {s : CInt × CInt} {t u : T} {w w' : World T A} {v : View (Cell A) T} {a : A} {k : ℕ}

theorem Guar.sees (hgu : Guar t w w') (hg : Glob s w) (h : Sees w v a k) : Sees w' v a k := by
  have hm := hgu.fields a (.inl ⟨k, h.version⟩)
  have hs := hgu.state k (hg.bound a k h.version)
  exact ⟨hgu.version a k h.version, hs ▸ h.data1.congr (hm _ (.inl rfl)),
    hs ▸ h.data2.congr (hm _ (.inr rfl))⟩

theorem Guar.finds (hgu : Guar t w w') (hu : u ≠ t) (ho : w.owner a = some u) {x : Cell A} {z : x.Val}
    (hx : FieldOf x a) (h : Finds w v x z) : Finds w' v x z :=
  h.congr (hgu.fields a (.inr ⟨u, hu, ho⟩) x hx)

theorem Guar.writing (hgu : Guar t w w') (hu : u ≠ t) {d1 d2 : CInt} (h : Writing u w v d1 d2 a) :
    Writing u w' v d1 d2 a :=
  ⟨(hgu.st u hu).trans h.st, hgu.owner a u hu h.owner,
    h.covers.congr (hgu.fields a (.inr ⟨u, hu, h.owner⟩))⟩

theorem At.stable (hu : u ≠ t) (hg : Glob s w) {l : Pc A} (hl : At u w v l) (hgu : Guar t w w') :
    At u w' v l := by
  have hst := hgu.st u hu
  cases l with
  | idle | readPtr | writeNew => exact hst.trans hl
  | readData1 res =>
    obtain ⟨k, hk, hs⟩ := hl
    exact ⟨k, by rw [hst, hk, hgu.state k (hg.bound _ _ hs.version)], hgu.sees hg hs⟩
  | readData2 res x =>
    obtain ⟨k, hk, hs, hx⟩ := hl
    have hstate := hgu.state k (hg.bound _ _ hs.version)
    exact ⟨k, by rw [hst, hk, hstate], hgu.sees hg hs, by rw [hstate, hx]⟩
  | writePtr d1 d2 tmp => exact hgu.writing hu hl
  | incLoad1 d1 d2 tmp prev =>
    obtain ⟨hw, k, hs⟩ := hl
    exact ⟨hgu.writing hu hw, k, hgu.sees hg hs⟩
  | incStore1 d1 d2 tmp prev x =>
    obtain ⟨hw, k, hs, hx⟩ := hl
    exact ⟨hgu.writing hu hw, k, hgu.sees hg hs, by rw [hgu.state k (hg.bound _ _ hs.version), hx]⟩
  | incLoad2 d1 d2 tmp prev =>
    obtain ⟨hw, k, hs, h1⟩ := hl
    refine ⟨hgu.writing hu hw, k, hgu.sees hg hs, ?_⟩
    rw [hgu.state k (hg.bound _ _ hs.version)]
    exact hgu.finds hu hw.owner (.inl rfl) h1
  | incStore2 d1 d2 tmp prev x =>
    obtain ⟨hw, k, hs, h1, hx⟩ := hl
    refine ⟨hgu.writing hu hw, k, hgu.sees hg hs, ?_⟩
    rw [hgu.state k (hg.bound _ _ hs.version)]
    exact ⟨hgu.finds hu hw.owner (.inl rfl) h1, hx⟩
  | writeCas d1 d2 tmp prev =>
    obtain ⟨hw, k, hs, h1, h2⟩ := hl
    refine ⟨hgu.writing hu hw, k, hgu.sees hg hs, ?_⟩
    rw [hgu.state k (hg.bound _ _ hs.version)]
    exact ⟨hgu.finds hu hw.owner (.inl rfl) h1, hgu.finds hu hw.owner (.inr rfl) h2⟩
  | ret r =>
    obtain ⟨o, ho⟩ := hl
    exact ⟨o, hst.trans ho⟩

end Stable

/-! ## The steps -/

def assertions (s : CInt × CInt) : Assertions T (WeakMem T A) (Views (Cell A) T × Pc A)
    (WeakEvent T) (World T A) where
  mem := World.mem
  hist := World.hist
  glob := Glob s
  loc := Local
  guar := Guar

theorem marks_snoc (h : List (T × WeakEvent T)) (t : T) (e : Event) :
    Rcu.marks (events (h ++ [(t, .inl e)])) = Rcu.marks (events h) ++ [(t, e.mark)] := by
  simp [Rcu.marks, events]

section Steps
variable {s : CInt × CInt} {t : T} {w : World T A} {x y : Views (Cell A) T × Pc A}

omit [DecidableEq A] in
/-- A step that changes nothing but the point and the view of the thread. -/
theorem follows_quiet (hg : Glob s w) (hl : Local t w x) (hv : x.1.cur ≤ y.1.cur)
    (hy : At t w y.1.cur y.2) : (assertions s).Follows t w w.mem y [] :=
  Assertions.follows_quiet hg ⟨hl.1.mono (hv.1 _), hy⟩ (.refl t w)

variable [DecidableEq T]

/-- The world after thread `t` emitted `e` and moved to status `z`. -/
def World.mark (w : World T A) (t : T) (e : Event) (z : Status Op Res) : World T A :=
  { w with hist := w.hist ++ [(t, .inl e)], st := Function.update w.st t z }

omit [DecidableEq A] in
/-- A call or a return. -/
theorem follows_mark (hg : Glob s w) (hl : Local t w x) {e : Event} {z : Status Op Res}
    (hs : Serial (counters s) (w.marks ++ [(t, e.mark)]) w.vers (Function.update w.st t z))
    (hv : x.1.cur ≤ y.1.cur) (hy : At t (w.mark t e z) y.1.cur y.2) :
    (assertions s).Follows t w w.mem y [.inl e] := by
  have hmarks : (w.mark t e z).marks = w.marks ++ [(t, e.mark)] := marks_snoc ..
  have hup : ∀ {u k}, UpTo w.marks w.vers u k → UpTo (w.mark t e z).marks w.vers u k :=
    fun h => hmarks ▸ hg.serial.placed.upTo_append h
  refine ⟨w.mark t e z, rfl, rfl, ⟨hmarks ▸ hs, hg.chain, fun k b hb => ?_, fun a ha => ?_, hg.own,
    hg.bound⟩, ⟨hup (hl.1.mono (hv.1 _)), hy⟩, fun u hu => Function.update_of_ne hu ..,
    fun u k _ => hup, fun _ _ => rfl, fun _ _ h => h, fun _ _ _ h => h, fun _ _ _ _ => rfl⟩
  · obtain ⟨h₁, h₂, h₃⟩ := hg.ptr k b hb
    exact ⟨h₁, h₂, h₃⟩
  · obtain ⟨h₁, h₂, h₃⟩ := hg.fresh a ha
    exact ⟨h₁, h₂, h₃⟩

omit [DecidableEq A] in
/-- The load of a read fixes the version it returns. -/
theorem follows_loaded (hg : Glob s w) (hl : Local t w x) (hx : w.st t = .pending .read) {k : ℕ}
    {b : Message (Cell A) T A} (hb : w.mem.msg .dataPtr k = some b)
    (hk : x.1.cur.time .dataPtr ≤ k) (hv : x.1.cur ≤ y.1.cur) (hbv : b.view ≤ y.1.cur)
    (hky : k ≤ y.1.cur.time .dataPtr) (hy : y.2 = .readData1 b.val) :
    (assertions s).Follows t w w.mem y [.inl .loaded] := by
  have hsize : k ≤ w.vers.size := (hg.chain k).mp (by simp [hb])
  obtain ⟨i, hi, hs⟩ := hg.serial.read (r := some (w.vers.state k)) hx hsize (hl.1.mono hk) ⟨rfl, rfl⟩
  obtain ⟨h₁, h₂, h₃⟩ := (hg.ptr k b hb).mono hbv
  let w' : World T A := { w.mark t .loaded (.done .read (some (w.vers.state k))) with
    vers := w.vers.read k (i, .read, some (w.vers.state k)) }
  have hmarks : w'.marks = w.marks ++ [(t, .lin)] := marks_snoc ..
  have hup : ∀ {u n}, UpTo w.marks w.vers u n → (u = t → k ≤ n) → UpTo w'.marks w'.vers u n := by
    intro u n h hu
    rw [hmarks]
    exact (hg.serial.placed.upTo_append h).read ((callAt_append_of_lt hi.lt).mpr hi) hu
  refine ⟨w', rfl, rfl, ⟨hmarks ▸ hs, hg.chain, fun k b hb => ?_, fun a ha => ?_, hg.own,
    hg.bound⟩, ⟨hup (hl.1.mono (hv.1 _)) fun _ => hky, ?_⟩, fun u hu => Function.update_of_ne hu ..,
    fun u n hu h => hup h fun heq => absurd heq hu, fun _ _ => rfl, fun _ _ h => h, fun _ _ _ h => h,
    fun _ _ _ _ => rfl⟩
  · obtain ⟨h₁, h₂, h₃⟩ := hg.ptr k b hb
    exact ⟨h₁, h₂, h₃⟩
  · obtain ⟨h₁, h₂, h₃⟩ := hg.fresh a ha
    exact ⟨h₁, h₂, h₃⟩
  · rw [hy]
    exact ⟨k, Function.update_self .., h₁, h₂, h₃⟩

omit [DecidableEq T] in
/-- `new` returns an address that has not been in use. -/
theorem follows_alloc (hg : Glob s w) (hl : Local t w x) {d1 d2 : CInt}
    (hx : w.st t = .pending (.write d1 d2)) {a : A} (ha : a ∉ w.mem.plain) (hv : x.1.cur ≤ y.1.cur)
    (hy : y.2 = .writePtr d1 d2 a) :
    (assertions s).Follows t w ⟨w.mem.msg, insert a w.mem.plain⟩ y [] := by
  obtain ⟨hver, hown, hcov⟩ := hg.fresh a ha
  let w' : World T A := { w with mem := ⟨w.mem.msg, insert a w.mem.plain⟩, owner := Function.update w.owner a (some t) }
  refine ⟨w', rfl, (List.append_nil _).symm, ⟨hg.serial, hg.chain, fun k b hb => ?_, fun c hc => ?_,
    fun c u hc => ?_, hg.bound⟩, ⟨hl.1.mono (hv.1 _), ?_⟩, fun _ _ => rfl, fun _ _ _ h => h,
    fun _ _ => rfl, fun _ _ h => h, fun c u hu hc => ?_, fun _ _ _ _ => rfl⟩
  · obtain ⟨h₁, h₂, h₃⟩ := hg.ptr k b hb
    exact ⟨h₁, h₂, h₃⟩
  · simp only [w', Finset.mem_insert, not_or] at hc
    obtain ⟨h₁, h₂, h₃⟩ := hg.fresh c hc.2
    exact ⟨h₁, by simpa [w', hc.1] using h₂, h₃⟩
  · by_cases hca : c = a
    · exact hca ▸ hver
    · exact hg.own c u (by simpa [w', hca] using hc)
  · rw [hy]
    exact ⟨hx, Function.update_self .., hcov.mono (View.init_le y.1.cur)⟩
  · have hca : c ≠ a := fun heq => by simp [heq ▸ hown] at hc
    simpa [w', hca] using hc

omit [DecidableEq T] in
/-- A store to the buffer of `t`. -/
theorem guar_store (hg : Glob s w) {a : A} (ha : w.owner a = some t) {c : Cell A} (hc : FieldOf c a)
    (i : ℕ) (b : Message (Cell A) T c.Val) :
    Guar t w (w.store c i b) ∧ Glob s (w.store c i b) := by
  have hver := hg.own a t ha
  have hptr : (w.store c i b).mem.msg .dataPtr = w.mem.msg .dataPtr := World.store_of_ne hc.ne_dataPtr
  have hm : ∀ d, d ≠ a → ∀ x, FieldOf x d → (w.store c i b).mem.msg x = w.mem.msg x :=
    fun d hd x hx => World.store_of_ne fun heq => hd (hx.unique (heq ▸ hc))
  have hgu : Guar t w (w.store c i b) := by
    refine ⟨fun _ _ => rfl, fun _ _ _ h => h, fun _ _ => rfl, fun _ _ h => h, fun _ _ _ h => h,
      fun d hd => hm d ?_⟩
    rintro rfl
    rcases hd with ⟨k, hk⟩ | ⟨u, hu, hd⟩
    · simp [hver] at hk
    · exact hu (Option.some.inj (hd.symm.trans ha))
  refine ⟨hgu, hg.serial, fun k => ?_, fun k b' hb => ?_, fun d hd => ?_, hg.own, hg.bound⟩
  · have := hg.chain k
    rwa [← hptr] at this
  · exact hgu.sees hg (hg.ptr k b' (hptr ▸ hb))
  · obtain ⟨h₁, h₂, h₃⟩ := hg.fresh d hd
    exact ⟨h₁, h₂, h₃.congr (hm d fun heq => by simp [heq ▸ h₂] at ha)⟩

omit [DecidableEq T] in
theorem follows_store (hg : Glob s w) (hl : Local t w x) {a : A} (ha : w.owner a = some t) {c : Cell A}
    (hc : FieldOf c a) {i : ℕ} {b : Message (Cell A) T c.Val} (hv : x.1.cur ≤ y.1.cur)
    (hy : Guar t w (w.store c i b) → At t (w.store c i b) y.1.cur y.2) :
    (assertions s).Follows t w ⟨w.mem.msg.put c i b, w.mem.plain⟩ y [] := by
  obtain ⟨hgu, hg'⟩ := guar_store hg ha hc i b
  exact ⟨w.store c i b, rfl, (List.append_nil _).symm, hg', ⟨hl.1.mono (hv.1 _), hy hgu⟩, hgu⟩

/-- A compare_exchange that succeeds publishes the buffer as the next version. -/
theorem follows_swung (hg : Glob s w) (hl : Local t w x) {d1 d2 : CInt} {tmp prev : A}
    (hx : At t w x.1.cur (.writeCas d1 d2 tmp prev)) {k : ℕ} {a b : Message (Cell A) T A}
    (ha : w.mem.msg .dataPtr k = some a) (hnext : w.mem.msg .dataPtr (k + 1) = none)
    (hprev : a.val = prev) (hb : b.val = tmp) (hbv : x.1.cur ≤ b.view) (hv : x.1.cur ≤ y.1.cur)
    (hky : k + 1 ≤ y.1.cur.time .dataPtr) (hy : y.2 = .ret none) :
    (assertions s).Follows t w ⟨w.mem.msg.put .dataPtr (k + 1) b, w.mem.plain⟩ y
      [.inl (.swung d1 d2)] := by
  obtain ⟨⟨hst, hown, hcov⟩, n, hs, h1, h2⟩ := hx
  obtain rfl := hg.chain.eq_of_isNone ha hnext
  obtain rfl : n = w.vers.size := Option.some.inj (hs.version.symm.trans (hprev ▸ (hg.ptr _ a ha).version))
  let z : CInt × CInt := ((w.vers.state w.vers.size).1 + d1, (w.vers.state w.vers.size).2 + d2)
  obtain ⟨i, hi, hser⟩ := hg.serial.write (r := none) (s := z) hst ⟨rfl, rfl⟩
  let w' : World T A :=
    { w.mark t (.swung d1 d2) (.done (.write d1 d2) none) with
      mem := ⟨w.mem.msg.put .dataPtr (w.vers.size + 1) b, w.mem.plain⟩
      vers := w.vers.write z (i, .write d1 d2, none)
      version := Function.update w.version tmp (some (w.vers.size + 1))
      owner := Function.update w.owner tmp none }
  have hmarks : w'.marks = w.marks ++ [(t, .lin)] := marks_snoc ..
  have hnone := hg.own tmp t hown
  have hne : ∀ {c n}, w.version c = some n → c ≠ tmp := fun h heq => by simp [heq ▸ h] at hnone
  have hup : ∀ {u n}, UpTo w.marks w.vers u n → (u = t → w.vers.size + 1 ≤ n) →
      UpTo w'.marks w'.vers u n := by
    intro u n h hu
    rw [hmarks]
    exact (hg.serial.placed.upTo_append h).write ((callAt_append_of_lt hi.lt).mpr hi) hu
  have hdata : ∀ c x, FieldOf x c → w'.mem.msg x = w.mem.msg x :=
    fun c x hx => Messages.put_of_ne hx.ne_dataPtr.symm
  have hgu : Guar t w w' := by
    refine ⟨fun u hu => Function.update_of_ne hu .., fun u n hu h => hup h fun heq => absurd heq hu,
      fun n hn => ?_, fun c n hc => ?_, fun c u hu hc => ?_, fun c _ => hdata c⟩
    · exact Function.update_of_ne (by omega) ..
    · exact (Function.update_of_ne (hne hc) ..).trans hc
    · have hct : c ≠ tmp := fun heq => hu (Option.some.inj (hc.symm.trans (heq ▸ hown)))
      exact (Function.update_of_ne hct ..).trans hc
  have hstate : w'.vers.state (w.vers.size + 1) = z := Function.update_self ..
  refine ⟨w', rfl, rfl, ⟨hmarks ▸ hser, hg.chain.put, fun n c hc => ?_, fun c hc => ?_, fun c u hc => ?_,
    fun c n hc => ?_⟩, ⟨hup (hl.1.mono (hv.1 _)) fun _ => hky, ?_⟩, hgu⟩
  · have hc : w.mem.msg.put .dataPtr (w.vers.size + 1) b .dataPtr n = some c := hc
    rcases Messages.put_eq_some.mp hc with ⟨rfl, rfl⟩ | ⟨-, hc⟩
    · rw [hb]
      exact ⟨Function.update_self .., hstate ▸ (h1.mono hbv).congr (hdata tmp _ (.inl rfl)),
        hstate ▸ (h2.mono hbv).congr (hdata tmp _ (.inr rfl))⟩
    · exact hgu.sees hg (hg.ptr n c hc)
  · obtain ⟨h₁, h₂, h₃⟩ := hg.fresh c hc
    have hct : c ≠ tmp := fun heq => by simp [heq ▸ h₂] at hown
    exact ⟨(Function.update_of_ne hct ..).trans h₁, (Function.update_of_ne hct ..).trans h₂,
      h₃.congr (hdata c)⟩
  · by_cases hct : c = tmp
    · simp [w', hct] at hc
    · exact (Function.update_of_ne hct ..).trans (hg.own c u (by simpa [w', hct] using hc))
  · by_cases hct : c = tmp
    · have hc' : some (w.vers.size + 1) = some n := by simpa [w', hct] using hc
      exact Nat.le_of_eq (Option.some.inj hc').symm
    · exact Nat.le_succ_of_le (hg.bound c n (by simpa [w', hct] using hc))
  · rw [hy]
    exact ⟨_, Function.update_self ..⟩

theorem follows_step (hg : Glob s w) (hl : Local t w x) {a : Act A × ℕ} {m : WeakMem T A}
    {es : List (WeakEvent T)} (hs : (weakProgram T A).step t a w.mem x = some (m, y, es)) :
    (assertions s).Follows t w m y es := by
  obtain ⟨a, k⟩ := a
  obtain ⟨msg, used⟩ := m
  obtain ⟨i, r, hi, hx, hp, hy, rfl⟩ := weak_step hs
  have htick : x.1.cur ≤ (x.1.tick t).cur := Views.cur_le_tick
  have hv : x.1.cur ≤ y.1.cur := htick.trans (Instr.exec_cur_le hx)
  obtain ⟨hup, hat⟩ := hl
  have hl : Local t w x := ⟨hup, hat⟩
  obtain ⟨xv, xl⟩ := x
  cases a with
  | call o =>
    obtain ⟨rfl, rfl⟩ : xl = .idle ∧ Instr.plain ⟨w.mem.plain, o.entry, [.call o], []⟩ = i := by
      simpa [order] using hi
    obtain ⟨rfl, -, rfl⟩ := Instr.exec_plain hx
    obtain rfl : used = w.mem.plain := hp
    exact follows_mark hg hl (hg.serial.call hat o) hv (hy ▸ by cases o <;> exact Function.update_self ..)
  | alloc a =>
    cases xl <;> simp only [order, reduceCtorEq] at hi
    case writeNew d1 d2 =>
      split at hi <;> cases hi
      next ha =>
        obtain ⟨rfl, -, rfl⟩ := Instr.exec_plain hx
        obtain rfl : used = insert a w.mem.plain := hp
        exact follows_alloc hg hl hat ha hv hy
  | run =>
    cases xl <;> simp only [order, Option.some.injEq, reduceCtorEq] at hi <;> subst hi
    case readPtr =>
      obtain ⟨b, hb, hk, rfl, hw, rfl⟩ := Instr.exec_load hx
      obtain rfl : used = w.mem.plain := hp
      exact follows_loaded hg hl hat hb ((htick.1 _).trans hk) hv (hw ▸ Views.le_cur_read rfl)
        (hw ▸ Views.le_time_read) hy
    case readData1 res =>
      obtain ⟨b, hb, hk, rfl, hw, rfl⟩ := Instr.exec_load hx
      obtain rfl : used = w.mem.plain := hp
      obtain ⟨n, hst, hsee⟩ := hat
      refine follows_quiet hg hl hv ?_
      rw [hy]
      exact ⟨n, hst, hsee.mono hv, hsee.data1 k b ((htick.1 _).trans hk) hb⟩
    case readData2 res z =>
      obtain ⟨b, hb, hk, rfl, hw, rfl⟩ := Instr.exec_load hx
      obtain rfl : used = w.mem.plain := hp
      obtain ⟨n, hst, hsee, rfl⟩ := hat
      refine follows_quiet hg hl hv ?_
      rw [hy]
      refine ⟨.read, ?_⟩
      rw [hst, hsee.data2 k b ((htick.1 _).trans hk) hb]
    case writePtr d1 d2 tmp =>
      obtain ⟨b, hb, hk, rfl, hw, rfl⟩ := Instr.exec_load hx
      obtain rfl : used = w.mem.plain := hp
      refine follows_quiet hg hl hv ?_
      rw [hy]
      exact ⟨hat.mono hv, k, (hg.ptr k b hb).mono (hw ▸ Views.le_cur_read rfl)⟩
    case incLoad1 d1 d2 tmp prev =>
      obtain ⟨b, hb, hk, rfl, hw, rfl⟩ := Instr.exec_load hx
      obtain rfl : used = w.mem.plain := hp
      obtain ⟨hwr, n, hsee⟩ := hat
      refine follows_quiet hg hl hv ?_
      rw [hy]
      exact ⟨hwr.mono hv, n, hsee.mono hv, hsee.data1 k b ((htick.1 _).trans hk) hb⟩
    case incStore1 d1 d2 tmp prev z =>
      obtain ⟨-, hk, rfl, hw, rfl⟩ := Instr.exec_store hx
      obtain rfl : used = w.mem.plain := hp
      obtain ⟨hwr, n, hsee, rfl⟩ := hat
      have hky : k ≤ y.1.cur.time (.data1 tmp) := hw ▸ Views.le_time_write
      refine follows_store hg hl hwr.owner (.inl rfl) hv fun hgu => ?_
      rw [hy]
      exact ⟨hwr.store hv hky, n, (hgu.sees hg hsee).mono hv,
        hwr.covers.finds_store (.inl rfl) (Nat.lt_of_le_of_lt (htick.1 _) hk) hky⟩
    case incLoad2 d1 d2 tmp prev =>
      obtain ⟨b, hb, hk, rfl, hw, rfl⟩ := Instr.exec_load hx
      obtain rfl : used = w.mem.plain := hp
      obtain ⟨hwr, n, hsee, h1⟩ := hat
      refine follows_quiet hg hl hv ?_
      rw [hy]
      exact ⟨hwr.mono hv, n, hsee.mono hv, h1.mono hv, hsee.data2 k b ((htick.1 _).trans hk) hb⟩
    case incStore2 d1 d2 tmp prev z =>
      obtain ⟨-, hk, rfl, hw, rfl⟩ := Instr.exec_store hx
      obtain rfl : used = w.mem.plain := hp
      obtain ⟨hwr, n, hsee, h1, rfl⟩ := hat
      have hky : k ≤ y.1.cur.time (.data2 tmp) := hw ▸ Views.le_time_write
      refine follows_store hg hl hwr.owner (.inr rfl) hv fun hgu => ?_
      rw [hy]
      exact ⟨hwr.store hv hky, n, (hgu.sees hg hsee).mono hv,
        (h1.mono hv).congr (World.store_of_ne (by simp)),
        hwr.covers.finds_store (.inr rfl) (Nat.lt_of_le_of_lt (htick.1 _) hk) hky⟩
    case writeCas d1 d2 tmp prev =>
      obtain ⟨b, hb, hk, hr, ⟨hf, rfl, hw⟩ | ⟨z, hf, hnext, hw, rfl⟩⟩ := Instr.exec_rmw hx
      · have hne : b.val ≠ prev := fun heq => by simp [heq] at hf
        rw [if_neg hne] at hr
        subst hr
        obtain rfl : used = w.mem.plain := hp
        refine follows_quiet hg hl hv ?_
        rw [hy]
        exact hat.1.mono hv
      · obtain ⟨hprev, rfl⟩ : b.val = prev ∧ tmp = z := by simpa using hf
        rw [if_pos hprev] at hr
        subst hr
        obtain rfl : used = w.mem.plain := hp
        exact follows_swung hg hl hat hb hnext hprev rfl
          ((hv.trans (Views.cur_le_released rfl)).trans le_sup_right) hv (hw ▸ Views.le_time_write) hy
    case ret r =>
      obtain ⟨rfl, -, rfl⟩ := Instr.exec_plain hx
      obtain rfl : used = w.mem.plain := hp
      obtain ⟨o, ho⟩ := hat
      exact follows_mark hg hl (hg.serial.ret ho) hv (hy ▸ Function.update_self ..)

end Steps

variable [DecidableEq T]

def outline (s : CInt × CInt) : Outline (weakProgram T A) anyStep (fun _ => True) (World T A) where
  toAssertions := assertions s
  step hg hl hs _ _ := follows_step hg (hl _) hs
  stable hu hg _ hl hgu := ⟨hgu.upTo _ _ hu hl.1, hl.2.stable hu hg hgu⟩

theorem holds_start {m : Mem A} (hm : m.dataPtr ∈ m.used) : (outline m.pair).Holds
    ⟨(weakInit T m).mem, [], .initial m.pair, Function.update (fun _ => none) m.dataPtr (some 0),
      fun _ => none, fun _ => .idle⟩ [] (weakInit T m) where
  mem := rfl
  hist := rfl
  glob := by
    refine ⟨.nil (counters m.pair), Messages.chain_initial, fun k b hb => ?_, fun a ha => ?_, by simp,
      fun a k hk => ?_⟩
    · obtain ⟨rfl, rfl⟩ := weakInit_msg.mp hb
      refine ⟨by simp [Mem.cell], fun i c _ hc => ?_, fun i c _ hc => ?_⟩
      · obtain ⟨-, rfl⟩ := weakInit_msg.mp hc
        rfl
      · obtain ⟨-, rfl⟩ := weakInit_msg.mp hc
        rfl
    · have hne : a ≠ m.dataPtr := fun heq => ha (heq ▸ hm)
      exact ⟨by simp [hne], rfl, fun x _ i c hc => Nat.le_of_eq (weakInit_msg.mp hc).1⟩
    · by_cases ha : a = m.dataPtr
      · subst ha
        have hk' : some 0 = some k := by simpa using hk
        exact Nat.le_of_eq (Option.some.inj hk').symm
      · simp [ha] at hk
  loc t := ⟨fun n _ x hx => by simp [Versions.initial] at hx, rfl⟩

end Weak

/-- **The pair under weak memory.** The calls can be put in an order, which keeps the order
of the calls of each thread, in which every read returns the sums over the writes before
it. A read that began after a write returned may still come before it. -/
theorem weak_sequentiallyConsistent [DecidableEq T] {m : Mem A} (hm : m.dataPtr ∈ m.used)
    {tr : List (T × WeakEvent T)} {c : Config T (WeakMem T A) (Views (Cell A) T × Pc A)}
    (h : (weakProgram T A).Run anyStep (weakInit T m) tr c) :
    SequentiallyConsistent (counters m.pair) (marks (events tr)) := by
  obtain ⟨w, hw⟩ := (Weak.outline m.pair).sound (fun _ => trivial) (Weak.holds_start hm) h trivial
  have hhist : w.hist = tr := hw.hist
  exact hhist ▸ hw.glob.serial.sequentiallyConsistent

/-- The theorem where a read begins after a write returned and misses it. -/
theorem weak_sequentiallyConsistent_stale : ∃ (tr : List (Bool × WeakEvent Bool))
    (c : Config Bool (WeakMem Bool ℕ) (Views (Cell ℕ) Bool × Pc ℕ)),
    (weakProgram Bool ℕ).Run anyStep (weakInit Bool ⟨0, fun _ => 5, fun _ => 7, {0}⟩) tr c ∧
      events tr = [(true, .call (.write 1 0)), (true, .swung 1 0), (true, .ret none),
        (false, .call .read), (false, .loaded), (false, .ret (some (5, 7)))] ∧
      SequentiallyConsistent (counters (5, 7)) (marks (events tr)) := by
  have h₀ : (weakProgram Bool ℕ).Run anyStep (weakInit Bool ⟨0, fun _ => 5, fun _ => 7, {0}⟩) []
    (weakInit Bool ⟨0, fun _ => 5, fun _ => 7, {0}⟩) := .start
  have h₁ := h₀.solo true [(.call (.write 1 0), 0), (.alloc 1, 0), (.run, 0), (.run, 0), (.run, 1),
    (.run, 0), (.run, 1), (.run, 0), (.run, 0)] _ _ _ rfl
  have h₂ := h₁.solo false [(.call .read, 0), (.run, 0), (.run, 0), (.run, 0), (.run, 0)] _ _ _ rfl
  exact ⟨_, _, h₂, by decide, weak_sequentiallyConsistent (by decide) h₂⟩

end Cds.Rcu
