import CdsBenchmarks.McsLock.McsLockNodes
import CdsBenchmarks.McsLock.McsLockProgress
import CdsBenchmarks.Concurrent.Handover

/-! The queue lock under the memory orders of `mcs-lock/mcs-lock.cc`. It does nothing that the
interleaving model does not do, if there a thread links itself only when its predecessor
sees the link. The uses of plain memory inside the lock are free of data races, and so is
the use of a node by others with its reuse by its owner. -/

namespace Cds.McsLock
open Concurrent Program

inductive Cell (T : Type)
  | tail
  | next (t : T)
  | gate (t : T)
deriving DecidableEq, Repr

abbrev Cell.Val {T : Type} : Cell T → Type
  | .tail | .next _ => Option T
  | .gate _ => ℤ

/-- What is not atomic: the memory of the client, and the life of the field of a node, which
an atomic access of the field only reads. -/
inductive Place (T Y : Type)
  | client (y : Y)
  | field (x : Cell T)
deriving DecidableEq, Repr

/-- A call or step of the lock, a plain access of the client inside it, or any other use of
the memory of the own node outside. -/
inductive ClientAct (Y : Type)
  | lib (a : Act)
  | use (y : Y) (write : Bool)
  | reuse
deriving DecidableEq, Repr

namespace Weak
variable {T Y : Type}

abbrev Code (T Y : Type) := Instr (Cell T) Cell.Val (Outcome Unit (Pc T) Event (Place T Y))

/-- The accesses with their memory orders. -/
def access (me : T) [DecidableEq T] (l : Pc T) : Option (Code T Y) :=
  match l with
  | .out => none
  | .lockNext => some (.store .relaxed (.next me) none ⟨(), .lockGate, [],
      [(.field (.next me), false)]⟩)
  | .lockGate => some (.store .relaxed (.gate me) (1 : ℤ) ⟨(), .exchange, [],
      [(.field (.gate me), false)]⟩)
  | .exchange => some (.rmw .acqRel .acqRel .tail (fun _ => some (some me)) fun pred =>
      match pred with
      | none => ⟨(), .crit, [.exchanged, .entered], []⟩
      | some pred => ⟨(), .link pred, [.exchanged], []⟩)
  | .link pred => some (.store .release (.next pred) (some me) ⟨(), .spin, [],
      [(.field (.next pred), false)]⟩)
  | .spin => some (.load .acquire (.gate me) fun g =>
      if g ≠ (0 : ℤ) then ⟨(), .spin, [], [(.field (.gate me), false)]⟩
      else ⟨(), .crit, [.entered], [(.field (.gate me), false)]⟩)
  | .crit => none
  | .unlockNext => some (.load .acquire (.next me) fun next =>
      match next with
      | none => ⟨(), .unlockCas, [], [(.field (.next me), false)]⟩
      | some next => ⟨(), .release next, [], [(.field (.next me), false)]⟩)
  | .unlockCas => some (.rmw .release .relaxed .tail (fun v => if v = some me then some none else none)
      fun v => if v = some me then ⟨(), .out, [.unlocked], []⟩ else ⟨(), .waitNext, [], []⟩)
  | .waitNext => some (.load .acquire (.next me) fun next =>
      match next with
      | none => ⟨(), .waitNext, [], [(.field (.next me), false)]⟩
      | some next => ⟨(), .release next, [], [(.field (.next me), false)]⟩)
  | .release next => some (.store .release (.gate next) (0 : ℤ) ⟨(), .out, [.unlocked],
      [(.field (.gate next), false)]⟩)

variable [DecidableEq T]

def order (me : T) (a : ClientAct Y) (_ : Unit) (l : Pc T) : Option (Code T Y) :=
  match a with
  | .lib .lock => if l = .out then some (.plain ⟨(), .lockNext, [.lock], []⟩) else none
  | .lib .unlock => if l = .crit then some (.plain ⟨(), .unlockNext, [.unlock], []⟩) else none
  | .lib .run => access me l
  | .use y b => if l = .crit then some (.plain ⟨(), .crit, [], [(.client y, b)]⟩) else none
  | .reuse => if l = .out then
      some (.plain ⟨(), .out, [], [(.field (.next me), true), (.field (.gate me), true)]⟩) else none

abbrev WeakMem (T : Type) := Shared (Cell T) T Cell.Val Unit

abbrev WeakEvent (T Y : Type) := Event ⊕ Use (Place T Y) T

abbrev WeakConfig (T : Type) := Config T (WeakMem T) (Views (Cell T) T × Pc T)

variable (T Y) in
def program : Program T (WeakMem T) (Views (Cell T) T × Pc T) (ClientAct Y × ℕ) (WeakEvent T Y) :=
  weak order

/-- The values that the constructors of the mutex and of the nodes store. -/
def cell : (x : Cell T) → x.Val
  | .tail | .next _ => none
  | .gate _ => (0 : ℤ)

variable (T) in
def start : WeakConfig T := weakStart T cell () .out

omit [DecidableEq T] in
theorem start_msg {x : Cell T} {k : ℕ} {a : Message (Cell T) T x.Val} :
    (start T).mem.msg x k = some a ↔ k = 0 ∧ a = ⟨cell x, .init⟩ := weakStart_msg

end Weak

/-! ## The interleaving model -/

/-- The thread holds the lock, or is about to hand it on. -/
def Pc.inside {T : Type*} : Pc T → Bool
  | .crit | .unlockNext | .unlockCas | .waitNext | .release _ => true
  | _ => false

/-- What is known of the threads from the queue. -/
structure Shape {T : Type*} (c : Config T (Mem T) (Pc T)) : Prop where
  one : ∀ t u, (c.loc t).inside → (c.loc u).inside → t = u
  free : c.mem.tail = none → ∀ t, (c.loc t).inside = false
  tail : ∀ p, c.mem.tail = some p → (c.loc p).published
  linked : ∀ t p, c.loc t = .link p → (c.loc p).published ∧ ∀ n, c.loc p ≠ .release n
  last : ∀ t p, c.loc t = .link p → c.mem.tail ≠ some p
  linker : ∀ t u p, c.loc t = .link p → c.loc u = .link p → t = u
  other : ∀ t p, c.loc t = .link p → p ≠ t
  release : ∀ t n, c.loc t = .release n → c.loc n = .spin
  opened : ∀ t, c.loc t = .spin → c.mem.gate t = 0 → ∀ u, (c.loc u).inside = false

section
variable {T : Type*}

theorem Queue.Local.inside {t : T} {w : Queue.World T} {l : Pc T} (h : Queue.Local t w l)
    (hl : l.inside) :
    Queue.Holds t w := by
  cases l <;> first | exact absurd hl Bool.false_ne_true | exact h | exact h.1

/-- The last thread has no other behind it. -/
theorem Adj.ne_last {q : List T} {p t : T} (hq : q.Nodup) (h : Adj q p t) : q.getLast? ≠ some p := by
  cases q using List.reverseRecOn with
  | nil => simp
  | append_singleton q a =>
    have hp : p ∈ q := by
      rcases adj_snoc.mp h with h | ⟨h, -⟩
      · exact h.mem_left
      · exact List.mem_of_getLast? h
    rw [List.getLast?_concat]
    rintro heq
    obtain rfl : a = p := Option.some.inj heq
    exact (List.nodup_append.mp hq).2.2 a hp a (by simp) rfl

theorem shape_of_run [DecidableEq T] {tr : List (T × Event)} {c : Config T (Mem T) (Pc T)}
    (h : (program T).Run anyStep (start T) tr c) : Shape c := by
  obtain ⟨w, hw⟩ := Queue.outline.sound (fun _ => trivial) Queue.holds_start h trivial
  have hg : Queue.Glob w := hw.glob
  have hloc : ∀ t, Queue.Local t w (c.loc t) := hw.loc
  have hmem : c.mem = w.mem := hw.mem.symm
  have hq : ∀ {t}, t ∈ w.q → (c.loc t).published := fun h => (hloc _).mem_iff.mp h
  have hin : ∀ {t}, (c.loc t).inside → w.q.head? = some t ∧ w.inside = true := fun h =>
    (hloc _).inside h
  have hlink : ∀ {t p}, c.loc t = .link p → Adj w.q p t ∧ w.mem.next p = none := by
    intro t p hl
    have ht := hloc t
    rw [hl] at ht
    exact ⟨ht.1, ht.2.1⟩
  refine ⟨fun t u ht hu => ?_, fun hfree t => ?_, fun p hp => ?_, fun t p hl => ⟨?_, fun n hn => ?_⟩,
    fun t p hl htail => ?_, fun t u p ht hu => ?_, fun t p hl hpt => ?_,
    fun t n hl => ?_, fun t hl hgate u => ?_⟩
  · exact Option.some.inj ((hin ht).1.symm.trans (hin hu).1)
  · by_contra ht
    have hnil : w.q = [] := List.getLast?_eq_none_iff.mp (hg.tail.symm.trans (hmem ▸ hfree))
    simpa [hnil] using (hin (by simpa using ht)).1
  · exact hq (List.mem_of_getLast? (hg.tail.symm.trans (hmem ▸ hp)))
  · exact hq (hlink hl).1.mem_left
  · have hp := hloc p
    rw [hn] at hp
    exact absurd (hp.2.1.symm.trans (hlink hl).2) (by simp)
  · exact (hlink hl).1.ne_last hg.nodup (hg.tail.symm.trans (hmem ▸ htail))
  · exact (hlink ht).1.succ_unique hg.nodup (hlink hu).1
  · have hnodup := hg.nodup.sublist (hlink hl).1.sublist
    simp [hpt] at hnodup
  · have ht := hloc t
    rw [hl] at ht
    obtain ⟨⟨hhead, -⟩, hnext, hadj⟩ := ht
    have hpub := hq hadj.mem_right
    have hout : (c.loc n).inside = false := by
      by_contra hn
      exact hadj.ne_head hg.nodup (hin (by simpa using hn)).1
    have hn := hloc n
    cases hln : c.loc n with
    | spin => rfl
    | link p =>
      rw [hln] at hn
      obtain rfl := hn.1.pred_unique hg.nodup hadj
      exact absurd (hnext.symm.trans hn.2.1) (by simp)
    | out | lockNext | lockGate | exchange => simp [hln, Pc.published] at hpub
    | crit | unlockNext | unlockCas | waitNext | release => simp [hln, Pc.inside] at hout
  · by_contra hu
    have hu := hin (t := u) (by simpa using hu)
    have ht := hloc t
    rw [hl] at ht
    rcases ht with ⟨-, hfalse, -⟩ | ⟨p, -, -, hone⟩
    · simp [hfalse] at hu
    · rw [hmem, hone] at hgate
      cases hgate

end

/-! ## The refinement -/

namespace Weak
variable {T Y : Type}

/-- `sc` is a run of the interleaving model with the same events. -/
structure World (T Y : Type) where
  mem : WeakMem T
  hist : List (T × WeakEvent T Y)
  sc : Config T (Mem T) (Pc T)

def World.uses (w : World T Y) : List (T × Use (Place T Y) T) := notes w.hist

/-- The last value of the field `next` of `t` is `NULL`. -/
def Null (w : World T Y) (t : T) : Prop := ∃ k a, w.mem.msg.Last (.next t) k a ∧ a.val = none

/-- The view has the writes to a field, and the uses of its node that nobody may overlap. -/
structure Found (w : World T Y) (v : View (Cell T) T) (x : Cell T) : Prop where
  covers : w.mem.msg.Covers v x
  known : Known v w.uses (.field x) false

/-- The last write to `m_tail`, with what a thread that exchanges it learns. -/
structure Tail (w : World T Y) (a : Message (Cell T) T (Option T)) : Prop where
  val : a.val = w.sc.mem.tail
  pred : ∀ p, a.val = some p → Found w a.view (.next p) ∧ Null w p
  free : a.val = none → ∀ y, Known a.view w.uses (.client y) true

structure Glob [DecidableEq T] (w : World T Y) : Prop where
  run : (McsLock.program T).Run anyStep (McsLock.start T) (events w.hist) w.sc
  tail : ∃ n, w.mem.msg.Chain .tail n ∧ ∀ a, w.mem.msg .tail n = some a → Tail w a
  raceFree : RaceFree w.uses

/-- The successor of `t` has linked itself, which the interleaving model has not seen. -/
structure Linked (t : T) (w : World T Y) (v : View (Cell T) T) (k : ℕ)
    (a : Message (Cell T) T (Option T)) (u : T) : Prop where
  answered : Answered w.mem.msg w.uses v (.next t) (.field (.next t)) (fun n => n = none) k a
  val : a.val = some u
  loc : w.sc.loc u = .link t
  gate : Found w a.view (.gate u)

/-- The predecessor of `t` has let it in. -/
structure Opened (t : T) (w : World T Y) (v : View (Cell T) T) (k : ℕ)
    (a : Message (Cell T) T ℤ) : Prop where
  answered : Answered w.mem.msg w.uses v (.gate t) (.field (.gate t)) (fun g => g ≠ (0 : ℤ)) k a
  val : a.val = 0
  loc : w.sc.loc t = .spin
  gate : w.sc.mem.gate t = 0
  client : ∀ y, Known a.view w.uses (.client y) true

/-- `next` of the node has been reset, and the link to the successor not been followed. -/
def prepared : Pc T → Bool
  | .out | .lockNext | .release _ => false
  | _ => true

/-- `gate` of the node has been set, and is not known to be open. -/
def shut : Pc T → Bool
  | .exchange | .link _ | .spin => true
  | _ => false

structure Local (t : T) (w : World T Y) (x : Views (Cell T) T × Pc T) : Prop where
  /-- A thread that has linked itself spins, although the interleaving model has it before that. -/
  loc : w.sc.loc t = x.2 ∨ x.2 = .spin ∧ ∃ p, w.sc.loc t = .link p
  tail : ∀ k a, x.1.cur.time .tail < k → w.mem.msg .tail k = some a → a.val ≠ some t
  next : Settled w.mem.msg w.uses x.1.cur (.next t) (.field (.next t))
      (fun n => prepared x.2 → n = none) ∨ ∃ k a u, Linked t w x.1.cur k a u
  null : prepared x.2 → w.sc.mem.next t = none
  gate : Settled w.mem.msg w.uses x.1.cur (.gate t) (.field (.gate t))
      (fun g => shut x.2 → g ≠ (0 : ℤ)) ∨ ∃ k a, Opened t w x.1.cur k a
  client : x.2.inside → ∀ y, Known x.1.cur w.uses (.client y) true
  link : ∀ p, x.2 = .link p → Found w x.1.cur (.next p) ∧ Null w p
  release : ∀ n, x.2 = .release n → Found w x.1.cur (.gate n)

/-- What the other threads assert is left alone. -/
def Guar (t : T) (w w' : World T Y) : Prop := ∀ u, u ≠ t → ∀ x, Local u w x → Local u w' x

/-! ## What a step leaves alone -/

/-- A field of the node of `t`. -/
def Mine (t : T) (z : Cell T) : Prop := z = .next t ∨ z = .gate t

/-- A step of `t`, with plain uses `us`, that writes its own node only if that is not
published, and else at most the field `x` of another. The interleaving model moves at most
`t` and the thread `s` that has linked itself behind it. -/
structure Quiet (t : T) (x : Option (Cell T)) (s : Option T) (us : List (Place T Y × Bool))
    (v : View (Cell T) T) (w w' : World T Y) : Prop where
  uses : w'.uses = w.uses ++ usesOf t us v
  loc : ∀ u, u ≠ t → s ≠ some u → w'.sc.loc u = w.sc.loc u
  linker : ∀ u, s = some u → w.sc.loc u = .link t
  lag : ∀ p, w.sc.loc t = .link p → w'.sc.loc t = .link p
  next : ∀ u, u ≠ t → w'.sc.mem.next u = w.sc.mem.next u
  gate : ∀ u, u ≠ t → x ≠ some (.gate u) → w'.sc.mem.gate u = w.sc.mem.gate u
  spin : ∀ n, x = some (.gate n) → w.sc.loc n = .spin
  tail : ∀ k a, w'.mem.msg .tail k = some a → w.mem.msg .tail k = some a ∨ a.val = none ∨ a.val = some t
  msg : ∀ z, z ≠ .tail → x ≠ some z → (Mine t z → (w.sc.loc t).published) → w'.mem.msg z = w.mem.msg z
  use : ∀ a ∈ us, (∃ y, a.1 = .client y ∧ (w.sc.loc t).inside) ∨ ∃ z, a.1 = .field z ∧
    (x = some z ∧ a.2 = false ∨ Mine t z ∧ ((w.sc.loc t).published → a.2 = false))

namespace Quiet
variable {t u s' : T} {x : Option (Cell T)} {s : Option T} {us : List (Place T Y × Bool)}
  {v v' : View (Cell T) T} {w w' : World T Y} {z : Cell T} {b : Bool} {y : Y}

/-- The uses of a field that the step does not touch. -/
theorem known_field (hq : Quiet t x s us v w w') (hz : ¬Mine t z) (hx : x ≠ some z)
    (hk : Known v' w.uses (.field z) b) : Known v' w'.uses (.field z) b := by
  rw [hq.uses]
  refine known_append.mpr ⟨hk, known_usesOf_of_ne fun a ha hy => ?_⟩
  rcases hq.use a ha with ⟨y, h, -⟩ | ⟨z', h, hz'⟩
  · exact absurd (hy.symm.trans h) (by simp)
  · obtain rfl : z = z' := by simpa using hy.symm.trans h
    exact (hz'.elim (fun h => hx h.1) fun h => hz h.1).elim

theorem known_client (hq : Quiet t x s us v w w') (ht : (w.sc.loc t).inside = false)
    (hk : Known v' w.uses (.client y) b) : Known v' w'.uses (.client y) b := by
  rw [hq.uses]
  refine known_append.mpr ⟨hk, known_usesOf_of_ne fun a ha hy => ?_⟩
  rcases hq.use a ha with ⟨-, -, h⟩ | ⟨z, h, -⟩
  · simp [ht] at h
  · exact absurd (hy.symm.trans h) (by simp)

/-- What others need to know of the fields of a published node. -/
theorem found (hq : Quiet t x s us v w w') (hz : z ≠ .tail) (hx : x ≠ some z)
    (hp : Mine t z → (w.sc.loc t).published) (hf : Found w v' z) : Found w' v' z := by
  refine ⟨hf.covers.congr (hq.msg z hz hx hp), hq.uses ▸ known_append.mpr ⟨hf.known, ?_⟩⟩
  refine known_usesOf_of_ne fun a ha hy => ⟨?_, rfl⟩
  rcases hq.use a ha with ⟨y, h, -⟩ | ⟨z', h, hz'⟩
  · exact absurd (hy.symm.trans h) (by simp)
  · obtain rfl : z = z' := by simpa using hy.symm.trans h
    exact hz'.elim (fun h => h.2) fun h => h.2 (hp h.1)

theorem null (hq : Quiet t x s us v w w') (hx : x ≠ some (.next u))
    (hp : u = t → (w.sc.loc t).published) (hn : Null w u) : Null w' u := by
  obtain ⟨k, a, hl, ha⟩ := hn
  refine ⟨k, a, hl.congr (hq.msg _ (by simp) hx fun h => hp ?_), ha⟩
  simpa [Mine] using h

theorem tail_ok (hq : Quiet t x s us v w w') (hsh : Shape w.sc) (hsc : w'.sc.mem.tail = w.sc.mem.tail)
    (hx : ∀ p, w.sc.mem.tail = some p → x ≠ some (.next p)) {a : Message (Cell T) T (Option T)}
    (ht : Tail w a) : Tail w' a := by
  refine ⟨ht.val.trans hsc.symm, fun p hp => ?_, fun hn y => ?_⟩
  · have htail := ht.val.symm.trans hp
    have hpub : p = t → (w.sc.loc t).published := fun h => h ▸ hsh.tail p htail
    obtain ⟨hf, hn⟩ := ht.pred p hp
    exact ⟨hq.found (by simp) (hx p htail) (fun h => hpub (by simpa [Mine] using h)) hf,
      hq.null (hx p htail) hpub hn⟩
  · exact hq.known_client (hsh.free (ht.val.symm.trans hn) t) (ht.free hn y)

/-- The link of the successor stays as it is. -/
theorem linked (hq : Quiet t x s us v w w') (hm : w'.mem.msg (.next u) = w.mem.msg (.next u))
    {k : ℕ} {a : Message (Cell T) T (Option T)} {n : T}
    (hs : ∀ r, s = some r → n ≠ r)
    (ho : Known v' w'.uses (.field (.next u)) false)
    (hk : Known (v' ⊔ a.view) w'.uses (.field (.next u)) true) (hl : Linked u w v' k a n) :
    Linked u w' v' k a n := by
  have hloc : w'.sc.loc n = .link u := by
    by_cases hn : n = t
    · subst hn
      exact hq.lag u hl.loc
    · exact (hq.loc n hn fun h => hs n h rfl).trans hl.loc
  refine ⟨hl.answered.congr hm ho hk, hl.val, hloc, hq.found (by simp) (fun h => ?_) (fun h => ?_)
    hl.gate⟩
  · exact absurd ((hq.spin n h).symm.trans hl.loc) (by simp)
  · have hn : n = t := by simpa [Mine] using h
    rw [← hn, hl.loc]
    rfl

theorem next_stable (hq : Quiet t x s us v w w') (hu : u ≠ t) (hx : x ≠ some (.next u))
    {y : Views (Cell T) T × Pc T} (hl : Local u w y) :
    Settled w'.mem.msg w'.uses y.1.cur (.next u) (.field (.next u)) (fun n => prepared y.2 → n = none) ∨
      ∃ k a n, Linked u w' y.1.cur k a n := by
  have hmine : ¬Mine t (.next u) := by simp [Mine, hu]
  have hm := hq.msg (.next u) (by simp) hx fun h => absurd h hmine
  rcases hl.next with h | ⟨k, a, n, h⟩
  · exact .inl (h.congr hm (hq.known_field hmine hx h.known))
  · refine .inr ⟨k, a, n, hq.linked hm (fun r hr hn => ?_) (hq.known_field hmine hx h.answered.own)
      (hq.known_field hmine hx h.answered.known) h⟩
    have := (hq.linker r hr).symm.trans (hn ▸ h.loc)
    exact hu (by simpa using this.symm)

theorem tail_stable (hq : Quiet t x s us v w w') (hu : u ≠ t) {y : Views (Cell T) T × Pc T}
    (hl : Local u w y) (k : ℕ) (a : Message (Cell T) T (Option T)) (hk : y.1.cur.time .tail < k)
    (ha : w'.mem.msg .tail k = some a) : a.val ≠ some u := by
  rcases hq.tail k a ha with ha | ha | ha
  · exact hl.tail k a hk ha
  · simp [ha]
  · simp [ha, Ne.symm hu]

/-- **Stability.** -/
theorem stable (hq : Quiet t x s us v w w') (hsh : Shape w.sc) (hu : u ≠ t) (hs : s ≠ some u)
    {y : Views (Cell T) T × Pc T} (hl : Local u w y)
    (hnext : x = some (.next u) → ∃ k a n, Linked u w' y.1.cur k a n)
    (hgate : x = some (.gate u) → ∃ k a, Opened u w' y.1.cur k a)
    (hlink : ∀ p, w.sc.loc u = .link p → x ≠ some (.next p))
    (hrelease : ∀ n, w.sc.loc u = .release n → x ≠ some (.gate n)) : Local u w' y := by
  have hloc := hq.loc u hu hs
  have hmine : ¬Mine t (.gate u) := by simp [Mine, hu]
  have hat : y.2 ≠ .spin → w.sc.loc u = y.2 := fun h => hl.loc.resolve_right fun h' => h h'.1
  refine ⟨hloc ▸ hl.loc, hq.tail_stable hu hl, ?_, fun hp => (hq.next u hu).trans (hl.null hp), ?_,
    fun hin z => ?_, fun p hp => ?_, fun n hn => ?_⟩
  · by_cases hx : x = some (.next u)
    · exact .inr (hnext hx)
    · exact hq.next_stable hu hx hl
  · by_cases hx : x = some (.gate u)
    · exact .inr (hgate hx)
    have hm := hq.msg (.gate u) (by simp) hx fun h => absurd h hmine
    rcases hl.gate with h | ⟨k, a, h⟩
    · exact .inl (h.congr hm (hq.known_field hmine hx h.known))
    · refine .inr ⟨k, a, h.answered.congr hm (hq.known_field hmine hx h.answered.own)
        (hq.known_field hmine hx h.answered.known), h.val, hloc.trans h.loc,
        (hq.gate u hu hx).trans h.gate, fun z => ?_⟩
      exact hq.known_client (hsh.opened u h.loc h.gate t) (h.client z)
  · have hne : y.2 ≠ .spin := fun h => by simp [h, Pc.inside] at hin
    have hout : (w.sc.loc t).inside = false := by
      by_contra ht
      exact hu (hsh.one u t (hat hne ▸ hin) (by simpa using ht))
    exact hq.known_client hout (hl.client hin z)
  · have hp' : w.sc.loc u = .link p := (hat (by simp [hp])).trans hp
    have hpub : p = t → (w.sc.loc t).published := fun h => h ▸ (hsh.linked u p hp').1
    obtain ⟨hf, hn⟩ := hl.link p hp
    exact ⟨hq.found (by simp) (hlink p hp') (fun h => hpub (by simpa [Mine] using h)) hf,
      hq.null (hlink p hp') hpub hn⟩
  · have hn' : w.sc.loc u = .release n := (hat (by simp [hn])).trans hn
    refine hq.found (by simp) (hrelease n hn') (fun h => ?_) (hl.release n hn)
    have hnt : n = t := by simpa [Mine] using h
    rw [← hnt, hsh.release u n hn']
    rfl

/-- The thread whose link is seen. -/
theorem moved (hq : Quiet t none (some s') us v w w') (hs : w'.sc.loc s' = .spin)
    {y : Views (Cell T) T × Pc T} (hl : Local s' w y) (hn : ¬Null w t) : Local s' w' y := by
  have hlink := hq.linker s' rfl
  have hne : s' ≠ t := by
    rintro rfl
    exact absurd (hs.symm.trans (hq.lag _ hlink)) (by simp)
  have hy : y.2 = .spin := by
    rcases hl.loc with h | h
    · exact absurd (hl.link t (h.symm.trans hlink)).2 hn
    · exact h.1
  have hm := hq.msg (.gate s') (by simp) (by simp) (by simp [Mine, hne])
  refine ⟨.inl (hs.trans hy.symm), hq.tail_stable hne hl, hq.next_stable hne (by simp) hl,
    fun hp => (hq.next s' hne).trans (hl.null hp), ?_, by simp [hy, Pc.inside],
    by simp [hy], by simp [hy]⟩
  rcases hl.gate with h | ⟨k, a, h⟩
  · exact .inl (h.congr hm (hq.known_field (by simp [Mine, hne]) (by simp) h.known))
  · exact absurd (h.loc.symm.trans hlink) (by simp)

end Quiet

/-! ## The steps -/

variable [DecidableEq T]

def assertions : Assertions T (WeakMem T) (Views (Cell T) T × Pc T) (WeakEvent T Y) (World T Y) where
  mem := World.mem
  hist := World.hist
  glob := Glob
  loc := Local
  guar := Guar

omit [DecidableEq T] in
/-- The world after a step of `t` with outcome `r`. -/
def World.after (w : World T Y) (t : T) (m : Messages (Cell T) T Cell.Val)
    (r : Outcome Unit (Pc T) Event (Place T Y)) (v : View (Cell T) T) (sc : Config T (Mem T) (Pc T)) :
    World T Y := ⟨⟨m, ()⟩, w.hist ++ emit t (r.trace v), sc⟩

section Steps
variable {t u : T} {w : World T Y} {x y : Views (Cell T) T × Pc T}
  {m : Messages (Cell T) T Cell.Val} {r : Outcome Unit (Pc T) Event (Place T Y)} {v : View (Cell T) T}
  {sc : Config T (Mem T) (Pc T)}

omit [DecidableEq T] in
theorem uses_after : (w.after t m r v sc).uses = w.uses ++ usesOf t r.uses v := uses_trace

theorem follows_of (hg : Glob w)
    (hrun : (McsLock.program T).Run anyStep w.sc (emit t r.events) sc)
    (htail : ∃ n, m.Chain .tail n ∧ ∀ a, m .tail n = some a → Tail (w.after t m r y.1.cur sc) a)
    (hrace : ∀ a ∈ r.uses, Known y.1.cur w.uses a.1 a.2)
    (hl : Local t (w.after t m r y.1.cur sc) y) (hgu : Guar t w (w.after t m r y.1.cur sc)) :
    assertions.Follows t w ⟨m, ()⟩ y (r.trace y.1.cur) := by
  refine ⟨w.after t m r y.1.cur sc, rfl, rfl, ⟨?_, htail, ?_⟩, hl, hgu⟩
  · have hev : events (w.after t m r y.1.cur sc).hist = events w.hist ++ emit t r.events := events_trace
    exact hev ▸ hg.run.trans hrun
  · exact uses_after ▸ hg.raceFree.append hrace

/-- A step that leaves `m_tail` alone and what the others assert. -/
theorem follows_quiet (hg : Glob w) (hrun : (McsLock.program T).Run anyStep w.sc (emit t r.events) sc)
    (hq : Quiet t none none r.uses y.1.cur w (w.after t m r y.1.cur sc))
    (hm : m .tail = w.mem.msg .tail) (hsc : sc.mem.tail = w.sc.mem.tail)
    (hrace : ∀ a ∈ r.uses, Known y.1.cur w.uses a.1 a.2)
    (hl : Local t (w.after t m r y.1.cur sc) y) :
    assertions.Follows t w ⟨m, ()⟩ y (r.trace y.1.cur) := by
  have hsh := shape_of_run hg.run
  obtain ⟨n, hn, ht⟩ := hg.tail
  refine follows_of hg hrun ⟨n, fun k => ?_, fun a ha => ?_⟩ hrace hl fun u hu z hz =>
    hq.stable hsh hu (by simp) hz (by simp) (by simp) (by simp) (by simp)
  · rw [hm]
    exact hn k
  · exact hq.tail_ok hsh hsc (by simp) (ht a (hm ▸ ha))

/-- One step of the interleaving model. -/
theorem run_one {c : Config T (Mem T) (Pc T)} {a : Act} {mc : Mem T} {l : Pc T} {es : List Event}
    (h : step t a c.mem (c.loc t) = some (mc, l, es)) :
    (McsLock.program T).Run anyStep c (emit t es) (move c t mc l) := Run.start.step h trivial

theorem run_none {c : Config T (Mem T) (Pc T)} {l : Pc T} (h : c.loc t = l) :
    (McsLock.program T).Run anyStep c (emit t []) (move c t c.mem l) := by
  have hself : move c t c.mem l = c := by simp [move, ← h]
  rw [hself]
  exact .start

/-- A step in which at most `t` moves in the interleaving model, and its own node is not
written once it is published. -/
theorem quiet_own {us : List (Place T Y × Bool)} {w' : World T Y}
    (huses : w'.uses = w.uses ++ usesOf t us v) {mc : Mem T} {l : Pc T}
    (hsc : w'.sc = move w.sc t mc l) (hlag : ∀ p, w.sc.loc t = .link p → l = .link p)
    (hnext : ∀ u, u ≠ t → mc.next u = w.sc.mem.next u)
    (hgate : ∀ u, u ≠ t → mc.gate u = w.sc.mem.gate u)
    (htail : ∀ k a, w'.mem.msg .tail k = some a →
      w.mem.msg .tail k = some a ∨ a.val = none ∨ a.val = some t)
    (hmsg : ∀ z, z ≠ .tail → (Mine t z → (w.sc.loc t).published) → w'.mem.msg z = w.mem.msg z)
    (huse : ∀ a ∈ us, (∃ y, a.1 = .client y ∧ (w.sc.loc t).inside) ∨
      ∃ z, a.1 = .field z ∧ Mine t z ∧ ((w.sc.loc t).published → a.2 = false)) :
    Quiet t none none us v w w' where
  uses := huses
  loc u hu _ := by rw [hsc, move_loc_of_ne _ _ _ hu]
  linker := by simp
  lag p hp := by rw [hsc, move_loc_self, hlag p hp]
  next u hu := by rw [hsc]; exact hnext u hu
  gate u hu _ := by rw [hsc]; exact hgate u hu
  spin := by simp
  tail := htail
  msg z hz _ := hmsg z hz
  use a ha := (huse a ha).imp_right fun ⟨z, hz, hm⟩ => ⟨z, hz, .inr hm⟩

section Own
variable {w' : World T Y} {us : List (Place T Y × Bool)}

omit [DecidableEq T] in
/-- A thread knows its own uses. -/
theorem known_own {z : Place T Y} {b : Bool} {v' : View (Cell T) T}
    (huses : w'.uses = w.uses ++ usesOf t us v) (hk : Known v' w.uses z b) (hv : v ≤ v') :
    Known v' w'.uses z b := huses ▸ known_append.mpr ⟨hk, known_usesOf hv⟩

omit [DecidableEq T] in
theorem Local.next_settled (hl : Local t w x) (hno : ∀ u, w.sc.loc u ≠ .link t) :
    Settled w.mem.msg w.uses x.1.cur (.next t) (.field (.next t))
      (fun n => prepared x.2 → n = none) := by
  rcases hl.next with h | ⟨k, a, u, h⟩
  · exact h
  · exact absurd h.loc (hno u)

omit [DecidableEq T] in
theorem Local.gate_settled (hl : Local t w x) (hno : w.sc.loc t ≠ .spin) :
    Settled w.mem.msg w.uses x.1.cur (.gate t) (.field (.gate t))
      (fun g => shut x.2 → g ≠ (0 : ℤ)) := by
  rcases hl.gate with h | ⟨k, a, h⟩
  · exact h
  · exact absurd h.loc hno

omit [DecidableEq T] in
theorem Local.next_keep (hl : Local t w x) {z : Option (Cell T)} (hq : Quiet t z none us y.1.cur w w')
    (hm : w'.mem.msg (.next t) = w.mem.msg (.next t)) (hv : x.1.cur ≤ y.1.cur)
    (hp : prepared y.2 → prepared x.2) :
    Settled w'.mem.msg w'.uses y.1.cur (.next t) (.field (.next t)) (fun n => prepared y.2 → n = none) ∨
      ∃ k a u, Linked t w' y.1.cur k a u := by
  rcases hl.next with h | ⟨k, a, u, h⟩
  · have h' := (h.mono hv).congr hm (known_own hq.uses (h.known.mono hv) le_rfl)
    exact .inl (h'.imp fun z hz hy => hz (hp hy))
  · have ha := h.answered.mono hv
    exact .inr ⟨k, a, u, hq.linked hm (by simp) (known_own hq.uses ha.own le_rfl)
      (known_own hq.uses ha.known le_sup_left) ⟨ha, h.val, h.loc, h.gate⟩⟩

omit [DecidableEq T] in
theorem Local.gate_keep (hl : Local t w x) (hno : w.sc.loc t ≠ .spin)
    (huses : w'.uses = w.uses ++ usesOf t us y.1.cur)
    (hm : w'.mem.msg (.gate t) = w.mem.msg (.gate t)) (hv : x.1.cur ≤ y.1.cur)
    (hs : shut y.2 → shut x.2) :
    Settled w'.mem.msg w'.uses y.1.cur (.gate t) (.field (.gate t))
      (fun g => shut y.2 → g ≠ (0 : ℤ)) := by
  have h := hl.gate_settled hno
  have h' := (h.mono hv).congr hm (known_own huses (h.known.mono hv) le_rfl)
  exact h'.imp fun z hz hy => hz (hs hy)

end Own

/-- A call, a return, a plain access, or a load that the interleaving model takes alike. -/
theorem follows_same (hg : Glob w) (hl : Local t w x) (hv : x.1.cur ≤ y.1.cur) {l : Pc T}
    (hat : w.sc.loc t = x.2) (hlink : ∀ p, x.2 ≠ .link p) (hspin : x.2 ≠ .spin)
    (hrun : (McsLock.program T).Run anyStep w.sc (emit t r.events) (move w.sc t w.sc.mem l))
    (hy : y.2 = l) (hyl : ∀ p, l ≠ .link p) (hyr : ∀ n, l ≠ .release n)
    (hp : prepared l → prepared x.2) (hs : shut l → shut x.2) (hin : l.inside → x.2.inside)
    (huse : ∀ a ∈ r.uses, (∃ y, a.1 = .client y ∧ x.2.inside) ∨
      ∃ z, a.1 = .field z ∧ Mine t z ∧ (x.2.published → a.2 = false))
    (hrace : ∀ a ∈ r.uses, Known y.1.cur w.uses a.1 a.2) :
    assertions.Follows t w w.mem y (r.trace y.1.cur) := by
  subst hy
  let w' := w.after t w.mem.msg r y.1.cur (move w.sc t w.sc.mem y.2)
  have hq : Quiet t none none r.uses y.1.cur w w' :=
    quiet_own uses_after rfl (fun p hp => absurd (hat ▸ hp) (hlink p)) (fun _ _ => rfl) (fun _ _ => rfl)
      (fun _ _ h => .inl h) (fun _ _ _ => rfl) (by rw [hat]; exact huse)
  refine follows_quiet hg hrun hq rfl rfl hrace ⟨.inl (move_loc_self ..), fun k a hk ha => ?_,
    hl.next_keep hq rfl hv hp, fun h => hl.null (hp h), .inl (hl.gate_keep (hat ▸ hspin) hq.uses rfl
    hv hs), fun h z => ?_, fun p h => absurd h (hyl p), fun n h => absurd h (hyr n)⟩
  · exact hl.tail k a (Nat.lt_of_le_of_lt (hv.1 _) hk) ha
  · exact known_own hq.uses ((hl.client (hin h) z).mono hv) le_rfl

omit [DecidableEq T] in
/-- Nobody is behind a node that is not published. -/
theorem no_linker (hsh : Shape w.sc) (hat : (w.sc.loc t).published = false) (u : T) :
    w.sc.loc u ≠ .link t := fun h => by simp [(hsh.linked u t h).1] at hat

/-- A store to the own node before it is published. -/
theorem quiet_put {z : Cell T} (hz : Mine t z) (hat : (w.sc.loc t).published = false) {k : ℕ}
    {b : Message (Cell T) T z.Val} {w' : World T Y} (hm : w'.mem.msg = w.mem.msg.put z k b)
    (huses : w'.uses = w.uses ++ usesOf t [(.field z, false)] v) {mc : Mem T} {l : Pc T}
    (hsc : w'.sc = move w.sc t mc l) (hnext : ∀ u, u ≠ t → mc.next u = w.sc.mem.next u)
    (hgate : ∀ u, u ≠ t → mc.gate u = w.sc.mem.gate u) :
    Quiet t none none [(.field z, false)] v w w' := by
  refine quiet_own huses hsc (fun p hp => ?_) hnext hgate (fun i a ha => .inl ?_) (fun z' hz' hp => ?_)
    fun a ha => .inr ⟨z, ?_⟩
  · simp [hp, Pc.published] at hat
  · rw [hm] at ha
    refine Messages.of_put (fun h => ?_) ha
    simp [Mine, ← h] at hz
  · rw [hm]
    refine Messages.put_of_ne fun h => ?_
    simp [hp (h ▸ hz)] at hat
  · obtain rfl := List.mem_singleton.mp ha
    exact ⟨rfl, hz, fun _ => rfl⟩

theorem follows_lockNext (hg : Glob w) (hl : Local t w x) (hx : x.2 = .lockNext)
    (hv : x.1.cur ≤ y.1.cur)
    {k : ℕ} {b : Message (Cell T) T (Option T)} (hk : x.1.cur.time (.next t) < k) (hb : b.val = none)
    (hky : k ≤ y.1.cur.time (.next t)) (hy : y.2 = .lockGate) :
    assertions.Follows t w ⟨w.mem.msg.put (.next t) k b, ()⟩ y
      (Outcome.trace (⟨(), .lockGate, [], [(.field (.next t), false)]⟩ :
        Outcome Unit (Pc T) Event (Place T Y)) y.1.cur) := by
  have hat : w.sc.loc t = .lockNext := (hl.loc.resolve_right fun h => by simp [hx] at h).trans hx
  have hpub : (w.sc.loc t).published = false := by rw [hat]; rfl
  have hs := hl.next_settled (no_linker (shape_of_run hg.run) hpub)
  let mc : Mem T := { w.sc.mem with next := Function.update w.sc.mem.next t none }
  let w' : World T Y := w.after t (w.mem.msg.put (.next t) k b)
    ⟨(), .lockGate, [], [(.field (.next t), false)]⟩ y.1.cur (move w.sc t mc .lockGate)
  have hput : ∀ z, z ≠ .next t → w'.mem.msg z = w.mem.msg z := fun z hz => Messages.put_of_ne hz
  have hq : Quiet t none none [(.field (.next t), false)] y.1.cur w w' :=
    quiet_put (.inl rfl) hpub rfl uses_after rfl (fun u hu => Function.update_of_ne hu ..)
    fun _ _ => rfl
  refine follows_quiet hg (run_one (a := .run) (by rw [hat]; rfl)) hq (hput .tail (by simp)) rfl ?_
    ⟨.inl ((move_loc_self ..).trans hy.symm), fun i a hi ha => ?_, .inl ⟨hs.covers.put hv hky, ?_, k, b,
      hs.covers.last_put hk, fun _ => hb⟩, fun _ => Function.update_self .., .inl ?_,
      by simp [hy, Pc.inside], by simp [hy], by simp [hy]⟩
  · intro a ha
    obtain rfl := List.mem_singleton.mp ha
    exact (hs.known.mono hv).of_all
  · exact hl.tail i a (Nat.lt_of_le_of_lt (hv.1 _) hi) (hput .tail (by simp) ▸ ha)
  · exact known_own hq.uses (hs.known.mono hv) le_rfl
  · exact hl.gate_keep (by simp [hat]) hq.uses (hput (.gate t) (by simp)) hv (by simp [hy, shut])

theorem follows_lockGate (hg : Glob w) (hl : Local t w x) (hx : x.2 = .lockGate)
    (hv : x.1.cur ≤ y.1.cur)
    {k : ℕ} {b : Message (Cell T) T ℤ} (hk : x.1.cur.time (.gate t) < k) (hb : b.val = 1)
    (hky : k ≤ y.1.cur.time (.gate t)) (hy : y.2 = .exchange) :
    assertions.Follows t w ⟨w.mem.msg.put (.gate t) k b, ()⟩ y
      (Outcome.trace (⟨(), .exchange, [], [(.field (.gate t), false)]⟩ :
        Outcome Unit (Pc T) Event (Place T Y)) y.1.cur) := by
  have hat : w.sc.loc t = .lockGate := (hl.loc.resolve_right fun h => by simp [hx] at h).trans hx
  have hpub : (w.sc.loc t).published = false := by rw [hat]; rfl
  have hs := hl.gate_settled (by simp [hat])
  let mc : Mem T := { w.sc.mem with gate := Function.update w.sc.mem.gate t 1 }
  let w' : World T Y := w.after t (w.mem.msg.put (.gate t) k b)
    ⟨(), .exchange, [], [(.field (.gate t), false)]⟩ y.1.cur (move w.sc t mc .exchange)
  have hput : ∀ z, z ≠ .gate t → w'.mem.msg z = w.mem.msg z := fun z hz => Messages.put_of_ne hz
  have hq : Quiet t none none [(.field (.gate t), false)] y.1.cur w w' :=
    quiet_put (.inr rfl) hpub rfl uses_after rfl (fun _ _ => rfl) fun u hu =>
      Function.update_of_ne hu ..
  refine follows_quiet hg (run_one (a := .run) (by rw [hat]; rfl)) hq (hput .tail (by simp)) rfl ?_
    ⟨.inl ((move_loc_self ..).trans hy.symm), fun i a hi ha => ?_,
      hl.next_keep hq (hput (.next t) (by simp)) hv (by simp [hx, prepared]),
      fun _ => hl.null (by simp [hx, prepared]), .inl ⟨hs.covers.put hv hky, ?_, k, b,
      hs.covers.last_put hk, fun _ => by simp [hb]⟩, by simp [hy, Pc.inside], by simp [hy],
      by simp [hy]⟩
  · intro a ha
    obtain rfl := List.mem_singleton.mp ha
    exact (hs.known.mono hv).of_all
  · exact hl.tail i a (Nat.lt_of_le_of_lt (hv.1 _) hi) (hput .tail (by simp) ▸ ha)
  · exact known_own hq.uses (hs.known.mono hv) le_rfl

section Tail
variable {k : ℕ} {a b : Message (Cell T) T (Option T)} {es : List Event} {l : Pc T} {mc : Mem T}

/-- The world after `t` has written `m_tail`. -/
abbrev World.swapped (w : World T Y) (t : T) (k : ℕ) (b : Message (Cell T) T (Option T))
    (es : List Event) (l : Pc T) (v : View (Cell T) T) (mc : Mem T) : World T Y :=
  w.after t (w.mem.msg.put .tail (k + 1) b) ⟨(), l, es, []⟩ v (move w.sc t mc l)

theorem swapped_msg {z : Cell T} (hz : z ≠ .tail) :
    (w.swapped t k b es l v mc).mem.msg z = w.mem.msg z := Messages.put_of_ne hz

theorem swapped_uses : (w.swapped t k b es l v mc).uses = w.uses :=
  uses_after.trans (List.append_nil _)

theorem swapped_found {z : Cell T} (hz : z ≠ .tail) {v' : View (Cell T) T} (hf : Found w v' z) :
    Found (w.swapped t k b es l v mc) v' z := by
  refine ⟨hf.covers.congr (swapped_msg hz), ?_⟩
  rw [swapped_uses]
  exact hf.known

theorem swapped_null {p : T} (hn : Null w p) : Null (w.swapped t k b es l v mc) p := by
  obtain ⟨i, c, hc, hv⟩ := hn
  exact ⟨i, c, hc.congr (swapped_msg (by simp)), hv⟩

theorem quiet_swapped (hlink : ∀ p, w.sc.loc t ≠ .link p) (hb : b.val = none ∨ b.val = some t)
    (hn : mc.next = w.sc.mem.next) (hg : mc.gate = w.sc.mem.gate) :
    Quiet t none none [] v w (w.swapped t k b es l v mc) := by
  refine quiet_own uses_after rfl (fun p h => absurd h (hlink p)) (fun _ _ => by rw [hn])
    (fun _ _ => by rw [hg]) (fun i c hc => ?_) (fun z hz _ => swapped_msg hz) (by simp)
  have hc : w.mem.msg.put .tail (k + 1) b .tail i = some c := hc
  rcases Messages.put_eq_some.mp hc with ⟨-, rfl⟩ | ⟨-, hc⟩
  · exact .inr hb
  · exact .inl hc

/-- No write to `m_tail` is later than the one just made. -/
theorem swapped_tail {n : ℕ} (hn : w.mem.msg.Chain .tail n) {i : ℕ} {v' : View (Cell T) T}
    (hv : n + 1 ≤ v'.time .tail) (hi : v'.time .tail < i) {c : Message (Cell T) T (Option T)}
    (hc : (w.swapped t n b es l v mc).mem.msg .tail i = some c) : False := by
  have hc : w.mem.msg.put .tail (n + 1) b .tail i = some c := hc
  have hle := ((hn.put (a := b)) i).mp (by rw [hc]; rfl)
  omega

theorem follows_tail (hg : Glob w) {n : ℕ} (hn : w.mem.msg.Chain .tail n)
    (hstep : step t .run w.sc.mem (w.sc.loc t) = some (mc, l, es))
    (hlink : ∀ p, w.sc.loc t ≠ .link p) (hb : b.val = none ∨ b.val = some t)
    (hnext : mc.next = w.sc.mem.next) (hgate : mc.gate = w.sc.mem.gate) (hy : y.2 = l)
    (htail : Tail (w.swapped t n b es l y.1.cur mc) b) (hky : n + 1 ≤ y.1.cur.time .tail)
    (hl : ∀ w', w' = w.swapped t n b es l y.1.cur mc → w'.sc.loc t = y.2 →
      (∀ i c, y.1.cur.time .tail < i → w'.mem.msg .tail i = some c → c.val ≠ some t) →
      Quiet t none none [] y.1.cur w w' → Local t w' y) :
    assertions.Follows t w ⟨w.mem.msg.put .tail (n + 1) b, ()⟩ y
      (Outcome.trace (⟨(), l, es, []⟩ : Outcome Unit (Pc T) Event (Place T Y)) y.1.cur) := by
  have hq : Quiet t none none [] y.1.cur w (w.swapped t n b es l y.1.cur mc) :=
    quiet_swapped hlink hb hnext hgate
  refine follows_of hg (run_one hstep) ⟨n + 1, hn.put, fun a ha => ?_⟩ (by simp)
    (hl _ rfl ((move_loc_self ..).trans hy.symm) (fun i c hi hc => (swapped_tail hn hky hi hc).elim) hq)
    fun u hu z hz => hq.stable (shape_of_run hg.run) hu (by simp) hz (by simp) (by simp) (by simp)
    (by simp)
  obtain rfl : b = a := by simpa using ha
  exact htail

theorem follows_exchange (hg : Glob w) (hl : Local t w x) (hx : x.2 = .exchange)
    (hv : x.1.cur ≤ y.1.cur)
    (ha : w.mem.msg .tail k = some a) (hfree : w.mem.msg .tail (k + 1) = none)
    (hb : b.val = some t) (hav : a.view ≤ y.1.cur) (hbv : x.1.cur ≤ b.view)
    (hky : k + 1 ≤ y.1.cur.time .tail) {r : Outcome Unit (Pc T) Event (Place T Y)}
    (hr : r = match a.val with
      | none => ⟨(), .crit, [.exchanged, .entered], []⟩
      | some pred => ⟨(), .link pred, [.exchanged], []⟩) (hy : y.2 = r.loc) :
    assertions.Follows t w ⟨w.mem.msg.put .tail (k + 1) b, ()⟩ y (r.trace y.1.cur) := by
  have hat : w.sc.loc t = .exchange := (hl.loc.resolve_right fun h => by simp [hx] at h).trans hx
  have hpub : (w.sc.loc t).published = false := by rw [hat]; rfl
  have hs := hl.next_settled (no_linker (shape_of_run hg.run) hpub)
  obtain ⟨n, hn, ht⟩ := hg.tail
  obtain rfl := hn.eq_of_isNone ha hfree
  have ht := ht a ha
  have hprep : prepared x.2 := by simp [hx, prepared]
  have htail : ∀ {es l mc}, mc.tail = some t → Tail (w.swapped t k b es l y.1.cur mc) b := by
    intro es l mc hmc
    refine ⟨hb.trans hmc.symm, fun p hp => ?_, fun h => by simp [hb] at h⟩
    obtain rfl : t = p := Option.some.inj (hb.symm.trans hp)
    obtain ⟨i, c, hc, hcv⟩ := hs.last
    exact ⟨swapped_found (by simp) ⟨hs.covers.mono hbv, (hs.known.mono hbv).of_all⟩,
      swapped_null ⟨i, c, hc, hcv hprep⟩⟩
  cases hval : a.val with
  | none =>
    rw [hval] at hr
    subst hr
    have hmem : w.sc.mem.tail = none := ht.val.symm.trans hval
    have hstep : step t .run w.sc.mem (w.sc.loc t) = some ({ w.sc.mem with tail := some t }, .crit,
        [.exchanged, .entered]) := by
      rw [hat]
      simp [step, McsLock.access, hmem]
    refine follows_tail hg hn hstep (by simp [hat]) (.inr hb) rfl rfl hy (htail rfl) hky
      fun w' hw' hloc hno hq => ?_
    refine ⟨.inl hloc, hno, hl.next_keep hq ?_ hv fun _ => hprep, fun _ => ?_, .inl ?_, fun _ z => ?_,
      by simp [hy], by simp [hy]⟩
    · exact hw' ▸ swapped_msg (by simp)
    · exact hw' ▸ hl.null hprep
    · exact hl.gate_keep (by simp [hat]) hq.uses (hw' ▸ swapped_msg (by simp)) hv (by simp [hy, shut])
    · rw [hw', swapped_uses]
      exact (ht.free hval z).mono hav
  | some p =>
    rw [hval] at hr
    subst hr
    have hmem : w.sc.mem.tail = some p := ht.val.symm.trans hval
    obtain ⟨hf, hnull⟩ := ht.pred p hval
    have hstep : step t .run w.sc.mem (w.sc.loc t) = some ({ w.sc.mem with tail := some t }, .link p,
        [.exchanged]) := by
      rw [hat]
      simp [step, McsLock.access, hmem]
    refine follows_tail hg hn hstep (by simp [hat]) (.inr hb) rfl rfl hy (htail rfl) hky
      fun w' hw' hloc hno hq => ?_
    refine ⟨.inl hloc, hno, hl.next_keep hq ?_ hv fun _ => hprep, fun _ => ?_, .inl ?_,
      by simp [hy, Pc.inside], fun q hq' => ?_, by simp [hy]⟩
    · exact hw' ▸ swapped_msg (by simp)
    · exact hw' ▸ hl.null hprep
    · exact hl.gate_keep (by simp [hat]) hq.uses (hw' ▸ swapped_msg (by simp)) hv (by simp [hx, shut])
    · obtain rfl : p = q := by simpa [hy] using hq'
      exact hw' ▸ ⟨swapped_found (by simp) ⟨hf.covers.mono hav, hf.known.mono hav⟩, swapped_null hnull⟩

/-- The compare_exchange of `unlock` succeeds. -/
theorem follows_leave (hg : Glob w) (hl : Local t w x) (hx : x.2 = .unlockCas) (hv : x.1.cur ≤ y.1.cur)
    (ha : w.mem.msg .tail k = some a) (hfree : w.mem.msg .tail (k + 1) = none) (hav : a.val = some t)
    (hb : b.val = none) (hbv : x.1.cur ≤ b.view) (hky : k + 1 ≤ y.1.cur.time .tail) (hy : y.2 = .out) :
    assertions.Follows t w ⟨w.mem.msg.put .tail (k + 1) b, ()⟩ y
      (Outcome.trace (⟨(), .out, [.unlocked], []⟩ : Outcome Unit (Pc T) Event (Place T Y))
        y.1.cur) := by
  have hat : w.sc.loc t = .unlockCas := (hl.loc.resolve_right fun h => by simp [hx] at h).trans hx
  obtain ⟨n, hn, ht⟩ := hg.tail
  obtain rfl := hn.eq_of_isNone ha hfree
  have hmem : w.sc.mem.tail = some t := (ht a ha).val.symm.trans hav
  have htail : Tail (w.swapped t k b [.unlocked] .out y.1.cur { w.sc.mem with tail := none }) b := by
    refine ⟨hb, fun p hp => by simp [hb] at hp, fun _ z => ?_⟩
    rw [swapped_uses]
    exact (hl.client (by simp [hx, Pc.inside]) z).mono hbv
  have hstep : step t .run w.sc.mem (w.sc.loc t) = some ({ w.sc.mem with tail := none }, .out,
      [.unlocked]) := by
    rw [hat]
    simp [step, McsLock.access, hmem]
  refine follows_tail hg hn hstep (by simp [hat]) (.inl hb) rfl rfl hy htail hky
    fun w' hw' hloc hno hq => ?_
  refine ⟨.inl hloc, hno, hl.next_keep hq ?_ hv (by simp [hy, prepared]), by simp [hy, prepared],
    .inl ?_, by simp [hy, Pc.inside], by simp [hy], by simp [hy]⟩
  · exact hw' ▸ swapped_msg (by simp)
  · exact hl.gate_keep (by simp [hat]) hq.uses (hw' ▸ swapped_msg (by simp)) hv (by simp [hy, shut])

end Tail

omit [DecidableEq T] in
/-- The link of a node is still `NULL` where its successor has not written it. -/
theorem Local.next_of_null (hl : Local t w x) (hn : Null w t) :
    Settled w.mem.msg w.uses x.1.cur (.next t) (.field (.next t))
      (fun n => prepared x.2 → n = none) := by
  rcases hl.next with h | ⟨k, a, u, h⟩
  · exact h
  · obtain ⟨i, b, hb, hv⟩ := hn
    obtain ⟨-, rfl⟩ := hb.unique h.answered.last
    exact absurd (hv.symm.trans h.val) (by simp)

omit [DecidableEq T] in
theorem prepared_of_published {l : Pc T} (hl : l.published) (hr : ∀ n, l ≠ .release n) :
    prepared l := by
  cases l <;> first | rfl | exact absurd hl Bool.false_ne_true | exact absurd rfl (hr _)

/-- The store that links a thread to its predecessor. The interleaving model waits with it. -/
theorem follows_link (hg : Glob w) (hl : Local t w x) {p : T} (hx : x.2 = .link p)
    (hv : x.1.cur ≤ y.1.cur) {k : ℕ} {a : Message (Cell T) T (Option T)}
    (hk : x.1.cur.time (.next p) < k) (ha : a.val = some t) (hav : y.1.cur ≤ a.view)
    (hy : y.2 = .spin) :
    assertions.Follows t w ⟨w.mem.msg.put (.next p) k a, ()⟩ y
      (Outcome.trace (⟨(), .spin, [], [(.field (.next p), false)]⟩ :
        Outcome Unit (Pc T) Event (Place T Y)) y.1.cur) := by
  have hat : w.sc.loc t = .link p := (hl.loc.resolve_right fun h => by simp [hx] at h).trans hx
  have hsh := shape_of_run hg.run
  obtain ⟨hf, hnull⟩ := hl.link p hx
  have hpt := hsh.other t p hat
  have hs := hl.gate_settled (by simp [hat])
  let w' : World T Y := w.after t (w.mem.msg.put (.next p) k a)
    ⟨(), .spin, [], [(.field (.next p), false)]⟩ y.1.cur w.sc
  have huses : w'.uses = w.uses ++ usesOf t [(.field (.next p), false)] y.1.cur := uses_after
  have hput : ∀ z, z ≠ .next p → w'.mem.msg z = w.mem.msg z := fun z hz => Messages.put_of_ne hz
  have hq : Quiet t (some (.next p)) none [(.field (.next p), false)] y.1.cur w w' := by
    refine ⟨huses, fun _ _ _ => rfl, by simp, fun _ h => h, fun _ _ => rfl, fun _ _ _ => rfl, by simp,
      fun i c hc => .inl (hput .tail (by simp) ▸ hc), fun z _ hz _ => hput z fun h => hz (by rw [h]),
      fun c hc => .inr ⟨.next p, ?_⟩⟩
    obtain rfl := List.mem_singleton.mp hc
    exact ⟨rfl, .inl ⟨rfl, rfl⟩⟩
  have hlinked : ∀ z, Local p w z → Linked p w' z.1.cur k a t := by
    intro z hz
    obtain ⟨hpub, hrel⟩ := hsh.linked t p hat
    have hprep : prepared z.2 := by
      rcases hz.loc with h | ⟨h, -⟩
      · exact h ▸ prepared_of_published hpub hrel
      · rw [h]
        rfl
    have hs' := (hz.next_of_null hnull).imp fun _ h => h hprep
    refine ⟨hs'.answer hf.covers hk ?_ ?_, ha, hat, ?_⟩
    · rw [huses]
      exact known_append.mpr ⟨hs'.known.of_all, known_usesOf_of_ne (by simp)⟩
    · rw [huses]
      exact known_append.mpr ⟨hs'.known.mono le_sup_left, known_usesOf (hav.trans le_sup_right)⟩
    · have hva := hv.trans hav
      exact ⟨(hs.covers.mono hva).congr (hput (.gate t) (by simp)),
        (known_own huses (hs.known.mono hva) hav).of_all⟩
  obtain ⟨n, hn, ht⟩ := hg.tail
  refine follows_of hg .start ⟨n, fun i => ?_, fun c hc => ?_⟩ ?_ ⟨.inr ⟨hy, p, hat⟩,
    fun i c hi hc => ?_, ?_, fun _ => hl.null (by simp [hx, prepared]), .inl ?_,
    by simp [hy, Pc.inside], by simp [hy], by simp [hy]⟩ fun u hu z hz => hq.stable hsh hu (by simp) hz
    (fun h => ?_) (by simp)
      (fun q hu' h => ?_) (by simp)
  · have htail : w.mem.msg.put (.next p) k a .tail = w.mem.msg .tail := hput .tail (by simp)
    rw [htail]
    exact hn i
  · refine hq.tail_ok hsh rfl (fun q hq' h => hsh.last t p hat ?_) (ht c (hput .tail (by simp) ▸ hc))
    simpa [show p = q by simpa using h] using hq'
  · intro c hc
    obtain rfl := List.mem_singleton.mp hc
    exact hf.known.mono hv
  · exact hl.tail i c (Nat.lt_of_le_of_lt (hv.1 _) hi) (hput .tail (by simp) ▸ hc)
  · exact hl.next_keep hq (hput (.next t) (by simpa using hpt.symm)) hv (by simp [hx, prepared])
  · exact hl.gate_keep (by simp [hat]) huses (hput (.gate t) (by simp)) hv (by simp [hx, shut])
  · obtain rfl : p = u := by simpa using h
    exact ⟨k, a, t, hlinked z hz⟩
  · obtain rfl : p = q := by simpa using h
    exact hu (hsh.linker u t p hu' hat)

/-- A load of `gate` that finds it shut. -/
theorem follows_wait (hg : Glob w) (hl : Local t w x) (hx : x.2 = .spin) (hv : x.1.cur ≤ y.1.cur)
    (hy : y.2 = .spin) : assertions.Follows t w w.mem y
      (Outcome.trace (⟨(), .spin, [], [(.field (.gate t), false)]⟩ :
        Outcome Unit (Pc T) Event (Place T Y)) y.1.cur) := by
  let w' : World T Y := w.after t w.mem.msg ⟨(), .spin, [], [(.field (.gate t), false)]⟩ y.1.cur w.sc
  have huses : w'.uses = w.uses ++ usesOf t [(.field (.gate t), false)] y.1.cur := uses_after
  have hq : Quiet t none none [(.field (.gate t), false)] y.1.cur w w' := by
    refine ⟨huses, fun _ _ _ => rfl, by simp, fun _ h => h, fun _ _ => rfl, fun _ _ _ => rfl, by simp,
      fun i c hc => .inl hc, fun _ _ _ _ => rfl, fun c hc => .inr ⟨.gate t, ?_⟩⟩
    obtain rfl := List.mem_singleton.mp hc
    exact ⟨rfl, .inr ⟨.inr rfl, fun _ => rfl⟩⟩
  refine follows_quiet hg .start hq rfl rfl ?_ ⟨?_, fun i c hi hc => ?_,
    hl.next_keep hq rfl hv (by simp [hx, prepared]), fun _ => hl.null (by simp [hx, prepared]), ?_,
    by simp [hy, Pc.inside], by simp [hy], by simp [hy]⟩
  · intro c hc
    obtain rfl := List.mem_singleton.mp hc
    rcases hl.gate with h | ⟨k, a, h⟩
    · exact (h.known.mono hv).of_all
    · exact h.answered.own.mono hv
  · exact hl.loc.imp (fun h => h.trans (hx.trans hy.symm)) fun h => ⟨hy, h.2⟩
  · exact hl.tail i c (Nat.lt_of_le_of_lt (hv.1 _) hi) hc
  · rcases hl.gate with h | ⟨k, a, h⟩
    · have h' : Settled w'.mem.msg w'.uses y.1.cur (.gate t) (.field (.gate t)) _ :=
        (h.mono hv).congr rfl (known_own huses (h.known.mono hv) le_rfl)
      exact .inl (h'.imp fun z hz _ => hz (by simp [hx, shut]))
    · have ha := h.answered.mono hv
      refine .inr ⟨k, a, ha.congr rfl (known_own huses ha.own le_rfl)
        (known_own huses ha.known le_sup_left), h.val, h.loc, h.gate, fun z => ?_⟩
      have hout := (shape_of_run hg.run).opened t h.loc h.gate t
      exact hq.known_client hout (h.client z)

/-- A load of `gate` that finds it open. -/
theorem follows_enter (hg : Glob w) (hl : Local t w x) (hx : x.2 = .spin) (hv : x.1.cur ≤ y.1.cur)
    {k : ℕ} {a : Message (Cell T) T ℤ} (hk : k ≤ y.1.cur.time (.gate t)) (hav : a.view ≤ y.1.cur)
    (ho : Opened t w x.1.cur k a) (hy : y.2 = .crit) : assertions.Follows t w w.mem y
      (Outcome.trace (⟨(), .crit, [.entered], [(.field (.gate t), false)]⟩ :
        Outcome Unit (Pc T) Event (Place T Y)) y.1.cur) := by
  let w' : World T Y := w.after t w.mem.msg ⟨(), .crit, [.entered], [(.field (.gate t), false)]⟩ y.1.cur
    (move w.sc t w.sc.mem .crit)
  have huses : w'.uses = w.uses ++ usesOf t [(.field (.gate t), false)] y.1.cur := uses_after
  have hstep : step t .run w.sc.mem (w.sc.loc t) = some (w.sc.mem, .crit, [.entered]) := by
    rw [ho.loc]
    simp [step, McsLock.access, ho.gate]
  have hq : Quiet t none none [(.field (.gate t), false)] y.1.cur w w' :=
    quiet_own huses rfl (by simp [ho.loc]) (fun _ _ => rfl) (fun _ _ => rfl) (fun _ _ h => .inl h)
      (fun _ _ _ => rfl) fun c hc => .inr ⟨.gate t, by simp_all [Mine]⟩
  have hknown : Known y.1.cur w.uses (.field (.gate t)) true := ho.answered.known.mono (sup_le hv hav)
  refine follows_quiet hg (run_one hstep) hq rfl rfl ?_ ⟨.inl ((move_loc_self ..).trans hy.symm),
    fun i c hi hc => ?_, hl.next_keep hq rfl hv (by simp [hx, prepared]),
    fun _ => hl.null (by simp [hx, prepared]),
    .inl ⟨ho.answered.last.covers hk, known_own huses hknown le_rfl, k, a, ho.answered.last,
      by simp [hy, shut]⟩, fun _ z => ?_, by simp [hy], by simp [hy]⟩
  · intro c hc
    obtain rfl := List.mem_singleton.mp hc
    exact hknown.of_all
  · exact hl.tail i c (Nat.lt_of_le_of_lt (hv.1 _) hi) hc
  · exact known_own huses ((ho.client z).mono hav) le_rfl

/-- The owner sees the link of its successor, which now takes its step in the interleaving
model, and the owner after it. -/
theorem follows_observe (hg : Glob w) (hl : Local t w x) (hx : x.2 = .unlockNext ∨ x.2 = .waitNext)
    (hv : x.1.cur ≤ y.1.cur) {k : ℕ} {a : Message (Cell T) T (Option T)} {u : T}
    (hk : k ≤ y.1.cur.time (.next t)) (hav : a.view ≤ y.1.cur) (ho : Linked t w x.1.cur k a u)
    (hy : y.2 = .release u) : assertions.Follows t w w.mem y
      (Outcome.trace (⟨(), .release u, [], [(.field (.next t), false)]⟩ :
        Outcome Unit (Pc T) Event (Place T Y)) y.1.cur) := by
  have hat : w.sc.loc t = x.2 := hl.loc.resolve_right fun h => by simp [h.1] at hx
  have hin : x.2.inside := by rcases hx with h | h <;> rw [h] <;> rfl
  have hpub : (w.sc.loc t).published := by rw [hat]; rcases hx with h | h <;> rw [h] <;> rfl
  have hut : u ≠ t := by
    rintro rfl
    have := hat.symm.trans ho.loc
    simp [this] at hx
  let mc : Mem T := { w.sc.mem with next := Function.update w.sc.mem.next t (some u) }
  let c : Config T (Mem T) (Pc T) := move w.sc u mc .spin
  have hct : c.loc t = x.2 := (move_loc_of_ne _ _ _ hut.symm).trans hat
  have hlink : step u .run w.sc.mem (w.sc.loc u) = some (mc, .spin, []) := by
    rw [ho.loc]
    rfl
  have hstep : step t .run c.mem (c.loc t) = some (mc, .release u, []) := by
    rw [hct]
    rcases hx with h | h <;> rw [h] <;> simp [step, McsLock.access, c, mc]
  let w' : World T Y := w.after t w.mem.msg ⟨(), .release u, [], [(.field (.next t), false)]⟩ y.1.cur
    (move c t mc (.release u))
  have huses : w'.uses = w.uses ++ usesOf t [(.field (.next t), false)] y.1.cur := uses_after
  have hq : Quiet t none (some u) [(.field (.next t), false)] y.1.cur w w' := by
    refine ⟨huses, fun v hv hs => ?_, fun v hs => ?_, fun p hp => ?_, fun v hv =>
      Function.update_of_ne hv .., fun _ _ _ => rfl, by simp, fun _ _ h => .inl h, fun _ _ _ _ =>
      rfl, fun d hd => .inr ⟨.next t, ?_⟩⟩
    · exact (move_loc_of_ne _ _ _ hv).trans (move_loc_of_ne _ _ _ fun h => hs (by rw [h]))
    · exact Option.some.inj hs ▸ ho.loc
    · have := hat.symm.trans hp
      simp [this] at hx
    · obtain rfl := List.mem_singleton.mp hd
      exact ⟨rfl, .inr ⟨.inl rfl, fun _ => rfl⟩⟩
  have hnull : ¬Null w t := by
    rintro ⟨i, b, hb, hbv⟩
    obtain ⟨-, rfl⟩ := hb.unique ho.answered.last
    simp [ho.val] at hbv
  have hsh := shape_of_run hg.run
  have hknown : Known y.1.cur w.uses (.field (.next t)) true := ho.answered.known.mono (sup_le hv hav)
  have hspin : w'.sc.loc u = .spin := (move_loc_of_ne _ _ _ hut).trans (move_loc_self ..)
  obtain ⟨n, hn, ht⟩ := hg.tail
  refine follows_of hg ((run_one hlink).trans (run_one hstep)) ⟨n, hn, fun d hd =>
    hq.tail_ok hsh rfl (by simp) (ht d hd)⟩ ?_ ⟨.inl ((move_loc_self ..).trans hy.symm),
    fun i d hi hd => ?_, .inl ⟨ho.answered.last.covers hk, known_own huses hknown le_rfl, k, a,
    ho.answered.last,
      by simp [hy, prepared]⟩, by simp [hy, prepared], .inl ?_, fun _ z => ?_, by simp [hy],
      fun m hm => ?_⟩
    fun v hvt z hz => ?_
  · intro d hd
    obtain rfl := List.mem_singleton.mp hd
    exact hknown.of_all
  · exact hl.tail i d (Nat.lt_of_le_of_lt (hv.1 _) hi) hd
  · exact hl.gate_keep (by rw [hat]; rcases hx with h | h <;> simp [h]) huses rfl hv
      (by simp [hy, shut])
  · exact known_own huses ((hl.client hin z).mono hv) le_rfl
  · obtain rfl : u = m := by simpa [hy] using hm
    exact hq.found (by simp) (by simp) (by simp [Mine, hut]) ⟨ho.gate.covers.mono hav,
      ho.gate.known.mono hav⟩
  · by_cases hvu : v = u
    · subst hvu
      exact hq.moved hspin hz hnull
    · exact hq.stable hsh hvt (by simpa using Ne.symm hvu) hz (by simp) (by simp) (by simp) (by simp)

/-- The store that lets the successor in. -/
theorem follows_release (hg : Glob w) (hl : Local t w x) {n : T} (hx : x.2 = .release n)
    (hv : x.1.cur ≤ y.1.cur) {k : ℕ} {a : Message (Cell T) T ℤ} (hk : x.1.cur.time (.gate n) < k)
    (ha : a.val = 0) (hav : y.1.cur ≤ a.view) (hy : y.2 = .out) :
    assertions.Follows t w ⟨w.mem.msg.put (.gate n) k a, ()⟩ y
      (Outcome.trace (⟨(), .out, [.unlocked], [(.field (.gate n), false)]⟩ :
        Outcome Unit (Pc T) Event (Place T Y)) y.1.cur) := by
  have hat : w.sc.loc t = .release n := (hl.loc.resolve_right fun h => by simp [hx] at h).trans hx
  have hsh := shape_of_run hg.run
  have hf := hl.release n hx
  have hspin := hsh.release t n hat
  have hnt : n ≠ t := fun h => by simp [h, hat] at hspin
  let mc : Mem T := { w.sc.mem with gate := Function.update w.sc.mem.gate n 0 }
  let w' : World T Y := w.after t (w.mem.msg.put (.gate n) k a)
    ⟨(), .out, [.unlocked], [(.field (.gate n), false)]⟩ y.1.cur (move w.sc t mc .out)
  have huses : w'.uses = w.uses ++ usesOf t [(.field (.gate n), false)] y.1.cur := uses_after
  have hput : ∀ z, z ≠ .gate n → w'.mem.msg z = w.mem.msg z := fun z hz => Messages.put_of_ne hz
  have hq : Quiet t (some (.gate n)) none [(.field (.gate n), false)] y.1.cur w w' := by
    refine ⟨huses, fun u hu _ => move_loc_of_ne _ _ _ hu, by simp, fun p hp => by simp [hat] at hp,
      fun _ _ => rfl, fun u _ h => Function.update_of_ne (fun heq => h (by rw [heq])) ..,
      fun m hm => ?_, fun i c hc => .inl (hput .tail (by simp) ▸ hc), fun z _ hz _ => hput z
      fun h => hz (by rw [h]), fun c hc => .inr ⟨.gate n, ?_⟩⟩
    · obtain rfl : n = m := by simpa using hm
      exact hspin
    · obtain rfl := List.mem_singleton.mp hc
      exact ⟨rfl, .inl ⟨rfl, rfl⟩⟩
  have hopened : ∀ z, Local n w z → Opened n w' z.1.cur k a := by
    intro z hz
    have hzs : z.2 = .spin := hz.loc.elim (fun h => h.symm.trans hspin) And.left
    have hs : Settled w.mem.msg w.uses z.1.cur (.gate n) (.field (.gate n)) (fun g => g ≠ (0 : ℤ)) := by
      rcases hz.gate with h | ⟨i, b, h⟩
      · exact h.imp fun _ h => h (by simp [hzs, shut])
      · have := hsh.opened n h.loc h.gate t
        simp [hat, Pc.inside] at this
    refine ⟨hs.answer hf.covers hk ?_ ?_, ha, (move_loc_of_ne _ _ _ hnt).trans hspin,
      Function.update_self .., fun z => ?_⟩
    · rw [huses]
      exact known_append.mpr ⟨hs.known.of_all, known_usesOf_of_ne (by simp)⟩
    · rw [huses]
      exact known_append.mpr ⟨hs.known.mono le_sup_left, known_usesOf (hav.trans le_sup_right)⟩
    · exact known_own huses ((hl.client (by simp [hx, Pc.inside]) z).mono (hv.trans hav)) hav
  have hrun : (McsLock.program T).Run anyStep w.sc (emit t [.unlocked]) (move w.sc t mc .out) :=
    run_one (a := .run) (by rw [hat]; rfl)
  obtain ⟨i, hi, ht⟩ := hg.tail
  refine follows_of hg hrun ⟨i, fun j => ?_, fun c hc => ?_⟩ ?_
    ⟨.inl ((move_loc_self ..).trans hy.symm), fun j c hj hc => ?_, hl.next_keep hq
    (hput (.next t) (by simp)) hv (by simp [hy, prepared]), by simp [hy, prepared], .inl ?_,
    by simp [hy, Pc.inside], by simp [hy], by simp [hy]⟩
    fun u hu z hz => hq.stable hsh hu (by simp) hz (by simp) (fun h => ?_) (by simp) (fun m hm _ => ?_)
  · have htail : w.mem.msg.put (.gate n) k a .tail = w.mem.msg .tail := hput .tail (by simp)
    rw [htail]
    exact hi j
  · exact hq.tail_ok hsh rfl (by simp) (ht c (hput .tail (by simp) ▸ hc))
  · intro c hc
    obtain rfl := List.mem_singleton.mp hc
    exact hf.known.mono hv
  · exact hl.tail j c (Nat.lt_of_le_of_lt (hv.1 _) hj) (hput .tail (by simp) ▸ hc)
  · exact hl.gate_keep (by simp [hat]) huses (hput (.gate t) (by simpa using hnt.symm)) hv
      (by simp [hy, shut])
  · obtain rfl : n = u := by simpa using h
    exact ⟨k, a, hopened z hz⟩
  · exact hu (hsh.one u t (by rw [hm]; rfl) (by rw [hat]; rfl))

omit [DecidableEq T] in
/-- What a load of the own link finds: nothing, or the link of the successor. -/
theorem Local.look_next (hl : Local t w x) (hp : prepared x.2) {k : ℕ}
    {b : Message (Cell T) T (Option T)} (hb : w.mem.msg (.next t) k = some b)
    (hk : x.1.cur.time (.next t) ≤ k) :
    b.val = none ∨ ∃ u, b.val = some u ∧ Linked t w x.1.cur k b u := by
  rcases hl.next with h | ⟨n, c, u, h⟩
  · exact .inl (h.val hb hk hp)
  · rcases h.answered.read hb hk with ⟨rfl, rfl⟩ | hnone
    · exact .inr ⟨u, h.val, h⟩
    · exact .inl hnone

/-- A load of the own link in `unlock`, which goes on at `l` if it finds none. -/
theorem follows_loadNext (hg : Glob w) (hl : Local t w x) {l : Pc T}
    (hx : x.2 = .unlockNext ∧ l = .unlockCas ∨ x.2 = .waitNext ∧ l = .waitNext)
    (hv : x.1.cur ≤ y.1.cur) {k : ℕ} {b : Message (Cell T) T (Option T)}
    (hb : w.mem.msg (.next t) k = some b) (hk : x.1.cur.time (.next t) ≤ k)
    (hkv : k ≤ y.1.cur.time (.next t)) (hbv : b.view ≤ y.1.cur)
    {r : Outcome Unit (Pc T) Event (Place T Y)}
    (hnone : b.val = none → r = ⟨(), l, [], [(.field (.next t), false)]⟩)
    (hsome : ∀ u, b.val = some u → r = ⟨(), .release u, [], [(.field (.next t), false)]⟩)
    (hy : y.2 = r.loc) : assertions.Follows t w w.mem y (r.trace y.1.cur) := by
  have hprep : prepared x.2 := by rcases hx with ⟨hx, -⟩ | ⟨hx, -⟩ <;> simp [hx, prepared]
  rcases hl.look_next hprep hb hk with hval | ⟨u, hval, hu⟩
  · obtain rfl := hnone hval
    have hat : w.sc.loc t = x.2 := hl.loc.resolve_right fun h => by simp [h.1] at hx
    have hown : ∀ a ∈ [((.field (.next t) : Place T Y), false)],
        (∃ y, a.1 = .client y ∧ x.2.inside) ∨
          ∃ z, a.1 = .field z ∧ Mine t z ∧ (x.2.published → a.2 = false) := by
      intro a ha
      obtain rfl := List.mem_singleton.mp ha
      exact .inr ⟨_, rfl, .inl rfl, fun _ => rfl⟩
    have hreads : ∀ a ∈ [((.field (.next t) : Place T Y), false)], Known y.1.cur w.uses a.1 a.2 := by
      intro a ha
      obtain rfl := List.mem_singleton.mp ha
      rcases hl.next with h | ⟨_, _, _, h⟩
      · exact (h.known.mono hv).of_all
      · exact h.answered.own.mono hv
    have hstep : step t .run w.sc.mem (w.sc.loc t) = some (w.sc.mem, l, []) := by
      rw [hat]
      rcases hx with ⟨hx, rfl⟩ | ⟨hx, rfl⟩ <;> simp [step, McsLock.access, hx, hl.null hprep]
    refine follows_same hg hl hv hat ?_ ?_ (run_one hstep) hy ?_ ?_ (fun _ => hprep) ?_ ?_ hown hreads <;>
      rcases hx with ⟨hx, rfl⟩ | ⟨hx, rfl⟩ <;> simp [hx, shut, Pc.inside]
  · obtain rfl := hsome u hval
    exact follows_observe hg hl (hx.imp And.left And.left) hv hkv hbv hu hy

section Actions
variable {k : ℕ} {msg : Messages (Cell T) T Cell.Val} {u : Unit} {i : Code T Y}
  {r : Outcome Unit (Pc T) Event (Place T Y)}

/-- A call, or a use of plain memory. -/
theorem follows_client (hg : Glob w) (hl : Local t w x) {a : ClientAct Y} (ha : a ≠ .lib .run)
    (hi : order t a () x.2 = some i) (hx : i.exec k w.mem.msg (x.1.tick t) = some (msg, y.1, r))
    (hy : y.2 = r.loc) : assertions.Follows t w ⟨msg, u⟩ y (r.trace y.1.cur) := by
  have hv : x.1.cur ≤ y.1.cur := Views.cur_le_tick.trans (Instr.exec_cur_le hx)
  have hat : x.2 ≠ .spin → w.sc.loc t = x.2 := fun h => hl.loc.resolve_right fun h' => h h'.1
  match a with
  | .lib .lock =>
    obtain ⟨hxl, rfl⟩ : x.2 = .out ∧ Instr.plain ⟨(), .lockNext, [.lock], []⟩ = i := by
      simpa [order] using hi
    obtain ⟨rfl, -, rfl⟩ := Instr.exec_plain hx
    have hat := hat (by simp [hxl])
    exact follows_same hg hl hv hat (by simp [hxl]) (by simp [hxl])
      (run_one (a := .lock) (by simp [step, hat, hxl])) hy (by simp) (by simp) (by simp [prepared])
      (by simp [shut]) (by simp [Pc.inside]) (by simp) (by simp)
  | .lib .unlock =>
    obtain ⟨hxl, rfl⟩ : x.2 = .crit ∧ Instr.plain ⟨(), .unlockNext, [.unlock], []⟩ = i := by
      simpa [order] using hi
    obtain ⟨rfl, -, rfl⟩ := Instr.exec_plain hx
    have hat := hat (by simp [hxl])
    exact follows_same hg hl hv hat (by simp [hxl]) (by simp [hxl])
      (run_one (a := .unlock) (by simp [step, hat, hxl])) hy (by simp) (by simp)
      (by simp [hxl, prepared])
      (by simp [shut]) (by simp [hxl, Pc.inside]) (by simp) (by simp)
  | .lib .run => exact absurd rfl ha
  | .use z b =>
    obtain ⟨hxl, rfl⟩ : x.2 = .crit ∧ Instr.plain ⟨(), .crit, [], [(.client z, b)]⟩ = i := by
      simpa [order] using hi
    obtain ⟨rfl, -, rfl⟩ := Instr.exec_plain hx
    have hat := hat (by simp [hxl])
    refine follows_same hg hl hv hat (by simp [hxl]) (by simp [hxl]) (run_none (hat.trans hxl)) hy
      (by simp) (by simp) (by simp [hxl, prepared]) (by simp [shut]) (by simp [hxl, Pc.inside])
      (fun c hc => .inl ?_) fun c hc => ?_
    · obtain rfl := List.mem_singleton.mp hc
      exact ⟨z, rfl, by rw [hxl]; rfl⟩
    · obtain rfl := List.mem_singleton.mp hc
      exact ((hl.client (by simp [hxl, Pc.inside]) z).mono hv).of_all
  | .reuse =>
    obtain ⟨hxl, rfl⟩ : x.2 = .out ∧
        Instr.plain ⟨(), .out, [], [(.field (.next t), true), (.field (.gate t), true)]⟩ = i := by
      simpa [order] using hi
    obtain ⟨rfl, -, rfl⟩ := Instr.exec_plain hx
    have hat := hat (by simp [hxl])
    have hpub : (w.sc.loc t).published = false := by rw [hat, hxl]; rfl
    have hnext := (hl.next_settled (no_linker (shape_of_run hg.run) hpub)).known.mono hv
    have hgate := (hl.gate_settled (by simp [hat, hxl])).known.mono hv
    refine follows_same hg hl hv hat (by simp [hxl]) (by simp [hxl]) (run_none (hat.trans hxl)) hy
      (by simp) (by simp) (by simp [prepared]) (by simp [shut]) (by simp [Pc.inside])
      (fun c hc => .inr ?_) fun c hc => ?_
    · rcases List.mem_pair.mp hc with rfl | rfl
      · exact ⟨_, rfl, .inl rfl, fun h => by simp [hxl, Pc.published] at h⟩
      · exact ⟨_, rfl, .inr rfl, fun h => by simp [hxl, Pc.published] at h⟩
    · rcases List.mem_pair.mp hc with rfl | rfl
      · exact hnext
      · exact hgate

/-- A compare-exchange of `tail` in `unlock`. -/
theorem follows_unlockCas (hg : Glob w) (hl : Local t w x) (hxl : x.2 = .unlockCas)
    (hi : access t .unlockCas = some i) (hx : i.exec k w.mem.msg (x.1.tick t) = some (msg, y.1, r))
    (hy : y.2 = r.loc) : assertions.Follows t w ⟨msg, u⟩ y (r.trace y.1.cur) := by
  have htick : x.1.cur ≤ (x.1.tick t).cur := Views.cur_le_tick
  have hv : x.1.cur ≤ y.1.cur := htick.trans (Instr.exec_cur_le hx)
  cases hi
  obtain ⟨b, hb, hk, rfl, ⟨hf, rfl, hw⟩ | ⟨z, hf, hnone, hw, rfl⟩⟩ := Instr.exec_rmw hx
  · have hne : b.val ≠ some t := fun h => by simp [h] at hf
    rw [if_neg hne] at hy ⊢
    have hat : w.sc.loc t = x.2 := hl.loc.resolve_right fun h => by simp [h.1] at hxl
    have htail : w.sc.mem.tail ≠ some t := by
      intro htail
      obtain ⟨n, hn, ht⟩ := hg.tail
      obtain ⟨c, hc⟩ := Option.isSome_iff_exists.mp ((hn n).mpr le_rfl)
      have hcv : c.val = some t := (ht c hc).val.trans htail
      have hle : n ≤ x.1.cur.time .tail := by
        by_contra hlt
        exact hl.tail n c (Nat.lt_of_not_le hlt) hc hcv
      obtain rfl : k = n :=
        Nat.le_antisymm ((hn k).mp (by simp [hb])) ((hle.trans (htick.1 _)).trans hk)
      exact hne (Option.some.inj (hb.symm.trans hc) ▸ hcv)
    exact follows_same hg hl hv hat (by simp [hxl]) (by simp [hxl])
      (run_one (a := .run) (by rw [hat, hxl]; simp [step, McsLock.access, htail])) hy (by simp)
      (by simp) (by simp [hxl, prepared]) (by simp [shut]) (by simp [hxl, Pc.inside]) (by simp)
      (by simp)
  · obtain ⟨hbt, rfl⟩ : b.val = some t ∧ none = z := by simpa using hf
    rw [if_pos hbt] at hy ⊢
    exact follows_leave hg hl hxl hv hb hnone hbt rfl
      ((hv.trans (Views.cur_le_released rfl)).trans le_sup_right) (hw ▸ Views.le_time_write) hy

theorem follows_spin (hg : Glob w) (hl : Local t w x) (hxl : x.2 = .spin)
    (hi : access t .spin = some i) (hx : i.exec k w.mem.msg (x.1.tick t) = some (msg, y.1, r))
    (hy : y.2 = r.loc) : assertions.Follows t w ⟨msg, u⟩ y (r.trace y.1.cur) := by
  have htick : x.1.cur ≤ (x.1.tick t).cur := Views.cur_le_tick
  have hv : x.1.cur ≤ y.1.cur := htick.trans (Instr.exec_cur_le hx)
  cases hi
  obtain ⟨b, hb, hk, rfl, hw, rfl⟩ := Instr.exec_load hx
  have hk := (htick.1 _).trans hk
  by_cases hval : b.val = (0 : ℤ)
  · rw [if_neg (not_not.mpr hval)] at hy ⊢
    have ho : Opened t w x.1.cur k b := by
      rcases hl.gate with h | ⟨n, c, h⟩
      · exact absurd hval (h.val hb hk (by simp [hxl, shut]))
      · rcases h.answered.read hb hk with ⟨rfl, rfl⟩ | hne
        · exact h
        · exact absurd hval hne
    exact follows_enter hg hl hxl hv (hw ▸ Views.le_time_read) (hw ▸ Views.le_cur_read rfl) ho hy
  · rw [if_pos hval] at hy ⊢
    exact follows_wait hg hl hxl hv hy

theorem follows_access (hg : Glob w) (hl : Local t w x) (hi : access t x.2 = some i)
    (hx : i.exec k w.mem.msg (x.1.tick t) = some (msg, y.1, r)) (hy : y.2 = r.loc) :
    assertions.Follows t w ⟨msg, u⟩ y (r.trace y.1.cur) := by
  have htick : x.1.cur ≤ (x.1.tick t).cur := Views.cur_le_tick
  have hv : x.1.cur ≤ y.1.cur := htick.trans (Instr.exec_cur_le hx)
  cases hxl : x.2 <;> rw [hxl] at hi
  case out | crit => cases hi
  case lockNext =>
    cases hi
    obtain ⟨-, hk, rfl, hw, rfl⟩ := Instr.exec_store hx
    exact follows_lockNext hg hl hxl hv (Nat.lt_of_le_of_lt (htick.1 _) hk) rfl
      (hw ▸ Views.le_time_write) hy
  case lockGate =>
    cases hi
    obtain ⟨-, hk, rfl, hw, rfl⟩ := Instr.exec_store hx
    exact follows_lockGate hg hl hxl hv (Nat.lt_of_le_of_lt (htick.1 _) hk) rfl
      (hw ▸ Views.le_time_write) hy
  case exchange =>
    cases hi
    obtain ⟨b, hb, -, rfl, ⟨hf, -⟩ | ⟨z, hf, hnone, hw, rfl⟩⟩ := Instr.exec_rmw hx
    · cases hf
    cases hf
    have hbv : b.view ≤ y.1.cur := hw ▸ (Views.le_cur_read rfl).trans Views.cur_le_write
    exact follows_exchange hg hl hxl hv hb hnone rfl hbv
      ((hv.trans (Views.cur_le_released rfl)).trans le_sup_right) (hw ▸ Views.le_time_write) rfl hy
  case link p =>
    cases hi
    obtain ⟨-, hk, rfl, hw, rfl⟩ := Instr.exec_store hx
    exact follows_link hg hl hxl hv (Nat.lt_of_le_of_lt (htick.1 _) hk) rfl
      (hw ▸ Views.cur_le_released rfl) hy
  case spin => exact follows_spin hg hl hxl hi hx hy
  case unlockNext =>
    cases hi
    obtain ⟨b, hb, hk, rfl, hw, rfl⟩ := Instr.exec_load hx
    exact follows_loadNext hg hl (.inl ⟨hxl, rfl⟩) hv hb ((htick.1 _).trans hk)
      (hw ▸ Views.le_time_read) (hw ▸ Views.le_cur_read rfl) (fun h => by rw [h]) (fun u h => by rw [h]) hy
  case unlockCas => exact follows_unlockCas hg hl hxl hi hx hy
  case waitNext =>
    cases hi
    obtain ⟨b, hb, hk, rfl, hw, rfl⟩ := Instr.exec_load hx
    exact follows_loadNext hg hl (.inr ⟨hxl, rfl⟩) hv hb ((htick.1 _).trans hk)
      (hw ▸ Views.le_time_read) (hw ▸ Views.le_cur_read rfl) (fun h => by rw [h]) (fun u h => by rw [h]) hy
  case release n =>
    cases hi
    obtain ⟨-, hk, rfl, hw, rfl⟩ := Instr.exec_store hx
    exact follows_release hg hl hxl hv (Nat.lt_of_le_of_lt (htick.1 _) hk) rfl
      (hw ▸ Views.cur_le_released rfl) hy

end Actions

/-- Every step. -/
theorem follows_step (hg : Glob w) (hl : Local t w x) {a : ClientAct Y × ℕ} {m : WeakMem T}
    {es : List (WeakEvent T Y)} (hs : (program T Y).step t a w.mem x = some (m, y, es)) :
    assertions.Follows t w m y es := by
  obtain ⟨i, r, hi, hx, -, hy, rfl⟩ := weak_step hs
  by_cases ha : a.1 = .lib .run
  · rw [ha] at hi
    exact follows_access hg hl hi hx hy
  · exact follows_client hg hl ha hi hx hy

end Steps

def outline : Outline (program T Y) anyStep (fun _ => True) (World T Y) where
  toAssertions := assertions
  step hg hl hs _ _ := follows_step hg (hl _) hs
  stable hu _ _ hl hgu := hgu _ hu _ hl

theorem holds_start : (outline (T := T) (Y := Y)).Holds ⟨(start T).mem, [], McsLock.start T⟩ []
    (start T) where
  mem := rfl
  hist := rfl
  glob := by
    refine ⟨.start, ⟨0, Messages.chain_initial, fun a ha => ?_⟩, .nil⟩
    obtain ⟨-, rfl⟩ := start_msg.mp ha
    exact ⟨rfl, fun p hp => by simp [cell] at hp, fun _ _ => known_nil⟩
  loc t := by
    refine ⟨.inl rfl, fun k a hk ha => ?_, .inl ⟨Messages.covers_initial, known_nil, _, _,
      Messages.last_initial, fun _ => rfl⟩, fun _ => rfl, .inl ⟨Messages.covers_initial, known_nil,
      _, _, Messages.last_initial, fun h => ?_⟩, fun h => ?_, fun p h => ?_, fun n h => ?_⟩
    · obtain ⟨rfl, -⟩ := start_msg.mp ha
      exact absurd hk (Nat.not_lt_zero _)
    · exact absurd h Bool.false_ne_true
    · exact absurd h Bool.false_ne_true
    · cases h
    · cases h

/-- **The queue lock under weak memory.** Every run has the calls, exchanges, entries and
returns of a run of the interleaving model, with every thread at the same point, except
that a thread which spins may there have its link still to store. No two threads are inside,
they enter in the order of their exchanges, and there is no data race: not on the memory
that clients use inside the lock, and not between a use of a node by another thread and the
reuse of its memory by its owner outside. -/
theorem weak_exclusion_fifo {tr : List (T × WeakEvent T Y)} {C : WeakConfig T}
    (h : (program T Y).Run anyStep (start T) tr C) :
    (∃ c, (McsLock.program T).Run anyStep (McsLock.start T) (events tr) c ∧
        ∀ t, c.loc t = (C.loc t).2 ∨ (C.loc t).2 = .spin ∧ ∃ p, c.loc t = .link p) ∧
      (∀ t u, (C.loc t).2.inside → (C.loc u).2.inside → t = u) ∧
      emitters .entered (events tr) <+: emitters .exchanged (events tr) ∧ RaceFree (notes tr) := by
  obtain ⟨w, hw⟩ := outline.sound (fun _ => trivial) holds_start h trivial
  have hg : Glob w := hw.glob
  have hl : ∀ t, Local t w (C.loc t) := hw.loc
  obtain rfl : w.hist = tr := hw.hist
  have hin : ∀ t, (C.loc t).2.inside → (w.sc.loc t).inside := by
    intro t ht
    rcases (hl t).loc with h | ⟨h, -⟩
    · exact h ▸ ht
    · simp [h, Pc.inside] at ht
  refine ⟨⟨w.sc, hg.run, fun t => (hl t).loc⟩, fun t u ht hu => ?_, ?_, hg.raceFree⟩
  · exact (shape_of_run hg.run).one t u (hin t ht) (hin u hu)
  · obtain ⟨v, hv⟩ := Queue.outline.sound (fun _ => trivial) Queue.holds_start hg.run trivial
    have hhist : v.hist = events w.hist := hv.hist
    rw [← hhist, hv.glob.order]
    exact List.prefix_append ..

/-- The theorem where the first thread does not see at once that another waits behind it, which
does not see at once that it is let in. -/
theorem weak_exclusion_fifo_late : ∃ (tr : List (Bool × WeakEvent Bool Unit)) (C : WeakConfig Bool),
    emitters .entered (events tr) = [true, false] ∧ emitters .unlocked (events tr) = [true, false] ∧
      (∃ c, (McsLock.program Bool).Run anyStep (McsLock.start Bool) (events tr) c ∧
        ∀ t, c.loc t = (C.loc t).2 ∨ (C.loc t).2 = .spin ∧ ∃ p, c.loc t = .link p) ∧
      (∀ t u, (C.loc t).2.inside → (C.loc u).2.inside → t = u) ∧
      emitters .entered (events tr) <+: emitters .exchanged (events tr) ∧ RaceFree (notes tr) := by
  have h₀ : (program Bool Unit).Run anyStep (start Bool) [] (start Bool) := .start
  have h₁ := h₀.solo true [(.lib .lock, 0), (.lib .run, 1), (.lib .run, 1), (.lib .run, 0),
    (.use () true, 0)] _ _ _ rfl
  have h₂ := h₁.solo false [(.lib .lock, 0), (.lib .run, 1), (.lib .run, 1), (.lib .run, 1),
    (.lib .run, 2), (.lib .run, 1)] _ _ _ rfl
  have h₃ := h₂.solo true [(.lib .unlock, 0), (.lib .run, 1), (.lib .run, 2), (.lib .run, 1),
    (.lib .run, 2), (.lib .run, 2), (.reuse, 0)] _ _ _ rfl
  have h₄ := h₃.solo false [(.lib .run, 1), (.lib .run, 2), (.use () true, 0), (.lib .unlock, 0),
    (.lib .run, 1), (.lib .run, 2), (.reuse, 0)] _ _ _ rfl
  exact ⟨_, _, by decide, by decide, weak_exclusion_fifo h₄⟩

end Weak

end Cds.McsLock
