import CdsBenchmarks.SpscQueue.SpscQueueFifo

/-! No wakeup is lost as long as `waiters` does not wrap. It is reset only by a signal, so
a consumer that wakes spuriously and goes back to sleep adds to it each time. -/

namespace Cds.SpscQueue
open Concurrent Program
open Eventcount (Word flag mask)

/-- Not about to do the `waiters += 1` that wraps to 0. -/
def Pc.counts (l : Pc) : Bool := l ≠ .event (.waitStore 0xFFFFFFFF)

def NoWrap (c : Config Thread Mem Pc) (t : Thread) (_ : Act) : Prop := (c.loc t).counts

/-- Between the store to `head->next` and the end of `signal_impl`. -/
def Pc.signalling : Pc → Bool
  | .enqMove _ | .signal _ => true
  | _ => false

/-- In `cv.wait` and not yet notified. -/
def Asleep (c : Config Thread Mem Pc) : Prop :=
  c.loc .consumer = .event .asleep ∧ c.mem.ec.asleep .consumer = true

/-- `tail->next` is not `NULL`. -/
def Nonempty (c : Config Thread Mem Pc) : Prop := c.mem.next c.mem.tail ≠ none

namespace Wakeup

/-- `prod` is the point of the producer. -/
structure World where
  mem : Mem
  hist : List (Thread × Event)
  prod : Pc

abbrev World.flagged (w : World) : Prop := 2 ^ 31 ≤ w.mem.ec.count.toNat

/-- The producer has linked a node and has not yet counted the signal for it. -/
def Owes : Pc → Prop
  | .enqMove _ | .signal .signal | .signal (.signalLock _) | .signal (.signalCas _) => True
  | _ => False

/-- The signaller has counted and will find that there is someone to notify. -/
def Notifying (waiters : Word) : Pc → Prop
  | .signal .signalRead => waiters ≠ 0
  | .signal (.signalReset n) | .signal (.signalUnlock n) => n ≠ 0
  | .signal .notifyAll => True
  | _ => False

/-- The queue is empty, or the signal for its elements is still to be counted. -/
def Pending (w : World) : Prop := w.mem.next w.mem.tail = none ∨ Owes w.prod

/-- Since `cmp` was got, at most one signal has been counted, and it cleared the flag. -/
def Armed (w : World) (cmp : Word) : Prop :=
  cmp.toNat < 2 ^ 31 ∧ (w.mem.ec.count.toNat = cmp.toNat + 2 ^ 31 ∨
    w.mem.ec.count.toNat = (cmp.toNat + 1) % 2 ^ 31)

/-- The second `try_dequeue` has found the queue empty. -/
def Waiting (w : World) (cmp : Word) : Prop := Armed w cmp ∧ (w.flagged → Pending w)

def Owned (w : World) : Prop := w.mem.ec.guard = some .consumer

/-- What keeps a sleeping consumer from missing its notification. -/
def Covered (w : World) : Prop :=
  (w.flagged ∧ w.mem.ec.waiters ≠ 0 ∧ Pending w ∧ w.prod ≠ .signal .signalRead ∧
    ∀ n, w.prod ≠ .signal (.signalReset n)) ∨ Notifying w.mem.ec.waiters w.prod

def ConsumerEvent (w : World) : Eventcount.Pc → Prop
  | .get | .relock => True
  | .waitLoad cmp | .waitLock cmp => Waiting w cmp
  | .waitRecheck cmp => Owned w ∧ Waiting w cmp
  | .waitRead | .waitStore _ => Owned w ∧ w.flagged ∧ Pending w
  | .waitCv => Owned w ∧ w.flagged ∧ Pending w ∧ w.mem.ec.waiters ≠ 0
  | .asleep => w.mem.ec.asleep .consumer = true → Covered w
  | .waitUnlock => Owned w
  | _ => False

def Consumer (w : World) : Pc → Prop
  | .deqTail (.second cmp) => Armed w cmp
  | .deqNext (.second cmp) t => Armed w cmp ∧ t = w.mem.tail
  | .event p => ConsumerEvent w p
  | .idle | .deqTail _ | .deqNext _ _ | .deqData _ _ _ | .deqDelete _ _ _ _ | .deqRet _ => True
  | _ => False

def ProducerSignal (w : World) : Eventcount.Pc → Prop
  | .signal | .notifyAll => True
  | .signalLock _ => w.flagged
  | .signalCas _ => w.mem.ec.guard = some .producer ∧ w.flagged
  | .signalRead | .signalReset _ | .signalUnlock _ => w.mem.ec.guard = some .producer
  | _ => False

def Producer (w : World) (l : Pc) : Prop :=
  w.prod = l ∧ match l with
    | .idle | .enqNew _ | .enqHead _ _ | .enqLink _ _ _ | .enqMove _ => True
    | .signal p => ProducerSignal w p
    | _ => False

def Local : Thread → World → Pc → Prop
  | .producer => Producer
  | .consumer => Consumer

structure ProducerGuar (w w' : World) : Prop where
  tail : w'.mem.tail = w.mem.tail
  count : w'.mem.ec.count = w.mem.ec.count ∨
    w.flagged ∧ w'.mem.ec.count.toNat = (w.mem.ec.count.toNat + 1) % 2 ^ 31
  owned : Owned w → Owned w' ∧ w'.mem.ec.count = w.mem.ec.count ∧ w'.mem.ec.waiters = w.mem.ec.waiters
  pending : Pending w → w'.flagged → Pending w'
  asleep : w'.mem.ec.asleep .consumer = true → w.mem.ec.asleep .consumer = true ∧
    (Covered w → Covered w')

structure ConsumerGuar (w w' : World) : Prop where
  prod : w'.prod = w.prod
  guard : w.mem.ec.guard = some .producer → w'.mem.ec.guard = some .producer
  flagged : w.flagged → w'.flagged
  waiters : w.mem.ec.waiters ≠ 0 → w'.mem.ec.waiters ≠ 0

def Guar : Thread → World → World → Prop
  | .producer => ProducerGuar
  | .consumer => ConsumerGuar

def assertions : Assertions Thread Mem Pc Event World where
  mem := World.mem
  hist := World.hist
  glob _ := True
  loc := Local
  guar := Guar

variable {w w' : World} {l₀ l : Pc}

theorem Producer.kept {l : Pc} (hl : Producer w l) (hprod : w'.prod = w.prod)
    (hguard : w.mem.ec.guard = some .producer → w'.mem.ec.guard = some .producer)
    (hflag : w.flagged → w'.flagged) : Producer w' l := by
  obtain ⟨hp, hl⟩ := hl
  refine ⟨hprod.trans hp, ?_⟩
  cases l with
  | signal p =>
    cases p with
    | signalLock cmp => exact hflag hl
    | signalCas cmp => exact ⟨hguard hl.1, hflag hl.2⟩
    | signalRead | signalReset n | signalUnlock n => exact hguard hl
    | _ => exact hl
  | _ => exact hl

theorem Producer.stable {l : Pc} (hl : Producer w l) (hg : ConsumerGuar w w') : Producer w' l :=
  hl.kept hg.prod hg.guard hg.flagged

theorem Armed.stable {cmp : Word} (h : Armed w cmp) (hg : ProducerGuar w w') : Armed w' cmp := by
  obtain ⟨hlt, h⟩ := h
  refine ⟨hlt, ?_⟩
  rcases hg.count with heq | ⟨hf, heq⟩
  · rw [heq]
    exact h
  · simp only [World.flagged] at hf
    omega

theorem Waiting.stable {cmp : Word} (h : Waiting w cmp) (hg : ProducerGuar w w') : Waiting w' cmp := by
  refine ⟨h.1.stable hg, fun hf => hg.pending (h.2 ?_) hf⟩
  rcases hg.count with heq | ⟨hf', heq⟩
  · simpa only [World.flagged, heq] using hf
  · exact hf'

theorem Consumer.stable {l : Pc} (hl : Consumer w l) (hg : ProducerGuar w w') : Consumer w' l := by
  have hsleepable : Owned w ∧ w.flagged ∧ Pending w → Owned w' ∧ w'.flagged ∧ Pending w' := by
    rintro ⟨ho, hf, hp⟩
    obtain ⟨ho', hcount, -⟩ := hg.owned ho
    have hf' : w'.flagged := by simpa only [World.flagged, hcount] using hf
    exact ⟨ho', hf', hg.pending hp hf'⟩
  cases l with
  | deqTail s =>
    cases s with
    | second cmp => exact Armed.stable hl hg
    | _ => trivial
  | deqNext s t =>
    cases s with
    | second cmp => exact ⟨hl.1.stable hg, hl.2.trans hg.tail.symm⟩
    | _ => trivial
  | event p =>
    cases p with
    | waitLoad cmp | waitLock cmp => exact Waiting.stable hl hg
    | waitRecheck cmp => exact ⟨(hg.owned hl.1).1, hl.2.stable hg⟩
    | waitRead | waitStore n => exact hsleepable hl
    | waitCv =>
      obtain ⟨ho, hf, hp, hw⟩ := hl
      obtain ⟨ho', hf', hp'⟩ := hsleepable ⟨ho, hf, hp⟩
      exact ⟨ho', hf', hp', by rwa [(hg.owned ho).2.2]⟩
    | asleep => exact fun h => (hg.asleep h).2 (hl (hg.asleep h).1)
    | waitUnlock => exact (hg.owned hl).1
    | _ => exact hl
  | _ => exact hl

/-! ## The steps of the producer -/

/-- A step that leaves the eventcount alone. -/
theorem producerGuar_quiet (hec : w'.mem.ec = w.mem.ec) (ht : w'.mem.tail = w.mem.tail)
    (hpend : Pending w → w.flagged → Pending w') (hnot : ∀ n, ¬Notifying n w.prod)
    (hprod : w'.prod ≠ .signal .signalRead ∧ ∀ n, w'.prod ≠ .signal (.signalReset n)) :
    ProducerGuar w w' where
  tail := ht
  count := .inl (by rw [hec])
  owned h := by simpa only [Owned, hec, and_self, and_true] using h
  pending hp hf := hpend hp (by simpa only [World.flagged, hec] using hf)
  asleep h := by
    refine ⟨by rwa [hec] at h, fun hc => ?_⟩
    rcases hc with ⟨hf, hw, hp, -⟩ | hc
    · exact .inl ⟨by simpa only [World.flagged, hec] using hf, by rwa [hec], hpend hp hf, hprod⟩
    · exact absurd hc (hnot _)

/-- The producer at point `l`, after a step to memory `m`. -/
def World.produced (w : World) (m : Mem) (es : List Event) (l : Pc) : World :=
  ⟨m, w.hist ++ emit .producer es, l⟩

theorem follows_produced {m : Mem} {l : Pc} {es : List Event} (hl : Producer (w.produced m es l) l)
    (hg : ProducerGuar w (w.produced m es l)) : assertions.Follows .producer w m l es :=
  ⟨_, rfl, rfl, trivial, hl, hg⟩

/-- The points of `enqueue` before `signal`. -/
theorem follows_enqueue {m : Mem} {l : Pc} {es : List Event} (hec : m.ec = w.mem.ec)
    (ht : m.tail = w.mem.tail)
    (hnext : Owes l ∨ (¬Owes w.prod ∧ (w.mem.next m.tail = none → m.next m.tail = none)))
    (hnot : ∀ n, ¬Notifying n w.prod) (hl : ∀ w' : World, w'.prod = l → Producer w' l)
    (hprod : l ≠ .signal .signalRead ∧ ∀ n, l ≠ .signal (.signalReset n)) :
    assertions.Follows .producer w m l es := by
  refine follows_produced (hl _ rfl) (producerGuar_quiet hec ht (fun hp _ => ?_) hnot hprod)
  rcases hnext with ho | ⟨ho, hn⟩
  · exact .inr ho
  · rcases hp with hp | hp
    · exact .inl (hn (ht ▸ hp))
    · exact absurd hp ho

theorem not_owned (h : w.mem.ec.guard = some .producer) : ¬Owned w := fun ho =>
  absurd (h.symm.trans ho) (by decide)

theorem follows_signal {p p' : Eventcount.Pc} (hprod : w.prod = .signal p) (hl : ProducerSignal w p)
    {b : Bool} {e : Eventcount.Mem Thread}
    (hs : Eventcount.access .producer b w.mem.ec p = some (e, p')) :
    assertions.Follows .producer w { w.mem with ec := e } (afterSignal p')
    (if p = .notifyAll then [.notified] else []) := by
  have hpend : Pending w → ¬Owes (.signal p) → w.mem.next w.mem.tail = none :=
    fun h ho => h.resolve_right (hprod ▸ ho)
  have hnote : Notifying w.mem.ec.waiters w.prod → Notifying w.mem.ec.waiters (.signal p) :=
    (hprod ▸ ·)
  cases p <;> simp only [Eventcount.access, reduceCtorEq, Eventcount.lock_eq_some, Option.some.injEq,
    Prod.mk.injEq] at hs <;> try exact hl.elim
  case signal =>
    obtain ⟨rfl, rfl⟩ := hs
    unfold Eventcount.signalImpl
    split
    · next hf =>
      have hf := (Eventcount.and_flag_ne_zero _).mp hf
      refine follows_produced ⟨rfl, hf⟩ (producerGuar_quiet rfl rfl (fun _ _ => .inr trivial) ?_
        (by simp [World.produced, afterSignal]))
      rw [hprod]
      exact fun _ => id
    · next hf =>
      have hf := mt (Eventcount.and_flag_ne_zero _).mpr hf
      refine follows_produced ⟨rfl, trivial⟩ (producerGuar_quiet rfl rfl (fun _ h => absurd h hf) ?_
        (by simp [World.produced, afterSignal]))
      rw [hprod]
      exact fun _ => id
  case signalLock cmp =>
    obtain ⟨hnone, rfl, rfl⟩ := hs
    refine follows_produced ⟨rfl, rfl, hl⟩ ⟨rfl, .inl rfl, fun h => ?_, fun _ _ => .inr trivial,
      fun h => ⟨h, ?_⟩⟩
    · exact absurd (hnone.symm.trans h) (by simp)
    · rintro (⟨hf, hw, -⟩ | hn)
      · exact .inl ⟨hf, hw, .inr trivial, by simp [World.produced, afterSignal],
          by simp [World.produced, afterSignal]⟩
      · exact (hnote hn).elim
  case signalCas cmp =>
    split at hs <;> simp only [Option.some.injEq, Prod.mk.injEq] at hs <;> obtain ⟨rfl, rfl⟩ := hs
    · next heq =>
      have heq : w.mem.ec.count = cmp := by
        simp only [Bool.and_eq_true, decide_eq_true_eq] at heq
        exact heq.1
      have hcount : ((cmp + 1) &&& mask).toNat = (w.mem.ec.count.toNat + 1) % 2 ^ 31 := by
        rw [Eventcount.toNat_and_mask, heq, BitVec.toNat_add, show (1 : Word).toNat = 1 from rfl]
        omega
      refine follows_produced ⟨rfl, hl.1⟩ ⟨rfl, .inr ⟨hl.2, hcount⟩, fun h => absurd h (not_owned hl.1),
        fun _ hf => ?_, fun h => ⟨h, ?_⟩⟩
      · have hlt : ((cmp + 1) &&& mask).toNat < 2 ^ 31 := hcount ▸ Nat.mod_lt _ (by decide)
        exact absurd hf (Nat.not_le.mpr hlt)
      · rintro (⟨-, hw, -⟩ | hn)
        · exact .inr hw
        · exact (hnote hn).elim
    · refine follows_produced ⟨rfl, hl⟩ (producerGuar_quiet rfl rfl (fun _ _ => .inr trivial) ?_
        (by simp [World.produced, afterSignal]))
      rw [hprod]
      exact fun _ => id
  case signalRead =>
    obtain ⟨rfl, rfl⟩ := hs
    refine follows_produced ⟨rfl, hl⟩ ⟨rfl, .inl rfl, fun h => absurd h (not_owned hl),
      fun h _ => .inl (hpend h id), fun h => ⟨h, ?_⟩⟩
    rintro (⟨-, -, -, hne, -⟩ | hn)
    · exact absurd hprod hne
    · exact .inr (hnote hn)
  case signalReset n =>
    obtain ⟨rfl, rfl⟩ := hs
    refine follows_produced ⟨rfl, hl⟩ ⟨rfl, .inl rfl, fun h => absurd h (not_owned hl),
      fun h _ => .inl (hpend h id), fun h => ⟨h, ?_⟩⟩
    rintro (⟨-, -, -, -, hne⟩ | hn)
    · exact absurd hprod (hne n)
    · exact .inr (hnote hn)
  case signalUnlock n =>
    obtain ⟨rfl, rfl⟩ := hs
    have hguar : ∀ l, l ≠ .signal .signalRead → (∀ k, l ≠ .signal (.signalReset k)) →
        (n ≠ 0 → l = .signal .notifyAll) → ProducerGuar w
          (w.produced { w.mem with ec := { w.mem.ec with guard := none } } [] l) := by
      refine fun l h₁ h₂ h₃ => ⟨rfl, .inl rfl, fun h => absurd h (not_owned hl),
        fun h _ => .inl (hpend h id), fun h => ⟨h, ?_⟩⟩
      rintro (⟨hf, hw, hp, -⟩ | hn)
      · exact .inl ⟨hf, hw, .inl (hpend hp id), h₁, h₂⟩
      · exact .inr (by rw [World.produced, h₃ (hnote hn)]; trivial)
    by_cases hn : n = 0
    · rw [if_neg (not_not.mpr hn)]
      exact follows_produced ⟨rfl, trivial⟩
        (hguar _ (by simp [afterSignal]) (by simp [afterSignal]) (absurd hn))
    · rw [if_pos hn]
      exact follows_produced ⟨rfl, trivial⟩
        (hguar _ (by simp [afterSignal]) (by simp [afterSignal]) fun _ => rfl)
  case notifyAll =>
    obtain ⟨rfl, rfl⟩ := hs
    exact follows_produced ⟨rfl, trivial⟩ ⟨rfl, .inl rfl, fun h => ⟨h, rfl, rfl⟩,
      fun h _ => .inl (hpend h id), fun h => absurd h (by simp [World.produced])⟩

theorem follows_producer (hl : Producer w l₀) {b : Bool} {m : Mem} {es : List Event}
    (hs : access .producer b w.mem l₀ = some (m, l, es)) : assertions.Follows .producer w m l es := by
  obtain ⟨hprod, hl⟩ := hl
  cases l₀ <;> simp only [access, reduceCtorEq] at hs <;> try exact hl.elim
  case enqNew data =>
    cases hs
    refine follows_enqueue rfl rfl (.inr ⟨by rw [hprod]; exact id, fun h => ?_⟩)
      (by rw [hprod]; exact fun _ => id)
      (fun w' h => ⟨h, trivial⟩) (by simp)
    by_cases hf : w.mem.tail = w.mem.fresh
    · simp [hf]
    · simpa [hf] using h
  case enqHead data n =>
    cases hs
    exact follows_enqueue rfl rfl (.inr ⟨by rw [hprod]; exact id, id⟩)
      (by rw [hprod]; exact fun _ => id)
      (fun w' h => ⟨h, trivial⟩) (by simp)
  case enqLink data n h =>
    cases hs
    exact follows_enqueue rfl rfl (.inl trivial) (by rw [hprod]; exact fun _ => id)
      (fun w' h => ⟨h, trivial⟩) (by simp)
  case enqMove n =>
    cases hs
    exact follows_enqueue rfl rfl (.inl trivial) (by rw [hprod]; exact fun _ => id)
      (fun w' h => ⟨h, trivial⟩) (by simp)
  case signal p =>
    obtain ⟨r, hr, heq⟩ := Option.map_eq_some_iff.mp hs
    cases heq
    exact follows_signal hprod hl hr

/-! ## The steps of the consumer -/

/-- The consumer, after a step to memory `m`. -/
def World.consumed (w : World) (m : Mem) (es : List Event) : World :=
  ⟨m, w.hist ++ emit .consumer es, w.prod⟩

theorem follows_consumed {m : Mem} {l : Pc} {es : List Event} (hl : Consumer (w.consumed m es) l)
    (hguard : w.mem.ec.guard = some .producer → m.ec.guard = some .producer)
    (hflag : w.flagged → 2 ^ 31 ≤ m.ec.count.toNat)
    (hwaiters : w.mem.ec.waiters ≠ 0 → m.ec.waiters ≠ 0) : assertions.Follows .consumer w m l es :=
  ⟨_, rfl, rfl, trivial, hl, ⟨rfl, hguard, hflag, hwaiters⟩⟩

/-- The recheck under the mutex succeeds only if the flag is still set. -/
theorem Armed.flagged {cmp : Word} (h : Armed w cmp) (heq : cmp = w.mem.ec.count &&& mask) :
    w.flagged := by
  have hmod := congrArg BitVec.toNat heq
  rw [Eventcount.toNat_and_mask] at hmod
  obtain ⟨hlt, h | h⟩ := h
  · simp only [World.flagged]
    omega
  · omega

theorem consumer_resume {s : Site} {data : CInt} (h : data ≠ 0) : Consumer w (s.resume data) := by
  rw [s.resume_of_ne_zero h]
  trivial

theorem follows_event {p p' : Eventcount.Pc} (hl : ConsumerEvent w p) (hprod : ∃ l, Producer w l)
    (hwrap : p ≠ .waitStore 0xFFFFFFFF) {b : Bool} {e : Eventcount.Mem Thread}
    (hs : Eventcount.access .consumer b w.mem.ec p = some (e, p')) :
    assertions.Follows .consumer w { w.mem with ec := e } (afterEvent p') [] := by
  have hfree : ∀ {g}, w.mem.ec.guard = g → g ≠ some .producer →
      (w.mem.ec.guard = some .producer → e.guard = some .producer) := by
    rintro g rfl hne h
    exact absurd h hne
  cases p <;> simp only [Eventcount.access, reduceCtorEq, Eventcount.lock_eq_some, Option.some.injEq,
    Prod.mk.injEq] at hs <;> try exact hl.elim
  case get =>
    obtain ⟨rfl, rfl⟩ := hs
    have hor := Eventcount.toNat_or_flag w.mem.ec.count
    have hand := Eventcount.toNat_and_mask w.mem.ec.count
    refine follows_consumed ⟨?_, .inl ?_⟩ id (fun _ => ?_) id
    · omega
    · exact hor.trans (by rw [hand])
    · simp only [hor]
      omega
  case waitLoad cmp =>
    split at hs <;> simp only [Option.some.injEq, Prod.mk.injEq] at hs <;> obtain ⟨rfl, rfl⟩ := hs
    · exact follows_consumed hl id id id
    · exact follows_consumed trivial id id id
  case waitLock cmp =>
    obtain ⟨hnone, rfl, rfl⟩ := hs
    exact follows_consumed ⟨rfl, hl⟩ (hfree hnone (by simp)) id id
  case waitRecheck cmp =>
    split at hs <;> simp only [Option.some.injEq, Prod.mk.injEq] at hs <;> obtain ⟨rfl, rfl⟩ := hs
    · next heq =>
      have hf := hl.2.1.flagged heq
      exact follows_consumed ⟨hl.1, hf, hl.2.2 hf⟩ id id id
    · exact follows_consumed hl.1 id id id
  case waitRead =>
    obtain ⟨rfl, rfl⟩ := hs
    exact follows_consumed hl id id id
  case waitStore n =>
    obtain ⟨rfl, rfl⟩ := hs
    have hne : n + 1 ≠ 0 := Eventcount.add_one_ne_zero fun h => hwrap (h ▸ rfl)
    exact follows_consumed ⟨hl.1, hl.2.1, hl.2.2, hne⟩ id id fun _ => hne
  case waitCv =>
    obtain ⟨rfl, rfl⟩ := hs
    obtain ⟨ho, hf, hp, hw⟩ := hl
    refine follows_consumed (fun _ => .inl ⟨hf, hw, hp, ?_⟩) (hfree ho (by simp)) id id
    obtain ⟨l, heq, hprod⟩ := hprod
    -- the consumer owns the mutex, so the producer is not inside it
    constructor
    · rintro h
      obtain rfl := heq.symm.trans h
      exact not_owned hprod ho
    · rintro n h
      obtain rfl := heq.symm.trans h
      exact not_owned hprod ho
  case asleep =>
    split at hs <;> simp only [reduceCtorEq, Option.some.injEq, Prod.mk.injEq] at hs
    obtain ⟨rfl, rfl⟩ := hs
    exact follows_consumed trivial id id id
  case relock =>
    obtain ⟨hnone, rfl, rfl⟩ := hs
    exact follows_consumed rfl (hfree hnone (by simp)) id id
  case waitUnlock =>
    obtain ⟨rfl, rfl⟩ := hs
    exact follows_consumed trivial (hfree hl (by simp)) id id

theorem follows_consumer (hl : Consumer w l₀) (hprod : ∃ l, Producer w l)
    (hwrap : l₀ ≠ .event (.waitStore 0xFFFFFFFF))
    (hnz : ∀ s t n data, l₀ = .deqDelete s t n data → data ≠ 0) {b : Bool} {m : Mem} {es : List Event}
    (hs : access .consumer b w.mem l₀ = some (m, l, es)) : assertions.Follows .consumer w m l es := by
  cases l₀ <;> simp only [access, reduceCtorEq] at hs <;> try exact hl.elim
  case deqTail s =>
    cases hs
    refine follows_consumed ?_ id id id
    cases s with
    | second cmp => exact ⟨hl, rfl⟩
    | _ => trivial
  case deqNext s t =>
    split at hs <;> cases hs
    · next hn =>
      refine follows_consumed ?_ id id id
      cases s with
      | second cmp => exact ⟨hl.1, fun _ => .inl (hl.2 ▸ hn)⟩
      | _ => trivial
    · exact follows_consumed trivial id id id
  case deqData s t n =>
    cases hs
    exact follows_consumed trivial id id id
  case deqDelete s t n data =>
    cases hs
    exact follows_consumed (consumer_resume (hnz s t n data rfl)) id id id
  case event p =>
    obtain ⟨r, hr, heq⟩ := Option.map_eq_some_iff.mp hs
    cases heq
    exact follows_event hl hprod (fun h => hwrap (h ▸ rfl)) hr
  case deqRet data =>
    cases hs
    exact follows_consumed trivial id id id

/-- The consumer deletes only nodes whose successor holds a nonzero value. -/
def Nonzero (c : Config Thread Mem Pc) : Prop :=
  ∀ s t n data, c.loc .consumer = .deqDelete s t n data → data ≠ 0

theorem follows_step {ls : Thread → Pc} (hl : ∀ u, Local u w (ls u)) {t : Thread} {a : Act} {m : Mem}
    {es : List Event} (hs : step t a w.mem (ls t) = some (m, l, es))
    (hG : NoWrap ⟨w.mem, ls⟩ t a ∧ Nonzero ⟨w.mem, ls⟩) : assertions.Follows t w m l es := by
  have hlt := hl t
  cases a with
  | enqueue data =>
    obtain ⟨⟨rfl, hpc⟩, rfl, rfl, rfl⟩ : (t = .producer ∧ ls t = .idle) ∧ w.mem = m ∧
        Pc.enqNew data = l ∧
        [Event.enqueue data] = es := by simpa [step] using hs
    have hprod : w.prod = .idle := hlt.1.trans hpc
    exact follows_enqueue rfl rfl (.inr ⟨by rw [hprod]; exact id, id⟩)
      (by rw [hprod]; exact fun _ => id)
      (fun w' h => ⟨h, trivial⟩) (by simp)
  | dequeue =>
    obtain ⟨⟨rfl, hpc⟩, rfl, rfl, rfl⟩ : (t = .consumer ∧ ls t = .idle) ∧ w.mem = m ∧
        Pc.deqTail .first = l ∧ [Event.dequeue] = es := by simpa [step] using hs
    exact follows_consumed trivial id id id
  | run | spurious =>
    cases t with
    | producer => exact follows_producer hlt hs
    | consumer =>
      exact follows_consumer hlt ⟨_, hl .producer⟩ (by simpa [NoWrap, Pc.counts] using hG.1)
        (fun s t n data h => hG.2 s t n data h) hs

def outline : Outline program (fun c t a => NoWrap c t a ∧ Nonzero c) (fun _ => True) World where
  toAssertions := assertions
  step _ hl hs hG _ := follows_step hl hs hG
  stable {t u w w' l} hu _ _ hl hguar := by
    cases t <;> cases u <;> try exact absurd rfl hu
    · exact hl.stable hguar
    · exact hl.stable hguar

theorem holds_start : outline.Holds ⟨spscQueue, [], .idle⟩ [] start where
  mem := rfl
  hist := rfl
  glob := trivial
  loc t := by
    cases t
    · exact ⟨rfl, trivial⟩
    · trivial

/-! ## The notification still to come -/

/-- The producer will notify: it has not yet counted its signal and will find the flag and
a waiter, or it has counted and found one. -/
def Coming (w : World) : Prop :=
  (Owes w.prod ∧ w.flagged ∧ w.mem.ec.waiters ≠ 0) ∨ Notifying w.mem.ec.waiters w.prod

theorem Coming.signalling (h : Coming w) : w.prod.signalling := by
  rcases h with ⟨h, -⟩ | h
  all_goals
    cases hp : w.prod <;> rw [hp] at h <;> first | rfl | exact h.elim

theorem Covered.coming (h : Covered w) (hne : w.mem.next w.mem.tail ≠ none) : Coming w := by
  rcases h with ⟨hf, hw, hp, -⟩ | h
  · exact .inl ⟨hp.resolve_left hne, hf, hw⟩
  · exact .inr h

theorem Coming.consumer (h : Coming w) (hg : ConsumerGuar w w') : Coming w' := by
  rcases h with ⟨ho, hf, hw⟩ | h
  · exact .inl ⟨hg.prod ▸ ho, hg.flagged hf, hg.waiters hw⟩
  · refine .inr (hg.prod ▸ ?_)
    cases hp : w.prod <;> rw [hp] at h <;> try exact h.elim
    case signal p =>
      cases p with
      | signalRead => exact hg.waiters h
      | _ => exact h

theorem Coming.producer (h : Coming w) {b : Bool} {m : Mem} {es : List Event}
    (hs : access .producer b w.mem w.prod = some (m, l, es)) :
    Coming (w.produced m es l) ∨ .notified ∈ es := by
  cases hp : w.prod <;> rw [Coming, hp] at h <;> rw [hp] at hs <;>
    try exact (h.elim (fun h => h.1.elim) (fun h => h.elim))
  case enqMove n =>
    cases hs
    exact .inl (.inl ⟨trivial, h.resolve_right id |>.2⟩)
  case signal p =>
    obtain ⟨⟨e, p'⟩, hs', heq⟩ := Option.map_eq_some_iff.mp hs
    cases heq
    cases p <;> try exact (h.elim (fun h => h.1.elim) (fun h => h.elim))
    case notifyAll => exact .inr (by simp)
    all_goals
      refine .inl ?_
      simp only [Eventcount.access, Eventcount.lock_eq_some, Option.some.injEq, Prod.mk.injEq] at hs'
    case signal =>
      obtain ⟨rfl, rfl⟩ := hs'
      have h := (h.resolve_right id).2
      rw [Eventcount.signalImpl, if_pos ((Eventcount.and_flag_ne_zero _).mpr h.1)]
      exact .inl ⟨trivial, h⟩
    case signalLock cmp =>
      obtain ⟨-, rfl, rfl⟩ := hs'
      exact .inl ⟨trivial, (h.resolve_right id).2⟩
    -- a compare-exchange that fails reads the count again with its flag still set
    case signalCas cmp =>
      have h := (h.resolve_right id).2
      split at hs' <;> simp only [Option.some.injEq, Prod.mk.injEq] at hs' <;> obtain ⟨rfl, rfl⟩ := hs'
      · exact .inr h.2
      · exact .inl ⟨trivial, h⟩
    case signalRead | signalReset n =>
      obtain ⟨rfl, rfl⟩ := hs'
      exact .inr (h.resolve_left fun h => h.1)
    case signalUnlock n =>
      obtain ⟨rfl, rfl⟩ := hs'
      have hn : n ≠ 0 := h.resolve_left fun h => h.1
      rw [if_pos hn]
      exact .inr trivial

theorem Coming.step (h : Coming w) {a : Act} {m : Mem} {es : List Event}
    (hs : step .producer a w.mem w.prod = some (m, l, es)) :
    Coming (w.produced m es l) ∨ .notified ∈ es := by
  have hidle : w.prod ≠ .idle := by
    intro hp
    exact absurd h.signalling (by simp [hp, Pc.signalling])
  cases a with
  | enqueue data | dequeue => simp [SpscQueue.step, hidle] at hs
  | run | spurious => exact h.producer hs

end Wakeup

/-- The producer is inside `enqueue` after its store to `head->next`, and stays there in
every continuation without its `notify_all`. -/
def NotifyToCome (tr : List (Thread × Event)) (c : Config Thread Mem Pc) : Prop :=
  (c.loc .producer).signalling ∧ ∀ tr' c', program.Run NoWrap c tr' c' → NonzeroValues (tr ++ tr') →
    (.producer, .notified) ∉ tr' → (c'.loc .producer).signalling

section Runs
variable {tr tr' : List (Thread × Event)} {c c' : Config Thread Mem Pc}

theorem run_nonzero (h : program.Run NoWrap start tr c) (hnz : NonzeroValues tr) : Wakeup.Nonzero c :=
  fun _ _ _ _ => unlinked_ne_zero (h.mono fun _ _ _ _ => trivial) hnz

theorem covered_of_run (h : program.Run NoWrap start tr c) (hnz : NonzeroValues tr) :
    ∃ w, Wakeup.outline.Holds w tr c := by
  refine Wakeup.outline.sound (fun _ => trivial) Wakeup.holds_start (h.assume fun h' hp => ?_) trivial
  obtain ⟨x, rfl⟩ := hp
  exact run_nonzero h' hnz.of_append

/-- A notification still to come is still to come after any steps that do not notify. -/
theorem coming_of_run {w : Wakeup.World} (h : program.Run NoWrap start tr c)
    (hw : Wakeup.outline.Holds w tr c) (hc : Wakeup.Coming w) (h' : program.Run NoWrap c tr' c')
    (hnz : NonzeroValues (tr ++ tr')) : ∃ w', Wakeup.outline.Holds w' (tr ++ tr') c' ∧
      (Wakeup.Coming w' ∨ (.producer, .notified) ∈ tr') := by
  have hrun := h'.assume (I := Wakeup.Nonzero) fun {tr₁ _} h₁ hp => by
    obtain ⟨x, rfl⟩ := hp
    exact run_nonzero (h.trans h₁)
      (List.append_assoc .. ▸ hnz : NonzeroValues ((tr ++ tr₁) ++ x)).of_append
  refine hrun.invariant (I := fun tr' c' => ∃ w', Wakeup.outline.Holds w' (tr ++ tr') c' ∧
    (Wakeup.Coming w' ∨ (.producer, .notified) ∈ tr')) ⟨w, by simpa using hw, .inl hc⟩ ?_
  rintro tr₁ c₁ t a m l es ⟨w₁, hw₁, hc₁⟩ hs hG
  obtain ⟨w₂, hw₂, hguar⟩ := hw₁.next hs hG trivial
  refine ⟨w₂, List.append_assoc .. ▸ hw₂, ?_⟩
  rcases hc₁ with hc₁ | hc₁
  · cases t with
    | consumer => exact .inl (hc₁.consumer hguar)
    | producer =>
      have hprod : w₁.prod = c₁.loc .producer := (hw₁.loc .producer).1
      have hmem : w₁.mem = c₁.mem := hw₁.mem
      have hprod' : w₂.prod = l := (hw₂.loc .producer).1.trans (move_loc_self ..)
      have hmem' : w₂.mem = m := hw₂.mem
      rw [← hprod, ← hmem] at hs
      rcases hc₁.step hs with h | h
      · exact .inl (by simpa only [Wakeup.Coming, Wakeup.World.produced, Wakeup.World.flagged, hprod',
          hmem'] using h)
      · exact .inr (by simp [emit, h])
  · exact .inr (List.mem_append_left _ hc₁)

end Runs

/-- **No wakeup is lost** in a run where `waiters` never wraps: while the consumer sleeps
and the queue is not empty, the producer is still to notify. -/
theorem no_lost_wakeup {tr : List (Thread × Event)} {c : Config Thread Mem Pc}
    (h : program.Run NoWrap start tr c) (hnz : NonzeroValues tr) :
    (Asleep c → Nonempty c → NotifyToCome tr c) ∧
      ¬(c.loc .producer = .idle ∧ Nonempty c ∧ Asleep c) := by
  obtain ⟨w, hw⟩ := covered_of_run h hnz
  have hmem : w.mem = c.mem := hw.mem
  have hcoming : Asleep c → Nonempty c → NotifyToCome tr c := by
    rintro ⟨hpc, hsleep⟩ hne
    have hl : Wakeup.Consumer w (c.loc .consumer) := hw.loc .consumer
    rw [hpc] at hl
    have hc : Wakeup.Coming w := (hl (hmem ▸ hsleep)).coming (hmem ▸ hne)
    have hloc : ∀ {w' tr' c'}, Wakeup.outline.Holds w' tr' c' → w'.prod = c'.loc .producer :=
      fun hw' => (hw'.loc .producer).1
    refine ⟨hloc hw ▸ hc.signalling, fun tr' c' h' hnz' hno => ?_⟩
    obtain ⟨w', hw', hc'⟩ := coming_of_run h hw hc h' hnz'
    exact hloc hw' ▸ (hc'.resolve_right hno).signalling
  refine ⟨hcoming, fun ⟨hidle, hne, hsleep⟩ => ?_⟩
  have := (hcoming hsleep hne).1
  simp [hidle, Pc.signalling] at this

/-- The consumer asleep in an empty queue, with `x` waiters counted. -/
def sleeping (x : Word) : Config Thread Mem Pc where
  mem := { spscQueue with ec := ⟨flag, x, none, Function.update (fun _ => false) .consumer true⟩ }
  loc := Function.update (fun _ => .idle) .consumer (.event .asleep)

theorem run_sleeping : program.Run NoWrap start [(.consumer, .dequeue)] (sleeping 1) := by
  have h₀ : program.Run NoWrap start [] start := .start
  exact h₀.soloAt (fun _ l _ => l.counts) (fun _ _ _ h => h) .consumer
    [.dequeue, .run, .run, .run, .run, .run, .run, .run, .run,
    .run, .run, .run] (sleeping 1).mem (.event .asleep) [.dequeue] rfl

/-- The theorem where the consumer has gone to sleep just before the store to `head->next`. -/
theorem no_lost_wakeup_linked :
    ∃ tr c, NonzeroValues tr ∧ Asleep c ∧ Nonempty c ∧ NotifyToCome tr c := by
  have h := run_sleeping.soloAt (fun _ l _ => l.counts) (fun _ _ _ h => h) .producer
    [.enqueue 7, .run, .run, .run] _ _ _ rfl
  have hnz : NonzeroValues [(.consumer, .dequeue), (.producer, .enqueue 7),
    (.producer, .linked 7)] := by
    intro t data h
    simp at h
    simp [h]
  refine ⟨_, _, hnz, ⟨rfl, rfl⟩, ?_, (no_lost_wakeup h hnz).1 ⟨rfl, rfl⟩ ?_⟩ <;>
    exact Option.some_ne_none 1

/-! ## Past the wrap -/

/-- The consumer wakes spuriously and goes back to sleep. -/
theorem run_spurious {tr : List (Thread × Event)} {x : Word}
    (h : program.Run anyStep start tr (sleeping x)) :
    program.Run anyStep start tr (sleeping (x + 1)) := by
  have hmask : flag &&& mask = (flag ||| flag) &&& mask := by decide
  have hor : flag ||| flag = flag := by decide
  have h₁ := h.solo .consumer [.spurious, .run, .run, .run, .run, .run, .run, .run] _ _ _ rfl
  have h₂ := h₁.solo .consumer [.run] _ _ _ (solo_step (step_event (Eventcount.access_waitLoad hmask)))
  have h₃ := h₂.solo .consumer [.run] _ _ _ rfl
  have h₄ := h₃.solo .consumer [.run] _ _ _ (solo_step (step_event (Eventcount.access_waitRecheck hmask)))
  have h₅ := h₄.solo .consumer [.run, .run, .run] _ _ _ rfl
  have hpc : afterEvent .asleep = .event .asleep := rfl
  simpa [sleeping, move, hor, hpc] using h₅

/-- After `2^32 - 1` spurious wakeups the producer finds no waiter, and lets the consumer sleep. -/
theorem lost_wakeup_past_wrap : ∃ tr c, program.Run anyStep start tr c ∧ NonzeroValues tr ∧
    Asleep c ∧ Nonempty c ∧ c.loc .producer = .idle := by
  have h := Eventcount.reaches_zero
    (P := fun x => program.Run anyStep start [(.consumer, .dequeue)] (sleeping x))
    (run_sleeping.mono fun _ _ _ _ => trivial) fun _ => run_spurious
  have h₁ := h.solo .producer [.enqueue 7, .run, .run, .run, .run, .run, .run, .run, .run, .run,
    .run] _ _ _ rfl
  refine ⟨_, _, h₁, fun t data hmem => ?_, ⟨rfl, rfl⟩, Option.some_ne_none 1, rfl⟩
  simp [emit] at hmem
  simp [hmem]

end Cds.SpscQueue
