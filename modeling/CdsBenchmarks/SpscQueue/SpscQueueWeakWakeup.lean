import CdsBenchmarks.SpscQueue.SpscQueueWakeup
import CdsBenchmarks.SpscQueue.SpscQueueWeakFifo

/-! No wakeup is lost under weak memory either, as long as `waiters` does not wrap. The memory
of the last writes changes like that of the interleaving model, up to stale reads. By the
`fetch_add` of `signal` a later `get` finds the store to `head->next`, so that the second
`try_dequeue` is stale only if the producer is still to find the flag. And in the mutex the
consumer finds the last count. -/

namespace Cds.SpscQueue.Weak
open Concurrent Program
open Eventcount (Word flag mask signalImpl)
open SpscQueue.Wakeup (Owes Owned Coming)

namespace Signal

/-- The memory of the interleaving model with the given values of the atomic objects. -/
def flat (p : Plain) (next : ℕ → Option ℕ) (deleted : ℕ → Bool) (count : Word)
    (guard : Option Thread) : Mem :=
  ⟨next, p.data, deleted, p.fresh, p.head, p.tail, ⟨count, p.waiters, guard, p.asleep⟩⟩

/-- `next`, `count` and `guard` are the last values, `prod` is the point of the producer, and
`got` the time of the last `get`. -/
structure World where
  mem : WeakMem
  hist : List (Thread × WeakEvent)
  next : ℕ → Option ℕ
  deleted : ℕ → Bool
  count : Word
  guard : Option Thread
  prod : Pc
  got : ℕ

def World.sc (w : World) : Wakeup.World :=
  ⟨flat w.mem.plain w.next w.deleted w.count w.guard, [], w.prod⟩

structure Lasts (m : Messages Cell Thread Cell.Val) (next : ℕ → Option ℕ) (count : Word)
    (guard : Option Thread) : Prop where
  next : ∀ n, ∃ k a, m.Last (.next n) k a ∧ a.val = next n
  count : m.Ends .count fun a => a.val = count
  guard : m.Ends .guard fun a => a.val = guard

/-- From time `n` on, `count` has its last value. -/
def Steady (w : World) (n : ℕ) : Prop :=
  ∀ k a, n ≤ k → w.mem.msg .count k = some a → a.val = w.count

/-- Whoever has view `v` knows all changes of `count` but those of `get`. -/
def Kept (w : World) (v : View Cell Thread) : Prop :=
  ∀ n, v.time .count ≤ n → w.got ≤ n → Steady w n

/-- The node of the producer that is not yet linked. -/
def hand : Pc → Option ℕ
  | .enqHead _ n | .enqLink _ n _ => some n
  | _ => none

/-- Between the store to `head->next` and the `fetch_add`. -/
def unsent : Pc → Bool
  | .enqMove _ | .signal .signal => true
  | _ => false

/-- In the second `try_dequeue`, before it has looked at the queue. -/
def second : Pc → Bool
  | .deqTail (.second _) | .deqNext (.second _) _ => true
  | _ => false

structure Glob (w : World) : Prop where
  lasts : Lasts w.mem.msg w.next w.count w.guard
  guard : w.mem.msg.Ends .guard fun a => a.val = none → Kept w a.view
  sent : unsent w.prod ∨ w.mem.msg.Ends .count fun a =>
    ∀ n, hand w.prod ≠ some n → w.mem.msg.Covers a.view (.next n)

/-- If the flag is set, the producer is still to find it, or whoever has view `v` finds the
node after `tail`. -/
def Fresh (w : World) (v : View Cell Thread) : Prop :=
  w.sc.flagged → Owes w.prod ∨ w.mem.msg.Covers v (.next w.mem.plain.tail)

structure Producer (w : World) (x : WeakPc) : Prop where
  sc : Wakeup.Producer w.sc x.2
  covers : ∀ n, w.mem.msg.Covers x.1.cur (.next n)
  kept : x.2.owns → Kept w x.1.cur

structure Consumer (w : World) (x : WeakPc) : Prop where
  sc : Wakeup.Consumer w.sc x.2
  got : w.got ≤ x.1.cur.time .count
  steady : x.2.owns → Steady w (x.1.cur.time .count)
  fresh : second x.2 → Fresh w x.1.cur

def Local : Thread → World → WeakPc → Prop
  | .producer => Producer
  | .consumer => Consumer

structure ProducerGuar (w w' : World) : Prop where
  sc : Wakeup.ProducerGuar w.sc w'.sc
  got : w'.got = w.got
  steady : Owned w.sc → ∀ n, Steady w n → Steady w' n
  fresh : ∀ v, Fresh w v → Fresh w' v
  coming : Coming w.sc → Coming w'.sc ∨
    ∃ es, w'.hist = w.hist ++ emit .producer es ∧ .inl .notified ∈ es

structure ConsumerGuar (w w' : World) : Prop where
  sc : Wakeup.ConsumerGuar w.sc w'.sc
  next : ∀ n, w'.mem.msg (.next n) = w.mem.msg (.next n)
  kept : ∀ v, Kept w v → Kept w' v

def Guar : Thread → World → World → Prop
  | .producer => ProducerGuar
  | .consumer => ConsumerGuar

def assertions : Assertions Thread WeakMem WeakPc WeakEvent World where
  mem := World.mem
  hist := World.hist
  glob := Glob
  loc := Local
  guar := Guar

variable {w w' : World} {v v' : View Cell Thread} {x y : WeakPc}

theorem Kept.mono (h : Kept w v) (hv : v ≤ v') : Kept w v' := fun n hn => h n ((hv.1 _).trans hn)

theorem Steady.mono {n k : ℕ} (h : Steady w n) (hk : n ≤ k) : Steady w k :=
  fun i a hi => h i a (hk.trans hi)

theorem Steady.congr {n : ℕ} (h : Steady w n) (hm : w'.mem.msg .count = w.mem.msg .count)
    (hc : w'.count = w.count) : Steady w' n :=
  fun k a hk ha => (h k a hk (hm ▸ ha)).trans hc.symm

theorem Kept.congr (h : Kept w v) (hm : w'.mem.msg .count = w.mem.msg .count)
    (hc : w'.count = w.count) (hg : w'.got = w.got) : Kept w' v :=
  fun n hn hgn => (h n hn (hg ▸ hgn)).congr hm hc

theorem Fresh.mono (h : Fresh w v) (hv : v ≤ v') : Fresh w v' :=
  fun hf => (h hf).imp_right fun h => h.mono hv

theorem Producer.stable (hl : Producer w x) (hg : ConsumerGuar w w') : Producer w' x :=
  ⟨hl.sc.stable hg.sc, fun n => (hl.covers n).congr (hg.next n), fun ho => hg.kept _ (hl.kept ho)⟩

theorem Glob.covers {l : Pc} (hg : Glob w) (hp : w.sc.prod = l) (hl : unsent l = false) :
    w.mem.msg.Ends .count fun a => ∀ n, hand l ≠ some n → w.mem.msg.Covers a.view (.next n) := by
  subst hp
  exact hg.sent.resolve_left (by rw [show w.prod = w.sc.prod from rfl, hl]; exact Bool.false_ne_true)

theorem owned_of_owns {l : Pc} {w : Wakeup.World} (hl : Wakeup.Consumer w l) (ho : l.owns) :
    Owned w := by
  cases l with
  | event p =>
    cases p <;>
      first | exact hl | exact hl.1 | exact hl.elim | exact absurd ho Bool.false_ne_true
  | signal p => exact hl.elim
  | _ => exact absurd ho Bool.false_ne_true

theorem Consumer.stable (hl : Consumer w x) (hg : ProducerGuar w w') : Consumer w' x :=
  ⟨hl.sc.stable hg.sc, hg.got ▸ hl.got, fun ho => hg.steady (owned_of_owns hl.sc ho) _ (hl.steady ho),
    fun hs => hg.fresh _ (hl.fresh hs)⟩

namespace Lasts
variable {m : Messages Cell Thread Cell.Val} {next : ℕ → Option ℕ} {count : Word}
  {guard : Option Thread}
  {k : ℕ}

theorem put_next (h : Lasts m next count guard) {n : ℕ} {c : Message Cell Thread (Option ℕ)}
    (hc : m.Covers v (.next n)) (hk : v.time (.next n) < k) :
    Lasts (m.put (.next n) k c) (Function.update next n c.val) count guard := by
  refine ⟨fun i => ?_, h.count.congr (Messages.put_of_ne (by simp)) fun _ h => h,
    h.guard.congr (Messages.put_of_ne (by simp)) fun _ h => h⟩
  by_cases hi : i = n
  · subst hi
    exact ⟨k, c, hc.last_put hk, by simp⟩
  · obtain ⟨j, a, hl, ha⟩ := h.next i
    refine ⟨j, a, hl.congr (Messages.put_of_ne (by simpa using hi)), ?_⟩
    rw [Function.update_of_ne hi]
    exact ha

theorem put_count (h : Lasts m next count guard) {a c : Message Cell Thread Word}
    (ha : m .count k = some a)
    (hn : m .count (k + 1) = none) : Lasts (m.put .count (k + 1) c) next c.val guard := by
  refine ⟨fun i => ?_, h.count.put ha hn rfl, h.guard.congr (Messages.put_of_ne (by simp)) fun _ h => h⟩
  obtain ⟨j, a, hl, ha⟩ := h.next i
  exact ⟨j, a, hl.congr (Messages.put_of_ne (by simp)), ha⟩

theorem put_guard (h : Lasts m next count guard) {a c : Message Cell Thread (Option Thread)}
    (ha : m .guard k = some a) (hn : m .guard (k + 1) = none) :
    Lasts (m.put .guard (k + 1) c) next count c.val := by
  refine ⟨fun i => ?_, h.count.congr (Messages.put_of_ne (by simp)) fun _ h => h, h.guard.put ha hn rfl⟩
  obtain ⟨j, a, hl, ha⟩ := h.next i
  exact ⟨j, a, hl.congr (Messages.put_of_ne (by simp)), ha⟩

end Lasts

/-! ## The producer -/

section Producer
variable {m : Messages Cell Thread Cell.Val} {r : Outcome Plain Pc Event Place} {next : ℕ → Option ℕ}
  {count : Word} {guard : Option Thread} {b : Bool} {k : ℕ}

/-- The world after a step of the producer. -/
def World.produced (w : World) (m : Messages Cell Thread Cell.Val) (r : Outcome Plain Pc Event Place)
    (v : View Cell Thread) (next : ℕ → Option ℕ) (count : Word) (guard : Option Thread) : World :=
  ⟨⟨m, r.plain⟩, w.hist ++ emit .producer (r.trace v), next, w.deleted, count, guard, r.loc, w.got⟩

theorem produced_of_follows {m s : Mem} {p l : Pc} {es : List Event}
    (h : Wakeup.assertions.Follows .producer ⟨m, [], p⟩ s l es) :
    Wakeup.Producer ⟨s, [], l⟩ l ∧ Wakeup.ProducerGuar ⟨m, [], p⟩ ⟨s, [], l⟩ := by
  obtain ⟨⟨m', h, p'⟩, hm, -, -, hl, hg⟩ := h
  have hp : p' = l := hl.1
  have hm : m' = s := hm
  subst hp hm
  exact ⟨hl, hg.tail, hg.count, hg.owned, hg.pending, hg.asleep⟩

theorem follows_producer (hy : y.2 = r.loc)
    (hs : Wakeup.assertions.Follows .producer w.sc (flat r.plain next w.deleted count guard) r.loc
    r.events)
    (hglob : Glob (w.produced m r y.1.cur next count guard)) (hcov : ∀ n, m.Covers y.1.cur (.next n))
    (hkept : r.loc.owns → Kept (w.produced m r y.1.cur next count guard) y.1.cur)
    (hsteady : Owned w.sc → ∀ n, Steady w n → Steady (w.produced m r y.1.cur next count guard) n)
    (hfresh : ∀ v, Fresh w v → Fresh (w.produced m r y.1.cur next count guard) v)
    (hcoming : Coming w.sc → Coming (w.produced m r y.1.cur next count guard).sc ∨ .notified ∈
    r.events) :
    assertions.Follows .producer w ⟨m, r.plain⟩ y (r.trace y.1.cur) := by
  obtain ⟨hl, hg⟩ := produced_of_follows hs
  refine ⟨w.produced m r y.1.cur next count guard, rfl, rfl, hglob, ⟨hy ▸ hl, hcov, hy ▸ hkept⟩, hg,
    rfl, hsteady, hfresh, fun hc => (hcoming hc).imp_right fun hn => ⟨_, rfl, ?_⟩⟩
  exact List.mem_append_left _ (List.mem_map.mpr ⟨_, hn, rfl⟩)

/-- The flag stays as it is. -/
theorem Fresh.produced (hf : Fresh w v) (hprod : w.prod = x.2) (howes : Owes x.2 → Owes r.loc)
    (ht : r.plain.tail = w.mem.plain.tail)
    (hm : Owes r.loc ∨ m (.next w.mem.plain.tail) = w.mem.msg (.next w.mem.plain.tail)) :
    Fresh (w.produced m r y.1.cur next w.count guard) v := by
  intro h
  rcases hm with hm | hm
  · exact .inl hm
  refine (hf h).imp (fun h => howes (hprod ▸ h)) fun h => ?_
  change m.Covers v (.next r.plain.tail)
  rw [ht]
  exact h.congr hm

/-- A step that writes no atomic object. -/
theorem follows_quiet (hg : Glob w) (hl : Producer w x) (hv : x.1.cur ≤ y.1.cur) (hy : y.2 = r.loc)
    (hs : Wakeup.assertions.Follows .producer w.sc (flat r.plain w.next w.deleted w.count w.guard) r.loc
      r.events)
    (hcoming : Coming w.sc →
      Coming (w.produced w.mem.msg r y.1.cur w.next w.count w.guard).sc ∨ .notified ∈ r.events)
    (ht : r.plain.tail = w.mem.plain.tail) (hsent : unsent x.2 → unsent r.loc)
    (hhand : hand r.loc = hand x.2) (howes : Owes x.2 → Owes r.loc)
    (howns : r.loc.owns → x.2.owns) :
    assertions.Follows .producer w ⟨w.mem.msg, r.plain⟩ y (r.trace y.1.cur) := by
  have hprod : w.prod = x.2 := hl.sc.1
  have hkept : ∀ {v}, Kept w v → Kept (w.produced w.mem.msg r y.1.cur w.next w.count w.guard) v :=
    fun h => h.congr rfl rfl rfl
  refine follows_producer hy hs ⟨hg.lasts, hg.guard.congr rfl fun a ha hn => hkept (ha hn), ?_⟩
    (fun n => (hl.covers n).mono hv) (fun ho => hkept ((hl.kept (howns ho)).mono hv))
    (fun _ n h => h.congr rfl rfl) (fun v h => h.produced hprod howes ht (.inr rfl)) hcoming
  refine hg.sent.imp (fun h => hsent (hprod ▸ h)) fun h => h.congr rfl fun a ha n hn => ha n ?_
  rw [hprod, ← hhand]
  exact hn

/-- A quiet step that the interleaving model takes as well. -/
theorem follows_same (hg : Glob w) (hl : Producer w x) (hv : x.1.cur ≤ y.1.cur) (hy : y.2 = r.loc)
    (hs : SpscQueue.access .producer b w.sc.mem x.2 =
      some (flat r.plain w.next w.deleted w.count w.guard, r.loc, r.events))
    (ht : r.plain.tail = w.mem.plain.tail) (hsent : unsent x.2 → unsent r.loc)
    (hhand : hand r.loc = hand x.2) (howes : Owes x.2 → Owes r.loc)
    (howns : r.loc.owns → x.2.owns) :
    assertions.Follows .producer w ⟨w.mem.msg, r.plain⟩ y (r.trace y.1.cur) := by
  have hprod : w.sc.prod = x.2 := hl.sc.1
  exact follows_quiet hg hl hv hy (Wakeup.follows_producer hl.sc hs)
    (fun h => h.producer (hprod ▸ hs)) ht
    hsent hhand howes howns

/-- A store to the field `next` of node `n`. -/
theorem follows_store (hg : Glob w) (hl : Producer w x) (hv : x.1.cur ≤ y.1.cur) (hy : y.2 = r.loc)
    {n : ℕ}
    {c : Message Cell Thread (Option ℕ)} (hk : x.1.cur.time (.next n) < k)
    (hky : k ≤ y.1.cur.time (.next n))
    (hs : SpscQueue.access .producer b w.sc.mem x.2 =
      some (flat r.plain (Function.update w.next n c.val) w.deleted w.count w.guard, r.loc, r.events))
    (ht : r.plain.tail = w.mem.plain.tail)
    (hsent : unsent r.loc ∨ unsent x.2 = false ∧ hand r.loc = some n ∧ hand x.2 = none)
    (hfresh : Owes r.loc ∨ ¬Owes x.2 ∧ n ≠ w.mem.plain.tail) (howns : r.loc.owns = false) :
    assertions.Follows .producer w ⟨w.mem.msg.put (.next n) k c, r.plain⟩ y (r.trace y.1.cur) := by
  have hprod : w.sc.prod = x.2 := hl.sc.1
  have hput : ∀ z, z ≠ .next n → w.mem.msg.put (.next n) k c z = w.mem.msg z := fun z hz =>
    Messages.put_of_ne hz
  refine follows_producer hy (Wakeup.follows_producer hl.sc hs) ⟨hg.lasts.put_next (hl.covers n)
    hk, ?_, ?_⟩
    (fun i => ?_) (fun h => absurd (howns.symm.trans h) (by decide))
    (fun _ n h => h.congr (hput .count (by simp)) rfl) (fun v h => ?_)
    (fun h => h.producer (hprod ▸ hs))
  · exact hg.guard.congr (hput .guard (by simp)) fun a ha hn => (ha hn).congr
      (hput .count (by simp)) rfl rfl
  · rcases hsent with h | ⟨hun, hhand, hnone⟩
    · exact .inl h
    refine .inr ((hg.covers hprod hun).congr (hput .count (by simp)) fun a ha i hi => ?_)
    have hne : i ≠ n := fun h => hi (h ▸ hhand)
    exact (ha i (by simp [hnone])).congr (hput _ (by simpa using hne))
  · by_cases hi : i = n
    · subst hi
      exact (hl.covers i).put hv hky
    · exact ((hl.covers i).mono hv).congr (hput _ (by simpa using hi))
  · refine h.produced hprod (fun ho => hfresh.resolve_right fun h => h.1 ho) ht ?_
    exact hfresh.imp_right fun h => hput _ (by simpa using h.2.symm)

section Count
variable {a c : Message Cell Thread Word}

theorem steady_of_last {n : ℕ} (hl : w.mem.msg.Last .count k a) (ha : a.val = w.count)
    (hk : k ≤ n) : Steady w n := by
  intro i b hi hb
  obtain rfl : i = k := Nat.le_antisymm (hl.le i b hb) (hk.trans hi)
  exact Option.some.inj (hb.symm.trans hl.eq) ▸ ha

/-- A read-modify-write that keeps the value. -/
theorem Steady.put {n : ℕ} (h : Steady w n) (hm : w'.mem.msg .count = w.mem.msg.put .count k c .count)
    (hc : c.val = w.count) (hs : w'.count = w.count) : Steady w' n := by
  intro i a hi ha
  rw [hs]
  rw [hm] at ha
  rcases Messages.put_eq_some.mp ha with ⟨-, rfl⟩ | ⟨-, ha⟩
  · exact hc
  · exact h i a hi ha

/-- The `fetch_add` of `signal`. -/
theorem follows_fetch (hg : Glob w) (hl : Producer w x) (hx : x.2 = .signal .signal)
    (hv : x.1.cur ≤ y.1.cur) (ha : w.mem.msg .count k = some a) (hn : w.mem.msg .count (k + 1) = none)
    (hc : c.val = a.val) (hvc : y.1.cur ≤ c.view) (hp : r.plain = w.mem.plain) (he : r.events = [])
    (hr : r.loc = afterSignal (signalImpl a.val)) (hy : y.2 = r.loc) :
    assertions.Follows .producer w ⟨w.mem.msg.put .count (k + 1) c, r.plain⟩ y (r.trace y.1.cur) := by
  have hprod : w.sc.prod = x.2 := hl.sc.1
  have hput : ∀ z, z ≠ .count → w.mem.msg.put .count (k + 1) c z = w.mem.msg z := fun z hz =>
    Messages.put_of_ne hz
  have hval : a.val = w.count := hg.lasts.count.read ha hn
  have hs : SpscQueue.access .producer false w.sc.mem x.2 =
      some (flat r.plain w.next w.deleted w.count w.guard, r.loc, r.events) := by
    rw [hx, hr, he, hval, hp]
    rfl
  have hlasts := hg.lasts.put_count ha hn (c := c)
  rw [hc, hval] at hlasts
  have hsteady : ∀ {n}, Steady w n →
      Steady (w.produced (w.mem.msg.put .count (k + 1) c) r y.1.cur w.next w.count w.guard) n :=
        fun h =>
    h.put rfl (hc.trans hval) rfl
  have hcov : ∀ n, (w.mem.msg.put .count (k + 1) c).Covers y.1.cur (.next n) := fun n =>
    ((hl.covers n).mono hv).congr (hput _ (by simp))
  refine follows_producer hy (Wakeup.follows_producer hl.sc hs) ⟨hlasts, ?_, .inr ?_⟩ hcov
    (fun ho => ?_)
    (fun _ _ h => hsteady h) (fun v h hf => .inl ?_) (fun h => h.producer (hprod ▸ hs))
  · exact hg.guard.congr (hput .guard (by simp)) fun a ha hno n hn hgot => hsteady (ha hno n hn hgot)
  · exact hg.lasts.count.put ha hn fun n _ => (hcov n).mono hvc
  · rw [hr] at ho
    exact absurd ((Fifo.signalImpl_owns _).symm.trans (owns_afterSignal ho)) (by decide)
  · -- the producer has found the flag
    have hf : 2 ^ 31 ≤ w.count.toNat := hf
    change Owes r.loc
    rw [hr, hval, signalImpl, if_pos ((Eventcount.and_flag_ne_zero _).mpr hf)]
    trivial

/-- The successful compare-exchange of `signal_impl`. -/
theorem follows_cas (hg : Glob w) (hl : Producer w x) {cmp : Word} (hx : x.2 = .signal (.signalCas cmp))
    (hv : x.1.cur ≤ y.1.cur) (ha : w.mem.msg .count k = some a) (hn : w.mem.msg .count (k + 1) = none)
    (hcmp : a.val = cmp) (hc : c.val = (cmp + 1) &&& mask) (hac : a.view ≤ c.view)
    (hky : k + 1 ≤ y.1.cur.time .count) (hp : r.plain = w.mem.plain) (he : r.events = [])
    (hr : r.loc = .signal .signalRead) (hy : y.2 = r.loc) :
    assertions.Follows .producer w ⟨w.mem.msg.put .count (k + 1) c, r.plain⟩ y (r.trace y.1.cur) := by
  have hprod : w.sc.prod = x.2 := hl.sc.1
  have hput : ∀ z, z ≠ .count → w.mem.msg.put .count (k + 1) c z = w.mem.msg z := fun z hz =>
    Messages.put_of_ne hz
  have hval : a.val = w.count := hg.lasts.count.read ha hn
  have hs : SpscQueue.access .producer false w.sc.mem x.2 =
      some (flat r.plain w.next w.deleted c.val w.guard, r.loc, r.events) := by
    rw [hx, hr, he, hp, hc]
    simp [SpscQueue.access, Eventcount.access, World.sc, flat, ← hval, hcmp, afterSignal]
  have howner : w.guard = some .producer := by
    have h := hl.sc.2
    rw [hx] at h
    exact h.1
  refine follows_producer hy (Wakeup.follows_producer hl.sc hs) ⟨hg.lasts.put_count ha hn, ?_, .inr ?_⟩
    (fun n => ((hl.covers n).mono hv).congr (hput _ (by simp))) (fun _ n hn' _ => ?_)
    (fun ho => absurd ho (Wakeup.not_owned howner)) (fun v h hf => ?_)
    (fun h => h.producer (hprod ▸ hs))
  · refine hg.lasts.guard.congr (hput .guard (by simp)) fun d hd hno => ?_
    exact absurd (hno.symm.trans (hd.trans howner)) (by simp)
  · refine hg.lasts.count.put ha hn fun n _ => ?_
    have hsent := (hg.covers (hprod.trans hx) rfl).read ha hn n (by simp [hand])
    exact (hsent.mono hac).congr (hput (.next n) (by simp))
  · exact steady_of_last (hg.lasts.count.last_put ha hn) rfl (hky.trans hn')
  · have hlt : c.val.toNat < 2 ^ 31 := by
      rw [hc, Eventcount.toNat_and_mask]
      exact Nat.mod_lt _ (by decide)
    exact absurd hf (Nat.not_le.mpr hlt)

end Count

/-- A change of the mutex. -/
theorem follows_guard (hg : Glob w) (hl : Producer w x) (hv : x.1.cur ≤ y.1.cur) (hy : y.2 = r.loc)
    {a c : Message Cell Thread (Option Thread)} (ha : w.mem.msg .guard k = some a)
    (hn : w.mem.msg .guard (k + 1) = none)
    (hs : SpscQueue.access .producer b w.sc.mem x.2 =
      some (flat r.plain w.next w.deleted w.count c.val, r.loc, r.events))
    (ht : r.plain.tail = w.mem.plain.tail) (hc : c.val = none → Kept w c.view)
    (howns : r.loc.owns → Kept w y.1.cur) (hsent : unsent x.2 = false)
    (hhand : hand r.loc = hand x.2) (howes : Owes x.2 → Owes r.loc) :
    assertions.Follows .producer w ⟨w.mem.msg.put .guard (k + 1) c, r.plain⟩ y (r.trace y.1.cur) := by
  have hprod : w.sc.prod = x.2 := hl.sc.1
  have hput : ∀ z, z ≠ .guard → w.mem.msg.put .guard (k + 1) c z = w.mem.msg z := fun z hz =>
    Messages.put_of_ne hz
  have hkept : ∀ {v}, Kept w v →
      Kept (w.produced (w.mem.msg.put .guard (k + 1) c) r y.1.cur w.next w.count c.val) v :=
    fun h => h.congr (hput .count (by simp)) rfl rfl
  refine follows_producer hy (Wakeup.follows_producer hl.sc hs)
    ⟨hg.lasts.put_guard ha hn, hg.guard.put ha hn fun h => hkept (hc h), .inr ?_⟩
    (fun n => ((hl.covers n).mono hv).congr (hput (.next n) (by simp))) (fun ho => hkept (howns ho))
    (fun _ n h => h.congr (hput .count (by simp)) rfl)
    (fun v h => h.produced hprod howes ht (.inr (hput _ (by simp)))) (fun h => h.producer (hprod ▸ hs))
  refine (hg.covers hprod hsent).congr (hput .count (by simp)) fun d hd n hn => ?_
  exact (hd n (hhand ▸ hn)).congr (hput (.next n) (by simp))

/-- A `lock` that finds the mutex taken, or a compare-exchange that fails. -/
theorem follows_retry (hg : Glob w) (hl : Producer w x) (hv : x.1.cur ≤ y.1.cur) (hy : y.2 = r.loc)
    (hp : r.plain = w.mem.plain) (he : r.events = [])
    (hx : (∃ cmp, x.2 = .signal (.signalLock cmp) ∧ r.loc = .signal (.signalLock cmp)) ∨
      ∃ cmp c, x.2 = .signal (.signalCas cmp) ∧ r.loc = .signal (.signalCas c)) :
    assertions.Follows .producer w ⟨w.mem.msg, r.plain⟩ y (r.trace y.1.cur) := by
  have hsc := hl.sc
  have howes : Owes x.2 ∧ Owes r.loc := by
    rcases hx with ⟨cmp, h, h'⟩ | ⟨cmp, c, h, h'⟩ <;> rw [h, h'] <;> exact ⟨trivial, trivial⟩
  have hnot : ∀ n, ¬Wakeup.Notifying n w.sc.prod := by
    rw [hsc.1]
    rcases hx with ⟨cmp, h, -⟩ | ⟨cmp, c, h, -⟩ <;> rw [h] <;> exact fun _ => id
  have hne : r.loc ≠ .signal .signalRead ∧ ∀ n, r.loc ≠ .signal (.signalReset n) := by
    rcases hx with ⟨cmp, -, h⟩ | ⟨cmp, c, -, h⟩ <;> rw [h] <;> simp
  have hprod : Wakeup.Producer (w.sc.produced w.sc.mem [] r.loc) r.loc := by
    refine ⟨rfl, ?_⟩
    have h := hsc.2
    rcases hx with ⟨cmp, hx, hr⟩ | ⟨cmp, c, hx, hr⟩ <;> rw [hx] at h <;> rw [hr] <;> exact h
  have hs : Wakeup.assertions.Follows .producer w.sc (flat r.plain w.next w.deleted w.count w.guard)
    r.loc
      r.events := by
    rw [he, hp]
    exact Wakeup.follows_produced hprod
      (Wakeup.producerGuar_quiet rfl rfl (fun _ _ => .inr howes.2) hnot hne)
  refine follows_quiet hg hl hv hy hs (fun h => .inl (.inl ⟨howes.2, ?_⟩)) (congrArg _ hp) ?_ ?_
    (fun _ => howes.2) ?_
  · have h := (h.resolve_right (hnot _)).2
    change 2 ^ 31 ≤ w.count.toNat ∧ r.plain.waiters ≠ 0
    rw [hp]
    exact h
  all_goals
    rcases hx with ⟨cmp, h, h'⟩ | ⟨cmp, c, h, h'⟩ <;> rw [h, h'] <;> first | rfl | exact id

theorem follows_producer_access {i : Code} (hg : Glob w) (hl : Producer w x)
    (hfr : w.mem.plain.tail < w.mem.plain.fresh) (hi : access .producer b w.mem.plain x.2 = some i)
    (hx : i.exec k w.mem.msg (x.1.tick .producer) = some (m, y.1, r)) (hy : y.2 = r.loc) :
    assertions.Follows .producer w ⟨m, r.plain⟩ y (r.trace y.1.cur) := by
  have htick : x.1.cur ≤ (x.1.tick .producer).cur := Views.cur_le_tick
  have hv : x.1.cur ≤ y.1.cur := htick.trans (Instr.exec_cur_le hx)
  have hsc := hl.sc.2
  cases hxl : x.2 <;> rw [hxl] at hi hsc <;>
    simp only [access, reduceCtorEq, Option.some.injEq] at hi <;> try exact hsc.elim
  case enqNew data =>
    subst hi
    obtain ⟨-, hk, rfl, hw, rfl⟩ := Instr.exec_store hx
    exact follows_store hg hl hv hy (b := b) (Nat.lt_of_le_of_lt (htick.1 _) hk)
      (hw ▸ Views.le_time_write)
      (by rw [hxl]; rfl) rfl (.inr ⟨by rw [hxl]; rfl, rfl, by rw [hxl]; rfl⟩)
      (.inr ⟨by rw [hxl]; exact id, hfr.ne'⟩) rfl
  case enqHead data n =>
    subst hi
    obtain ⟨rfl, -, rfl⟩ := Instr.exec_plain hx
    exact follows_same (b := b) hg hl hv hy (by rw [hxl]; rfl) rfl (by rw [hxl]; exact id)
      (by rw [hxl]; rfl)
      (by rw [hxl]; exact id) (by rw [hxl]; exact id)
  case enqLink data n h =>
    subst hi
    obtain ⟨-, hk, rfl, hw, rfl⟩ := Instr.exec_store hx
    exact follows_store hg hl hv hy (b := b) (Nat.lt_of_le_of_lt (htick.1 _) hk)
      (hw ▸ Views.le_time_write)
      (by rw [hxl]; rfl) rfl (.inl rfl) (.inl trivial) rfl
  case enqMove n =>
    subst hi
    obtain ⟨rfl, -, rfl⟩ := Instr.exec_plain hx
    exact follows_same (b := b) hg hl hv hy (by rw [hxl]; rfl) rfl (fun _ => rfl) (by rw [hxl]; rfl)
      (fun _ => trivial) (by rw [hxl]; exact id)
  case signal p =>
    cases p <;> simp only [event, reduceCtorEq, Option.some.injEq] at hi <;> try exact hsc.elim
    case signal =>
      subst hi
      obtain ⟨a, ha, -, rfl, ⟨hf, -⟩ | ⟨c, hf, hn, -, rfl⟩⟩ := Instr.exec_rmw hx
      · cases hf
      · cases hf
        exact follows_fetch hg hl hxl hv ha hn (BitVec.add_zero _)
          ((Views.cur_le_released rfl).trans le_sup_right) rfl rfl rfl hy
    case signalLock cmp =>
      subst hi
      obtain ⟨a, ha, -, rfl, ⟨hf, rfl, -⟩ | ⟨o, hf, hn, hw, rfl⟩⟩ := Instr.exec_rmw hx
      · have hno : a.val ≠ none := fun h => by simp [h] at hf
        exact follows_retry hg hl hv hy rfl rfl (.inl ⟨cmp, hxl, if_neg hno⟩)
      · obtain ⟨hno, rfl⟩ : a.val = none ∧ some Thread.producer = o := by simpa using hf
        have hfree : w.guard = none := (hg.lasts.guard.read ha hn).symm.trans hno
        have hkept : Kept w y.1.cur := (hg.guard.read ha hn hno).mono
          (hw ▸ (Views.le_cur_read rfl).trans Views.cur_le_write)
        simp only [hno, if_true] at hy ⊢
        refine follows_guard (r := ⟨w.mem.plain, .signal (.signalCas cmp), [], []⟩) (b := b) hg hl
          hv hy ha hn
          ?_ rfl (fun h => absurd h (by simp)) (fun _ => hkept) (by rw [hxl]; rfl) (by rw [hxl]; rfl)
          (fun _ => trivial)
        rw [hxl]
        simp only [SpscQueue.access, Eventcount.access, Eventcount.lock, World.sc, flat, hfree]
        rfl
    case signalCas cmp =>
      subst hi
      obtain ⟨a, ha, -, rfl, ⟨hf, rfl, -⟩ | ⟨c, hf, hn, hw, rfl⟩⟩ := Instr.exec_rmw hx
      · have hno : (decide (a.val = cmp) && !b) = false := by simpa using hf
        exact follows_retry hg hl hv hy rfl rfl (.inr ⟨cmp, a.val, hxl, by simp [hno, afterSignal]⟩)
      · obtain ⟨hok, rfl⟩ : (a.val = cmp ∧ b = false) ∧ (cmp + 1) &&& mask = c := by simpa using hf
        exact follows_cas hg hl hxl hv ha hn hok.1 rfl le_sup_left (hw ▸ Views.le_time_write) rfl rfl
          (by simp [hok, afterSignal]) hy
    case signalRead | signalReset n =>
      subst hi
      obtain ⟨rfl, -, rfl⟩ := Instr.exec_plain hx
      exact follows_same (b := b) hg hl hv hy (by rw [hxl]; rfl) rfl (by rw [hxl]; exact id)
        (by rw [hxl]; rfl)
        (by rw [hxl]; exact id) (fun _ => by rw [hxl]; rfl)
    case signalUnlock n =>
      subst hi
      obtain ⟨a, ha, -, rfl, ⟨hf, -⟩ | ⟨o, hf, hn, hw, rfl⟩⟩ := Instr.exec_rmw hx
      · cases hf
      · cases hf
        have hkept : Kept w y.1.cur := (hl.kept (by rw [hxl]; rfl)).mono hv
        refine follows_guard (b := b) hg hl hv hy ha hn (by rw [hxl]; rfl) rfl
          (fun _ => hkept.mono ((Views.cur_le_released rfl).trans le_sup_right)) (fun _ => hkept)
          (by rw [hxl]; rfl) ?_ (by rw [hxl]; exact False.elim)
        rw [hxl]
        split <;> rfl
    case notifyAll =>
      subst hi
      obtain ⟨rfl, -, rfl⟩ := Instr.exec_plain hx
      exact follows_same (b := b) hg hl hv hy (by rw [hxl]; rfl) rfl (by rw [hxl]; exact id)
        (by rw [hxl]; rfl)
        (by rw [hxl]; exact id) (absurd · Bool.false_ne_true)

end Producer

/-! ## The consumer -/

section Consumer
variable {m : Messages Cell Thread Cell.Val} {r : Outcome Plain Pc Event Place} {d : ℕ → Bool}
  {count : Word} {guard : Option Thread} {b : Bool} {k g : ℕ}

/-- The world after a step of the consumer. -/
def World.consumed (w : World) (m : Messages Cell Thread Cell.Val) (r : Outcome Plain Pc Event Place)
    (v : View Cell Thread) (deleted : ℕ → Bool) (count : Word) (guard : Option Thread) (got : ℕ) :
    World :=
  ⟨⟨m, r.plain⟩, w.hist ++ emit .consumer (r.trace v), w.next, deleted, count, guard, w.prod, got⟩

theorem consumed_of_follows {m s : Mem} {p l : Pc} {es : List Event}
    (h : Wakeup.assertions.Follows .consumer ⟨m, [], p⟩ s l es) :
    Wakeup.Consumer ⟨s, [], p⟩ l ∧ Wakeup.ConsumerGuar ⟨m, [], p⟩ ⟨s, [], p⟩ := by
  obtain ⟨⟨m', h, p'⟩, hm, -, -, hl, hg⟩ := h
  have hp : p' = p := hg.prod
  have hm : m' = s := hm
  subst hp hm
  exact ⟨hl, rfl, hg.guard, hg.flagged, hg.waiters⟩

theorem follows_consumer (hg : Glob w) (hy : y.2 = r.loc)
    (hs : Wakeup.assertions.Follows .consumer w.sc (flat r.plain w.next d count guard) r.loc
    r.events)
    (hlasts : Lasts m w.next count guard)
    (hguard : m.Ends .guard fun a => a.val = none → Kept (w.consumed m r y.1.cur d count guard
    g) a.view)
    (hsent : ∀ P : View Cell Thread → Prop, (∀ v v', v ≤ v' → P v → P v') →
      (w.mem.msg.Ends .count fun a => P a.view) → m.Ends .count fun a => P a.view)
    (hnext : ∀ n, m (.next n) = w.mem.msg (.next n)) (hgot : g ≤ y.1.cur.time .count)
    (hsteady : r.loc.owns →
      Steady (w.consumed m r y.1.cur d count guard g) (y.1.cur.time .count))
    (hfresh : second r.loc → Fresh (w.consumed m r y.1.cur d count guard g) y.1.cur)
    (hkept : ∀ v, Kept w v → Kept (w.consumed m r y.1.cur d count guard g) v) :
    assertions.Follows .consumer w ⟨m, r.plain⟩ y (r.trace y.1.cur) := by
  obtain ⟨hl, hgu⟩ := consumed_of_follows hs
  refine ⟨w.consumed m r y.1.cur d count guard g, rfl, rfl,
    ⟨hlasts, hguard, hg.sent.imp_right fun h => ?_⟩, ⟨hy ▸ hl, hgot, hy ▸ hsteady, hy ▸ hfresh⟩,
    hgu, hnext, hkept⟩
  have h := hsent (fun v => ∀ n, hand w.prod ≠ some n → w.mem.msg.Covers v (.next n))
    (fun v v' hv h n hn => (h n hn).mono hv) h
  exact h.congr rfl fun a ha n hn => (ha n hn).congr (hnext n)

/-- A step that writes no atomic object. -/
theorem follows_read (hg : Glob w) (hl : Consumer w x) (hv : x.1.cur ≤ y.1.cur) (hy : y.2 = r.loc)
    (hs : Wakeup.assertions.Follows .consumer w.sc (flat r.plain w.next d w.count w.guard) r.loc
      r.events)
    (howns : r.loc.owns → x.2.owns)
    (hsecond : second r.loc → second x.2 ∧ r.plain.tail = w.mem.plain.tail) :
    assertions.Follows .consumer w ⟨w.mem.msg, r.plain⟩ y (r.trace y.1.cur) := by
  have hkept : ∀ v, Kept w v →
      Kept (w.consumed w.mem.msg r y.1.cur d w.count w.guard w.got) v := fun v h => h.congr
        rfl rfl rfl
  refine follows_consumer hg hy hs hg.lasts (hg.guard.congr rfl fun a ha hn => hkept _ (ha hn))
    (fun _ _ h => h) (fun _ => rfl) (hl.got.trans (hv.1 _))
    (fun ho => ((hl.steady (howns ho)).mono (hv.1 _)).congr rfl rfl) (fun h hf => ?_) hkept
  obtain ⟨hx, ht⟩ := hsecond h
  refine ((hl.fresh hx).mono hv hf).imp_right fun h => ?_
  change w.mem.msg.Covers y.1.cur (.next r.plain.tail)
  rwa [ht]

/-- A quiet step that the interleaving model takes as well. -/
theorem follows_alike (hg : Glob w) (hl : Consumer w x) (hprod : ∃ l, Wakeup.Producer w.sc l)
    (hwrap : x.2.counts) (hnz : ∀ s t n data, x.2 = .deqDelete s t n data → data ≠ 0)
    (hv : x.1.cur ≤ y.1.cur) (hy : y.2 = r.loc)
    (hs : SpscQueue.access .consumer b w.sc.mem x.2 =
      some (flat r.plain w.next d w.count w.guard, r.loc, r.events))
    (howns : r.loc.owns → x.2.owns)
    (hsecond : second r.loc → second x.2 ∧ r.plain.tail = w.mem.plain.tail) :
    assertions.Follows .consumer w ⟨w.mem.msg, r.plain⟩ y (r.trace y.1.cur) := by
  have hwrap : x.2 ≠ .event (.waitStore 0xFFFFFFFF) := by simpa [Pc.counts] using hwrap
  exact follows_read hg hl hv hy (Wakeup.follows_consumer hl.sc hprod hwrap hnz hs) howns hsecond

/-- The load of `t->next`, which may be stale. -/
theorem follows_next (hg : Glob w) (hl : Consumer w x) {s : Site} {t : ℕ} (hx : x.2 = .deqNext s t)
    (hv : x.1.cur ≤ y.1.cur) {a : Message Cell Thread (Option ℕ)} (ha : w.mem.msg (.next t) k = some a)
    (hk : x.1.cur.time (.next t) ≤ k) (hp : r.plain = w.mem.plain) (he : r.events = [])
    (hr : r.loc = match a.val with
      | none => s.resume 0
      | some n => .deqData s t n) (hy : y.2 = r.loc) :
    assertions.Follows .consumer w ⟨w.mem.msg, r.plain⟩ y (r.trace y.1.cur) := by
  have hsc := hl.sc
  rw [hx] at hsc
  refine follows_read (d := w.deleted) hg hl hv hy ?_ ?_ ?_
  · rw [he, hp]
    refine Wakeup.follows_consumed ?_ id id id
    cases hval : a.val with
    | some n =>
      rw [hr, hval]
      trivial
    | none =>
      rw [hr, hval]
      cases s with
      | first | third => trivial
      | second cmp =>
        obtain ⟨harmed, rfl⟩ := hsc
        refine ⟨harmed, fun hf => ?_⟩
        rcases hl.fresh (by rw [hx]; rfl) hf with ho | hcov
        · exact .inr ho
        -- what the consumer finds is the last write
        · obtain ⟨n, d, hlast, hd⟩ := hg.lasts.next w.mem.plain.tail
          obtain rfl : k = n := Nat.le_antisymm (hlast.le k a ha) ((hcov n d hlast.eq).trans hk)
          obtain rfl : a = d := Option.some.inj (ha.symm.trans hlast.eq)
          exact .inl (hd.symm.trans hval)
  all_goals
    rw [hr]
    cases a.val with
    | some n => exact fun h => absurd h Bool.false_ne_true
    | none => cases s <;> exact fun h => absurd h Bool.false_ne_true

/-- The load of `count` before the mutex, which may be stale. -/
theorem follows_check (hg : Glob w) (hl : Consumer w x) {cmp c : Word}
    (hx : x.2 = .event (.waitLoad cmp))
    (hv : x.1.cur ≤ y.1.cur) (hp : r.plain = w.mem.plain) (he : r.events = [])
    (hr : r.loc = afterEvent (if cmp = c &&& mask then .waitLock cmp else .done none))
    (hy : y.2 = r.loc) :
    assertions.Follows .consumer w ⟨w.mem.msg, r.plain⟩ y (r.trace y.1.cur) := by
  have hsc := hl.sc
  rw [hx] at hsc
  refine follows_read (d := w.deleted) hg hl hv hy ?_ ?_ ?_
  · rw [he, hp]
    refine Wakeup.follows_consumed ?_ id id id
    rw [hr]
    split
    · exact hsc
    · trivial
  all_goals
    rw [hr]
    split <;> exact fun h => absurd h Bool.false_ne_true

/-- A `lock` that finds the mutex taken. -/
theorem follows_wait (hg : Glob w) (hl : Consumer w x) (hv : x.1.cur ≤ y.1.cur)
    (hp : r.plain = w.mem.plain)
    (he : r.events = []) (hr : r.loc = x.2) (hy : y.2 = r.loc) :
    assertions.Follows .consumer w ⟨w.mem.msg, r.plain⟩ y (r.trace y.1.cur) := by
  refine follows_read (d := w.deleted) hg hl hv hy ?_ (hr ▸ id) fun h => ⟨hr ▸ h, congrArg _ hp⟩
  rw [he, hp, hr]
  exact Wakeup.follows_consumed hl.sc id id id

/-- A change of the mutex. -/
theorem follows_mutex (hg : Glob w) (hl : Consumer w x) (hprod : ∃ l, Wakeup.Producer w.sc l)
    (hwrap : x.2.counts) (hv : x.1.cur ≤ y.1.cur) (hy : y.2 = r.loc) {p : Eventcount.Pc}
    (hx : x.2 = .event p) {a c : Message Cell Thread (Option Thread)}
    (ha : w.mem.msg .guard k = some a) (hn : w.mem.msg .guard (k + 1) = none)
    (hs : SpscQueue.access .consumer b w.sc.mem x.2 =
      some (flat r.plain w.next w.deleted w.count c.val, r.loc, r.events))
    (hc : c.val = none → Kept w c.view) (howns : r.loc.owns → Steady w (y.1.cur.time .count))
    (hsecond : second r.loc = false) :
    assertions.Follows .consumer w ⟨w.mem.msg.put .guard (k + 1) c, r.plain⟩ y (r.trace y.1.cur) := by
  have hwrap : x.2 ≠ .event (.waitStore 0xFFFFFFFF) := by simpa [Pc.counts] using hwrap
  have hput : ∀ z, z ≠ .guard → w.mem.msg.put .guard (k + 1) c z = w.mem.msg z := fun z hz =>
    Messages.put_of_ne hz
  have hkept : ∀ v, Kept w v →
      Kept (w.consumed (w.mem.msg.put .guard (k + 1) c) r y.1.cur w.deleted w.count c.val w.got) v :=
    fun v h => h.congr (hput .count (by simp)) rfl rfl
  refine follows_consumer hg hy (Wakeup.follows_consumer hl.sc hprod hwrap (by rw [hx]; simp) hs)
    (hg.lasts.put_guard ha hn) (hg.guard.put ha hn fun h => hkept _ (hc h))
    (fun _ _ h => h.congr (hput .count (by simp)) fun _ h => h) (fun n => hput (.next n) (by simp))
    (hl.got.trans (hv.1 _)) (fun ho => (howns ho).congr (hput .count (by simp)) rfl)
    (fun h => absurd (hsecond.symm.trans h) (by decide)) hkept

/-- The `fetch_or` of `get`. -/
theorem follows_get (hg : Glob w) (hl : Consumer w x) (hprod : ∃ l, Wakeup.Producer w.sc l)
    (hhand : ∀ n, hand w.prod = some n → n ≠ w.mem.plain.tail) (hx : x.2 = .event .get)
    {a c : Message Cell Thread Word} (ha : w.mem.msg .count k = some a)
    (hn : w.mem.msg .count (k + 1) = none) (hc : c.val = a.val ||| flag) (hac : a.view ≤ c.view)
    (hav : a.view ≤ y.1.cur) (hky : k + 1 ≤ y.1.cur.time .count) (hp : r.plain = w.mem.plain)
    (he : r.events = []) (hr : r.loc = .deqTail (.second (a.val &&& mask))) (hy : y.2 = r.loc) :
    assertions.Follows .consumer w ⟨w.mem.msg.put .count (k + 1) c, r.plain⟩ y (r.trace y.1.cur) := by
  have hput : ∀ z, z ≠ .count → w.mem.msg.put .count (k + 1) c z = w.mem.msg z := fun z hz =>
    Messages.put_of_ne hz
  have hval : a.val = w.count := hg.lasts.count.read ha hn
  have hs : SpscQueue.access .consumer false w.sc.mem x.2 =
      some (flat r.plain w.next w.deleted c.val w.guard, r.loc, r.events) := by
    rw [hx, hr, he, hp, hc, hval]
    rfl
  have hsteady : ∀ {n}, k + 1 ≤ n →
      Steady (w.consumed (w.mem.msg.put .count (k + 1) c) r y.1.cur w.deleted c.val w.guard (k + 1))
        n :=
    fun hn' => steady_of_last (hg.lasts.count.last_put ha hn) rfl hn'
  refine follows_consumer (g := k + 1) hg hy
    (Wakeup.follows_consumer hl.sc hprod (by rw [hx]; simp) (by rw [hx]; simp) hs)
    (hg.lasts.put_count ha hn)
    (hg.guard.congr (hput .guard (by simp)) fun _ _ _ n _ hgot => hsteady hgot)
    (fun P hP h => h.put ha hn (hP _ _ hac (h.read ha hn))) (fun n => hput (.next n) (by simp)) hky
    (fun ho => ?_) (fun _ _ => ?_) fun _ _ n _ hgot => hsteady hgot
  · rw [hr] at ho
    exact absurd ho Bool.false_ne_true
  · refine hg.sent.imp (fun h => ?_) fun h => ?_
    · change Owes w.prod
      cases hw : w.prod <;> rw [hw] at h <;> try first | trivial | exact absurd h Bool.false_ne_true
      case signal p => cases p <;> trivial
    · change (w.mem.msg.put .count (k + 1) c).Covers y.1.cur (.next r.plain.tail)
      rw [hp]
      exact ((h.read ha hn _ fun h => hhand _ h rfl).mono hav).congr (hput (.next _) (by simp))

theorem follows_consumer_access {i : Code} (hg : Glob w) (hl : Consumer w x)
    (hprod : ∃ l, Wakeup.Producer w.sc l) (hwrap : x.2.counts)
    (hnz : ∀ s t n data, x.2 = .deqDelete s t n data → data ≠ 0)
    (hhand : ∀ n, hand w.prod = some n → n ≠ w.mem.plain.tail)
    (hi : access .consumer b w.mem.plain x.2 = some i)
    (hx : i.exec k w.mem.msg (x.1.tick .consumer) = some (m, y.1, r)) (hy : y.2 = r.loc) :
    assertions.Follows .consumer w ⟨m, r.plain⟩ y (r.trace y.1.cur) := by
  have htick : x.1.cur ≤ (x.1.tick .consumer).cur := Views.cur_le_tick
  have hv : x.1.cur ≤ y.1.cur := htick.trans (Instr.exec_cur_le hx)
  have hsc := hl.sc
  cases hxl : x.2 <;> rw [hxl] at hi hsc <;>
    simp only [access, reduceCtorEq, Option.some.injEq] at hi <;> try exact hsc.elim
  case deqTail s =>
    subst hi
    obtain ⟨rfl, -, rfl⟩ := Instr.exec_plain hx
    refine follows_alike (b := b) (d := w.deleted) hg hl hprod hwrap hnz hv hy (by rw [hxl]; rfl)
      (absurd · Bool.false_ne_true) fun h => ⟨?_, rfl⟩
    rw [hxl]
    cases s <;> exact h
  case deqNext s t =>
    subst hi
    obtain ⟨a, ha, hk, rfl, -, rfl⟩ := Instr.exec_load hx
    refine follows_next hg hl hxl hv ha ((htick.1 _).trans hk) ?_ ?_ ?_ hy <;> cases a.val <;> rfl
  case deqData s t n =>
    subst hi
    obtain ⟨rfl, -, rfl⟩ := Instr.exec_plain hx
    exact follows_alike (b := b) (d := w.deleted) hg hl hprod hwrap hnz hv hy
      (by rw [hxl]; rfl) (absurd · Bool.false_ne_true) (absurd · Bool.false_ne_true)
  case deqDelete s t n data =>
    subst hi
    obtain ⟨rfl, -, rfl⟩ := Instr.exec_plain hx
    have hne := hnz s t n data hxl
    refine follows_alike (b := b) (d := Function.update w.deleted t true) hg hl hprod hwrap
      hnz hv hy
      (by rw [hxl]; rfl) (fun h => ?_) fun h => ?_
    · have h : (s.resume data).owns := h
      rw [s.resume_of_ne_zero hne] at h
      exact absurd h Bool.false_ne_true
    · have h : second (s.resume data) := h
      rw [s.resume_of_ne_zero hne] at h
      exact absurd h Bool.false_ne_true
  case deqRet data =>
    subst hi
    obtain ⟨rfl, -, rfl⟩ := Instr.exec_plain hx
    exact follows_alike (b := b) (d := w.deleted) hg hl hprod hwrap hnz hv hy
      (by rw [hxl]; rfl) (absurd · Bool.false_ne_true) (absurd · Bool.false_ne_true)
  case event p =>
    cases p <;> simp only [event, reduceCtorEq, Option.some.injEq] at hi <;> try exact hsc.elim
    case get =>
      subst hi
      obtain ⟨a, ha, -, rfl, ⟨hf, -⟩ | ⟨c, hf, hn, hw, rfl⟩⟩ := Instr.exec_rmw hx
      · cases hf
      · cases hf
        exact follows_get hg hl hprod hhand hxl ha hn rfl le_sup_left
          (hw ▸ (Views.le_cur_read rfl).trans Views.cur_le_write) (hw ▸ Views.le_time_write) rfl rfl
          rfl hy
    case waitLoad cmp =>
      subst hi
      obtain ⟨a, -, -, rfl, -, rfl⟩ := Instr.exec_load hx
      exact follows_check hg hl hxl hv rfl rfl rfl hy
    case waitLock cmp | relock =>
      subst hi
      obtain ⟨a, ha, -, rfl, ⟨hf, rfl, -⟩ | ⟨o, hf, hn, hw, rfl⟩⟩ := Instr.exec_rmw hx
      · have hno : a.val ≠ none := fun h => by simp [h] at hf
        exact follows_wait hg hl hv rfl rfl (by rw [hxl]; exact if_neg hno) hy
      · obtain ⟨hno, rfl⟩ : a.val = none ∧ some Thread.consumer = o := by simpa using hf
        have hfree : w.guard = none := (hg.lasts.guard.read ha hn).symm.trans hno
        have hkept := hg.guard.read ha hn hno
        have hav : a.view ≤ y.1.cur := hw ▸ (Views.le_cur_read rfl).trans Views.cur_le_write
        simp only [hno, if_true] at hy ⊢
        refine follows_mutex (r := ⟨w.mem.plain, _, [], []⟩) (b := b) hg hl hprod hwrap hv hy hxl ha
          hn ?_
          (fun h => absurd h (by simp)) (fun _ => hkept _ (hav.1 _) (hl.got.trans (hv.1 _))) rfl
        rw [hxl]
        simp only [SpscQueue.access, Eventcount.access, Eventcount.lock, World.sc, flat, hfree]
        rfl
    case waitRecheck cmp =>
      subst hi
      obtain ⟨a, ha, hk, rfl, -, rfl⟩ := Instr.exec_load hx
      -- the load finds the last count
      have hval : a.val = w.count := hl.steady (by rw [hxl]; rfl) k a ((htick.1 _).trans hk) ha
      refine follows_alike (b := b) (d := w.deleted) hg hl hprod hwrap hnz hv hy ?_
        (fun _ => by rw [hxl]; rfl)
        fun h => ?_
      · have hec : Eventcount.access .consumer b w.sc.mem.ec (.waitRecheck cmp) = some (w.sc.mem.ec,
            if cmp = w.count &&& mask then .waitRead else .waitUnlock) := by
          change (if cmp = w.count &&& mask then _ else _) = _
          split <;> rfl
        rw [hxl, hval]
        exact congrArg (Option.map _) hec
      · have h : second (afterEvent (if cmp = a.val &&& mask then .waitRead else .waitUnlock)) := h
        split at h <;> exact absurd h Bool.false_ne_true
    case waitRead | waitStore n =>
      subst hi
      obtain ⟨rfl, -, rfl⟩ := Instr.exec_plain hx
      exact follows_alike (b := b) (d := w.deleted) hg hl hprod hwrap hnz hv hy (by rw [hxl]; rfl)
        (fun _ => by rw [hxl]; rfl) (absurd · Bool.false_ne_true)
    case waitCv | waitUnlock =>
      subst hi
      obtain ⟨a, ha, -, rfl, ⟨hf, -⟩ | ⟨o, hf, hn, hw, rfl⟩⟩ := Instr.exec_rmw hx
      · cases hf
      · cases hf
        have hsteady := hl.steady (by rw [hxl]; rfl)
        refine follows_mutex (b := b) hg hl hprod hwrap hv hy hxl ha hn (by rw [hxl]; rfl)
          (fun _ n hn _ => hsteady.mono ?_) (absurd · Bool.false_ne_true) rfl
        exact ((hv.trans ((Views.cur_le_released rfl).trans le_sup_right)).1 _).trans hn
    case asleep =>
      split at hi <;> simp only [reduceCtorEq, Option.some.injEq] at hi
      next hawake =>
      subst hi
      obtain ⟨rfl, -, rfl⟩ := Instr.exec_plain hx
      refine follows_alike (b := b) (d := w.deleted) hg hl hprod hwrap hnz hv hy ?_
        (absurd · Bool.false_ne_true) (absurd · Bool.false_ne_true)
      have hec : Eventcount.access .consumer b w.sc.mem.ec .asleep = some ({ w.sc.mem.ec with
          asleep := Function.update w.mem.plain.asleep .consumer false }, .relock) := if_neg hawake
      rw [hxl]
      exact congrArg (Option.map _) hec

end Consumer

/-! ## Runs -/

/-- What the hand-over of the nodes adds: the consumer deletes only nodes whose successor holds a
nonzero value, and the node at `tail` is linked. -/
structure Apart (c : WeakConfig) : Prop where
  nonzero : ∀ s t n data, (c.loc .consumer).2 = .deqDelete s t n data → data ≠ 0
  tail : c.mem.plain.tail < c.mem.plain.fresh
  hand : ∀ n, Signal.hand (c.loc .producer).2 = some n → n ≠ c.mem.plain.tail

theorem apart_of_run {garbage : ℕ → Option ℕ} {tr : List (Thread × WeakEvent)} {C : WeakConfig}
    (h : program.Run anyStep (start garbage) tr C) (hnz : NonzeroValues (events tr)) : Apart C := by
  obtain ⟨w, hw⟩ := Fifo.holds_of_run h hnz
  have hg : Fifo.Glob w := hw.glob
  have hl : Fifo.Consumer w (C.loc .consumer) := hw.loc .consumer
  have hp : Fifo.Producer w (C.loc .producer) := hw.loc .producer
  have hmem : w.mem = C.mem := hw.mem
  have htail := hg.tail
  refine ⟨fun s t n data hx => ?_, hmem ▸ Nat.lt_of_le_of_lt htail hg.fresh, fun n hn => ?_⟩
  · have hat := hl.loc
    rw [hx] at hat
    exact hg.nonzero _ (List.mem_of_getElem? hat.2)
  · have hat := hp.loc
    rw [← hmem]
    cases hx : (C.loc .producer).2 <;> rw [hx] at hn hat <;>
      simp only [hand, reduceCtorEq, Option.some.injEq] at hn <;> subst hn
    case enqHead data n =>
      have := hat.node
      omega
    case enqLink data n h =>
      have := hat.1.node
      omega

/-- Not about to do the `waiters += 1` that wraps to 0. -/
def NoWrap (c : WeakConfig) (t : Thread) (_ : Act × ℕ) : Prop := (c.loc t).2.counts

theorem follows_step {ls : Thread → WeakPc} (hg : Glob w) (hl : ∀ u, Local u w (ls u)) {t : Thread}
    {a : Act × ℕ} {m : WeakMem} {es : List WeakEvent}
    (hs : program.step t a w.mem (ls t) = some (m, y, es))
    (hG : NoWrap ⟨w.mem, ls⟩ t a ∧ Apart ⟨w.mem, ls⟩) : assertions.Follows t w m y es := by
  obtain ⟨a, k⟩ := a
  obtain ⟨ms, p⟩ := m
  obtain ⟨i, r, hi, hx, rfl, hy, rfl⟩ := weak_step hs
  have hv : (ls t).1.cur ≤ y.1.cur := Views.cur_le_tick.trans (Instr.exec_cur_le hx)
  have hp : Producer w (ls .producer) := hl .producer
  obtain ⟨hwrap, hnz, htail, hhand⟩ := hG
  have hprod : w.prod = (ls .producer).2 := hp.sc.1
  match a with
  | .enqueue data =>
    obtain ⟨⟨rfl, hxl⟩, rfl⟩ : (t = .producer ∧ (ls t).2 = .idle) ∧
        Instr.plain ⟨w.mem.plain, .enqNew data, [.enqueue data], []⟩ = i := by simpa [order] using hi
    obtain ⟨rfl, -, rfl⟩ := Instr.exec_plain hx
    have hidle : w.sc.prod = .idle := hprod.trans hxl
    refine follows_quiet hg hp hv hy (Wakeup.follows_enqueue rfl rfl
      (.inr ⟨by rw [hidle]; exact id, id⟩)
      (by rw [hidle]; exact fun _ => id) (fun w' h => ⟨h, trivial⟩) (by simp)) (fun h => ?_) rfl
      (by rw [hxl]; exact id) (by rw [hxl]; rfl) (by rw [hxl]; exact id) (by rw [hxl]; exact id)
    have := h.signalling
    rw [hidle] at this
    exact absurd this (by decide)
  | .dequeue =>
    obtain ⟨⟨rfl, hxl⟩, rfl⟩ : (t = .consumer ∧ (ls t).2 = .idle) ∧
        Instr.plain ⟨w.mem.plain, .deqTail .first, [.dequeue], []⟩ = i := by simpa [order] using hi
    obtain ⟨rfl, -, rfl⟩ := Instr.exec_plain hx
    exact follows_read (d := w.deleted) hg (hl .consumer) hv hy
      (Wakeup.follows_consumed trivial id id id) (absurd · Bool.false_ne_true)
      (absurd · Bool.false_ne_true)
  | .run | .spurious =>
    cases t with
    | producer => exact follows_producer_access hg hp htail hi hx hy
    | consumer =>
      exact follows_consumer_access hg (hl .consumer) ⟨_, hp.sc⟩ hwrap hnz
        (fun n h => hhand n (hprod ▸ h))
        hi hx hy

def outline : Outline program (fun c t a => NoWrap c t a ∧ Apart c) (fun _ => True) World where
  toAssertions := assertions
  step hg hl hs hG _ := follows_step hg hl hs hG
  stable {t u w w' l} hu _ _ hl hguar := by
    cases t <;> cases u <;> try exact absurd rfl hu
    · exact hl.stable hguar
    · exact hl.stable hguar

theorem holds_start (garbage : ℕ → Option ℕ) :
    outline.Holds ⟨(start garbage).mem, [], fun n => cell garbage (.next n), fun _ => false, 0,
    none, .idle, 0⟩ []
      (start garbage) where
  mem := rfl
  hist := rfl
  glob := by
    refine ⟨⟨fun n => ⟨0, _, Messages.last_initial, rfl⟩, Messages.ends_initial rfl,
      Messages.ends_initial rfl⟩, Messages.ends_initial fun _ n _ _ k a _ ha => ?_,
      .inr (Messages.ends_initial fun _ _ => Messages.covers_initial)⟩
    obtain ⟨-, rfl⟩ := start_msg.mp ha
    rfl
  loc t := by
    cases t with
    | producer => exact ⟨⟨rfl, trivial⟩, fun _ => Messages.covers_initial, nofun⟩
    | consumer => exact ⟨trivial, Nat.le_refl _, nofun, nofun⟩

end Signal

/-- In `cv.wait` and not yet notified. -/
def Asleep (c : WeakConfig) : Prop :=
  (c.loc .consumer).2 = .event .asleep ∧ c.mem.plain.asleep .consumer = true

/-- The last write to `tail->next` is not `NULL`. -/
def Nonempty (c : WeakConfig) : Prop :=
  ∃ k a, c.mem.msg.Last (.next c.mem.plain.tail) k a ∧ a.val ≠ none

/-- The producer is inside `enqueue` after its store to `head->next`, and stays there in
every continuation without its `notify_all`. -/
def NotifyToCome (tr : List (Thread × WeakEvent)) (c : WeakConfig) : Prop :=
  (c.loc .producer).2.signalling ∧ ∀ tr' c', program.Run Signal.NoWrap c tr' c' →
    NonzeroValues (events (tr ++ tr')) → (.producer, .notified) ∉ events tr' →
    (c'.loc .producer).2.signalling

section Runs
variable {garbage : ℕ → Option ℕ} {tr tr' : List (Thread × WeakEvent)} {c c' : WeakConfig}

/-- Fewer values unlinked than linked. -/
theorem nonempty_of_run (h : program.Run anyStep (start garbage) tr c) (hnz : NonzeroValues (events tr))
    (hlt : c.mem.plain.tail < (linkedValues (events tr)).length) : Nonempty c := by
  obtain ⟨w, hw⟩ := Fifo.holds_of_run h hnz
  have hl : Fifo.Consumer w (c.loc .consumer) := hw.loc .consumer
  have hmem : w.mem = c.mem := hw.mem
  obtain rfl : w.hist = tr := hw.hist
  have hnode := hl.reach.node
  rw [hmem] at hnode
  obtain ⟨k, a, hlast, ⟨heq, -⟩ | ⟨-, ha⟩⟩ := hnode.exists
  · exact absurd heq hlt.ne
  · exact ⟨k, a, hmem ▸ hlast, by simp [ha]⟩

theorem nonzero_of_append {tr tr' : List (Thread × WeakEvent)}
    (h : NonzeroValues (events (tr ++ tr'))) : NonzeroValues (events tr) := by
  rw [events_append] at h
  exact h.of_append

theorem signal_of_run (h : program.Run Signal.NoWrap (start garbage) tr c)
    (hnz : NonzeroValues (events tr)) : ∃ w, Signal.outline.Holds w tr c := by
  refine Signal.outline.sound (fun _ => trivial) (Signal.holds_start garbage)
    (h.assume fun h' hp => ?_) trivial
  obtain ⟨x, rfl⟩ := hp
  exact Signal.apart_of_run (h'.mono fun _ _ _ _ => trivial) (nonzero_of_append hnz)

/-- A notification still to come is still to come after any steps that do not notify. -/
theorem coming_of_run {w : Signal.World} (h : program.Run Signal.NoWrap (start garbage) tr c)
    (hw : Signal.outline.Holds w tr c) (hc : Coming w.sc) (h' : program.Run Signal.NoWrap c tr' c')
    (hnz : NonzeroValues (events (tr ++ tr'))) : ∃ w', Signal.outline.Holds w' (tr ++ tr') c' ∧
      (Coming w'.sc ∨ (.producer, .notified) ∈ events tr') := by
  have hrun := h'.assume (I := Signal.Apart) fun {tr₁ _} h₁ hp => by
    obtain ⟨x, rfl⟩ := hp
    rw [← List.append_assoc] at hnz
    exact Signal.apart_of_run ((h.trans h₁).mono fun _ _ _ _ => trivial) (nonzero_of_append hnz)
  refine hrun.invariant (I := fun tr' c' => ∃ w', Signal.outline.Holds w' (tr ++ tr') c' ∧
    (Coming w'.sc ∨ (.producer, .notified) ∈ events tr')) ⟨w, by simpa using hw, .inl hc⟩ ?_
  rintro tr₁ c₁ t a m l es ⟨w₁, hw₁, hc₁⟩ hs hG
  obtain ⟨w₂, hw₂, hguar⟩ := hw₁.next hs hG trivial
  refine ⟨w₂, List.append_assoc .. ▸ hw₂, ?_⟩
  rw [events_append]
  rcases hc₁ with hc₁ | hc₁
  · cases t with
    | consumer =>
      have hguar : Signal.ConsumerGuar w₁ w₂ := hguar
      exact .inl (hc₁.consumer hguar.sc)
    | producer =>
      have hguar : Signal.ProducerGuar w₁ w₂ := hguar
      refine (hguar.coming hc₁).imp_right fun ⟨es', heq, hn⟩ => List.mem_append_right _ ?_
      have h₁ : w₁.hist = tr ++ tr₁ := hw₁.hist
      have h₂ : w₂.hist = (tr ++ tr₁) ++ emit .producer es := hw₂.hist
      rw [h₁, h₂] at heq
      have heq := List.append_cancel_left heq
      have hmem : ((.producer, .inl .notified) : Thread × WeakEvent) ∈ emit .producer es := by
        rw [heq]
        exact List.mem_map.mpr ⟨_, hn, rfl⟩
      exact List.mem_filterMap.mpr ⟨_, hmem, rfl⟩
  · exact .inr (List.mem_append_left _ hc₁)

end Runs

/-- **No wakeup is lost under weak memory** in a run where `waiters` never wraps: while the
consumer sleeps and the queue is not empty, the producer is still to notify. -/
theorem weak_no_lost_wakeup {garbage : ℕ → Option ℕ} {tr : List (Thread × WeakEvent)} {c : WeakConfig}
    (h : program.Run Signal.NoWrap (start garbage) tr c) (hnz : NonzeroValues (events tr)) :
    (Asleep c → Nonempty c → NotifyToCome tr c) ∧
      ¬((c.loc .producer).2 = .idle ∧ Nonempty c ∧ Asleep c) := by
  obtain ⟨w, hw⟩ := signal_of_run h hnz
  have hmem : w.mem = c.mem := hw.mem
  have hg : Signal.Glob w := hw.glob
  have hcoming : Asleep c → Nonempty c → NotifyToCome tr c := by
    rintro ⟨hpc, hsleep⟩ ⟨k, a, hlast, ha⟩
    have hl : Signal.Consumer w (c.loc .consumer) := hw.loc .consumer
    have hsc := hl.sc
    rw [hpc] at hsc
    rw [← hmem] at hsleep hlast
    have hne : w.next w.mem.plain.tail ≠ none := by
      obtain ⟨k', a', hlast', ha'⟩ := hg.lasts.next w.mem.plain.tail
      obtain ⟨-, rfl⟩ := hlast.unique hlast'
      exact ha' ▸ ha
    have hc : Coming w.sc := (hsc hsleep).coming hne
    have hloc : ∀ {w' tr' c'}, Signal.outline.Holds w' tr' c' → w'.sc.prod = (c'.loc .producer).2 := by
      intro w' tr' c' hw'
      have hp : Signal.Producer w' (c'.loc .producer) := hw'.loc .producer
      exact hp.sc.1
    refine ⟨hloc hw ▸ hc.signalling, fun tr' c' h' hnz' hno => ?_⟩
    obtain ⟨w', hw', hc'⟩ := coming_of_run h hw hc h' hnz'
    exact hloc hw' ▸ (hc'.resolve_right hno).signalling
  refine ⟨hcoming, fun ⟨hidle, hne, hsleep⟩ => ?_⟩
  have := (hcoming hsleep hne).1
  simp [hidle, Pc.signalling] at this

/-- The consumer looks twice for a link that has been stored, does not see it, and goes to sleep
before the `fetch_add`. -/
theorem run_missed : ∃ (tr : List (Thread × WeakEvent)) (c : WeakConfig),
    program.Run Signal.NoWrap (start fun _ => some 7) tr c ∧
      events tr = [(.producer, .enqueue 7), (.producer, .linked 7), (.consumer, .dequeue)] ∧ Asleep c ∧
      c.mem.plain.tail = 0 := by
  have h₀ : program.Run Signal.NoWrap (start fun _ => some 7) [] (start fun _ => some 7) := .start
  have h₁ := h₀.soloAt (fun _ l _ => l.2.counts) (fun _ _ _ h => h) .producer
    [(.enqueue 7, 0), (.run, 1), (.run, 0), (.run, 1)] _ _ _ rfl
  have h₂ := h₁.soloAt (fun _ l _ => l.2.counts) (fun _ _ _ h => h) .consumer
    [(.dequeue, 0), (.run, 0), (.run, 0), (.run, 0), (.run, 0), (.run, 0), (.run, 1), (.run, 0),
    (.run, 1), (.run, 0), (.run, 0), (.run, 1)] _ _ _ rfl
  exact ⟨_, _, h₂, rfl, ⟨rfl, rfl⟩, rfl⟩

/-- The theorem in that run. -/
theorem weak_no_lost_wakeup_missed : ∃ (tr : List (Thread × WeakEvent)) (c : WeakConfig),
    NonzeroValues (events tr) ∧ Asleep c ∧ Nonempty c ∧ NotifyToCome tr c := by
  obtain ⟨tr, c, h, hev, hsleep, htail⟩ := run_missed
  have hnz : NonzeroValues (events tr) := by
    rw [hev]
    intro t data h
    simp_all
  have hne : Nonempty c := nonempty_of_run (h.mono fun _ _ _ _ => trivial) hnz
    (by rw [hev, htail]; decide)
  exact ⟨tr, c, hnz, hsleep, hne, (weak_no_lost_wakeup h hnz).1 hsleep hne⟩

end Cds.SpscQueue.Weak
