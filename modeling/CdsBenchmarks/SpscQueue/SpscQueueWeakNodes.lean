import CdsBenchmarks.SpscQueue.SpscQueueFifo
import CdsBenchmarks.SpscQueue.SpscQueueWeakDefs

/-! What the two threads of the queue know of the nodes under weak memory. What the consumer
knows when it has read a link is the node behind it, and so on along the links that it has
not read. The steps of the eventcount leave the nodes alone. -/

namespace Cds.SpscQueue.Weak
open Concurrent Program
open Eventcount (Word signalImpl)

namespace Fifo

structure World where
  mem : WeakMem
  hist : List (Thread × WeakEvent)

namespace World

def uses (w : World) : List (Thread × Use Place Thread) := notes w.hist

def linked (w : World) : List CInt := linkedValues (events w.hist)

def returned (w : World) : List CInt := returnedValues (events w.hist)

end World

/-- Nothing has been done with node `n`. -/
structure Unborn (w : World) (n : ℕ) : Prop where
  msg : ∀ k a, w.mem.msg (.next n) k = some a → k = 0
  uses : ∀ a ∈ w.uses, a.2.place ≠ .data n ∧ a.2.place ≠ .link n

structure Glob (w : World) : Prop where
  data : ∀ k v, w.linked[k]? = some v → w.mem.plain.data (k + 1) = v
  nonzero : ∀ v ∈ w.linked, v ≠ 0
  tail : w.mem.plain.tail ≤ w.linked.length
  fresh : w.linked.length < w.mem.plain.fresh
  unborn : ∀ n, w.mem.plain.fresh ≤ n → Unborn w n
  guard : w.mem.msg.Ends .guard fun a => a.val = none → Known a.view w.uses .waiters true
  raceFree : RaceFree w.uses
  dead : NoUseAfterDelete w.uses
  deleted : ∀ a ∈ w.uses, ∀ n, Deletes a n → n < w.mem.plain.tail

/-- Whoever has view `v` may read the `next` field of node `n`. -/
inductive Node (w : World) (v : View Cell Thread) (n : ℕ) : Prop
  | last (hn : n = w.linked.length)
    (h : Settled w.mem.msg w.uses v (.next n) (.link n) fun next => next = none)
  | inner {k : ℕ} {a : Message Cell Thread (Option ℕ)} (hn : n < w.linked.length)
    (ha : a.val = some (n + 1))
    (h : Answered w.mem.msg w.uses v (.next n) (.link n) (fun next => next = none) k a)

/-- Whoever has view `v` may follow the links from `tail` on. -/
structure Reach (w : World) (v : View Cell Thread) : Prop where
  node : Node w v w.mem.plain.tail
  next : ∀ n k a, w.mem.plain.tail ≤ n → n < w.linked.length → w.mem.msg.Last (.next n) k a →
    Node w (v ⊔ a.view) (n + 1) ∧ Known (v ⊔ a.view) w.uses (.data (n + 1)) true

structure Owns (t : Thread) (w : World) (v : View Cell Thread) : Prop where
  guard : w.mem.msg.Ends .guard fun a => a.val = some t
  known : Known v w.uses .waiters true

/-- Everything unlinked has been returned. -/
def Balanced (w : World) : Prop := w.returned = w.linked.take w.mem.plain.tail

/-- The link from `t` to `n` has been read. -/
structure Followed (w : World) (v : View Cell Thread) (t n : ℕ) : Prop where
  balanced : Balanced w
  tail : t = w.mem.plain.tail
  next : n = t + 1
  lt : t < w.linked.length
  link : Known v w.uses (.link t) true
  node : Node w v n
  data : Known v w.uses (.data n) true

def ConsumerAt (w : World) (v : View Cell Thread) : Pc → Prop
  | .idle | .deqTail _ | .event _ => Balanced w
  | .deqNext _ t => Balanced w ∧ t = w.mem.plain.tail
  | .deqData _ t n => Followed w v t n
  | .deqDelete _ t n data => Followed w v t n ∧ w.linked[t]? = some data
  | .deqRet data => w.returned ++ [data] = w.linked.take w.mem.plain.tail
  | _ => False

structure Consumer (w : World) (x : WeakPc) : Prop where
  tail : Known x.1.cur w.uses .tail true
  data : Known x.1.cur w.uses (.data w.mem.plain.tail) true
  reach : Reach w x.1.cur
  owns : x.2.owns → Owns .consumer w x.1.cur
  loc : ConsumerAt w x.1.cur x.2

/-- The producer has the fresh node `n` with value `data`, not yet linked. -/
structure HasNode (w : World) (v : View Cell Thread) (data : CInt) (n : ℕ) : Prop where
  nonzero : data ≠ 0
  head : w.mem.plain.head = w.linked.length
  fresh : w.mem.plain.fresh = w.linked.length + 2
  node : n = w.linked.length + 1
  data : w.mem.plain.data n = data
  settled : Settled w.mem.msg w.uses v (.next n) (.link n) fun next => next = none
  known : Known v w.uses (.data n) true

def Ready (w : World) : Prop :=
  w.mem.plain.head = w.linked.length ∧ w.mem.plain.fresh = w.linked.length + 1

def ProducerAt (w : World) (v : View Cell Thread) : Pc → Prop
  | .idle | .signal _ => Ready w
  | .enqNew data => Ready w ∧ data ≠ 0
  | .enqHead data n => HasNode w v data n
  | .enqLink data n h => HasNode w v data n ∧ h = w.linked.length
  | .enqMove n => n = w.linked.length ∧ w.mem.plain.fresh = w.linked.length + 1
  | _ => False

structure Producer (w : World) (x : WeakPc) : Prop where
  head : Known x.1.cur w.uses .head true
  covers : w.mem.msg.Covers x.1.cur (.next w.linked.length)
  link : Known x.1.cur w.uses (.link w.linked.length) false
  owns : x.2.owns → Owns .producer w x.1.cur
  loc : ProducerAt w x.1.cur x.2

def Local : Thread → World → WeakPc → Prop
  | .producer => Producer
  | .consumer => Consumer

/-- What the producer leaves to the consumer. -/
structure ProducerGuar (w w' : World) : Prop where
  tail : w'.mem.plain.tail = w.mem.plain.tail
  returned : w'.returned = w.returned
  linked : w.linked <+: w'.linked
  known : ∀ (v : View Cell Thread) p, (p = .tail ∨ (∃ n, n ≤ w.linked.length ∧ p = .data n) ∨
    ∃ n, n < w.linked.length ∧ p = .link n) → Known v w.uses p true → Known v w'.uses p true
  node : ∀ v n, Node w v n → Node w' v n
  reach : ∀ v, Reach w v → Reach w' v
  owns : ∀ v, Owns .consumer w v → Owns .consumer w' v

/-- What the consumer leaves to the producer. -/
structure ConsumerGuar (w w' : World) : Prop where
  head : w'.mem.plain.head = w.mem.plain.head
  fresh : w'.mem.plain.fresh = w.mem.plain.fresh
  data : w'.mem.plain.data = w.mem.plain.data
  linked : w'.linked = w.linked
  next : ∀ n, w'.mem.msg (.next n) = w.mem.msg (.next n)
  known : ∀ (v : View Cell Thread) p, (p = .head ∨ ∃ n, w.linked.length < n ∧
    (p = .data n ∨ p = .link n)) → Known v w.uses p true → Known v w'.uses p true
  link : ∀ v : View Cell Thread, Known v w.uses (.link w.linked.length) false →
    Known v w'.uses (.link w.linked.length) false
  owns : ∀ v, Owns .producer w v → Owns .producer w' v

def Guar : Thread → World → World → Prop
  | .producer => ProducerGuar
  | .consumer => ConsumerGuar

def assertions : Assertions Thread WeakMem WeakPc WeakEvent World where
  mem := World.mem
  hist := World.hist
  glob := Glob
  loc := Local
  guar := Guar

variable {w w' : World} {v v' : View Cell Thread} {x y : WeakPc} {n t : ℕ} {data : CInt}

theorem Node.mono (h : Node w v n) (hv : v ≤ v') : Node w v' n := by
  cases h with
  | last hn h => exact .last hn (h.mono hv)
  | inner hn ha h => exact .inner hn ha (h.mono hv)

theorem Node.le (h : Node w v n) : n ≤ w.linked.length := by
  cases h with
  | last hn => exact hn.le
  | inner hn => exact hn.le

/-! ## Stability -/

theorem HasNode.stable (hl : HasNode w v data n) (hg : ConsumerGuar w w') : HasNode w' v data n := by
  have hlt : w.linked.length < n := hl.node ▸ Nat.lt_succ_self _
  refine ⟨hl.nonzero, ?_, ?_, ?_, ?_, hl.settled.congr (hg.next n) ?_, ?_⟩
  · rw [hg.head, hg.linked, hl.head]
  · rw [hg.fresh, hg.linked, hl.fresh]
  · rw [hg.linked, hl.node]
  · rw [hg.data, hl.data]
  · exact hg.known v _ (.inr ⟨n, hlt, .inr rfl⟩) hl.settled.known
  · exact hg.known v _ (.inr ⟨n, hlt, .inl rfl⟩) hl.known

theorem Producer.stable (hl : Producer w x) (hg : ConsumerGuar w w') : Producer w' x := by
  refine ⟨hg.known _ _ (.inl rfl) hl.head, ?_, ?_, fun ho => hg.owns _ (hl.owns ho), ?_⟩
  · rw [hg.linked]
    exact hl.covers.congr (hg.next _)
  · rw [hg.linked]
    exact hg.link _ hl.link
  have hat := hl.loc
  have hready : Ready w → Ready w' := fun h => by rwa [Ready, hg.head, hg.fresh, hg.linked]
  cases hx : x.2 <;> rw [hx] at hat <;> try exact hat.elim
  case idle | signal => exact hready hat
  case enqNew data => exact ⟨hready hat.1, hat.2⟩
  case enqHead data n => exact hat.stable hg
  case enqLink data n h => exact ⟨hat.1.stable hg, by rw [hg.linked, hat.2]⟩
  case enqMove n => exact ⟨by rw [hg.linked, hat.1], by rw [hg.fresh, hg.linked, hat.2]⟩

/-- What has been unlinked stays a prefix of what has been linked. -/
theorem ProducerGuar.take (hg : ProducerGuar w w') (ht : w.mem.plain.tail ≤ w.linked.length) :
    w'.linked.take w'.mem.plain.tail = w.linked.take w.mem.plain.tail := by
  obtain ⟨vs, hvs⟩ := hg.linked
  rw [hg.tail, ← hvs, List.take_append_of_le_length ht]

theorem Followed.stable (hl : Followed w v t n) (ht : w.mem.plain.tail ≤ w.linked.length)
    (hg : ProducerGuar w w') : Followed w' v t n where
  balanced := by
    rw [Balanced, hg.returned, hg.take ht]
    exact hl.balanced
  tail := hl.tail.trans hg.tail.symm
  next := hl.next
  lt := Nat.lt_of_lt_of_le hl.lt hg.linked.length_le
  link := hg.known v _ (.inr (.inr ⟨t, hl.lt, rfl⟩)) hl.link
  node := hg.node v n hl.node
  data := hg.known v _ (.inr (.inl ⟨n, hl.node.le, rfl⟩)) hl.data

theorem Consumer.stable (hl : Consumer w x) (hgl : Glob w) (hg : ProducerGuar w w') : Consumer w'
    x := by
  refine ⟨hg.known _ _ (.inl rfl) hl.tail, ?_, hg.reach _ hl.reach, fun ho => hg.owns _
    (hl.owns ho), ?_⟩
  · rw [hg.tail]
    exact hg.known _ _ (.inr (.inl ⟨_, hgl.tail, rfl⟩)) hl.data
  have hat := hl.loc
  have htake := hg.take hgl.tail
  have hbal : Balanced w → Balanced w' := fun h => by rwa [Balanced, hg.returned, htake]
  cases hx : x.2 <;> rw [hx] at hat <;> try exact hat.elim
  case idle | deqTail | event => exact hbal hat
  case deqNext s t => exact ⟨hbal hat.1, hat.2.trans hg.tail.symm⟩
  case deqData s t n => exact hat.stable hgl.tail hg
  case deqDelete s t n data =>
    obtain ⟨hf, hget⟩ := hat
    obtain ⟨vs, hvs⟩ := hg.linked
    exact ⟨hf.stable hgl.tail hg, by rw [← hvs, List.getElem?_append_left hf.lt, hget]⟩
  case deqRet data =>
    change w'.returned ++ [data] = _
    rw [hg.returned, htake]
    exact hat

/-! ## Steps that leave the nodes alone -/

/-- A step of `t`, with plain uses `us`, that at most reads the nodes from `tail` on. -/
structure Quiet (t : Thread) (us : List (Place × Bool)) (v : View Cell Thread) (w w' : World) : Prop
    where
  uses : w'.uses = w.uses ++ usesOf t us v
  next : ∀ n, w'.mem.msg (.next n) = w.mem.msg (.next n)
  data : w'.mem.plain.data = w.mem.plain.data
  fresh : w'.mem.plain.fresh = w.mem.plain.fresh
  tail : w'.mem.plain.tail = w.mem.plain.tail
  linked : w'.linked = w.linked
  guard : ∀ u, u ≠ t → (w.mem.msg.Ends .guard fun a => a.val = some u) →
    w'.mem.msg.Ends .guard fun a => a.val = some u
  use : ∀ a ∈ us, match a.1 with
    | .head => t = .producer
    | .tail => t = .consumer
    | .waiters => w.mem.msg.Ends .guard fun a => a.val = some t
    | .data n | .link n => t = .consumer ∧ a.2 = false ∧ w.mem.plain.tail ≤ n ∧ n ≤ w.linked.length

section Steps
variable {me : Thread} {us : List (Place × Bool)} {p : Place} {b : Bool}

theorem Quiet.known (hq : Quiet me us v w w') (hp : ∀ a ∈ us, a.1 = p → a.2 = false ∧ b = false)
    (hk : Known v' w.uses p b) : Known v' w'.uses p b :=
  hq.uses ▸ known_append.mpr ⟨hk, known_usesOf_of_ne hp⟩

/-- A thread knows its own uses. -/
theorem known_own (huses : w'.uses = w.uses ++ usesOf me us v) (hv : v ≤ v')
    (hk : Known v' w.uses p b) : Known v' w'.uses p b := huses ▸ known_append.mpr ⟨hk, known_usesOf hv⟩

/-- What a step leaves of a node that it does not touch. -/
theorem Unborn.after (hu : Unborn w n) (hm : w'.mem.msg (.next n) = w.mem.msg (.next n))
    (huses : w'.uses = w.uses ++ usesOf me us v) (hus : ∀ c ∈ us, c.1 ≠ .data n ∧ c.1 ≠ .link n) :
    Unborn w' n := by
  refine ⟨fun k a ha => hu.msg k a (hm ▸ ha), fun a ha => ?_⟩
  rw [huses] at ha
  rcases List.mem_append.mp ha with ha | ha
  · exact hu.uses a ha
  · obtain ⟨c, hc, rfl⟩ := mem_usesOf.mp ha
    exact hus c hc

/-- Only uses of nodes from `tail` on, by a step that deletes at most nodes before `k`. -/
theorem dead_append (hg : Glob w) {k : ℕ} (hk : w.mem.plain.tail ≤ k)
    (hus : ∀ c ∈ us, ∀ n, c.1 = .data n ∨ c.1 = .link n → w.mem.plain.tail ≤ n)
    (hdel : ∀ a ∈ usesOf me us v, ∀ n, Deletes a n → n < k) (hnew : NoUseAfterDelete (usesOf me us v)) :
    NoUseAfterDelete (w.uses ++ usesOf me us v) ∧
      ∀ a ∈ w.uses ++ usesOf me us v, ∀ n, Deletes a n → n < k := by
  refine ⟨List.pairwise_append.mpr ⟨hg.dead, hnew, fun a ha c hc n hd => ?_⟩, fun a ha n hd => ?_⟩
  · have hlt := hg.deleted a ha n hd
    obtain ⟨c, hmem, rfl⟩ := mem_usesOf.mp hc
    exact ⟨fun h => absurd (hus c hmem n (.inl h)) (Nat.not_le.mpr hlt),
      fun h => absurd (hus c hmem n (.inr h)) (Nat.not_le.mpr hlt)⟩
  · exact (List.mem_append.mp ha).elim (fun h => Nat.lt_of_lt_of_le (hg.deleted a h n hd) hk)
      fun h => hdel a h n hd

/-- A step that deletes nothing. -/
theorem dead_keep (hg : Glob w) (hus : ∀ c ∈ us, ∀ n, c.1 = .data n ∨ c.1 = .link n →
    w.mem.plain.tail ≤ n)
    (hdel : ∀ a ∈ usesOf me us v, ∀ n, ¬Deletes a n) :
    NoUseAfterDelete (w.uses ++ usesOf me us v) ∧
      ∀ a ∈ w.uses ++ usesOf me us v, ∀ n, Deletes a n → n < w.mem.plain.tail :=
  dead_append hg le_rfl hus (fun a ha n hd => absurd hd (hdel a ha n))
    (List.pairwise_of_forall_mem_list fun a ha _ _ n hd => absurd hd (hdel a ha n))

/-- The mutex has one owner. -/
theorem ends_unique {m : Messages Cell Thread Cell.Val} {o o' : Option Thread}
    (h : m.Ends .guard fun a => a.val = o) (h' : m.Ends .guard fun a => a.val = o') : o = o' := by
  obtain ⟨-, a, -, ha, ha'⟩ := (h.and h').exists
  exact ha.symm.trans ha'

theorem Quiet.waiters (hq : Quiet me us v w w') {o : Option Thread} (ho : o ≠ some me)
    (h : w.mem.msg.Ends .guard fun a => a.val = o) (hk : Known v' w.uses .waiters b) :
    Known v' w'.uses .waiters b := by
  refine hq.known (fun a ha hp => ?_) hk
  have hu := hq.use a ha
  rw [hp] at hu
  exact absurd (ends_unique h hu) ho

theorem Quiet.owns (hq : Quiet me us v w w') {u : Thread} (hu : u ≠ me) (h : Owns u w v') : Owns u
    w' v' :=
  ⟨hq.guard u hu h.guard, hq.waiters (by simpa using hu) h.guard h.known⟩

theorem Quiet.producerGuar (hq : Quiet .producer us v w w') (hr : w'.returned = w.returned) :
    ProducerGuar w w' := by
  have hlink : ∀ n, ∀ a ∈ us, a.1 ≠ .data n ∧ a.1 ≠ .link n := by
    intro n a ha
    have hu := hq.use a ha
    constructor <;> intro h <;> rw [h] at hu <;> exact absurd hu.1 (by decide)
  have hknown : ∀ {v' : View Cell Thread} {b n}, Known v' w.uses (.link n) b →
      Known v' w'.uses (.link n) b :=
    fun {_ _ n} hk => hq.known (fun a ha h => absurd h (hlink n a ha).2) hk
  have hdata : ∀ {v' : View Cell Thread} {b n}, Known v' w.uses (.data n) b →
      Known v' w'.uses (.data n) b :=
    fun {_ _ n} hk => hq.known (fun a ha h => absurd h (hlink n a ha).1) hk
  have hnode : ∀ v' n, Node w v' n → Node w' v' n := by
    rintro v' n (⟨hn, h⟩ | ⟨hn, ha, h⟩)
    · exact .last (hq.linked ▸ hn) (h.congr (hq.next n) (hknown h.known))
    · exact .inner (hq.linked ▸ hn) ha (h.congr (hq.next n) (hknown h.own) (hknown h.known))
  refine ⟨hq.tail, hr, hq.linked ▸ List.prefix_rfl, fun v' p hp hk => ?_, hnode, fun v' h => ⟨?_, ?_⟩,
    fun _ h => hq.owns (by decide) h⟩
  · rcases hp with rfl | ⟨n, -, rfl⟩ | ⟨n, -, rfl⟩
    · refine hq.known (fun a ha h => ?_) hk
      have hu := hq.use a ha
      rw [h] at hu
      cases hu
    · exact hdata hk
    · exact hknown hk
  · exact hq.tail ▸ hnode _ _ h.node
  · intro n k a hn hlt hl
    obtain ⟨hn', hk⟩ := h.next n k a (hq.tail ▸ hn) (hq.linked ▸ hlt) (hl.congr (hq.next n).symm)
    exact ⟨hnode _ _ hn', hdata hk⟩

theorem Quiet.consumerGuar (hq : Quiet .consumer us v w w')
    (hh : w'.mem.plain.head = w.mem.plain.head) : ConsumerGuar w w' := by
  refine ⟨hh, hq.fresh, hq.data, hq.linked, hq.next, fun v' p hp hk => ?_, fun v' hk => ?_,
    fun _ h => hq.owns (by decide) h⟩
  · refine hq.known (fun a ha h => ?_) hk
    have hu := hq.use a ha
    rcases hp with rfl | ⟨n, hn, rfl | rfl⟩ <;> rw [h] at hu
    · cases hu
    · exact absurd hu.2.2.2 (Nat.not_le.mpr hn)
    · exact absurd hu.2.2.2 (Nat.not_le.mpr hn)
  · refine hq.known (fun a ha h => ⟨?_, rfl⟩) hk
    have hu := hq.use a ha
    rw [h] at hu
    exact hu.2.1

theorem Quiet.glob (hq : Quiet me us v w w') (hg : Glob w)
    (hguard : w'.mem.msg.Ends .guard fun a => a.val = none → Known a.view w'.uses .waiters true)
    (hrace : ∀ a ∈ us, Known v w.uses a.1 a.2) : Glob w' := by
  have hnode : ∀ c ∈ us, ∀ n, c.1 = .data n ∨ c.1 = .link n →
      c.2 = false ∧ w.mem.plain.tail ≤ n ∧ n ≤ w.linked.length := by
    intro c hc n h
    have hu := hq.use c hc
    rcases h with h | h <;> rw [h] at hu <;> exact hu.2
  have hdead : NoUseAfterDelete (w.uses ++ usesOf me us v) ∧
      ∀ a ∈ w.uses ++ usesOf me us v, ∀ n, Deletes a n → n < w.mem.plain.tail := by
    refine dead_keep hg (fun c hc n h => (hnode c hc n h).2.1) fun a ha n hd => ?_
    obtain ⟨c, hc, rfl⟩ := mem_usesOf.mp ha
    exact absurd (hd.2.1.symm.trans (hnode c hc n (.inr hd.2.2)).1) (by decide)
  refine ⟨fun k d hd => ?_, fun d hd => hg.nonzero d (hq.linked ▸ hd), ?_, ?_, fun n hn => ?_, hguard,
    hq.uses ▸ hg.raceFree.append hrace, hq.uses ▸ hdead.1, ?_⟩
  · rw [hq.data]
    exact hg.data k d (hq.linked ▸ hd)
  · rw [hq.tail, hq.linked]
    exact hg.tail
  · rw [hq.fresh, hq.linked]
    exact hg.fresh
  · have hle : w.mem.plain.fresh ≤ n := hq.fresh ▸ hn
    refine (hg.unborn n hle).after (hq.next n) hq.uses fun c hc => ⟨fun h => ?_, fun h => ?_⟩
    · exact absurd (hnode c hc n (.inl h)).2.2 (Nat.not_le.mpr (Nat.lt_of_lt_of_le hg.fresh hle))
    · exact absurd (hnode c hc n (.inr h)).2.2 (Nat.not_le.mpr (Nat.lt_of_lt_of_le hg.fresh hle))
  · rw [hq.uses, hq.tail]
    exact hdead.2

/-- The mutex, where the step does not access it. -/
theorem Quiet.guard_keep (hq : Quiet me us v w w') (hg : Glob w)
    (hm : w'.mem.msg .guard = w.mem.msg .guard) :
    w'.mem.msg.Ends .guard fun a => a.val = none → Known a.view w'.uses .waiters true := by
  by_cases hw : ∃ a ∈ us, a.1 = .waiters
  · obtain ⟨a, ha, hp⟩ := hw
    have hu := hq.use a ha
    rw [hp] at hu
    exact hu.congr hm fun c hc hn => absurd (hc.symm.trans hn) (by simp)
  · refine hg.guard.congr hm fun c hc hn => hq.known (fun a ha hp => ?_) (hc hn)
    exact absurd ⟨a, ha, hp⟩ hw

end Steps

/-! ## The steps of the eventcount -/

/-- The world after a step of `t` with outcome `r`. -/
def World.after (w : World) (t : Thread) (m : Messages Cell Thread Cell.Val)
    (r : Outcome Plain Pc Event Place) (v : View Cell Thread) : World :=
  ⟨⟨m, r.plain⟩, w.hist ++ emit t (r.trace v)⟩

section After
variable {m : Messages Cell Thread Cell.Val} {r : Outcome Plain Pc Event Place} {me : Thread}

theorem uses_after : (w.after me m r v).uses = w.uses ++ usesOf me r.uses v := uses_trace

theorem linked_after : (w.after me m r v).linked = w.linked ++ linkedValues (emit me r.events) := by
  simp only [World.linked, World.after, events_trace, SpscQueue.linkedValues_append]

theorem returned_after : (w.after me m r v).returned = w.returned ++ returnedValues
    (emit me r.events) := by
  simp only [World.returned, World.after, events_trace, SpscQueue.returnedValues_append]

/-- What a step in the eventcount, which goes on at `go` of the next point, does to the rest. -/
structure EventStep (me : Thread) (w : World) (v : View Cell Thread) (m : Messages Cell Thread Cell.Val)
    (r : Outcome Plain Pc Event Place) (go : Eventcount.Pc → Pc) : Prop where
  quiet : Quiet me r.uses v w (w.after me m r v)
  guard : m.Ends .guard fun a => a.val = none → Known a.view (w.after me m r v).uses .waiters true
  race : ∀ a ∈ r.uses, Known v w.uses a.1 a.2
  head : r.plain.head = w.mem.plain.head
  returned : (w.after me m r v).returned = w.returned
  loc : ∃ p, r.loc = go p ∧ (p.owns → Owns me (w.after me m r v) v)

/-- The events and the fields outside the eventcount. -/
structure Inner (w : World) (r : Outcome Plain Pc Event Place) : Prop where
  data : r.plain.data = w.mem.plain.data
  fresh : r.plain.fresh = w.mem.plain.fresh
  head : r.plain.head = w.mem.plain.head
  tail : r.plain.tail = w.mem.plain.tail
  events : r.events = [] ∨ r.events = [.notified]

theorem Inner.linked (hi : Inner w r) : (w.after me m r v).linked = w.linked := by
  rw [linked_after]
  rcases hi.events with h | h <;> rw [h] <;> exact List.append_nil _

theorem Inner.returned (hi : Inner w r) : (w.after me m r v).returned = w.returned := by
  rw [returned_after]
  rcases hi.events with h | h <;> rw [h] <;> exact List.append_nil _

variable {go : Eventcount.Pc → Pc} {p p' : Eventcount.Pc} {k : ℕ} {a b : Message Cell Thread
  (Option Thread)}

/-- A step that does not access the mutex. -/
theorem eventStep_keep (hg : Glob w) (hi : Inner w r) (hm : ∀ z, z ≠ .count → m z = w.mem.msg z)
    (huse : ∀ c ∈ r.uses, c.1 = .waiters ∧ p.owns) (ho : p.owns → Owns me w v) (hr : r.loc = go p')
    (hp : p'.owns → p.owns) : EventStep me w v m r go := by
  have hguard : m .guard = w.mem.msg .guard := hm _ (by decide)
  have hq : Quiet me r.uses v w (w.after me m r v) := by
    refine ⟨uses_after, fun n => hm _ (by simp), hi.data, hi.fresh, hi.tail, hi.linked,
      fun u _ h => h.congr hguard fun _ h => h, fun c hc => ?_⟩
    obtain ⟨h, hown⟩ := huse c hc
    rw [h]
    exact (ho hown).guard
  refine ⟨hq, hq.guard_keep hg hguard, fun c hc => ?_, hi.head, hi.returned, p', hr, fun h => ?_⟩
  · obtain ⟨h, hown⟩ := huse c hc
    rw [h]
    exact (ho hown).known.of_all
  · exact ⟨(ho (hp h)).guard.congr hguard fun _ h => h, known_own hq.uses le_rfl (ho (hp h)).known⟩

theorem known_after (hu : r.uses = []) {v' : View Cell Thread} (hk : Known v' w.uses .waiters true) :
    Known v' (w.after me m r v).uses .waiters true := by
  rw [uses_after, hu]
  exact known_append.mpr ⟨hk, known_nil⟩

/-- A write to the mutex that the other thread does not own. -/
theorem quiet_guard (hi : Inner w r) (hu : r.uses = [])
    (hno : ∀ u, u ≠ me → ¬w.mem.msg.Ends .guard fun a => a.val = some u) :
    Quiet me r.uses v w (w.after me (w.mem.msg.put .guard k b) r v) := by
  have hput : ∀ n, (w.mem.msg.put .guard k b) (.next n) = w.mem.msg (.next n) := fun n =>
    Messages.put_of_ne (by simp)
  exact ⟨uses_after, hput, hi.data, hi.fresh, hi.tail, hi.linked,
    fun u h hown => absurd hown (hno u h), by simp [hu]⟩

/-- `guard.lock` has found the mutex free. -/
theorem eventStep_lock (hg : Glob w) (hi : Inner w r) (hu : r.uses = [])
    (ha : w.mem.msg .guard k = some a) (hs : w.mem.msg .guard (k + 1) = none) (hn : a.val = none)
    (hb : b.val = some me) (hav : a.view ≤ v) (hr : r.loc = go p') :
    EventStep me w v (w.mem.msg.put .guard (k + 1) b) r go := by
  refine ⟨quiet_guard hi hu fun u _ h => ?_, hg.guard.put ha hs fun h => ?_, by simp [hu], hi.head,
    hi.returned, p', hr, fun _ => ⟨hg.guard.put ha hs hb, ?_⟩⟩
  · exact absurd (hn.symm.trans (h.read ha hs)) (by simp)
  · exact absurd (hb.symm.trans h) (by simp)
  · exact known_after hu ((hg.guard.read ha hs hn).mono hav)

/-- `guard.unlock` of the owner. -/
theorem eventStep_unlock (hi : Inner w r) (hu : r.uses = []) (ho : Owns me w v)
    (ha : w.mem.msg .guard k = some a) (hs : w.mem.msg .guard (k + 1) = none) (hvb : v ≤ b.view)
    (hr : r.loc = go p') (hp : p'.owns = false) :
    EventStep me w v (w.mem.msg.put .guard (k + 1) b) r go := by
  refine ⟨quiet_guard hi hu fun u hne h => ?_, ho.guard.put ha hs fun _ => ?_, by simp [hu], hi.head,
    hi.returned, p', hr, fun h => absurd (hp.symm.trans h) (by decide)⟩
  · exact hne (Option.some.inj (ends_unique h ho.guard))
  · exact known_after hu (ho.known.mono hvb)

theorem signalImpl_owns (c : Word) : (signalImpl c).owns = false := by
  unfold signalImpl
  split <;> rfl

/-- Every step of the eventcount. -/
theorem eventStep {spurious : Bool} {i : Code} {m : Messages Cell Thread Cell.Val}
    {u : Views Cell Thread} (hg : Glob w)
    (hi : event me spurious w.mem.plain go p = some i)
    (hx : i.exec k w.mem.msg (x.1.tick me) = some (m, u, r)) (ho : p.owns → Owns me w x.1.cur) :
    EventStep me w u.cur m r go := by
  have htick : x.1.cur ≤ (x.1.tick me).cur := Views.cur_le_tick
  have hv : x.1.cur ≤ u.cur := htick.trans (Instr.exec_cur_le hx)
  have ho' : p.owns → Owns me w u.cur := fun h => ⟨(ho h).guard, (ho h).known.mono hv⟩
  have hcount : ∀ {i} {c : Message Cell Thread Word} (z : Cell), z ≠ .count →
      w.mem.msg.put .count i c z = w.mem.msg z := fun z hz => Messages.put_of_ne hz
  have hlock : ∀ {p'}, i = lock me w.mem.plain (go p) (go p') → p.owns = false →
      EventStep me w u.cur m r go := by
    rintro p' rfl hp
    obtain ⟨a, ha, -, rfl, ⟨hf, rfl, -⟩ | ⟨o, hf, hs, hw, rfl⟩⟩ := Instr.exec_rmw hx
    · have hno : a.val ≠ none := fun h => by simp [h] at hf
      exact eventStep_keep (p := p) hg ⟨rfl, rfl, rfl, rfl, .inl rfl⟩ (fun _ _ => rfl)
        (by simp) ho' (if_neg hno) id
    · obtain ⟨hn, rfl⟩ : a.val = none ∧ some me = o := by simpa using hf
      exact eventStep_lock hg ⟨rfl, rfl, rfl, rfl, .inl rfl⟩ rfl ha hs hn rfl
        (hw ▸ (Views.le_cur_read rfl).trans Views.cur_le_write) (if_pos hn)
  have hunlock : ∀ {m' p'}, i = unlock m' (go p') → Inner w ⟨m', go p', [], []⟩ → p.owns → p'.owns =
    false →
      EventStep me w u.cur m r go := by
    rintro m' p' rfl hin hp hp'
    obtain ⟨a, ha, -, rfl, ⟨hf, -⟩ | ⟨o, hf, hs, hw, rfl⟩⟩ := Instr.exec_rmw hx
    · cases hf
    · cases hf
      exact eventStep_unlock hin rfl (ho' hp) ha hs ((Views.cur_le_released rfl).trans le_sup_right)
        rfl hp'
  cases p <;> simp only [event, reduceCtorEq, Option.some.injEq] at hi
  case waitLock cmp | signalLock cmp | relock => exact hlock hi.symm rfl
  case waitCv | waitUnlock => exact hunlock hi.symm ⟨rfl, rfl, rfl, rfl, .inl rfl⟩ rfl rfl
  case signalUnlock n =>
    exact hunlock hi.symm ⟨rfl, rfl, rfl, rfl, .inl rfl⟩ rfl (by split <;> rfl)
  case get =>
    subst hi
    obtain ⟨a, -, -, rfl, ⟨hf, -⟩ | ⟨o, -, -, -, rfl⟩⟩ := Instr.exec_rmw hx
    · cases hf
    · exact eventStep_keep hg ⟨rfl, rfl, rfl, rfl, .inl rfl⟩ hcount (by simp) ho' rfl nofun
  case signal =>
    subst hi
    obtain ⟨a, -, -, rfl, ⟨hf, -⟩ | ⟨o, -, -, -, rfl⟩⟩ := Instr.exec_rmw hx
    · cases hf
    · exact eventStep_keep hg ⟨rfl, rfl, rfl, rfl, .inl rfl⟩ hcount (by simp) ho' rfl fun h =>
        absurd ((signalImpl_owns _).symm.trans h) (by decide)
  case waitLoad cmp =>
    subst hi
    obtain ⟨a, -, -, rfl, -, rfl⟩ := Instr.exec_load hx
    refine eventStep_keep hg ⟨rfl, rfl, rfl, rfl, .inl rfl⟩ (fun _ _ => rfl) (by simp) ho' rfl ?_
    split <;> exact nofun
  case waitRecheck cmp =>
    subst hi
    obtain ⟨a, -, -, rfl, -, rfl⟩ := Instr.exec_load hx
    exact eventStep_keep hg ⟨rfl, rfl, rfl, rfl, .inl rfl⟩ (fun _ _ => rfl) (by simp) ho' rfl
      fun _ => rfl
  case signalCas cmp =>
    subst hi
    obtain ⟨a, -, -, rfl, ⟨-, rfl, -⟩ | ⟨o, -, -, -, rfl⟩⟩ := Instr.exec_rmw hx
    · exact eventStep_keep hg ⟨rfl, rfl, rfl, rfl, .inl rfl⟩ (fun _ _ => rfl) (by simp) ho' rfl
        fun _ => rfl
    · exact eventStep_keep hg ⟨rfl, rfl, rfl, rfl, .inl rfl⟩ hcount (by simp) ho' rfl fun _ => rfl
  case waitRead | waitStore n | signalRead | signalReset n =>
    subst hi
    obtain ⟨rfl, rfl, rfl⟩ := Instr.exec_plain hx
    refine eventStep_keep hg ⟨rfl, rfl, rfl, rfl, .inl rfl⟩ (fun _ _ => rfl) (fun c hc => ?_) ho' rfl
      fun _ => rfl
    obtain rfl := List.mem_singleton.mp hc
    exact ⟨rfl, rfl⟩
  case asleep =>
    split at hi <;> cases hi
    obtain ⟨rfl, rfl, rfl⟩ := Instr.exec_plain hx
    exact eventStep_keep hg ⟨rfl, rfl, rfl, rfl, .inl rfl⟩ (fun _ _ => rfl) (by simp) ho' rfl nofun
  case notifyAll =>
    subst hi
    obtain ⟨rfl, rfl, rfl⟩ := Instr.exec_plain hx
    exact eventStep_keep hg ⟨rfl, rfl, rfl, rfl, .inr rfl⟩ (fun _ _ => rfl) (by simp) ho' rfl nofun

end After

end Fifo

end Cds.SpscQueue.Weak
