import CdsBenchmarks.SpscQueue.SpscQueueWeakNodes

/-! Under weak memory the queue is first-in first-out, without data races, and uses no node
after its deletion. -/

namespace Cds.SpscQueue.Weak
open Concurrent Program

namespace Fifo

variable {w w' : World} {v v' : View Cell Thread} {x y : WeakPc} {n t : ℕ} {data : CInt}

/-! ## The steps of the producer -/

section Producer
variable {us : List (Place × Bool)} {m : Messages Cell Thread Cell.Val} {r : Outcome Plain Pc Event
  Place}
  {k : ℕ} {a : Message Cell Thread (Option ℕ)}

theorem Ready.keep (hr : Ready w) (hq : Quiet .producer us v w w')
    (hh : w'.mem.plain.head = w.mem.plain.head) : Ready w' := by
  rwa [Ready, hh, hq.fresh, hq.linked]

theorem HasNode.keep (hl : HasNode w v' data n) (hq : Quiet .producer us v w w')
    (hh : w'.mem.plain.head = w.mem.plain.head) (hv' : v' ≤ v) : HasNode w' v data n where
  nonzero := hl.nonzero
  head := by rw [hh, hq.linked, hl.head]
  fresh := by rw [hq.fresh, hq.linked, hl.fresh]
  node := by rw [hq.linked, hl.node]
  data := by rw [hq.data, hl.data]
  settled := (hl.settled.mono hv').congr (hq.next n) (known_own hq.uses le_rfl
    (hl.settled.known.mono hv'))
  known := known_own hq.uses le_rfl (hl.known.mono hv')

/-- A step that constructs and links no node. -/
theorem follows_producer (hg : Glob w) (hl : Producer w x) (hv : x.1.cur ≤ y.1.cur)
    (hq : Quiet .producer r.uses y.1.cur w (w.after .producer m r y.1.cur))
    (hguard : m.Ends .guard fun a => a.val = none →
      Known a.view (w.after .producer m r y.1.cur).uses .waiters true)
    (hrace : ∀ c ∈ r.uses, Known y.1.cur w.uses c.1 c.2)
    (hret : (w.after .producer m r y.1.cur).returned = w.returned)
    (ho : y.2.owns → Owns .producer (w.after .producer m r y.1.cur) y.1.cur)
    (hat : ProducerAt (w.after .producer m r y.1.cur) y.1.cur y.2) :
    assertions.Follows .producer w ⟨m, r.plain⟩ y (r.trace y.1.cur) := by
  refine ⟨w.after .producer m r y.1.cur, rfl, rfl, hq.glob hg hguard hrace,
    ⟨known_own hq.uses le_rfl (hl.head.mono hv), ?_, ?_, ho, hat⟩, hq.producerGuar hret⟩
  · rw [hq.linked]
    exact (hl.covers.mono hv).congr (hq.next _)
  · rw [hq.linked]
    exact known_own hq.uses le_rfl (hl.link.mono hv)

/-- A step that accesses at most `head`. -/
theorem follows_local (hg : Glob w) (hl : Producer w x) (hv : x.1.cur ≤ y.1.cur)
    (hd : r.plain.data = w.mem.plain.data) (hf : r.plain.fresh = w.mem.plain.fresh)
    (ht : r.plain.tail = w.mem.plain.tail) (huse : ∀ c ∈ r.uses, c.1 = .head)
    (hlink : linkedValues (emit .producer r.events) = [])
    (hret : returnedValues (emit .producer r.events) = []) (ho : y.2.owns = false)
    (hat : Quiet .producer r.uses y.1.cur w (w.after .producer w.mem.msg r y.1.cur) →
      ProducerAt (w.after .producer w.mem.msg r y.1.cur) y.1.cur y.2) :
    assertions.Follows .producer w ⟨w.mem.msg, r.plain⟩ y (r.trace y.1.cur) := by
  have hq : Quiet .producer r.uses y.1.cur w (w.after .producer w.mem.msg r y.1.cur) := by
    refine ⟨uses_after, fun _ => rfl, hd, hf, ht, ?_, fun _ _ h => h, fun c hc => ?_⟩
    · rw [linked_after, hlink, List.append_nil]
    · rw [huse c hc]
  refine follows_producer hg hl hv hq (hq.guard_keep hg rfl) (fun c hc => ?_) ?_
    (fun h => absurd (ho.symm.trans h) (by decide)) (hat hq)
  · rw [huse c hc]
    exact (hl.head.mono hv).of_all
  · rw [returned_after, hret, List.append_nil]

/-- The producer deletes nothing. -/
theorem not_deletes {c : Thread × Use Place Thread} (hc : c ∈ usesOf .producer us v) (n : ℕ) :
    ¬Deletes c n := by
  rintro ⟨h, -⟩
  obtain ⟨c, -, rfl⟩ := mem_usesOf.mp hc
  cases h

/-- A step of the producer that writes `next` of node `c`. -/
structure Writes (c : ℕ) (us : List (Place × Bool)) (v : View Cell Thread) (w w' : World) : Prop where
  uses : w'.uses = w.uses ++ usesOf .producer us v
  tail : w'.mem.plain.tail = w.mem.plain.tail
  msg : ∀ z, z ≠ .next c → w'.mem.msg z = w.mem.msg z
  use : ∀ a ∈ us, a.1 = .data c ∨ a.1 = .link c

namespace Writes
variable {c : ℕ}

theorem next (hw : Writes c us v w w') (hn : n ≠ c) : w'.mem.msg (.next n) = w.mem.msg (.next n) :=
  hw.msg _ (by simpa using hn)

theorem known (hw : Writes c us v w w') {p : Place} {b : Bool} (hd : p ≠ .data c) (hl : p ≠ .link c)
    (hk : Known v' w.uses p b) : Known v' w'.uses p b := by
  rw [hw.uses]
  refine known_append.mpr ⟨hk, known_usesOf_of_ne fun a ha h => ?_⟩
  rcases hw.use a ha with h' | h'
  · exact absurd (h.symm.trans h') hd
  · exact absurd (h.symm.trans h') hl

theorem guard (hw : Writes c us v w w') (hg : Glob w) :
    w'.mem.msg.Ends .guard fun a => a.val = none → Known a.view w'.uses .waiters true :=
  hg.guard.congr (hw.msg _ (by simp)) fun _ h hn => hw.known (by simp) (by simp) (h hn)

theorem owns (hw : Writes c us v w w') {u : Thread} (ho : Owns u w v') : Owns u w' v' :=
  ⟨ho.guard.congr (hw.msg _ (by simp)) fun _ h => h, hw.known (by simp) (by simp) ho.known⟩

theorem unborn (hw : Writes c us v w w') (hu : Unborn w n) (hn : n ≠ c) : Unborn w' n := by
  refine hu.after (hw.next hn) hw.uses fun a ha => ?_
  rcases hw.use a ha with h | h <;> rw [h] <;> simp [hn.symm]

theorem dead (hw : Writes c us v w w') (hg : Glob w) (hc : w.mem.plain.tail ≤ c) :
    NoUseAfterDelete w'.uses ∧ ∀ a ∈ w'.uses, ∀ n, Deletes a n → n < w'.mem.plain.tail := by
  rw [hw.uses, hw.tail]
  refine dead_keep hg (fun a ha n h => ?_) fun a ha => not_deletes ha
  rcases hw.use a ha with h' | h' <;> rw [h'] at h <;> simp at h <;> omega

/-- The nodes before. -/
theorem node (hw : Writes c us v w w') (h : Node w v' n) (hn : n ≠ c)
    (hlast : n = w.linked.length → n = w'.linked.length) (hle : w.linked.length ≤ w'.linked.length) :
    Node w' v' n := by
  have hk : ∀ {v' : View Cell Thread} {b}, Known v' w.uses (.link n) b → Known v' w'.uses (.link n) b :=
    hw.known (by simp) (by simpa using hn)
  cases h with
  | last hn' h => exact .last (hlast hn') (h.congr (hw.next hn) (hk h.known))
  | inner hlt ha h =>
    exact .inner (Nat.lt_of_lt_of_le hlt hle) ha (h.congr (hw.next hn) (hk h.own) (hk h.known))

end Writes

/-- The constructor of a node. -/
theorem follows_new (hg : Glob w) (hl : Producer w x) (hx : x.2 = .enqNew data)
    (hv : x.1.cur ≤ y.1.cur) (hk : x.1.cur.time (.next w.mem.plain.fresh) < k)
    (hky : k ≤ y.1.cur.time (.next w.mem.plain.fresh)) (ha : a.val = none)
    (hy : y.2 = .enqHead data w.mem.plain.fresh) :
    let r : Outcome Plain Pc Event Place := ⟨{ w.mem.plain with
        data := Function.update w.mem.plain.data w.mem.plain.fresh data
        fresh := w.mem.plain.fresh + 1 }, .enqHead data w.mem.plain.fresh, [],
        [(.data w.mem.plain.fresh, true), (.link w.mem.plain.fresh, true)]⟩
    assertions.Follows .producer w ⟨w.mem.msg.put (.next w.mem.plain.fresh) k a, r.plain⟩ y
      (r.trace y.1.cur) := by
  intro r
  have hat := hl.loc
  rw [hx] at hat
  obtain ⟨⟨hhead, hfresh⟩, hnz⟩ := hat
  have hborn := hg.unborn _ le_rfl
  have htail := hg.tail
  let w' := w.after .producer (w.mem.msg.put (.next w.mem.plain.fresh) k a) r y.1.cur
  have hlinked : w'.linked = w.linked := linked_after.trans (List.append_nil _)
  have hw : Writes w.mem.plain.fresh r.uses y.1.cur w w' := by
    refine ⟨uses_after, rfl, fun z hz => Messages.put_of_ne hz, fun c hc => ?_⟩
    rcases List.mem_pair.mp hc with rfl | rfl
    · exact .inl rfl
    · exact .inr rfl
  have hdead := hw.dead hg (by omega)
  -- nobody has used the node
  have hfree : ∀ p, p = .data w.mem.plain.fresh ∨ p = .link w.mem.plain.fresh →
      Known y.1.cur w.uses p true := by
    intro p hp c hc h
    have := hborn.uses c hc
    rcases hp with rfl | rfl
    · exact absurd h this.1
    · exact absurd h this.2
  have hnode : ∀ v' n, Node w v' n → Node w' v' n := fun v' n h =>
    hw.node h (by have := h.le; omega) (hlinked ▸ id) (hlinked ▸ le_rfl)
  refine ⟨w', rfl, rfl, ⟨fun i d hd => ?_, fun d hd => hg.nonzero d (hlinked ▸ hd), hlinked ▸ hg.tail,
    hlinked ▸ Nat.lt_succ_of_lt hg.fresh, fun n hn => ?_, hw.guard hg, ?_, hdead.1, hdead.2⟩,
    ⟨known_own hw.uses le_rfl (hl.head.mono hv), ?_, ?_, by simp [hy, Pc.owns], ?_⟩,
    ⟨rfl, returned_after.trans (List.append_nil _), hlinked ▸ List.prefix_rfl, fun v' p hp => ?_, hnode,
      fun v' h => ⟨hnode _ _ h.node, fun n i c hn hlt hlast => ?_⟩, fun v' h => hw.owns h⟩⟩
  · have hlt := (List.getElem?_eq_some_iff.mp hd).1
    rw [hlinked] at hd hlt
    have hne : i + 1 ≠ w.mem.plain.fresh := by omega
    exact (Function.update_of_ne hne ..).trans (hg.data i d hd)
  · have hlt : w.mem.plain.fresh < n := hn
    exact hw.unborn (hg.unborn n hlt.le) hlt.ne'
  · rw [hw.uses]
    refine hg.raceFree.append fun c hc => ?_
    rcases List.mem_pair.mp hc with rfl | rfl
    · exact hfree _ (.inl rfl)
    · exact hfree _ (.inr rfl)
  · rw [hlinked]
    exact (hl.covers.mono hv).congr (hw.next (by omega))
  · rw [hlinked]
    exact known_own hw.uses le_rfl (hl.link.mono hv)
  · rw [hy]
    refine ⟨hnz, hlinked ▸ hhead, ?_, hlinked ▸ hfresh, Function.update_self ..,
      ⟨?_, ?_, k, a, ?_, ha⟩, ?_⟩
    · rw [hlinked]
      exact congrArg (· + 1) hfresh
    · intro i c hc
      rcases Messages.put_eq_some.mp hc with ⟨rfl, -⟩ | ⟨-, hc⟩
      · exact hky
      · exact (hborn.msg i c hc).le.trans (Nat.zero_le _)
    · exact known_own hw.uses le_rfl (hfree _ (.inr rfl))
    · refine Messages.Covers.last_put (fun i c hc => ?_) hk
      exact (hborn.msg i c hc).le.trans (Nat.zero_le _)
    · exact known_own hw.uses le_rfl (hfree _ (.inl rfl))
  · rcases hp with rfl | ⟨n, hn, rfl⟩ | ⟨n, hn, rfl⟩
    · exact hw.known (by simp) (by simp)
    · exact hw.known (by simp; omega) (by simp)
    · exact hw.known (by simp) (by simp; omega)
  · rw [hlinked] at hlt
    have hne : n ≠ w.mem.plain.fresh := by omega
    obtain ⟨hn', hk'⟩ := h.next n i c hn hlt (hlast.congr (hw.next hne).symm)
    exact ⟨hnode _ _ hn', hw.known (by simp; omega) (by simp) hk'⟩

/-- The store to `head->next`. -/
theorem follows_link (hg : Glob w) (hl : Producer w x) (hx : x.2 = .enqLink data n w.linked.length)
    (hv : x.1.cur ≤ y.1.cur) (hk : x.1.cur.time (.next w.linked.length) < k) (ha : a.val = some n)
    (hva : y.1.cur ≤ a.view) (hy : y.2 = .enqMove n) :
    let r : Outcome Plain Pc Event Place :=
      ⟨w.mem.plain, .enqMove n, [.linked data], [(.link w.linked.length, false)]⟩
    assertions.Follows .producer w ⟨w.mem.msg.put (.next w.linked.length) k a, r.plain⟩ y
      (r.trace y.1.cur) := by
  intro r
  have hat := hl.loc
  rw [hx] at hat
  obtain ⟨⟨hnz, hhead, hfresh, rfl, hdata, hset, hkn⟩, -⟩ := hat
  let w' := w.after .producer (w.mem.msg.put (.next w.linked.length) k a) r y.1.cur
  have hlinked : w'.linked = w.linked ++ [data] := linked_after
  have hlen : w'.linked.length = w.linked.length + 1 := by rw [hlinked]; simp
  have hw : Writes w.linked.length r.uses y.1.cur w w' := by
    refine ⟨uses_after, rfl, fun z hz => Messages.put_of_ne hz, fun c hc => ?_⟩
    obtain rfl := List.mem_singleton.mp hc
    exact .inr rfl
  have hdead := hw.dead hg hg.tail
  have hread : ∀ {v' : View Cell Thread}, Known v' w.uses (.link w.linked.length) false →
      Known v' w'.uses (.link w.linked.length) false := by
    intro v' hk
    rw [hw.uses]
    refine known_append.mpr ⟨hk, known_usesOf_of_ne fun c hc _ => ?_⟩
    obtain rfl := List.mem_singleton.mp hc
    exact ⟨rfl, rfl⟩
  have hknown : ∀ {v' : View Cell Thread} {n}, Known v' w.uses (.data n) true →
      Known v' w'.uses (.data n) true := by
    intro v' n hk
    rw [hw.uses]
    exact known_append.mpr ⟨hk, known_usesOf_of_ne fun c hc h => by simp [List.mem_singleton.mp hc]
      at h⟩
  have hnode : ∀ v' n, Node w v' n → Node w' v' n := by
    intro v' n h
    by_cases hn : n = w.linked.length
    · subst hn
      cases h with
      | last _ h =>
        refine .inner (hlen ▸ Nat.lt_succ_self _) ha (h.answer hl.covers hk (hread h.known.of_all) ?_)
        rw [hw.uses]
        exact known_append.mpr ⟨h.known.mono le_sup_left, known_usesOf (hva.trans le_sup_right)⟩
      | inner hn => exact absurd hn (Nat.lt_irrefl _)
    · exact hw.node h hn (fun h => absurd h hn) (hlen ▸ Nat.le_succ _)
  have hlast : w'.mem.msg.Last (.next w.linked.length) k a := hl.covers.last_put hk
  have hset' : ∀ {v' : View Cell Thread}, x.1.cur ≤ v' → Settled w'.mem.msg w'.uses v'
      (.next (w.linked.length + 1)) (.link (w.linked.length + 1)) fun next => next = none := fun hv' =>
    (hset.mono hv').congr (hw.next (by omega)) (hw.known (by simp) (by simp) (hset.known.mono hv'))
  refine ⟨w', rfl, rfl, ⟨fun i d hd => ?_, fun d hd => ?_, hlen ▸ Nat.le_succ_of_le hg.tail,
    hlen ▸ hfresh ▸ Nat.lt_succ_self _, fun n hn => ?_, hw.guard hg, ?_, hdead.1, hdead.2⟩,
    ⟨known_own hw.uses le_rfl (hl.head.mono hv), ?_, ?_, by simp [hy, Pc.owns], ?_⟩,
    ⟨rfl, returned_after.trans (List.append_nil _), hlinked ▸ List.prefix_append ..,
    fun v' p hp => ?_, hnode,
      fun v' h => ⟨hnode _ _ h.node, fun n i c hn hlt hc => ?_⟩, fun v' h => hw.owns h⟩⟩
  · rw [hlinked] at hd
    by_cases hlt : i < w.linked.length
    · exact hg.data i d (List.getElem?_append_left hlt ▸ hd)
    · obtain rfl : i = w.linked.length := by
        have := (List.getElem?_eq_some_iff.mp hd).1
        simp only [List.length_append, List.length_singleton] at this
        omega
      obtain rfl : data = d := by simpa using hd
      exact hdata
  · rw [hlinked] at hd
    rcases List.mem_append.mp hd with hd | hd
    · exact hg.nonzero d hd
    · exact List.mem_singleton.mp hd ▸ hnz
  · have hle : w.mem.plain.fresh ≤ n := hn
    exact hw.unborn (hg.unborn n hle) (by omega)
  · rw [hw.uses]
    refine hg.raceFree.append fun c hc => ?_
    obtain rfl := List.mem_singleton.mp hc
    exact hl.link.mono hv
  · rw [hlen]
    exact (hset' hv).covers
  · rw [hlen]
    exact (hset' hv).known.of_all
  · rw [hy]
    exact ⟨hlen.symm, by rw [hlen]; exact hfresh⟩
  · rcases hp with rfl | ⟨n, -, rfl⟩ | ⟨n, hn, rfl⟩
    · exact hw.known (by simp) (by simp)
    · exact hknown
    · exact hw.known (by simp) (by simp [hn.ne])
  · by_cases hne : n = w.linked.length
    · subst hne
      obtain ⟨rfl, rfl⟩ := hlast.unique hc
      have hva' : x.1.cur ≤ v' ⊔ a.view := (hv.trans hva).trans le_sup_right
      exact ⟨.last hlen.symm (hset' hva'), hknown (hkn.mono hva')⟩
    · have hlt' : n < w.linked.length := by omega
      obtain ⟨hn', hk'⟩ := h.next n i c hn hlt' (hc.congr (hw.next hne).symm)
      exact ⟨hnode _ _ hn', hknown hk'⟩

end Producer

/-! ## The steps of the consumer -/

section Consumer
variable {us : List (Place × Bool)} {m : Messages Cell Thread Cell.Val} {r : Outcome Plain Pc Event
  Place}
  {k : ℕ} {a : Message Cell Thread (Option ℕ)}

theorem Node.keep (h : Node w v' n) (hq : Quiet .consumer us v w w') (hv : v ≤ v') : Node w' v' n := by
  cases h with
  | last hn h => exact .last (hq.linked ▸ hn) (h.congr (hq.next n) (known_own hq.uses hv h.known))
  | inner hn ha h => exact .inner (hq.linked ▸ hn) ha (h.congr (hq.next n) (known_own hq.uses hv h.own)
      (known_own hq.uses (hv.trans le_sup_left) h.known))

theorem Node.exists (h : Node w v n) : ∃ k a, w.mem.msg.Last (.next n) k a ∧
    (n = w.linked.length ∧ a.val = none ∨ n < w.linked.length ∧ a.val = some (n + 1)) := by
  cases h with
  | last hn h =>
    obtain ⟨k, a, hl, ha⟩ := h.last
    exact ⟨k, a, hl, .inl ⟨hn, ha⟩⟩
  | inner hn ha h => exact ⟨_, _, h.last, .inr ⟨hn, ha⟩⟩

/-- A step that unlinks nothing. -/
theorem follows_consumer (hg : Glob w) (hl : Consumer w x) (hv : x.1.cur ≤ y.1.cur)
    (hq : Quiet .consumer r.uses y.1.cur w (w.after .consumer m r y.1.cur))
    (hguard : m.Ends .guard fun a => a.val = none →
      Known a.view (w.after .consumer m r y.1.cur).uses .waiters true)
    (hrace : ∀ c ∈ r.uses, Known y.1.cur w.uses c.1 c.2) (hhead : r.plain.head = w.mem.plain.head)
    (ho : y.2.owns → Owns .consumer (w.after .consumer m r y.1.cur) y.1.cur)
    (hat : ConsumerAt (w.after .consumer m r y.1.cur) y.1.cur y.2) :
    assertions.Follows .consumer w ⟨m, r.plain⟩ y (r.trace y.1.cur) := by
  refine ⟨w.after .consumer m r y.1.cur, rfl, rfl, hq.glob hg hguard hrace,
    ⟨known_own hq.uses le_rfl (hl.tail.mono hv), ?_, ⟨?_, fun n i c hn hlt hc => ?_⟩, ho, hat⟩,
    hq.consumerGuar hhead⟩
  · rw [hq.tail]
    exact known_own hq.uses le_rfl (hl.data.mono hv)
  · rw [hq.tail]
    exact (hl.reach.node.mono hv).keep hq le_rfl
  · rw [hq.tail] at hn
    rw [hq.linked] at hlt
    obtain ⟨hn', hk⟩ := hl.reach.next n i c hn hlt (hc.congr (hq.next n).symm)
    have hle : x.1.cur ⊔ c.view ≤ y.1.cur ⊔ c.view := sup_le_sup_right hv _
    exact ⟨(hn'.mono hle).keep hq le_sup_left, known_own hq.uses le_sup_left (hk.mono hle)⟩

/-- A step that accesses at most `tail` and the nodes, of which it deletes none. -/
theorem follows_read (hg : Glob w) (hl : Consumer w x) (hv : x.1.cur ≤ y.1.cur)
    (hp : r.plain = w.mem.plain)
    (huse : ∀ c ∈ r.uses, c.1 = .tail ∨ ∃ n, (c.1 = .data n ∨ c.1 = .link n) ∧ c.2 = false ∧
      w.mem.plain.tail ≤ n ∧ n ≤ w.linked.length)
    (hrace : ∀ c ∈ r.uses, Known y.1.cur w.uses c.1 c.2)
    (hlink : linkedValues (emit .consumer r.events) = []) (ho : y.2.owns = false)
    (hat : Quiet .consumer r.uses y.1.cur w (w.after .consumer w.mem.msg r y.1.cur) →
      (w.after .consumer w.mem.msg r y.1.cur).returned = w.returned ++ returnedValues
      (emit .consumer r.events) → ConsumerAt (w.after .consumer w.mem.msg r y.1.cur) y.1.cur y.2) :
    assertions.Follows .consumer w ⟨w.mem.msg, r.plain⟩ y (r.trace y.1.cur) := by
  have hq : Quiet .consumer r.uses y.1.cur w (w.after .consumer w.mem.msg r y.1.cur) := by
    refine ⟨uses_after, fun _ => rfl, congrArg _ hp, congrArg _ hp, congrArg _ hp, ?_, fun _ _ h => h,
      fun c hc => ?_⟩
    · rw [linked_after, hlink, List.append_nil]
    · rcases huse c hc with h | ⟨n, h | h, hread⟩ <;> rw [h]
      · exact ⟨rfl, hread⟩
      · exact ⟨rfl, hread⟩
  exact follows_consumer hg hl hv hq (hq.guard_keep hg rfl) hrace (congrArg _ hp)
    (fun h => absurd (ho.symm.trans h) (by decide)) (hat hq returned_after)

theorem Balanced.keep (hb : Balanced w) (hq : Quiet .consumer us v w w')
    (hr : w'.returned = w.returned) :
    Balanced w' := by
  rwa [Balanced, hr, hq.linked, hq.tail]

/-- The acquiring load of `t->next`. -/
theorem follows_next (hg : Glob w) (hl : Consumer w x) {s : Site} (hx : x.2 = .deqNext s t)
    (hv : x.1.cur ≤ y.1.cur) (hb : w.mem.msg (.next t) k = some a) (hk : x.1.cur.time (.next t) ≤ k)
    (hav : a.view ≤ y.1.cur)
    (hr : r = match a.val with
      | none => ⟨w.mem.plain, s.resume 0, [], [(.link t, false)]⟩
      | some n => ⟨w.mem.plain, .deqData s t n, [], [(.link t, false)]⟩) (hy : y.2 = r.loc) :
    assertions.Follows .consumer w ⟨w.mem.msg, r.plain⟩ y (r.trace y.1.cur) := by
  have hat := hl.loc
  rw [hx] at hat
  obtain ⟨hbal, rfl⟩ := hat
  have htail := hg.tail
  have hknown : Known y.1.cur w.uses (.link w.mem.plain.tail) false := by
    cases hl.reach.node with
    | last _ h => exact (h.known.mono hv).of_all
    | inner _ _ h => exact h.own.mono hv
  have huse : ∀ c ∈ [((.link w.mem.plain.tail : Place), false)], c.1 = .tail ∨
      ∃ n, (c.1 = .data n ∨ c.1 = .link n) ∧ c.2 = false ∧ w.mem.plain.tail ≤ n ∧ n ≤
      w.linked.length := by
    intro c hc
    obtain rfl := List.mem_singleton.mp hc
    exact .inr ⟨_, .inr rfl, rfl, le_rfl, htail⟩
  have hrace : ∀ c ∈ [((.link w.mem.plain.tail : Place), false)], Known y.1.cur w.uses c.1 c.2 := by
    intro c hc
    obtain rfl := List.mem_singleton.mp hc
    exact hknown
  have hfound : a.val = none ∨ w.mem.plain.tail < w.linked.length ∧ a.val = some
    (w.mem.plain.tail + 1) ∧
      w.mem.msg.Last (.next w.mem.plain.tail) k a ∧ Known y.1.cur w.uses (.link w.mem.plain.tail)
      true := by
    cases hl.reach.node with
    | last _ h => exact .inl (h.val hb hk)
    | inner hlt hc h =>
      rcases h.read hb hk with ⟨rfl, rfl⟩ | hnone
      · exact .inr ⟨hlt, hc, h.last, h.known.mono (sup_le hv hav)⟩
      · exact .inl hnone
  rcases hfound with hnone | ⟨hlt, hsome, hlast, hall⟩
  · simp only [hnone] at hr
    subst hr
    refine follows_read hg hl hv rfl huse hrace rfl ?_ fun hq hret => ?_
    · rw [hy]
      cases s <;> rfl
    · rw [hy]
      have hbal' := hbal.keep hq (hret.trans (List.append_nil _))
      cases s <;> exact hbal'
  · simp only [hsome] at hr
    subst hr
    refine follows_read hg hl hv rfl huse hrace rfl (by rw [hy]; rfl) fun hq hret => ?_
    obtain ⟨hnode, hdata⟩ := hl.reach.next _ _ _ le_rfl hlt hlast
    have hle : x.1.cur ⊔ a.view ≤ y.1.cur := sup_le hv hav
    rw [hy]
    exact ⟨hbal.keep hq (hret.trans (List.append_nil _)), hq.tail.symm, rfl, hq.linked ▸ hlt,
      known_own hq.uses le_rfl hall, (hnode.mono hle).keep hq le_rfl,
      known_own hq.uses le_rfl (hdata.mono hle)⟩

/-- `delete (t); tail = n;`. -/
theorem follows_delete (hg : Glob w) (hl : Consumer w x) {s : Site} (hx : x.2 = .deqDelete s t n data)
    (hv : x.1.cur ≤ y.1.cur) (hy : y.2 = s.resume data) :
    let r : Outcome Plain Pc Event Place := ⟨{ w.mem.plain with tail := n }, s.resume data,
      [.unlinked data], [(.data t, true), (.link t, true), (.tail, true)]⟩
    assertions.Follows .consumer w ⟨w.mem.msg, r.plain⟩ y (r.trace y.1.cur) := by
  intro r
  have hat := hl.loc
  rw [hx] at hat
  obtain ⟨⟨hbal, rfl, rfl, hlt, hlink, hnode, hdata⟩, hget⟩ := hat
  have hnz : data ≠ 0 := hg.nonzero _ (List.mem_of_getElem? hget)
  let w' := w.after .consumer w.mem.msg r y.1.cur
  have huses : w'.uses = w.uses ++ usesOf .consumer r.uses y.1.cur := uses_after
  have hlinked : w'.linked = w.linked := linked_after.trans (List.append_nil _)
  have hret : w'.returned = w.returned := returned_after.trans (List.append_nil _)
  have hmem : ∀ c ∈ r.uses, c = (.data w.mem.plain.tail, true) ∨ c = (.link w.mem.plain.tail, true) ∨
      c = (.tail, true) := by simp [r]
  have hknown : ∀ {v' : View Cell Thread} {p b}, p ≠ .data w.mem.plain.tail → p ≠ .link
    w.mem.plain.tail →
      p ≠ .tail → Known v' w.uses p b → Known v' w'.uses p b := by
    intro v' p b h₁ h₂ h₃ hk
    rw [huses]
    refine known_append.mpr ⟨hk, known_usesOf_of_ne fun c hc h => ?_⟩
    rcases hmem c hc with rfl | rfl | rfl
    · exact absurd h.symm h₁
    · exact absurd h.symm h₂
    · exact absurd h.symm h₃
  have hown : ∀ {v' : View Cell Thread} {p b}, y.1.cur ≤ v' → Known v' w.uses p b → Known v' w'.uses
    p b :=
    fun hv' hk => known_own huses hv' hk
  have hkeep : ∀ {v' n}, y.1.cur ≤ v' → Node w v' n → Node w' v' n := by
    intro v' n hv' h
    cases h with
    | last hn h => exact .last (hlinked ▸ hn) (h.congr rfl (hown hv' h.known))
    | inner hn ha h =>
      exact .inner (hlinked ▸ hn) ha (h.congr rfl (hown hv' h.own) (hown (hv'.trans le_sup_left)
        h.known))
  have hdead : NoUseAfterDelete (w.uses ++ usesOf .consumer r.uses y.1.cur) ∧
      ∀ a ∈ w.uses ++ usesOf .consumer r.uses y.1.cur, ∀ n, Deletes a n → n < w.mem.plain.tail + 1 :=
    dead_append hg (Nat.le_succ _)
    (fun c hc n h => by rcases hmem c hc with rfl | rfl | rfl <;> simp at h <;> omega)
    (fun a ha n hd => by
      obtain ⟨c, hc, rfl⟩ := mem_usesOf.mp ha
      have hplace := hd.2.2
      rcases hmem c hc with rfl | rfl | rfl <;> simp at hplace
      omega)
    (by simp [NoUseAfterDelete, usesOf, emit, r, Deletes])
  refine ⟨w', rfl, rfl, ⟨fun i d hd => hg.data i d (hlinked ▸ hd), fun d hd => hg.nonzero d
    (hlinked ▸ hd), hlinked ▸ hlt, hlinked ▸ hg.fresh, fun n hn => ?_,
    hg.guard.congr rfl fun a h hn => hknown (by simp) (by simp) (by simp) (h hn),
    huses ▸ hg.raceFree.append fun c hc => ?_, huses ▸ hdead.1, huses ▸ hdead.2⟩,
    ⟨hown le_rfl (hl.tail.mono hv), hown le_rfl (hdata.mono hv), ⟨hkeep le_rfl (hnode.mono hv),
      fun n i c hn hlt hc => ?_⟩, ?_, ?_⟩,
    ⟨rfl, rfl, rfl, hlinked, fun _ => rfl, fun v' p hp => ?_, fun v' => ?_,
      fun v' h => ⟨h.guard, hknown (by simp) (by simp) (by simp) h.known⟩⟩⟩
  · have hle : w.mem.plain.fresh ≤ n := hn
    have hfresh := hg.fresh
    refine (hg.unborn n hle).after rfl huses fun c hc => ?_
    rcases hmem c hc with rfl | rfl | rfl <;> simp <;> omega
  · rcases hmem c hc with rfl | rfl | rfl
    · exact hl.data.mono hv
    · exact hlink.mono hv
    · exact hl.tail.mono hv
  · have hle : w.mem.plain.tail ≤ n := Nat.le_of_succ_le hn
    obtain ⟨hn', hk⟩ := hl.reach.next n i c hle (hlinked ▸ hlt) hc
    have hle : x.1.cur ⊔ c.view ≤ y.1.cur ⊔ c.view := sup_le_sup_right hv _
    exact ⟨hkeep le_sup_left (hn'.mono hle), hown le_sup_left (hk.mono hle)⟩
  · rw [hy, s.resume_of_ne_zero hnz]
    exact fun h => absurd h Bool.false_ne_true
  · rw [hy, s.resume_of_ne_zero hnz]
    change w'.returned ++ [data] = w'.linked.take (w.mem.plain.tail + 1)
    rw [hret, hlinked, List.take_add_one, hget, hbal]
    rfl
  · rcases hp with rfl | ⟨n, hn, rfl | rfl⟩
    · exact hknown (by simp) (by simp) (by simp)
    · exact hknown (by simp; omega) (by simp) (by simp)
    · exact hknown (by simp) (by simp; omega) (by simp)
  · exact hknown (by simp) (by simp; omega) (by simp)

end Consumer

/-! ## Every step -/

theorem producerAt_afterSignal (hr : Ready w) (p : Eventcount.Pc) : ProducerAt w v (afterSignal p) := by
  cases p <;> exact hr

theorem consumerAt_afterEvent (hb : Balanced w) (p : Eventcount.Pc) : ConsumerAt w v
    (afterEvent p) := by
  cases p with
  | done r => cases r <;> exact hb
  | _ => exact hb

section Step
variable {m : WeakMem} {es : List WeakEvent} {b : Bool} {k : ℕ} {i : Code}
  {ms : Messages Cell Thread Cell.Val} {r : Outcome Plain Pc Event Place}

theorem follows_producer_access (hg : Glob w) (hl : Producer w x)
    (hi : access .producer b w.mem.plain x.2 = some i)
    (hx : i.exec k w.mem.msg (x.1.tick .producer) = some (ms, y.1, r)) (hy : y.2 = r.loc) :
    assertions.Follows .producer w ⟨ms, r.plain⟩ y (r.trace y.1.cur) := by
  have htick : x.1.cur ≤ (x.1.tick .producer).cur := Views.cur_le_tick
  have hv : x.1.cur ≤ y.1.cur := htick.trans (Instr.exec_cur_le hx)
  have hat := hl.loc
  cases hxl : x.2 <;> rw [hxl] at hi hat <;>
    simp only [access, reduceCtorEq, Option.some.injEq] at hi <;> try exact hat.elim
  case enqNew data =>
    subst hi
    obtain ⟨-, hk, rfl, hw, rfl⟩ := Instr.exec_store hx
    exact follows_new hg hl hxl hv (Nat.lt_of_le_of_lt (htick.1 _) hk) (hw ▸ Views.le_time_write) rfl hy
  case enqHead data n =>
    subst hi
    obtain ⟨rfl, -, rfl⟩ := Instr.exec_plain hx
    refine follows_local hg hl hv rfl rfl rfl (by simp) rfl rfl (by rw [hy]; rfl) fun hq => ?_
    rw [hy]
    exact ⟨hat.keep hq rfl hv, hq.linked ▸ hat.head⟩
  case enqLink data n h =>
    subst hi
    obtain rfl := hat.2
    obtain ⟨-, hk, rfl, hw, rfl⟩ := Instr.exec_store hx
    exact follows_link hg hl hxl hv (Nat.lt_of_le_of_lt (htick.1 _) hk) rfl
      (hw ▸ Views.cur_le_released rfl) hy
  case enqMove n =>
    subst hi
    obtain ⟨rfl, -, rfl⟩ := Instr.exec_plain hx
    refine follows_local hg hl hv rfl rfl rfl (by simp) rfl rfl (by rw [hy]; rfl) fun hq => ?_
    rw [hy]
    exact ⟨hat.1.trans (congrArg _ hq.linked).symm, by rw [hq.fresh, hq.linked]; exact hat.2⟩
  case signal p =>
    obtain ⟨hq, hguard, hrace, hhead, hret, p', hloc, ho⟩ := eventStep hg hi hx (by
      have := hl.owns
      rwa [hxl] at this)
    rw [hloc] at hy
    exact follows_producer hg hl hv hq hguard hrace hret (fun h => ho (owns_afterSignal (hy ▸ h)))
      (hy ▸ producerAt_afterSignal (Ready.keep hat hq hhead) p')

theorem follows_consumer_access (hg : Glob w) (hl : Consumer w x)
    (hi : access .consumer b w.mem.plain x.2 = some i)
    (hx : i.exec k w.mem.msg (x.1.tick .consumer) = some (ms, y.1, r)) (hy : y.2 = r.loc) :
    assertions.Follows .consumer w ⟨ms, r.plain⟩ y (r.trace y.1.cur) := by
  have htick : x.1.cur ≤ (x.1.tick .consumer).cur := Views.cur_le_tick
  have hv : x.1.cur ≤ y.1.cur := htick.trans (Instr.exec_cur_le hx)
  have hat := hl.loc
  cases hxl : x.2 <;> rw [hxl] at hi hat <;>
    simp only [access, reduceCtorEq, Option.some.injEq] at hi <;> try exact hat.elim
  case deqTail s =>
    subst hi
    obtain ⟨rfl, -, rfl⟩ := Instr.exec_plain hx
    refine follows_read hg hl hv rfl (by simp) (fun c hc => ?_) rfl (by rw [hy]; rfl) fun hq hret => ?_
    · obtain rfl := List.mem_singleton.mp hc
      exact (hl.tail.mono hv).of_all
    · rw [hy]
      exact ⟨Balanced.keep hat hq (hret.trans (List.append_nil _)), rfl⟩
  case deqNext s t =>
    subst hi
    obtain ⟨c, hc, hk, rfl, hw, rfl⟩ := Instr.exec_load hx
    refine follows_next hg hl hxl hv hc ((htick.1 _).trans hk) (hw ▸ Views.le_cur_read rfl) ?_ hy
    cases c.val <;> rfl
  case deqData s t n =>
    subst hi
    obtain ⟨rfl, -, rfl⟩ := Instr.exec_plain hx
    obtain ⟨hbal, rfl, rfl, hlt, hlink, hnode, hdata⟩ := hat
    refine follows_read hg hl hv rfl (fun c hc => ?_) (fun c hc => ?_) rfl (by rw [hy]; rfl)
      fun hq hret => ?_
    · obtain rfl := List.mem_singleton.mp hc
      exact .inr ⟨_, .inl rfl, rfl, Nat.le_succ _, hlt⟩
    · obtain rfl := List.mem_singleton.mp hc
      exact (hdata.mono hv).of_all
    · have hget := List.getElem?_eq_getElem hlt
      rw [hy]
      refine ⟨⟨hbal.keep hq (hret.trans (List.append_nil _)), rfl, rfl, hq.linked ▸ hlt,
        known_own hq.uses le_rfl (hlink.mono hv), (hnode.mono hv).keep hq le_rfl,
        known_own hq.uses le_rfl (hdata.mono hv)⟩, ?_⟩
      rw [hq.linked, hget, hg.data _ _ hget]
  case deqDelete s t n data =>
    subst hi
    obtain ⟨rfl, -, rfl⟩ := Instr.exec_plain hx
    exact follows_delete hg hl hxl hv hy
  case event p =>
    obtain ⟨hq, hguard, hrace, hhead, hret, p', hloc, ho⟩ := eventStep hg hi hx (by
      have := hl.owns
      rwa [hxl] at this)
    rw [hloc] at hy
    exact follows_consumer hg hl hv hq hguard hrace hhead (fun h => ho (owns_afterEvent (hy ▸ h)))
      (hy ▸ consumerAt_afterEvent (Balanced.keep hat hq hret) p')
  case deqRet data =>
    subst hi
    obtain ⟨rfl, -, rfl⟩ := Instr.exec_plain hx
    refine follows_read hg hl hv rfl (by simp) (by simp) rfl (by rw [hy]; rfl) fun hq hret => ?_
    rw [hy]
    change _ = _
    rw [hret, hq.linked]
    exact hat

theorem follows_step {t : Thread} (hg : Glob w) (hl : Local t w x) {a : Act × ℕ}
    (hs : program.step t a w.mem x = some (m, y, es))
    (hnz : NonzeroValues (events (w.hist ++ emit t es))) : assertions.Follows t w m y es := by
  obtain ⟨a, k⟩ := a
  obtain ⟨ms, p⟩ := m
  obtain ⟨i, r, hi, hx, rfl, hy, rfl⟩ := weak_step hs
  have hv : x.1.cur ≤ y.1.cur := Views.cur_le_tick.trans (Instr.exec_cur_le hx)
  match a with
  | .enqueue data =>
    obtain ⟨⟨rfl, hxl⟩, rfl⟩ : (t = .producer ∧ x.2 = .idle) ∧
        Instr.plain ⟨w.mem.plain, .enqNew data, [.enqueue data], []⟩ = i := by simpa [order] using hi
    obtain ⟨rfl, -, rfl⟩ := Instr.exec_plain hx
    have hat := hl.loc
    rw [hxl] at hat
    refine follows_local hg hl hv rfl rfl rfl (by simp) rfl rfl (by rw [hy]; rfl) fun hq => ?_
    rw [hy]
    rw [events_trace] at hnz
    exact ⟨hat.keep hq rfl, hnz .producer data (by simp)⟩
  | .dequeue =>
    obtain ⟨⟨rfl, hxl⟩, rfl⟩ : (t = .consumer ∧ x.2 = .idle) ∧
        Instr.plain ⟨w.mem.plain, .deqTail .first, [.dequeue], []⟩ = i := by simpa [order] using hi
    obtain ⟨rfl, -, rfl⟩ := Instr.exec_plain hx
    have hat := hl.loc
    rw [hxl] at hat
    refine follows_read hg hl hv rfl (by simp) (by simp) rfl (by rw [hy]; rfl) fun hq hret => ?_
    rw [hy]
    exact Balanced.keep hat hq (hret.trans (List.append_nil _))
  | .run | .spurious =>
    cases t with
    | producer => exact follows_producer_access hg hl hi hx hy
    | consumer => exact follows_consumer_access hg hl hi hx hy

end Step

def outline : Outline program anyStep (fun tr => NonzeroValues (events tr)) World where
  toAssertions := assertions
  step hg hl hs _ hadm := follows_step hg (hl _) hs hadm
  stable {t u w w' l} hu hg _ hl hguar := by
    cases t <;> cases u <;> try exact absurd rfl hu
    · exact hl.stable hg hguar
    · exact hl.stable hguar

theorem holds_start (garbage : ℕ → Option ℕ) :
    outline.Holds ⟨(start garbage).mem, []⟩ [] (start garbage) where
  mem := rfl
  hist := rfl
  glob := by
    refine ⟨fun _ _ h => by simp [World.linked, events, linkedValues] at h, by simp
      [World.linked, events, linkedValues], Nat.le_refl _, Nat.one_pos, fun n _ =>
      ⟨fun k a ha => (start_msg.mp ha).1, by simp [World.uses, notes]⟩, Messages.ends_initial
      fun _ => known_nil, .nil, .nil, by simp [World.uses, notes]⟩
  loc t := by
    cases t with
    | producer => exact ⟨known_nil, Messages.covers_initial, known_nil,
        fun h => absurd h Bool.false_ne_true, rfl, rfl⟩
    | consumer =>
      refine ⟨known_nil, known_nil, ⟨.last rfl ⟨Messages.covers_initial, known_nil, 0, _,
        Messages.last_initial, rfl⟩, fun n k a _ hlt => ?_⟩, fun h => absurd h Bool.false_ne_true, rfl⟩
      exact absurd hlt (Nat.not_lt_zero _)

theorem holds_of_run {garbage : ℕ → Option ℕ} {tr : List (Thread × WeakEvent)} {C : WeakConfig}
    (h : program.Run anyStep (start garbage) tr C) (hnz : NonzeroValues (events tr)) :
    ∃ w, outline.Holds w tr C :=
  outline.sound (fun {h h'} hn => by rw [events_append] at hn; exact hn.of_append)
  (holds_start garbage) h hnz

/-- The nodes from `n` on hold the values linked from the `n`-th on. -/
theorem contents (hg : Glob w) (hr : Reach w v) (ht : w.mem.plain.tail ≤ n) (hn : n ≤ w.linked.length) :
    Contents w.mem n (w.linked.drop n) := by
  have hnode : ∃ v', Node w v' n := by
    rcases Nat.lt_or_eq_of_le ht with hlt | rfl
    · induction n, hlt using Nat.le_induction with
      | base =>
        have hlt : w.mem.plain.tail < w.linked.length := hn
        obtain ⟨k, a, hl, -⟩ := hr.node.exists
        exact ⟨_, (hr.next _ k a le_rfl hlt hl).1⟩
      | succ n hlt ih =>
        have hle : w.mem.plain.tail ≤ n := Nat.le_of_succ_le hlt
        obtain ⟨v', h⟩ := ih hle (Nat.le_of_succ_le hn)
        obtain ⟨k, a, hl, -⟩ := h.exists
        exact ⟨_, (hr.next n k a hle hn hl).1⟩
    · exact ⟨v, hr.node⟩
  induction hk : w.linked.length - n generalizing n with
  | zero =>
    obtain ⟨v', h⟩ := hnode
    obtain ⟨k, a, hl, ⟨-, ha⟩ | ⟨hlt, -⟩⟩ := h.exists
    · rw [List.drop_eq_nil_of_le (by omega)]
      exact .nil hl ha
    · omega
  | succ k ih =>
    have hlt : n < w.linked.length := by omega
    obtain ⟨v', h⟩ := hnode
    obtain ⟨i, a, hl, ⟨rfl, -⟩ | ⟨-, ha⟩⟩ := h.exists
    · omega
    rw [List.drop_eq_getElem_cons hlt, ← hg.data n _ (List.getElem?_eq_getElem hlt)]
    exact .cons hl ha (ih (by omega) hlt ⟨_, (hr.next n i a ht hlt hl).1⟩ (by omega))

end Fifo

/-- **The queue under weak memory.** Whatever the memory of the nodes held before, in every state
the values returned, the one unlinked and those in the nodes after `tail` are the values linked,
in order. There is no data race on the nodes, on `head`, `tail` or `waiters`, and
no node is used after it has been deleted. -/
theorem weak_fifo {garbage : ℕ → Option ℕ} {tr : List (Thread × WeakEvent)} {C : WeakConfig}
    (h : program.Run anyStep (start garbage) tr C) (hnz : NonzeroValues (events tr)) :
    (∃ vs, Contents C.mem C.mem.plain.tail vs ∧
        returnedValues (events tr) ++ (C.loc .consumer).2.holding ++ vs = linkedValues (events tr)) ∧
      RaceFree (notes tr) ∧ NoUseAfterDelete (notes tr) := by
  obtain ⟨w, hw⟩ := Fifo.holds_of_run h hnz
  have hg : Fifo.Glob w := hw.glob
  have hl : Fifo.Consumer w (C.loc .consumer) := hw.loc .consumer
  have hmem : w.mem = C.mem := hw.mem
  obtain rfl : w.hist = tr := hw.hist
  refine ⟨⟨w.linked.drop w.mem.plain.tail, hmem ▸ Fifo.contents hg hl.reach le_rfl hg.tail, ?_⟩,
    hg.raceFree, hg.dead⟩
  have hheld : w.returned ++ (C.loc .consumer).2.holding = w.linked.take w.mem.plain.tail := by
    have hat := hl.loc
    cases hpc : (C.loc .consumer).2 <;> rw [hpc] at hat <;> simp only [Pc.holding, List.append_nil] <;>
      try exact hat.elim
    case idle | deqTail | event | deqRet => exact hat
    case deqNext => exact hat.1
    case deqData => exact hat.balanced
    case deqDelete => exact hat.1.balanced
  change w.returned ++ _ ++ _ = w.linked
  rw [hheld, List.take_append_drop]

/-- The theorem where the memory of the nodes held garbage, and the consumer looks for a link that
has been stored, does not see it, and sees it when it has set the flag. -/
theorem weak_fifo_stale : ∃ (tr : List (Thread × WeakEvent)) (C : WeakConfig),
    linkedValues (events tr) = [7] ∧ returnedValues (events tr) = [7] ∧
      (∃ vs, Contents C.mem C.mem.plain.tail vs ∧
        returnedValues (events tr) ++ (C.loc .consumer).2.holding ++ vs = linkedValues (events tr)) ∧
      RaceFree (notes tr) ∧ NoUseAfterDelete (notes tr) := by
  have h₀ : program.Run anyStep (start fun _ => some 7) [] (start fun _ => some 7) := .start
  have h₁ := h₀.solo .producer [(.enqueue 7, 0), (.run, 1), (.run, 0), (.run, 1), (.run, 0),
    (.run, 0)] _ _ _ rfl
  have h₂ := h₁.solo .consumer [(.dequeue, 0), (.run, 0), (.run, 0), (.run, 1), (.run, 0), (.run, 1),
    (.run, 0), (.run, 0), (.run, 0)] _ _ _ rfl
  have hnz : NonzeroValues [(.producer, .enqueue 7), (.producer, .linked 7), (.consumer, .dequeue),
      (.consumer, .unlinked 7), (.consumer, .returned 7)] := by
    intro t data h
    simp_all
  exact ⟨_, _, by decide, by decide, weak_fifo h₂ hnz⟩

end Cds.SpscQueue.Weak
