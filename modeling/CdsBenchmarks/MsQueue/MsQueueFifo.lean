import CdsBenchmarks.MsQueue.MsQueueInvariant
import Mathlib.Data.Fintype.Prod
import Mathlib.Data.List.Induction

/-! The linked queue refines the atomic one. -/

namespace Cds.MsQueue
open Concurrent Program

section Fifo
variable {T : Type*} [DecidableEq T] {tr : List (T × Event)} {q q' : Fifo T} {t : T} {e : Event}

theorem fifo_snoc (h : fifo tr = some q) (hnext : q.next t e = some q') :
    fifo (tr ++ [(t, e)]) = some q' := by
  unfold fifo at *
  rw [List.foldlM_append, h]
  simp [hnext]

theorem of_fifo_snoc (h : fifo (tr ++ [(t, e)]) = some q') :
    ∃ q, fifo tr = some q ∧ q.next t e = some q' := by
  unfold fifo at *
  rw [List.foldlM_append] at h
  obtain ⟨q, hq, hnext⟩ := Option.bind_eq_some_iff.mp h
  exact ⟨q, hq, by simpa using hnext⟩

/-- The elements move at `link` and `unlink` only. -/
theorem Fifo.next_queue (h : q.next t e = some q') :
    match e with
    | .link val => q'.queue = q.queue ++ [val]
    | .unlink => ∃ val, q.queue = val :: q'.queue
    | _ => q'.queue = q.queue := by
  cases e with
  | cas c =>
    obtain rfl := Option.some.inj h
    rfl
  | link val =>
    simp only [Fifo.next] at h
    split at h
    · obtain rfl := Option.some.inj h
      rfl
    · cases h
  | unlink =>
    simp only [Fifo.next] at h
    split at h
    · next val queue _ hq =>
      obtain rfl := Option.some.inj h
      exact ⟨val, hq⟩
    · cases h
  | call | look =>
    simp only [Fifo.next] at h
    split at h
    · obtain rfl := Option.some.inj h
      rfl
    · cases h
  | ret r =>
    simp only [Fifo.next] at h
    split at h
    · obtain rfl := Option.some.inj h
      rfl
    · obtain rfl := Option.some.inj h
      rfl
    · split at h
      · obtain rfl := Option.some.inj h
        rfl
      · cases h
    · cases h

/-- No value is lost, duplicated, reordered or made up: those that have not been unlinked
remain, in the order in which they were linked. -/
theorem fifo_queue (h : fifo tr = some q) : occurrences .unlink tr ≤ (linked tr).length ∧
    q.queue = (linked tr).drop (occurrences .unlink tr) := by
  induction tr using List.reverseRecOn generalizing q with
  | nil =>
    obtain rfl := Option.some.inj h
    exact ⟨Nat.le_refl _, rfl⟩
  | append_singleton tr x ih =>
    obtain ⟨t, e⟩ := x
    obtain ⟨p, hp, hnext⟩ := of_fifo_snoc h
    obtain ⟨hle, hdrop⟩ := ih hp
    have hmove := Fifo.next_queue hnext
    have hlinked : linked (tr ++ [(t, e)]) = linked tr ++ linked [(t, e)] := List.filterMap_append
    rw [occurrences_snoc, hlinked]
    cases e with
    | link val =>
      rw [show linked [(t, .link val)] = [val] from rfl, if_neg (by simp), Nat.add_zero]
      refine ⟨Nat.le_trans hle (by simp), ?_⟩
      rw [List.drop_append_of_le_length hle, ← hdrop]
      exact hmove
    | unlink =>
      obtain ⟨val, hq⟩ := hmove
      rw [show linked [(t, .unlink)] = [] from rfl, List.append_nil, if_pos rfl]
      rw [hdrop] at hq
      refine ⟨?_, ?_⟩
      · have := congrArg List.length hq
        simp only [List.length_drop, List.length_cons] at this
        omega
      · rw [← List.tail_drop, hq, List.tail_cons]
    | call | cas | look | ret =>
      rw [show linked [(t, _)] = [] from rfl, List.append_nil, if_neg (by simp)]
      exact ⟨hle, (show q.queue = p.queue from hmove).trans hdrop⟩

theorem Fifo.set_self (q : Fifo T) (t : T) (x : Status) : (q.set t x).status t = x :=
  Function.update_self ..

theorem Fifo.set_of_ne (q : Fifo T) (x : Status) {u : T} (hu : u ≠ t) :
    (q.set t x).status u = q.status u :=
  Function.update_of_ne hu ..

end Fifo

variable {n : ℕ}

theorem NoWrap.of_append {h h' : List (Fin n × Event)} (hw : NoWrap (h ++ h')) : NoWrap h := fun w => by
  have := hw w
  rw [occurrences_append] at this
  omega

/-- The counter of a word does not wrap at a compare-exchange. -/
theorem NoWrap.lt {h : List (Fin n × Event)} {t : Fin n} {c : Tagged} {es : List Event}
    (hw : NoWrap (h ++ emit t (.cas c :: es))) : occurrences (.cas c) h + 1 < 2 ^ 32 := by
  have hlt := hw c
  rw [occurrences_append, emit_cons] at hlt
  have hpos : 1 ≤ occurrences (.cas c) ((t, .cas c) :: emit t es) := by simp [occurrences]
  omega

namespace Linked

variable {t : Fin n} {w : World n}

theorem occurrences_cas_self (c : Tagged) (h : List (Fin n × Event)) :
    occurrences (.cas c) (h ++ [(t, .cas c)]) = occurrences (.cas c) h + 1 := by
  rw [occurrences_snoc, if_pos rfl]

theorem occurrences_cas_of_ne {e : Event} {c : Tagged} (h : List (Fin n × Event)) (he : e ≠ .cas c) :
    occurrences (.cas c) (h ++ [(t, e)]) = occurrences (.cas c) h := by
  rw [occurrences_snoc, if_neg he]
  rfl

theorem Guar.refl (t : Fin n) (w : World n) : Guar t w w where
  status _ _ := rfl
  own _ _ _ h := ⟨h, rfl, rfl⟩
  head := .inl rfl
  tail := .inl rfl
  next _ _ := .inl rfl
  grow _ := Nat.le_refl _
  value _ _ := rfl
  ahead _ h := h

def assertions : Assertions (Fin n) (Mem n) Pc Event (World n) where
  mem := World.mem
  hist := World.hist
  glob := Glob
  loc := Local
  guar := Guar

theorem follows_quiet (hg : Glob w) {l : Pc} (hl : Local t w l) : assertions.Follows t w w.mem l [] :=
  Assertions.follows_quiet hg hl (Guar.refl t w)

/-! ## Events that leave the memory alone -/

theorem follows_event (hg : Glob w) {e : Event} {x : Status} {l : Pc} (he : ∀ c, e ≠ .cas c)
    (hnext : w.fifo.next t e = some (w.fifo.set t x))
    (hl : Local t { w with hist := w.hist ++ [(t, e)], fifo := w.fifo.set t x } l) :
    assertions.Follows t w w.mem l [e] := by
  have hcount : ∀ c, occurrences (.cas c) (w.hist ++ [(t, e)]) = occurrences (.cas c) w.hist := fun c =>
    occurrences_cas_of_ne _ (he c)
  refine ⟨{ w with hist := w.hist ++ [(t, e)], fifo := w.fifo.set t x }, rfl, rfl,
    ⟨fifo_snoc hg.fifo hnext, hg.chain, hg.nodup, hg.lag, hg.queue, hg.placed, hg.free, hg.range,
    hg.countHead.trans (hcount _).symm, hg.countTail.trans (hcount _).symm,
    fun i hi => (hg.countNext i hi).trans (hcount _).symm⟩, hl, ?_⟩
  exact { Guar.refl t w with status := fun u hu => w.fifo.set_of_ne x hu }

theorem follows_call (hg : Glob w) (hl : Local t w .idle) (o : Op) :
    assertions.Follows t w w.mem o.entry [.call o] := by
  have hidle : w.fifo.status t = .idle := hl
  cases o with
  | enqueue val =>
    refine follows_event (x := .enqueueing val) hg (by simp) ?_ (Fifo.set_self ..)
    simp [Fifo.next, hidle]
  | dequeue =>
    refine follows_event (x := .dequeueing false) hg (by simp) ?_ ⟨false, Fifo.set_self ..⟩
    simp [Fifo.next, hidle]

theorem follows_ret (hg : Glob w) {r : Res} (hl : Local t w (.ret r)) :
    assertions.Follows t w w.mem .idle [.ret r] := by
  refine follows_event (x := .idle) hg (by simp) ?_ (Fifo.set_self ..)
  cases r with
  | void =>
    have h : w.fifo.status t = .enqueued := hl
    simp [Fifo.next, h]
  | returnFalse =>
    have h : w.fifo.status t = .dequeueing true := hl
    simp [Fifo.next, h]
  | returnTrue val node =>
    have h : w.fifo.status t = .dequeued val := hl
    simp [Fifo.next, h]

/-- The load of `head`'s `next` in a dequeue. If `head` is unchanged, a null pointer means that
the queue is empty. -/
theorem follows_look (hg : Glob w) {head tail : Pointer} (hl : Local t w (.deqNext head tail)) :
    assertions.Follows t w w.mem (.deqCheck head tail (w.mem.next (getPtr head))) [.look] := by
  obtain ⟨⟨b, hst⟩, htail, hseen, hhead⟩ := hl
  refine follows_event (x := .dequeueing w.fifo.queue.isEmpty) hg (by simp) (by simp [Fifo.next, hst])
    ⟨⟨_, Fifo.set_self ..⟩, htail, hseen, fun heq => ?_⟩
  have heq' : w.mem.head = head := heq
  subst heq'
  obtain ⟨L, hL, hsucc⟩ := hg.split
  refine ⟨fun hne => ⟨hhead rfl hne, fun hnull => ?_⟩, fun _ => rfl, fun hnull => ?_⟩
  · -- `tail` is on the chain behind the first node
    have hmem := hg.tail_mem
    rw [succ_eq_none.mpr hnull] at hsucc
    rw [hL, List.head?_eq_none_iff.mp hsucc.symm, List.mem_singleton] at hmem
    exact hhead rfl hne hmem
  · have hempty : w.fifo.queue = [] := by
      rw [succ_eq_none.mpr hnull] at hsucc
      rw [hg.queue, hL, List.head?_eq_none_iff.mp hsucc.symm]
      rfl
    exact (Fifo.set_self ..).trans (by rw [hempty]; rfl)

/-! ## Free lists -/

theorem update_slot (free : Fin n → Fin maxFreelist → UInt) (t u : Fin n) (i j : Fin maxFreelist)
    (node : UInt) :
    Function.update free t (Function.update (free t) i node) u j =
      if u = t ∧ j = i then node else free u j := by
  by_cases hu : u = t
  · subst hu
    by_cases hj : j = i
    · simp [hj]
    · simp [hj]
  · simp [hu]

/-- A node moves between the free list of `t` and `t` itself. -/
theorem follows_place (hg : Glob w) (node : UInt) {free : Fin n → Fin maxFreelist → UInt}
    {p : Place n} {l : Pc} (hnode : w.place node ≠ .chain) (hsome : w.place node ≠ .none)
    (hothers : ∀ u, u ≠ t → w.place node ≠ .own u)
    (hfree : ∀ u j, free u j ≠ 0 → Function.update w.place node p (free u j) = .free u j)
    (hl : Local t { w with mem := { w.mem with freeLists := free }
                           place := Function.update w.place node p } l) :
    assertions.Follows t w { w.mem with freeLists := free } l [] := by
  have hne : ∀ {j}, w.place j ≠ w.place node → Function.update w.place node p j = w.place j := fun h =>
    Function.update_of_ne (fun heq => h (congrArg w.place heq)) ..
  have hback : ∀ {j}, Function.update w.place node p j ≠ .none → w.place j ≠ .none := by
    intro j h
    by_cases hj : j = node
    · exact hj ▸ hsome
    · rwa [Function.update_of_ne hj] at h
  refine ⟨{ w with mem := { w.mem with freeLists := free }
                   place := Function.update w.place node p }, rfl,
    (List.append_nil _).symm, ⟨hg.fifo, hg.chain, hg.nodup, hg.lag, hg.queue, fun j hj => ?_, hfree,
      fun j hj => hg.range j (hback hj), hg.countHead, hg.countTail, 
      fun j hj => hg.countNext j (hback hj)⟩, hl, ?_⟩
  · have := hg.placed j hj
    exact (hne (this ▸ hnode.symm)).trans this
  · exact { Guar.refl t w with own := fun u hu j hj => 
      ⟨(hne (hj ▸ (hothers u hu).symm)).trans hj, rfl, rfl⟩ }

theorem follows_enqNew (hg : Glob w) {val : UInt} (hl : Local t w (.enqNew val)) {m : Mem n} {l : Pc}
    {es : List Event} (h : access t w.mem (.enqNew val) = some (m, l, es)) :
    assertions.Follows t w m l es := by
  simp only [access, newNode] at h
  cases hfind : (List.finRange maxFreelist).find? fun i => w.mem.freeLists t i ≠ 0 with
  | none =>
    simp only [hfind, Option.map_none, Option.some.injEq, Prod.mk.injEq] at h
    obtain ⟨rfl, rfl, rfl⟩ := h
    exact follows_quiet hg trivial
  | some i =>
    simp only [hfind, Option.map_some, Option.some.injEq, Prod.mk.injEq] at h
    obtain ⟨rfl, rfl, rfl⟩ := h
    have hne : w.mem.freeLists t i ≠ 0 := by simpa using List.find?_some hfind
    have hplace := hg.free t i hne
    refine follows_place (p := .own t) hg (w.mem.freeLists t i) (by simp [hplace]) (by simp [hplace])
      (by simp [hplace])
      (fun u j hj => ?_) ⟨hl, Function.update_self ..⟩
    rw [update_slot] at hj ⊢
    split at hj
    · exact absurd rfl hj
    · next hslot =>
      rw [if_neg hslot, Function.update_of_ne, hg.free u j hj]
      intro heq
      have := hg.free u j hj
      rw [heq, hplace] at this
      simp only [Place.free.injEq] at this
      exact hslot ⟨this.1.symm, this.2.symm⟩

theorem follows_deqReclaim (hg : Glob w) {head : Pointer} {val : UInt}
    (hl : Local t w (.deqReclaim head val)) :
    assertions.Follows t w (reclaim t w.mem (getPtr head))
    (.ret (.returnTrue val (getPtr head))) [] := by
  obtain ⟨hst, hplace⟩ := hl
  unfold reclaim
  split
  · next i hfind =>
    have hempty : w.mem.freeLists t i = 0 := by simpa using List.find?_some hfind
    refine follows_place (p := .free t i) hg (getPtr head) (by simp [hplace]) (by simp [hplace])
      (fun u hu => by simp [hplace, Ne.symm hu]) (fun u j hj => ?_) hst
    rw [update_slot] at hj ⊢
    split at hj
    · next hslot =>
      rw [if_pos hslot, Function.update_self, hslot.1, hslot.2]
    · next hslot =>
      rw [if_neg hslot, Function.update_of_ne, hg.free u j hj]
      intro heq
      have := hg.free u j hj
      rw [heq, hplace] at this
      cases this
  · refine follows_place (p := .lost) hg (getPtr head) (by simp [hplace]) (by simp [hplace])
      (fun u hu => by simp [hplace, Ne.symm hu]) (fun u j hj => ?_) hst
    rw [Function.update_of_ne, hg.free u j hj]
    intro heq
    have := hg.free u j hj
    rw [heq, hplace] at this
    cases this

/-! ## The own node -/

theorem Glob.ne_own (hg : Glob w) {node i : UInt} (h : w.place node = .own t) (hi : i ∈ w.chain) :
    i ≠ node := by
  rintro rfl
  rw [hg.placed i hi] at h
  cases h

theorem Glob.ne_zero (hg : Glob w) {i : UInt} (h : w.place i ≠ .none) : i ≠ 0 := by
  rintro rfl
  exact absurd (hg.range 0 h).1 (by decide)

theorem ne_own_of_ne {u : Fin n} {node i : UInt} (h : w.place node = .own t) (hu : u ≠ t)
    (hi : w.place i = .own u) : i ≠ node := by
  rintro rfl
  exact hu (Place.own.inj (hi.symm.trans h))

theorem follows_enqValue (hg : Glob w) {val node : UInt} (hl : Enqueueing t w val node) :
    assertions.Follows t w { w.mem with value := Function.update w.mem.value node val }
    (.enqLoad val node) [] := by
  have hchain : ∀ i ∈ w.chain, Function.update w.mem.value node val i = w.mem.value i := fun i hi =>
    Function.update_of_ne (hg.ne_own hl.2 hi) ..
  refine ⟨{ w with mem := { w.mem with value := Function.update w.mem.value node val } }, rfl,
    (List.append_nil _).symm,
    ⟨hg.fifo, hg.chain, hg.nodup, hg.lag, ?_, hg.placed, hg.free, hg.range, hg.countHead,
      hg.countTail, hg.countNext⟩,
    ⟨hl, Function.update_self ..⟩, { Guar.refl t w with own := fun u hu i hi => ?_, value := hchain }⟩
  · rw [hg.queue]
    exact List.map_congr_left fun i hi => (hchain i (List.mem_of_mem_tail hi)).symm
  · exact ⟨hi, Function.update_of_ne (ne_own_of_ne hl.2 hu hi) .., rfl⟩

theorem succ_congr {m m' : Mem n} {i : UInt} (h : m'.next i = m.next i) : succ m' i = succ m i := by
  unfold succ
  rw [h]

theorem follows_enqStore (hg : Glob w) {val node : UInt} {tmp : Pointer}
    (hl : Local t w (.enqStore val node tmp)) :
    assertions.Follows t w { w.mem with next := Function.update w.mem.next node (setPtr tmp 0) }
    (.enqTail val node) [] := by
  obtain ⟨hown, hval, rfl⟩ := hl
  have hchain : ∀ i ∈ w.chain,
      Function.update w.mem.next node (setPtr (w.mem.next node) 0) i = w.mem.next i := fun i hi =>
    Function.update_of_ne (hg.ne_own hown.2 hi) ..
  have hcount : ∀ i,
      count (Function.update w.mem.next node (setPtr (w.mem.next node) 0) i) =
        count (w.mem.next i) := by
    intro i
    by_cases hi : i = node
    · rw [hi, Function.update_self]
      simp [count]
    · rw [Function.update_of_ne hi]
  refine
    ⟨{ w with
       mem := { w.mem with next := Function.update w.mem.next node (setPtr (w.mem.next node) 0) } },
    rfl, (List.append_nil _).symm,
    ⟨hg.fifo, hg.chain.congr fun i hi => succ_congr (hchain i hi), hg.nodup, hg.lag, hg.queue,
      hg.placed,
      hg.free, hg.range, hg.countHead, hg.countTail, fun i hi => (hcount i).trans (hg.countNext i hi)⟩,
    ⟨hown, hval, ?_⟩,
    { Guar.refl t w with
      own := fun u hu i hi => ?_
      next := fun i hi => .inl (hchain i hi)
      grow := fun i => (hcount i).ge }⟩
  · change getPtr (Function.update w.mem.next node (setPtr (w.mem.next node) 0) node) = 0
    rw [Function.update_self, getPtr_setPtr]
  · exact ⟨hi, rfl, Function.update_of_ne (ne_own_of_ne hown.2 hu hi) ..⟩

/-! ## Compare-exchanges -/

theorem count_bump {ptr : UInt} {p : Pointer} (h : count p + 1 < 2 ^ 32) :
    count (bump ptr p) = count p + 1 :=
  getCount_bump_toNat ptr h

/-- `tail` moves on by one node. -/
theorem follows_casTail (hg : Glob w) {tail : Pointer} {ptr : UInt} {l : Pc} (hf : Follow w tail ptr)
    (hl : ∀ w' : World n, w'.fifo = w.fifo → w'.place = w.place → w'.mem.value = w.mem.value →
      w'.mem.next = w.mem.next → Local t w' l) {m : Mem n} {l' : Pc} {es : List Event}
    (h : casTail w.mem tail ptr l = (m, l', es)) (hwrap : NoWrap (w.hist ++ emit t es)) :
    assertions.Follows t w m l' es := by
  unfold casTail at h
  split at h
  · next heq =>
    simp only [Prod.mk.injEq] at h
    obtain ⟨rfl, rfl, rfl⟩ := h
    subst heq
    obtain ⟨hnext, hne⟩ := hf.2 rfl
    have hsucc : succ w.mem w.tailPtr = some ptr := succ_eq_some.mpr ⟨hnext, hne⟩
    have hcount : count (bump ptr w.mem.tail) = count w.mem.tail + 1 :=
      count_bump (hg.countTail ▸ hwrap.lt)
    have hchain := hg.chain
    -- the last node has no successor
    obtain ⟨L, hL | ⟨b, hL⟩⟩ := hg.lag
    · rw [hL] at hchain
      have := hchain.next_eq
      rw [hsucc] at this
      cases this
    rw [hL] at hchain
    have hb : some ptr = some b := hsucc.symm.trans (Chain.next_eq (L := [b]) hchain)
    obtain rfl := Option.some.inj hb
    have hhead : w.headPtr ≠ ptr := by
      intro heq
      have hfirst := hg.head_eq
      have hnodup := hg.nodup
      rw [hL] at hfirst hnodup
      rw [heq] at hfirst
      have := Chain.eq_nil_of_head? (K := L ++ [w.tailPtr]) (L := [ptr]) (by simpa using hnodup)
        (by simpa using hfirst)
      simp at this
    refine ⟨{ w with mem := { w.mem with tail := bump ptr w.mem.tail }
                     hist := w.hist ++ [(t, .cas .tail)] }, rfl, rfl,
      ⟨fifo_snoc hg.fifo rfl, hg.chain, hg.nodup, ⟨L ++ [w.tailPtr], .inl ?_⟩, hg.queue,
        hg.placed, hg.free, hg.range,
        ?_, ?_, fun i hi => ?_⟩, hl _ rfl rfl rfl rfl,
      { Guar.refl t w with tail := .inr ⟨?_, hnext ▸ hne⟩, ahead := fun _ _ => ?_ }⟩
    · rw [hL, List.append_assoc]
      simp [World.tailPtr]
    · exact hg.countHead.trans (occurrences_cas_of_ne _ (by simp)).symm
    · rw [occurrences_cas_self, ← hg.countTail]
      exact hcount
    · exact (hg.countNext i hi).trans (occurrences_cas_of_ne _ (by simp)).symm
    · change count w.mem.tail < count (bump ptr w.mem.tail)
      omega
    · change getPtr (bump ptr w.mem.tail) ≠ w.headPtr
      rw [getPtr_bump]
      exact hhead.symm
  · simp only [Prod.mk.injEq] at h
    obtain ⟨rfl, rfl, rfl⟩ := h
    exact follows_quiet hg (hl w rfl rfl rfl rfl)

/-- The node that `tail` points to is the last one if its link is null. -/
theorem Glob.last (hg : Glob w) {tail : Pointer} (htail : w.tailPtr = getPtr tail)
    (hnull : w.nextPtr tail = 0) : ∃ L, w.chain = L ++ [getPtr tail] := by
  obtain ⟨L, hL | ⟨b, hL⟩⟩ := hg.lag
  · exact ⟨L, htail ▸ hL⟩
  · have hchain := hg.chain
    rw [hL] at hchain
    have hsucc := hchain.next_eq
    rw [show w.tailPtr = getPtr tail from htail, succ_eq_none.mpr hnull] at hsucc
    cases hsucc

/-- The chain with `node` linked behind its last node `p`. -/
theorem chain_link {m : Mem n} {first : Option UInt} {L : List UInt} {p node : UInt}
    {next : UInt → Pointer} (hchain : Chain (succ m) first (L ++ [p])) (hp : p ∉ L)
    (hlink : getPtr (next p) = node) (hnode : node ≠ 0) (hend : getPtr (next node) = 0)
    (hother : ∀ i, i ≠ p → next i = m.next i) :
    Chain (succ { m with next := next }) first (L ++ [p, node]) := by
  have hL : ∀ c ∈ L, succ { m with next := next } c = succ m c := by
    refine fun c hc => succ_congr (hother c ?_)
    rintro rfl
    exact hp hc
  exact hchain.snoc hL (succ_eq_some.mpr ⟨hlink, hnode⟩) (succ_eq_none.mpr hend)

/-- The new node is linked behind the last one. -/
theorem follows_link (hg : Glob w) {val node : UInt} {tail next : Pointer}
    (hp : Prepared t w val node) (hnull : getPtr next = 0) (hlast : Last w tail next)
    (heq : w.mem.next (getPtr tail) = next) (hseen : Seen tail w.mem.tail)
    (hwrap : NoWrap (w.hist ++ emit t [.cas (.next (getPtr tail)), .link val])) :
    assertions.Follows t w
      { w.mem with next := Function.update w.mem.next (getPtr tail) (bump node next) }
      (.enqSwing node tail) [.cas (.next (getPtr tail)), .link val] := by
  subst heq
  obtain ⟨⟨hst, hplace⟩, hval, hnext⟩ := hp
  obtain ⟨-, htail⟩ := hlast.resolve_right (Nat.lt_irrefl _)
  have hnode : node ∉ w.chain := fun h => hg.ne_own hplace h rfl
  have hnode0 : node ≠ 0 := hg.ne_zero (by rw [hplace]; simp)
  obtain ⟨L, hL⟩ := hg.last htail hnull
  have hin : getPtr tail ∈ w.chain := by simp [hL]
  have hne : node ≠ getPtr tail := fun h => hnode (h ▸ hin)
  have hsome : w.place (getPtr tail) ≠ .none := by
    rw [hg.placed _ hin]
    simp
  have hcount : count (bump node (w.mem.next (getPtr tail))) = count (w.mem.next (getPtr tail)) + 1 :=
    count_bump (hg.countNext _ hsome ▸ hwrap.lt)
  have hself :
      Function.update w.mem.next (getPtr tail) (bump node (w.mem.next (getPtr tail))) (getPtr tail) =
      bump node (w.mem.next (getPtr tail)) := Function.update_self ..
  have hother : ∀ {i}, i ≠ getPtr tail → Function.update w.mem.next (getPtr tail)
      (bump node (w.mem.next (getPtr tail))) i = w.mem.next i := fun h => Function.update_of_ne h ..
  generalize
    Function.update w.mem.next (getPtr tail) (bump node (w.mem.next (getPtr tail))) = next
    at hself hother ⊢
  have htailof : (w.chain ++ [node]).tail = w.chain.tail ++ [node] := by
    obtain ⟨K, hK, -⟩ := hg.split
    rw [hK]
    rfl
  refine ⟨{ mem := { w.mem with next := next }
            hist := w.hist ++ [(t, .cas (.next (getPtr tail)))] ++ [(t, .link val)]
            fifo := { w.fifo with queue := w.fifo.queue ++ [val] }.set t .enqueued
            chain := w.chain ++ [node]
            place := Function.update w.place node .chain }, rfl, by simp [assertions],
    ⟨fifo_snoc (fifo_snoc hg.fifo rfl) (by simp [Fifo.next, hst]), ?_, ?_, ⟨L, .inr ⟨node, ?_⟩⟩, ?_,
      fun i hi => ?_, fun u j hj => ?_, fun i hi => ?_, ?_, ?_, fun i hi => ?_⟩,
    ⟨Fifo.set_self .., hseen, fun _ => ⟨?_, hnode0⟩⟩, ?_⟩
  · have hchain := hg.chain
    have hnodup := hg.nodup
    rw [hL] at hchain hnodup
    have happ : w.chain ++ [node] = L ++ [getPtr tail, node] := by rw [hL, List.append_assoc]; rfl
    have hnotin : getPtr tail ∉ L := fun hc =>
      (List.nodup_append.mp hnodup).2.2 _ hc _ (List.mem_singleton_self _) rfl
    change Chain (succ { w.mem with next := next }) (some w.headPtr) (w.chain ++ [node])
    rw [happ]
    exact chain_link hchain hnotin ((congrArg getPtr hself).trans (getPtr_bump ..)) hnode0
      ((congrArg getPtr (hother hne)).trans hnext) fun i hi => hother hi
  · exact List.nodup_append.mpr ⟨hg.nodup, List.nodup_singleton _, fun a ha b hb => by
      rw [List.mem_singleton.mp hb]
      exact hg.ne_own hplace ha⟩
  · change w.chain ++ [node] = L ++ [w.tailPtr, node]
    rw [hL, show w.tailPtr = getPtr tail from htail, List.append_assoc]
    rfl
  · change w.fifo.queue ++ [val] = (w.chain ++ [node]).tail.map w.mem.value
    rw [htailof, List.map_append, ← hg.queue, List.map_singleton, hval]
  · rcases List.mem_append.mp hi with hi | hi
    · exact (Function.update_of_ne (hg.ne_own hplace hi) ..).trans (hg.placed i hi)
    · rw [List.mem_singleton.mp hi]
      exact Function.update_self ..
  · have hfree := hg.free u j hj
    refine (Function.update_of_ne ?_ ..).trans hfree
    intro heq
    rw [heq, hplace] at hfree
    cases hfree
  · refine hg.range i fun h => hi ?_
    exact (Function.update_of_ne (by rintro rfl; rw [hplace] at h; cases h) ..).trans h
  -- of the three counters only that of the link that was swung moves
  · rw [occurrences_cas_of_ne _ (by simp), occurrences_cas_of_ne _ (by simp)]
    exact hg.countHead
  · rw [occurrences_cas_of_ne _ (by simp), occurrences_cas_of_ne _ (by simp)]
    exact hg.countTail
  · have hi' : w.place i ≠ .none := fun h => hi
      ((Function.update_of_ne (by rintro rfl; rw [hplace] at h; cases h) ..).trans h)
    rw [occurrences_cas_of_ne _ (by simp)]
    by_cases heq : i = getPtr tail
    · rw [heq, occurrences_cas_self, ← hg.countNext _ hsome]
      exact (congrArg count hself).trans hcount
    · rw [occurrences_cas_of_ne _ (by simpa using Ne.symm heq), ← hg.countNext i hi']
      exact congrArg count (hother heq)
  · exact (congrArg getPtr hself).trans (getPtr_bump ..)
  · refine ⟨fun u hu => Fifo.set_of_ne _ _ hu,
      fun u hu i hi => ⟨?_, rfl, hother (hg.ne_own hi hin).symm⟩, .inl rfl, .inl rfl,
      fun i hi => ?_, fun i => ?_, fun _ _ => rfl, fun _ h => h⟩
    · exact (Function.update_of_ne (ne_own_of_ne hplace hu hi) ..).trans hi
    · by_cases heq : i = getPtr tail
      · subst heq
        refine .inr ⟨hnull, ?_, ?_⟩
        · rw [show ({ w.mem with next := next } : Mem n).next (getPtr tail) = _ from hself, hcount]
          exact Nat.lt_succ_self _
        · rw [show ({ w.mem with next := next } : Mem n).next (getPtr tail) = _ from hself, getPtr_bump]
          exact hnode0
      · exact .inl (hother heq)
    · by_cases heq : i = getPtr tail
      · rw [heq, show ({ w.mem with next := next } : Mem n).next (getPtr tail) = _ from hself, hcount]
        exact Nat.le_succ _
      · exact (congrArg count (hother heq)).ge

/-- The first node is unlinked, and the one after it has the value that was read. -/
theorem follows_unlink (hg : Glob w) {next : Pointer} {val : UInt} {b : Bool}
    (hst : w.fifo.status t = .dequeueing b) (hready : Ready w w.mem.head next)
    (hval : w.mem.value (getPtr next) = val) (hwrap : NoWrap (w.hist ++ emit t [.cas .head, .unlink])) :
    assertions.Follows t w { w.mem with head := bump (getPtr next) w.mem.head }
    (.deqReclaim w.mem.head val) [.cas .head, .unlink] := by
  obtain ⟨htail, hne, hnext⟩ := hready
  obtain ⟨L, hL⟩ := hg.next_mem hnext hne
  have hcount : count (bump (getPtr next) w.mem.head) = count w.mem.head + 1 :=
    count_bump (hg.countHead ▸ hwrap.lt)
  have hqueue : w.fifo.queue = val :: L.map w.mem.value := by
    rw [hg.queue, hL, List.tail_cons, List.map_cons, hval]
  have hfirst : w.place w.headPtr = .chain := hg.placed _ hg.head_mem
  have hnodup := hg.nodup
  rw [hL, List.nodup_cons] at hnodup
  have hback : ∀ {i}, Function.update w.place w.headPtr (.own t) i ≠ .none → w.place i ≠ .none := by
    intro i hi
    by_cases heq : i = w.headPtr
    · rw [heq, hfirst]
      simp
    · rwa [Function.update_of_ne heq] at hi
  have hother : ∀ {i}, w.place i ≠ .chain →
      Function.update w.place w.headPtr (.own t) i = w.place i := fun h =>
    Function.update_of_ne (fun heq => h ((congrArg w.place heq).trans hfirst)) ..
  refine ⟨{ w with mem := { w.mem with head := bump (getPtr next) w.mem.head }
                   hist := w.hist ++ [(t, .cas .head)] ++ [(t, .unlink)]
                   fifo := { w.fifo with queue := L.map w.mem.value }.set t (.dequeued val)
                   chain := getPtr next :: L
                   place := Function.update w.place w.headPtr (.own t) }, rfl, by simp [assertions],
    ⟨fifo_snoc (fifo_snoc hg.fifo rfl) (by simp [Fifo.next, hst, hqueue]), ?_, hnodup.2, ?_, rfl,
      fun i hi => ?_, fun u j hj => ?_, fun i hi => hg.range i (hback hi), ?_, ?_, fun i hi => ?_⟩,
    ⟨Fifo.set_self .., Function.update_self ..⟩, ?_⟩
  · have hchain := hg.chain
    rw [hL] at hchain
    change Chain (succ w.mem) (some (getPtr (bump (getPtr next) w.mem.head))) _
    rw [getPtr_bump]
    exact ⟨rfl, hchain.2.2⟩
  · -- `tail` is behind the node that goes
    have hdrop : ∀ {K M : List UInt}, w.chain = K ++ w.tailPtr :: M →
        ∃ K', getPtr next :: L = K' ++ w.tailPtr :: M := by
      intro K M h
      rw [hL] at h
      cases K with
      | nil => exact absurd (List.cons.inj h).1.symm htail
      | cons c K => exact ⟨K, (List.cons.inj h).2⟩
    obtain ⟨K, hK | ⟨b, hK⟩⟩ := hg.lag
    · exact (hdrop hK).imp fun _ h => .inl h
    · exact (hdrop hK).imp fun _ h => .inr ⟨b, h⟩
  · have hi' : i ∈ w.chain := hL ▸ List.mem_cons_of_mem _ hi
    refine (Function.update_of_ne ?_ ..).trans (hg.placed i hi')
    rintro rfl
    exact hnodup.1 hi
  · have hfree := hg.free u j hj
    exact (hother (by rw [hfree]; simp)).trans hfree
  · rw [occurrences_cas_of_ne _ (by simp), occurrences_cas_self, ← hg.countHead]
    exact hcount
  · rw [occurrences_cas_of_ne _ (by simp), occurrences_cas_of_ne _ (by simp)]
    exact hg.countTail
  · rw [occurrences_cas_of_ne _ (by simp), occurrences_cas_of_ne _ (by simp)]
    exact hg.countNext i (hback hi)
  · refine
      { Guar.refl t w with
        status := fun u hu => Fifo.set_of_ne _ _ hu
        own := fun u hu i hi => ⟨?_, rfl, rfl⟩
        head := .inr ?_
        ahead := fun heq => ?_ }
    · exact (hother (by rw [hi]; simp)).trans hi
    · change count w.mem.head < count (bump (getPtr next) w.mem.head)
      omega
    · have : bump (getPtr next) w.mem.head = w.mem.head := heq
      rw [this] at hcount
      omega

/-! ## All steps -/

theorem follows_access (hg : Glob w) {l : Pc} (hl : Local t w l) {m : Mem n} {l' : Pc} {es : List Event}
    (h : access t w.mem l = some (m, l', es)) (hwrap : NoWrap (w.hist ++ emit t es)) :
    assertions.Follows t w m l' es := by
  cases l with
  | idle | failed => simp [access] at h
  | enqNew => exact follows_enqNew hg hl h
  | enqValue => exact Assertions.follows_of_eq h (follows_enqValue hg hl)
  | enqLoad => exact Assertions.follows_of_eq h (follows_quiet hg ⟨hl.1, hl.2, rfl⟩)
  | enqStore => exact Assertions.follows_of_eq h (follows_enqStore hg hl)
  | enqTail => exact Assertions.follows_of_eq h (follows_quiet hg ⟨hl, .inr rfl⟩)
  | enqNext => exact Assertions.follows_of_eq h (follows_quiet hg ⟨hl.1, hl.2, fun _ => .inl rfl⟩)
  | ret => exact Assertions.follows_of_eq h (follows_ret hg hl)
  | enqCheck val node tail next =>
    obtain ⟨hp, hseen, hnext⟩ := hl
    simp only [access] at h
    split at h
    · next heq =>
      subst heq
      split at h
      · next hnull =>
        refine Assertions.follows_of_eq h
          (follows_quiet hg ⟨hp, hnull, ?_, hseen, fun heq => (hnext heq).imp_right And.right⟩)
        exact (hnext rfl).imp (fun h => ⟨h, rfl⟩) And.left
      · next hne =>
        refine Assertions.follows_of_eq h (follows_quiet hg ⟨hp, hseen, fun heq => ?_⟩)
        rcases hnext heq with h | h
        · rwa [World.nextPtr, h]
        · exact h.2
    · exact Assertions.follows_of_eq h (follows_quiet hg hp)
  | enqLink val node tail next =>
    obtain ⟨hp, hnull, hlast, hseen, hnext⟩ := hl
    simp only [access] at h
    split at h
    · next heq =>
      simp only [Option.some.injEq, Prod.mk.injEq] at h
      obtain ⟨rfl, rfl, rfl⟩ := h
      exact follows_link hg hp hnull hlast heq hseen hwrap
    · next hne =>
        exact Assertions.follows_of_eq h
          (follows_quiet hg ⟨hp, hseen, fun heq => (hnext heq).resolve_left hne⟩)
  | enqReload val node tail =>
    exact Assertions.follows_of_eq h (follows_quiet hg ⟨hl.1, hl.2.1, fun heq => ⟨rfl, hl.2.2 heq⟩⟩)
  | enqHelp val node tail ptr =>
    refine follows_casTail hg hl.2 (fun w' hfifo hplace hvalue hnext => ?_) (Option.some.inj h) hwrap
    simpa only [Local, Prepared, Enqueueing, hfifo, hplace, hvalue, hnext] using hl.1
  | enqSwing node tail =>
    refine follows_casTail hg hl.2 (fun w' hfifo _ _ _ => ?_) (Option.some.inj h) hwrap
    exact (congrArg (fun q => q.status t) hfifo).trans hl.1
  | deqHead => exact Assertions.follows_of_eq h (follows_quiet hg ⟨hl, .inr rfl⟩)
  | deqTail head =>
    exact Assertions.follows_of_eq h
      (follows_quiet hg ⟨hl.1, .inr rfl, hl.2, fun heq hne => heq ▸ hne.symm⟩)
  | deqNext head tail => exact Assertions.follows_of_eq h (follows_look hg hl)
  | deqCheck head tail next =>
    obtain ⟨hdeq, htail, hseen, hhead⟩ := hl
    simp only [access] at h
    split at h
    · next heq =>
      obtain ⟨hne, hnext, hempty⟩ := hhead heq
      split at h
      · next hsame =>
        split at h
        · split at h
          · next hnull => exact Assertions.follows_of_eq h (follows_quiet hg (hempty hnull))
          · next hnull =>
            refine Assertions.follows_of_eq h (follows_quiet hg ⟨hdeq, htail, fun _ => ⟨?_, hnull⟩⟩)
            rw [World.nextPtr, ← hsame]
            exact hnext hnull
        · exact Assertions.follows_of_eq h (follows_quiet hg trivial)
      · next hdiff =>
        obtain ⟨htail', hnull⟩ := hne hdiff
        exact Assertions.follows_of_eq h
          (follows_quiet hg ⟨hdeq, hseen, fun _ => ⟨htail', hnull, hnext hnull⟩⟩)
    · exact Assertions.follows_of_eq h (follows_quiet hg hdeq)
  | deqHelp tail next =>
    refine follows_casTail hg hl.2 (fun w' hfifo _ _ _ => ?_) (Option.some.inj h) hwrap
    simpa only [Local, Dequeueing, hfifo] using hl.1
  | deqValue head next =>
    exact Assertions.follows_of_eq h (follows_quiet hg ⟨hl.1, hl.2.1, fun heq => ⟨hl.2.2 heq, rfl⟩⟩)
  | deqUnlink head next val =>
    obtain ⟨⟨b, hst⟩, hseen, hhead⟩ := hl
    simp only [access] at h
    split at h
    · next heq =>
      obtain ⟨hready, hval⟩ := hhead heq
      subst heq
      simp only [Option.some.injEq, Prod.mk.injEq] at h
      obtain ⟨rfl, rfl, rfl⟩ := h
      exact follows_unlink hg hst hready hval hwrap
    · exact Assertions.follows_of_eq h (follows_quiet hg ⟨b, hst⟩)
  | deqReclaim head val => exact Assertions.follows_of_eq h (follows_deqReclaim hg hl)

theorem follows_step (hg : Glob w) {l : Pc} (hl : Local t w l) {a : Act} {m : Mem n} {l' : Pc}
    {es : List Event} (h : step t a w.mem l = some (m, l', es)) (hwrap : NoWrap (w.hist ++ emit t es)) :
    assertions.Follows t w m l' es := by
  cases a with
  | call o =>
    simp only [step] at h
    split at h
    · next hidle =>
      subst hidle
      exact Assertions.follows_of_eq h (follows_call hg hl o)
    · cases h
  | run => exact follows_access hg hl h hwrap

def outline : Outline (program n) anyStep NoWrap (World n) where
  toAssertions := assertions
  step hg hl hs _ hadm := follows_step hg (hl _) hs hadm
  stable hu hg _ hl hgu := hl.stable hu hg hgu

/-! ## The start -/

/-- The nodes that `init_queue` puts on the free lists are all different. -/
theorem initialNode_inj (hn : n ≤ 4) {i i' : Fin n} {j j' : Fin maxFreelist}
    (h : initialNode i j = initialNode i' j') : i = i' ∧ j = j' := by
  have h' := congrArg BitVec.toNat h
  have h₁ : j.val < 4 := j.isLt
  have h₂ : j'.val < 4 := j'.isLt
  simp only [initialNode, maxFreelist, BitVec.toNat_ofNat] at h'
  omega

theorem initialNode_range (hn : n ≤ 4) (i : Fin n) {j : Fin maxFreelist} (hj : j.val < initialFree) :
    2 ≤ (initialNode i j).toNat ∧ (initialNode i j).toNat ≤ maxNodes + 1 := by
  simp only [initialFree] at hj
  simp only [initialNode, maxFreelist, maxNodes, BitVec.toNat_ofNat]
  omega

/-- It is neither the null index nor the dummy node. -/
theorem initialNode_ne (hn : n ≤ 4) (i : Fin n) {j : Fin maxFreelist} (hj : j.val < initialFree)
    {node : UInt} (hnode : node.toNat < 2) : initialNode i j ≠ node := by
  rintro rfl
  exact absurd (initialNode_range hn i hj).1 (Nat.not_le.mpr hnode)

open Classical in
/-- The places after `init_queue`. -/
noncomputable def initialPlace (n : ℕ) (node : UInt) : Place n :=
  if node = 1 then .chain
  else if h : ∃ p : Fin n × Fin maxFreelist, p.2.val < initialFree ∧ node = initialNode p.1 p.2 then
    .free h.choose.1 h.choose.2
  else .none

theorem initialPlace_one : initialPlace n 1 = .chain := if_pos rfl

theorem initialPlace_free (hn : n ≤ 4) (i : Fin n) {j : Fin maxFreelist} (hj : j.val < initialFree) :
    initialPlace n (initialNode i j) = .free i j := by
  have h : ∃ p : Fin n × Fin maxFreelist, p.2.val < initialFree ∧
      initialNode i j = initialNode p.1 p.2 :=
    ⟨(i, j), hj, rfl⟩
  obtain ⟨h₁, h₂⟩ := initialNode_inj hn h.choose_spec.2
  rw [initialPlace, if_neg (initialNode_ne hn i hj (by decide)), dif_pos h, ← h₁, ← h₂]

theorem initialPlace_cases {node : UInt} (h : initialPlace n node ≠ .none) :
    node = 1 ∨ node ≠ 1 ∧ ∃ (i : Fin n) (j : Fin maxFreelist), j.val < initialFree ∧
      node = initialNode i j := by
  unfold initialPlace at h
  split at h
  · next h₁ => exact .inl h₁
  · next h₁ =>
    split at h
    · next h₂ =>
      obtain ⟨p, hp⟩ := h₂
      exact .inr ⟨h₁, p.1, p.2, hp⟩
    · exact absurd rfl h

theorem holds_start (hn : n ≤ 4) {m : Mem n} (hm : ∀ i j, initialFree ≤ j.val → m.freeLists i j = 0) :
    outline.Holds ⟨initQueue m, [], ⟨[], fun _ => .idle⟩, [1], initialPlace n⟩ [] (start m) where
  mem := rfl
  hist := rfl
  glob := by
    have hone : (initQueue m).next 1 = makePointer 0 0 := by simp [initQueue]
    have hhead : getPtr (initQueue m).head = 1 := getPtr_makePointer ..
    have htail : getPtr (initQueue m).tail = 1 := getPtr_makePointer ..
    have hzero : ∀ ptr, count (makePointer ptr 0) = 0 := by
      intro ptr
      rw [count, getCount_makePointer]
      rfl
    have hnull : getPtr ((initQueue m).next 1) = 0 := by
      rw [hone]
      exact getPtr_makePointer ..
    refine ⟨rfl, ⟨congrArg some hhead, succ_eq_none.mpr hnull⟩, List.nodup_singleton _,
      ⟨[], .inl (congrArg (fun i => [i]) htail.symm)⟩, rfl, fun i hi => ?_, fun i j h => ?_,
      fun i hi => ?_, hzero 1, hzero 1, fun i hi => ?_⟩
    · rw [List.mem_singleton.mp hi]
      exact initialPlace_one
    · by_cases hj : j.val < initialFree
      · rw [show (initQueue m).freeLists i j = initialNode i j from if_pos hj]
        exact initialPlace_free hn i hj
      · have hz : (initQueue m).freeLists i j = m.freeLists i j := if_neg hj
        exact absurd (hz.trans (hm i j (Nat.le_of_not_lt hj))) h
    · rcases initialPlace_cases hi with rfl | ⟨-, i, j, hj, rfl⟩
      · exact ⟨by decide, by decide⟩
      · have := initialNode_range hn i hj
        exact ⟨Nat.le_of_succ_le this.1, this.2⟩
    · rcases initialPlace_cases hi with rfl | ⟨hne, hfree⟩
      · exact (congrArg count hone).trans (hzero 0)
      · rw [show (initQueue m).next i = makePointer poisonIdx 0 from (if_neg hne).trans (if_pos hfree)]
        exact hzero poisonIdx
  loc _ := rfl

end Linked

/-- The trace of every run is one of the atomic queue, which holds the values that have been
linked and not unlinked. -/
theorem queue_refines_fifo {n : ℕ} (hn : n ≤ 4) {m : Mem n}
    (hm : ∀ i j, initialFree ≤ j.val → m.freeLists i j = 0) {tr : List (Fin n × Event)}
    {c : Config (Fin n) (Mem n) Pc} (hrun : (program n).Run anyStep (start m) tr c)
    (hwrap : NoWrap tr) :
    ∃ q, fifo tr = some q ∧ q.queue = (linked tr).drop (occurrences .unlink tr) := by
  obtain ⟨w, hw⟩ := Linked.outline.sound NoWrap.of_append (Linked.holds_start hn hm) hrun hwrap
  have hfifo := hw.glob.fifo
  rw [show w.hist = tr from hw.hist] at hfifo
  exact ⟨w.fifo, hfifo, (fifo_queue hfifo).2⟩

/-- A queue and a block for the free lists, all zero. -/
def zeroed (n : ℕ) : Mem n := ⟨0, 0, fun _ => 0, fun _ => 0, fun _ _ => 0⟩

/-- A dequeue that finds `tail` behind, moves it on for the enqueue and takes the element. -/
theorem queue_refines_fifo_helped :
    ∃ tr, ∃ q : Fifo (Fin 2), fifo tr = some q ∧ q.queue = (linked tr).drop (occurrences .unlink tr) ∧
      tr = [(0, .call (.enqueue 7)), (0, .cas (.next 1)), (0, .link 7), (1, .call .dequeue), (1, .look),
        (1, .cas .tail), (1, .look), (1, .cas .head), (1, .unlink), (1, .ret (.returnTrue 7 1)),
        (0, .ret .void)] := by
  have h₀ : (program 2).Run anyStep (start (zeroed 2)) [] (start (zeroed 2)) := .start
  have h₁ := h₀.solo 0 (.call (.enqueue 7) :: List.replicate 8 .run) _ _ _ rfl
  have h₂ := h₁.solo 1 (.call .dequeue :: List.replicate 13 .run) _ _ _ rfl
  have h₃ := h₂.solo 0 (List.replicate 2 .run) _ _ _ rfl
  obtain ⟨q, hq, hqueue⟩ := queue_refines_fifo (by decide) (fun _ _ _ => rfl) h₃ fun c =>
    Nat.lt_of_le_of_lt List.countP_le_length (by decide)
  exact ⟨_, q, hq, hqueue, rfl⟩

end Cds.MsQueue
