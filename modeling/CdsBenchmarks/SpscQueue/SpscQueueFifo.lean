import CdsBenchmarks.SpscQueue.SpscQueueDefs

/-! The queue is first-in first-out and no deleted node is touched. Nodes are linked in the
order of their numbers, so that node `k + 1` holds the `k`-th value linked, and the nodes
before `tail` are the deleted ones. -/

namespace Cds.SpscQueue
open Concurrent Program

namespace Fifo

/-- `linked` and `returned` are the values the trace says were linked and returned. -/
structure World where
  mem : Mem
  hist : List (Thread × Event)
  linked : List CInt
  returned : List CInt

structure Glob (w : World) : Prop where
  linked : linkedValues w.hist = w.linked
  returned : returnedValues w.hist = w.returned
  next : ∀ k, w.mem.next k = if k < w.linked.length then some (k + 1) else none
  data : ∀ k v, w.linked[k]? = some v → w.mem.data (k + 1) = v
  tail : w.mem.tail ≤ w.linked.length
  deleted : ∀ k, w.mem.deleted k = true ↔ k < w.mem.tail

/-- The producer has the fresh node `n` with value `data`, not yet linked. -/
structure HasNode (w : World) (data : CInt) (n : ℕ) : Prop where
  head : w.mem.head = w.linked.length
  fresh : w.mem.fresh = w.linked.length + 2
  node : n = w.linked.length + 1
  data : w.mem.data n = data

def Ready (w : World) : Prop := w.mem.head = w.linked.length ∧ w.mem.fresh = w.linked.length + 1

def Producer (w : World) : Pc → Prop
  | .idle | .signal _ | .enqNew _ => Ready w
  | .enqHead data n => HasNode w data n
  | .enqLink data n h => HasNode w data n ∧ h = w.linked.length
  | .enqMove n => n = w.linked.length ∧ w.mem.fresh = w.linked.length + 1
  | _ => False

/-- Everything unlinked has been returned. -/
def Settled (w : World) : Prop := w.returned = w.linked.take w.mem.tail

def Consumer (w : World) : Pc → Prop
  | .idle | .deqTail _ | .event _ => Settled w
  | .deqNext _ t => Settled w ∧ t = w.mem.tail
  | .deqData _ t n => Settled w ∧ t = w.mem.tail ∧ n = t + 1 ∧ t < w.linked.length
  | .deqDelete _ t n data => Settled w ∧ t = w.mem.tail ∧ n = t + 1 ∧ w.linked[t]? = some data
  | .deqRet data => w.returned ++ [data] = w.linked.take w.mem.tail
  | _ => False

def Local : Thread → World → Pc → Prop
  | .producer => Producer
  | .consumer => Consumer

structure ProducerGuar (w w' : World) : Prop where
  tail : w'.mem.tail = w.mem.tail
  returned : w'.returned = w.returned
  linked : w.linked <+: w'.linked

structure ConsumerGuar (w w' : World) : Prop where
  head : w'.mem.head = w.mem.head
  fresh : w'.mem.fresh = w.mem.fresh
  data : w'.mem.data = w.mem.data
  linked : w'.linked = w.linked

def Guar : Thread → World → World → Prop
  | .producer => ProducerGuar
  | .consumer => ConsumerGuar

def assertions : Assertions Thread Mem Pc Event World where
  mem := World.mem
  hist := World.hist
  glob := Glob
  loc := Local
  guar := Guar

variable {w : World}

theorem Producer.stable {w' : World} {l : Pc} (hl : Producer w l) (hg : ConsumerGuar w w') :
    Producer w' l := by
  obtain ⟨hhead, hfresh, hdata, hlinked⟩ := hg
  cases l <;> simp only [Producer, Ready, hhead, hfresh, hlinked] at hl ⊢ <;> try exact hl
  case enqHead data n => exact ⟨by rw [hhead, hlinked, hl.1], by rw [hfresh, hlinked, hl.2],
    by rw [hlinked, hl.3], by rw [hdata, hl.4]⟩
  case enqLink data n h =>
    obtain ⟨hl, hh⟩ := hl
    exact ⟨⟨by rw [hhead, hlinked, hl.1], by rw [hfresh, hlinked, hl.2],
      by rw [hlinked, hl.3], by rw [hdata, hl.4]⟩, hh⟩

theorem Consumer.stable {w' : World} {l : Pc} (hg : Glob w) (hl : Consumer w l)
    (hgu : ProducerGuar w w') : Consumer w' l := by
  obtain ⟨htail, hret, vs, hvs⟩ := hgu
  have htake : w'.linked.take w.mem.tail = w.linked.take w.mem.tail := by
    rw [← hvs, List.take_append_of_le_length hg.tail]
  have hlen : w.linked.length ≤ w'.linked.length := by simp [← hvs]
  cases l <;> simp only [Consumer, Settled, htail, hret, htake] at hl ⊢ <;> try exact hl
  case deqData s t n => exact ⟨hl.1, hl.2.1, hl.2.2.1, Nat.lt_of_lt_of_le hl.2.2.2 hlen⟩
  case deqDelete s t n data =>
    obtain ⟨h₁, h₂, h₃, hget⟩ := hl
    have hlt := (List.getElem?_eq_some_iff.mp hget).1
    exact ⟨h₁, h₂, h₃, by rw [← hvs, List.getElem?_append_left hlt, hget]⟩

/-! ## The steps -/

/-- A step of the producer that links no node and leaves the nodes of the queue alone. -/
theorem follows_producer (hg : Glob w) {m : Mem} {l : Pc} {es : List Event}
    (hn : m.next = w.mem.next) (hd : m.data = w.mem.data) (ht : m.tail = w.mem.tail)
    (hdel : m.deleted = w.mem.deleted) (hlink : linkedValues (emit .producer es) = [])
    (hret : returnedValues (emit .producer es) = [])
    (hl : Producer { w with mem := m, hist := w.hist ++ emit .producer es } l) :
    assertions.Follows .producer w m l es := by
  refine ⟨_, rfl, rfl, ?_, hl, ⟨ht, rfl, List.prefix_rfl⟩⟩
  refine ⟨?_, ?_, hn ▸ hg.next, hd ▸ hg.data, ht ▸ hg.tail, by rw [ht, hdel]; exact hg.deleted⟩
  · rw [linkedValues_append, hlink, List.append_nil, hg.linked]
  · rw [returnedValues_append, hret, List.append_nil, hg.returned]

theorem follows_new (hg : Glob w) {data : CInt} (hr : Ready w) :
    assertions.Follows .producer w
      { w.mem with data := Function.update w.mem.data w.mem.fresh data
                   next := Function.update w.mem.next w.mem.fresh none
                   fresh := w.mem.fresh + 1 } (.enqHead data w.mem.fresh) [] := by
  obtain ⟨hhead, hfresh⟩ := hr
  refine ⟨{ w with mem := _ }, rfl, (List.append_nil _).symm, ⟨hg.linked, hg.returned, fun k => ?_,
    fun k v hk => ?_, hg.tail, hg.deleted⟩, ⟨hhead, by simp [hfresh], hfresh, by simp⟩,
    ⟨rfl, rfl, List.prefix_rfl⟩⟩
  · by_cases hk : k = w.mem.fresh
    · simp [hk, hfresh]
    · simpa [hk] using hg.next k
  · have hlt : k < w.linked.length := (List.getElem?_eq_some_iff.mp hk).1
    have hne : k + 1 ≠ w.mem.fresh := by omega
    simpa [hne] using hg.data k v hk

theorem follows_link (hg : Glob w) {data : CInt} {n h : ℕ} (hl : Producer w (.enqLink data n h)) :
    assertions.Follows .producer w { w.mem with next := Function.update w.mem.next h (some n) }
      (.enqMove n) [.linked data] := by
  obtain ⟨⟨hhead, hfresh, rfl, hdata⟩, rfl⟩ := hl
  have hlen : (w.linked ++ [data]).length = w.linked.length + 1 := by simp
  refine ⟨⟨_, _, w.linked ++ [data], w.returned⟩, rfl, rfl, ⟨?_, ?_, fun k => ?_, fun k v hk => ?_,
    by simpa using Nat.le_succ_of_le hg.tail, hg.deleted⟩, ⟨hlen.symm, by simp [hfresh]⟩,
    ⟨rfl, rfl, List.prefix_append ..⟩⟩
  · rw [← hg.linked]
    exact linkedValues_append ..
  · rw [← hg.returned]
    exact (returnedValues_append ..).trans (List.append_nil _)
  · by_cases hk : k = w.linked.length
    · simp [hk]
    · simp only [Function.update_of_ne hk, hg.next k, hlen]
      split_ifs <;> first | rfl | omega
  · by_cases hlt : k < w.linked.length
    · exact hg.data k v (List.getElem?_append_left hlt ▸ hk)
    · obtain rfl : k = w.linked.length := by
        have := (List.getElem?_eq_some_iff.mp hk).1
        simp only [hlen] at this
        omega
      obtain rfl : data = v := by simpa using hk
      exact hdata

/-- A step of the consumer that unlinks nothing. -/
theorem follows_consumer (hg : Glob w) {m : Mem} {l : Pc} {es : List Event}
    (hn : m.next = w.mem.next) (hd : m.data = w.mem.data) (ht : m.tail = w.mem.tail)
    (hdel : m.deleted = w.mem.deleted) (hh : m.head = w.mem.head) (hf : m.fresh = w.mem.fresh)
    (hlink : linkedValues (emit .consumer es) = [])
    (hl : Consumer ⟨m, w.hist ++ emit .consumer es, w.linked,
      w.returned ++ returnedValues (emit .consumer es)⟩ l) : assertions.Follows .consumer w m l es := by
  refine ⟨_, rfl, rfl, ?_, hl, ⟨hh, hf, hd, rfl⟩⟩
  refine ⟨?_, ?_, hn ▸ hg.next, hd ▸ hg.data, ht ▸ hg.tail, by rw [ht, hdel]; exact hg.deleted⟩
  · rw [linkedValues_append, hlink, List.append_nil, hg.linked]
  · rw [returnedValues_append, hg.returned]

theorem follows_delete (hg : Glob w) {s : Site} {t n : ℕ} {data : CInt}
    (hl : Consumer w (.deqDelete s t n data)) (hnz : data ≠ 0) : assertions.Follows .consumer w
      { w.mem with deleted := Function.update w.mem.deleted t true, tail := n } (s.resume data)
      [.unlinked data] := by
  obtain ⟨hset, rfl, rfl, hget⟩ := hl
  have hlt : w.mem.tail < w.linked.length := (List.getElem?_eq_some_iff.mp hget).1
  refine ⟨⟨_, _, w.linked, w.returned⟩, rfl, rfl, ⟨?_, ?_, hg.next, hg.data, hlt, fun k => ?_⟩,
    ?_, ⟨rfl, rfl, rfl, rfl⟩⟩
  · rw [← hg.linked]
    exact (linkedValues_append ..).trans (List.append_nil _)
  · rw [← hg.returned]
    exact (returnedValues_append ..).trans (List.append_nil _)
  · by_cases hk : k = w.mem.tail
    · simp [hk]
    · simp only [Function.update_of_ne hk, hg.deleted]
      omega
  · rw [s.resume_of_ne_zero hnz]
    change w.returned ++ [data] = w.linked.take (w.mem.tail + 1)
    rw [List.take_add_one, hget, ← hset]
    rfl

theorem producer_afterSignal (hr : Ready w) (p : Eventcount.Pc) : Producer w (afterSignal p) := by
  cases p <;> exact hr

theorem consumer_afterEvent (hs : Settled w) (p : Eventcount.Pc) : Consumer w (afterEvent p) := by
  cases p with
  | done r => cases r <;> exact hs
  | _ => exact hs

theorem consumer_resume_zero (hs : Settled w) (s : Site) : Consumer w (s.resume 0) := by
  cases s <;> exact hs

theorem settled_of_eq {m : Mem} {h : List (Thread × Event)} (hs : Settled w)
    (ht : m.tail = w.mem.tail) : Settled ⟨m, h, w.linked, w.returned ++ []⟩ := by
  simpa [Settled, ht] using hs

theorem follows_producer_access (hg : Glob w) {l₀ l : Pc} (hl : Producer w l₀) {b : Bool} {m : Mem}
    {es : List Event} (hs : access .producer b w.mem l₀ = some (m, l, es)) :
    assertions.Follows .producer w m l es := by
  cases l₀ <;> simp only [access, reduceCtorEq] at hs <;> try exact hl.elim
  case enqNew data =>
    cases hs
    exact follows_new hg hl
  case enqHead data n =>
    cases hs
    exact follows_producer hg rfl rfl rfl rfl rfl rfl ⟨⟨hl.1, hl.2, hl.3, hl.4⟩, hl.1⟩
  case enqLink data n h =>
    cases hs
    exact follows_link hg hl
  case enqMove n =>
    cases hs
    exact follows_producer hg rfl rfl rfl rfl rfl rfl hl
  case signal p =>
    obtain ⟨r, -, heq⟩ := Option.map_eq_some_iff.mp hs
    cases heq
    split <;> exact follows_producer hg rfl rfl rfl rfl rfl rfl (producer_afterSignal (by exact hl) _)

theorem follows_consumer_access (hg : Glob w) {l₀ l : Pc} (hl : Consumer w l₀) (hk : l₀.keeps)
    {b : Bool} {m : Mem} {es : List Event} (hs : access .consumer b w.mem l₀ = some (m, l, es)) :
    assertions.Follows .consumer w m l es := by
  cases l₀ <;> simp only [access, reduceCtorEq] at hs <;> try exact hl.elim
  case deqTail s =>
    cases hs
    exact follows_consumer hg rfl rfl rfl rfl rfl rfl rfl ⟨settled_of_eq hl rfl, rfl⟩
  case deqNext s t =>
    obtain ⟨hset, rfl⟩ := hl
    have hnext := hg.next w.mem.tail
    split at hs <;> cases hs
    · exact follows_consumer hg rfl rfl rfl rfl rfl rfl rfl
        (consumer_resume_zero (settled_of_eq hset rfl) s)
    · next n hn =>
      rw [hn] at hnext
      split_ifs at hnext with hlt
      obtain rfl := Option.some.inj hnext
      exact follows_consumer hg rfl rfl rfl rfl rfl rfl rfl ⟨settled_of_eq hset rfl, rfl, rfl, hlt⟩
  case deqData s t n =>
    cases hs
    obtain ⟨hset, rfl, rfl, hlt⟩ := hl
    refine follows_consumer hg rfl rfl rfl rfl rfl rfl rfl ⟨settled_of_eq hset rfl, rfl, rfl, ?_⟩
    have hget := List.getElem?_eq_getElem hlt
    rw [hget, hg.data _ _ hget]
  case deqDelete s t n data =>
    cases hs
    exact follows_delete hg hl (by simpa [Pc.keeps] using hk)
  case event p =>
    obtain ⟨r, -, heq⟩ := Option.map_eq_some_iff.mp hs
    cases heq
    refine follows_consumer hg rfl rfl rfl rfl rfl rfl rfl (consumer_afterEvent ?_ _)
    exact settled_of_eq hl rfl
  case deqRet data =>
    cases hs
    exact follows_consumer hg rfl rfl rfl rfl rfl rfl rfl (by exact hl)

theorem follows_step (hg : Glob w) {t : Thread} {l₀ l : Pc} (hl : Local t w l₀) {a : Act} {m : Mem}
    {es : List Event} (hs : step t a w.mem l₀ = some (m, l, es))
    (hk : l₀.keeps) : assertions.Follows t w m l es := by
  cases a with
  | enqueue data =>
    obtain ⟨⟨rfl, rfl⟩, rfl, rfl, rfl⟩ : (t = .producer ∧ l₀ = .idle) ∧ w.mem = m ∧ Pc.enqNew data = l ∧
        [Event.enqueue data] = es := by simpa [step] using hs
    exact follows_producer hg rfl rfl rfl rfl rfl rfl hl
  | dequeue =>
    obtain ⟨⟨rfl, rfl⟩, rfl, rfl, rfl⟩ : (t = .consumer ∧ l₀ = .idle) ∧ w.mem = m ∧
        Pc.deqTail .first = l ∧ [Event.dequeue] = es := by simpa [step] using hs
    exact follows_consumer hg rfl rfl rfl rfl rfl rfl rfl (settled_of_eq hl rfl)
  | run | spurious =>
    cases t with
    | producer => exact follows_producer_access hg hl hs
    | consumer => exact follows_consumer_access hg hl hk hs

def outline : Outline program UnlinksNoZero (fun _ => True) World where
  toAssertions := assertions
  step hg hl hs hG _ := follows_step hg (hl _) hs hG
  stable {t u w w' l} hu hg _ hl hguar := by
    cases t <;> cases u <;> try exact absurd rfl hu
    · exact hl.stable hg hguar
    · exact hl.stable hguar

theorem holds_start : outline.Holds ⟨spscQueue, [], [], []⟩ [] start where
  mem := rfl
  hist := rfl
  glob := ⟨rfl, rfl, fun _ => rfl, by simp, Nat.le_refl _, by simp [spscQueue]⟩
  loc t := by
    cases t
    · exact ⟨rfl, rfl⟩
    · exact rfl

theorem holds_of_run {tr : List (Thread × Event)} {c : Config Thread Mem Pc}
    (h : program.Run UnlinksNoZero start tr c) : ∃ w, outline.Holds w tr c :=
  outline.sound (fun _ => trivial) holds_start h trivial

/-- The chain of nodes after `n` holds the values linked from the `n`-th on. -/
theorem Glob.contents (hg : Glob w) {n : ℕ} (hn : n ≤ w.linked.length) :
    Contents w.mem n (w.linked.drop n) := by
  induction hk : w.linked.length - n generalizing n with
  | zero =>
    rw [List.drop_eq_nil_of_le (by omega)]
    exact .nil (by rw [hg.next, if_neg (by omega)])
  | succ k ih =>
    have hlt : n < w.linked.length := by omega
    rw [List.drop_eq_getElem_cons hlt, ← hg.data n _ (List.getElem?_eq_getElem hlt)]
    exact .cons (by rw [hg.next, if_pos hlt]) (ih (by omega) (by omega))

theorem contents_eq {tr : List (Thread × Event)} {c : Config Thread Mem Pc}
    (hw : outline.Holds w tr c) :
    returnedValues tr ++ (c.loc .consumer).holding = (linkedValues tr).take c.mem.tail := by
  have hl : Consumer w (c.loc .consumer) := hw.loc .consumer
  have hmem : w.mem = c.mem := hw.mem
  obtain rfl : w.hist = tr := hw.hist
  rw [hw.glob.linked, hw.glob.returned, ← hmem]
  cases hpc : c.loc .consumer <;> rw [hpc] at hl <;> simp only [Pc.holding, List.append_nil] <;>
    try exact hl.elim
  case idle | deqTail | event | deqRet => exact hl
  case deqNext | deqData | deqDelete => exact hl.1

theorem not_deleted {tr : List (Thread × Event)} {c : Config Thread Mem Pc} (hw : outline.Holds w tr c)
    {t : Thread} {n : ℕ} (hn : (c.loc t).touches = some n) : c.mem.deleted n = false := by
  have hg := hw.glob
  have hl : Local t w (c.loc t) := hw.loc t
  have hmem : w.mem = c.mem := hw.mem
  rw [← hmem]
  suffices h : w.mem.tail ≤ n by
    have := mt (hg.deleted n).mp (Nat.not_lt.mpr h)
    simpa using this
  have htail := hg.tail
  cases hpc : c.loc t <;> rw [hpc] at hl hn <;>
    simp only [Pc.touches, reduceCtorEq, Option.some.injEq] at hn <;>
    subst hn <;> cases t <;> try exact hl.elim
  case enqLink data k h => exact hl.2 ▸ htail
  case deqNext s t => exact Nat.le_of_eq hl.2.symm
  case deqData s t k => have := hl.2; omega
  case deqDelete s t k data => exact Nat.le_of_eq hl.2.1.symm

end Fifo

/-! ## Nonzero values -/

/-- The value on its way into the queue. -/
def Pc.enqueues : Pc → Option CInt
  | .enqNew data | .enqHead data _ | .enqLink data _ _ => some data
  | _ => none

theorem enqueues_afterSignal (p : Eventcount.Pc) : (afterSignal p).enqueues = none := by
  cases p <;> rfl

theorem enqueues_afterEvent (p : Eventcount.Pc) : (afterEvent p).enqueues = none := by
  cases p with
  | done r => cases r <;> rfl
  | _ => rfl

theorem Site.enqueues_resume (s : Site) (data : CInt) : (s.resume data).enqueues = none := by
  cases s <;> simp only [Site.resume] <;> split <;> rfl

/-- A step links the value its thread was to enqueue, and brings none along but that of a call. -/
theorem step_enqueues {t : Thread} {a : Act} {m m' : Mem} {l l' : Pc} {es : List Event}
    (hs : step t a m l = some (m', l', es)) :
    (∀ v, l'.enqueues = some v → l.enqueues = some v ∨ .enqueue v ∈ es) ∧
      ∀ v, .linked v ∈ es → l.enqueues = some v := by
  have hrun : ∀ {b}, access t b m l = some (m', l', es) →
      (∀ v, l'.enqueues = some v → l.enqueues = some v ∨ .enqueue v ∈ es) ∧
        ∀ v, .linked v ∈ es → l.enqueues = some v := by
    clear hs
    intro b hs
    cases l <;> simp only [access, reduceCtorEq] at hs
    case signal p =>
      obtain ⟨r, -, heq⟩ := Option.map_eq_some_iff.mp hs
      cases heq
      rw [enqueues_afterSignal]
      split <;> simp
    case event p =>
      obtain ⟨r, -, heq⟩ := Option.map_eq_some_iff.mp hs
      cases heq
      rw [enqueues_afterEvent]
      simp
    case deqNext s k =>
      split at hs <;> cases hs
      · rw [s.enqueues_resume]
        simp
      · simp [Pc.enqueues]
    case deqDelete s k n data =>
      cases hs
      rw [s.enqueues_resume]
      simp
    all_goals
      cases hs
      simp [Pc.enqueues]
  cases a with
  | enqueue data | dequeue =>
    simp only [step] at hs
    split at hs <;> cases hs
    simp [Pc.enqueues]
  | run | spurious => exact hrun hs

/-- What is linked, and what is on its way, was passed to `enqueue`. -/
theorem enqueued_of_run {tr : List (Thread × Event)} {c : Config Thread Mem Pc}
    {G : Config Thread Mem Pc → Thread → Act → Prop} (h : program.Run G start tr c) :
    (∀ v ∈ linkedValues tr, ∃ t, (t, .enqueue v) ∈ tr) ∧
      ∀ t v, (c.loc t).enqueues = some v → (t, .enqueue v) ∈ tr := by
  induction h with
  | start => exact ⟨nofun, nofun⟩
  | @step tr c t a m l es h hs _ ih =>
    obtain ⟨hlinked, hloc⟩ := ih
    obtain ⟨hnew, hlink⟩ := step_enqueues hs
    constructor
    · intro v hv
      rw [linkedValues_append] at hv
      rcases List.mem_append.mp hv with hv | hv
      · exact (hlinked v hv).imp fun u hu => List.mem_append_left _ hu
      · have he : .linked v ∈ es := by
          obtain ⟨⟨u, e⟩, he, heq⟩ := List.mem_filterMap.mp hv
          obtain ⟨e, hmem, rfl, rfl⟩ : ∃ e' ∈ es, t = u ∧ e' = e := by simpa [emit] using he
          cases e <;> simp at heq
          exact heq ▸ hmem
        exact ⟨t, List.mem_append_left _ (hloc t v (hlink v he))⟩
    · refine forall_move (P := fun u (l' : Pc) => ∀ v, l'.enqueues = some v →
        (u, Event.enqueue v) ∈ tr ++ emit t es) (fun v hv => ?_) fun u _ v hv =>
          List.mem_append_left _ (hloc u v hv)
      rcases hnew v hv with hv | hv
      · exact List.mem_append_left _ (hloc t v hv)
      · exact List.mem_append_right _ (List.mem_map.mpr ⟨_, hv, rfl⟩)

theorem unlinked_mem {tr : List (Thread × Event)} {c : Config Thread Mem Pc}
    (h : program.Run UnlinksNoZero start tr c) {u : Thread} {s : Site} {t n : ℕ} {data : CInt}
    (hpc : c.loc u = .deqDelete s t n data) : data ∈ linkedValues tr := by
  obtain ⟨w, hw⟩ := Fifo.holds_of_run h
  have hl : Fifo.Local u w (c.loc u) := hw.loc u
  obtain rfl : w.hist = tr := hw.hist
  rw [hpc] at hl
  rw [hw.glob.linked]
  cases u with
  | producer => exact hl.elim
  | consumer => exact List.mem_of_getElem? hl.2.2.2

/-- Where no 0 is enqueued, none is unlinked. -/
theorem unlinksNoZero_of_run {tr : List (Thread × Event)} {c : Config Thread Mem Pc}
    (h : program.Run anyStep start tr c) (hnz : NonzeroValues tr) :
    program.Run UnlinksNoZero start tr c := by
  induction h with
  | start => exact .start
  | @step tr c t a m l es h hs _ ih =>
    have h := ih hnz.of_append
    refine h.step hs ?_
    unfold UnlinksNoZero
    cases hpc : c.loc t with
    | deqDelete s k n data =>
      obtain ⟨u, hu⟩ := (enqueued_of_run h).1 data (unlinked_mem h hpc)
      simpa [Pc.keeps] using hnz.of_append u data hu
    | _ => rfl

/-- The values returned, the one unlinked and the ones queued are those linked, in order;
and no thread is about to touch a deleted node. -/
structure Sound (tr : List (Thread × Event)) (c : Config Thread Mem Pc) : Prop where
  fifo : ∃ vs, Contents c.mem c.mem.tail vs ∧
    returnedValues tr ++ (c.loc .consumer).holding ++ vs = linkedValues tr
  live : ∀ t n, (c.loc t).touches = some n → c.mem.deleted n = false

/-- The consumer has deleted the node that `head` still points at, between the producer's
store to `head->next` and its `head = n`. -/
def Overtaken (c : Config Thread Mem Pc) : Prop :=
  ∃ n, c.loc .producer = .enqMove n ∧ c.mem.deleted c.mem.head = true

theorem run_overtaken : ∃ tr c, program.Run anyStep start tr c ∧ NonzeroValues tr ∧ Overtaken c := by
  have h₀ : program.Run anyStep start [] start := .start
  have h₁ := h₀.solo .producer [.enqueue 7, .run, .run, .run] _ _ _ rfl
  have h₂ := h₁.solo .consumer [.dequeue, .run, .run, .run, .run] _ _ _ rfl
  refine ⟨_, _, h₂, fun t data h => ?_, 1, rfl, rfl⟩
  simp [emit] at h
  simp [h]

theorem sound_of_run {tr : List (Thread × Event)} {c : Config Thread Mem Pc}
    (h : program.Run anyStep start tr c) (hnz : NonzeroValues tr) : Sound tr c := by
  obtain ⟨w, hw⟩ := Fifo.holds_of_run (unlinksNoZero_of_run h hnz)
  refine ⟨⟨w.linked.drop c.mem.tail, ?_, ?_⟩, fun t n => Fifo.not_deleted hw⟩
  · have hmem : w.mem = c.mem := hw.mem
    exact hmem ▸ hw.glob.contents hw.glob.tail
  · obtain rfl : w.hist = tr := hw.hist
    rw [Fifo.contents_eq hw, hw.glob.linked, List.take_append_drop]

/-- The values a consumer unlinks were enqueued. -/
theorem unlinked_ne_zero {tr : List (Thread × Event)} {c : Config Thread Mem Pc}
    (h : program.Run anyStep start tr c) (hnz : NonzeroValues tr) {s : Site} {t n : ℕ} {data : CInt}
    (hpc : c.loc .consumer = .deqDelete s t n data) : data ≠ 0 := by
  have h := unlinksNoZero_of_run h hnz
  obtain ⟨u, hu⟩ := (enqueued_of_run h).1 data (unlinked_mem h hpc)
  exact hnz u data hu

/-- **First-in first-out, and no deleted node is touched**, although the consumer may
delete the node that `head` still points at. -/
theorem fifo_and_lifetime : (∀ tr c, program.Run anyStep start tr c → NonzeroValues tr → Sound tr c) ∧
    ∃ tr c, program.Run anyStep start tr c ∧ NonzeroValues tr ∧ Overtaken c :=
  ⟨fun _ _ => sound_of_run, run_overtaken⟩

/-- The theorem where the consumer has overtaken the producer. -/
theorem fifo_and_lifetime_overtaken : ∃ tr c, Overtaken c ∧ Sound tr c := by
  obtain ⟨tr, c, h, hnz, hc⟩ := run_overtaken
  exact ⟨tr, c, hc, fifo_and_lifetime.1 tr c h hnz⟩

end Cds.SpscQueue
