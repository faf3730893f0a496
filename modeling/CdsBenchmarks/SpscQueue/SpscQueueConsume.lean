import CdsBenchmarks.SpscQueue.SpscQueueWakeup

/-! What one `dequeue` consumes. The result of `try_dequeue` is also its sign for an empty
queue, so that a node holding 0 is unlinked and then taken for none. As long as no such node
is unlinked every call consumes one node, and goes to sleep only in a queue with no completed
element; once one is unlinked its value is lost. -/

namespace Cds.SpscQueue
open Concurrent Program
open Eventcount (Word)

/-- The values queued whose `enqueue` has returned: all but the last while the producer is
still inside the call that linked it. -/
def completed (l : Pc) (vs : List CInt) : List CInt := if l.signalling then vs.dropLast else vs

/-- From `c` to `c'` the consumer makes one call of `dequeue`, which returns `v`. -/
structure Dequeues (c : Config Thread Mem Pc) (tr : List (Thread × Event)) (c' : Config Thread Mem Pc)
    (v : CInt) : Prop where
  run : program.Run anyStep c tr c'
  call : c.loc .consumer = .idle
  ret : c'.loc .consumer = .idle
  returned : returnedValues tr = [v]

/-- What has been consumed in a run that has reached `c`. -/
structure Consumes (tr : List (Thread × Event)) (c : Config Thread Mem Pc) : Prop where
  /-- A call that returns has unlinked one node, the one whose data it returns. -/
  one : ∀ {tr₁ tr₂ c₁ v}, tr₁ ++ tr₂ = tr → program.Run anyStep start tr₁ c₁ → Dequeues c₁ tr₂ c v →
    unlinkedValues tr₂ = [v] ∧ c.mem.next c₁.mem.tail = some c.mem.tail ∧ c.mem.data c.mem.tail = v
  /-- What is unlinked is returned. -/
  kept : unlinkedValues tr = returnedValues tr ++ (c.loc .consumer).holding
  /-- The consumer that is about to sleep leaves no completed element behind. -/
  awake : c.loc .consumer = .event .waitCv → ∀ vs, Contents c.mem c.mem.tail vs →
    completed (c.loc .producer) vs = []

/-! ## One node a call -/

section Nodes
variable {tr tr₁ tr₂ : List (Thread × Event)} {c c₁ c' : Config Thread Mem Pc}

theorem holding_afterSignal (p : Eventcount.Pc) : (afterSignal p).holding = [] := by
  cases p <;> rfl

theorem holding_afterEvent (p : Eventcount.Pc) : (afterEvent p).holding = [] := by
  cases p with
  | done r => cases r <;> rfl
  | _ => rfl

theorem Site.holding_resume_zero (s : Site) : (s.resume 0).holding = [] := by
  cases s <;> rfl

variable {t : Thread} {m m' : Mem} {l l' : Pc} {es : List Event}

theorem access_unlinked {b : Bool} (hs : access t b m l = some (m', l', es)) (hk : l.keeps) :
    l.holding ++ unlinkedValues (emit t es) = returnedValues (emit t es) ++ l'.holding := by
  cases l <;> simp only [access, reduceCtorEq] at hs
  case signal p =>
    obtain ⟨r, -, heq⟩ := Option.map_eq_some_iff.mp hs
    cases heq
    rw [holding_afterSignal]
    split <;> rfl
  case event p =>
    obtain ⟨r, -, heq⟩ := Option.map_eq_some_iff.mp hs
    cases heq
    rw [holding_afterEvent]
    rfl
  case deqNext s k =>
    split at hs <;> cases hs
    · rw [s.holding_resume_zero]
      rfl
    · rfl
  case deqDelete s k n data =>
    cases hs
    rw [s.resume_of_ne_zero (by simpa [Pc.keeps] using hk)]
    rfl
  all_goals
    cases hs
    rfl

/-- A step unlinks what the thread then holds, and returns what it has held. -/
theorem step_unlinked {a : Act} (hs : step t a m l = some (m', l', es)) (hk : l.keeps) :
    l.holding ++ unlinkedValues (emit t es) = returnedValues (emit t es) ++ l'.holding := by
  cases a with
  | enqueue data | dequeue =>
    simp only [step] at hs
    split at hs <;> cases hs
    next hl =>
      rw [hl.2]
      rfl
  | run | spurious => exact access_unlinked hs hk

/-- Only a thread about to unlink a node with 0 unlinks a 0. -/
theorem step_zero {a : Act} (hs : step t a m l = some (m', l', es)) :
    0 ∉ unlinkedValues (emit t es) ↔ l.keeps := by
  have hrun : ∀ {b}, access t b m l = some (m', l', es) →
      (0 ∉ unlinkedValues (emit t es) ↔ l.keeps) := by
    clear hs
    intro b hs
    cases l <;> simp only [access, reduceCtorEq] at hs
    case signal p =>
      obtain ⟨r, -, heq⟩ := Option.map_eq_some_iff.mp hs
      cases heq
      split <;> exact iff_of_true List.not_mem_nil rfl
    case event p =>
      obtain ⟨r, -, heq⟩ := Option.map_eq_some_iff.mp hs
      cases heq
      exact iff_of_true List.not_mem_nil rfl
    case deqNext s k => split at hs <;> cases hs <;> exact iff_of_true List.not_mem_nil rfl
    case deqDelete s k n data =>
      cases hs
      change 0 ∉ [data] ↔ decide (data ≠ 0) = true
      rw [List.mem_singleton, decide_eq_true_iff]
      exact not_congr eq_comm
    all_goals
      cases hs
      exact iff_of_true List.not_mem_nil rfl
  cases a with
  | enqueue data | dequeue =>
    simp only [step] at hs
    split at hs <;> cases hs
    next hl =>
      rw [hl.2]
      exact iff_of_true List.not_mem_nil rfl
  | run | spurious => exact hrun hs

theorem unlinksNoZero_iff {c₀ : Config Thread Mem Pc} (h : program.Run anyStep c₀ tr c) :
    program.Run UnlinksNoZero c₀ tr c ↔ 0 ∉ unlinkedValues tr := by
  constructor
  · intro hrun
    clear h
    induction hrun with
    | start => exact List.not_mem_nil
    | step _ hs hG ih =>
      rw [unlinkedValues_append, List.mem_append, not_or]
      exact ⟨ih, (step_zero hs).mpr hG⟩
  · intro hzero
    induction h with
    | start => exact .start
    | step _ hs _ ih =>
      rw [unlinkedValues_append, List.mem_append, not_or] at hzero
      exact (ih hzero.1).step hs ((step_zero hs).mp hzero.2)

theorem Site.zero_resume (s : Site) (data : CInt) : 0 ∉ (s.resume data).holding := by
  by_cases hd : data = 0
  · subst hd
    rw [s.holding_resume_zero]
    exact List.not_mem_nil
  · rw [s.resume_of_ne_zero hd]
    exact fun h => hd (List.mem_singleton.mp h).symm

/-- No 0 is returned: it would be the sign of an empty queue. -/
theorem step_holds_no_zero {a : Act} (hs : step t a m l = some (m', l', es)) (hl : 0 ∉ l.holding) :
    0 ∉ l'.holding ∧ 0 ∉ returnedValues (emit t es) := by
  have hrun : ∀ {b}, access t b m l = some (m', l', es) →
      0 ∉ l'.holding ∧ 0 ∉ returnedValues (emit t es) := by
    clear hs
    intro b hs
    cases l <;> simp only [access, reduceCtorEq] at hs
    case signal p =>
      obtain ⟨r, -, heq⟩ := Option.map_eq_some_iff.mp hs
      cases heq
      rw [holding_afterSignal]
      split <;> exact ⟨List.not_mem_nil, List.not_mem_nil⟩
    case event p =>
      obtain ⟨r, -, heq⟩ := Option.map_eq_some_iff.mp hs
      cases heq
      rw [holding_afterEvent]
      exact ⟨List.not_mem_nil, List.not_mem_nil⟩
    case deqNext s k =>
      split at hs <;> cases hs
      · exact ⟨s.zero_resume 0, List.not_mem_nil⟩
      · exact ⟨List.not_mem_nil, List.not_mem_nil⟩
    case deqDelete s k n data =>
      cases hs
      exact ⟨s.zero_resume data, List.not_mem_nil⟩
    case deqRet data =>
      cases hs
      exact ⟨List.not_mem_nil, hl⟩
    all_goals
      cases hs
      exact ⟨List.not_mem_nil, List.not_mem_nil⟩
  cases a with
  | enqueue data | dequeue =>
    simp only [step] at hs
    split at hs <;> cases hs
    exact ⟨List.not_mem_nil, List.not_mem_nil⟩
  | run | spurious => exact hrun hs

theorem zero_not_returned (h : program.Run anyStep start tr c) :
    0 ∉ returnedValues tr ∧ ∀ t, 0 ∉ (c.loc t).holding := by
  induction h with
  | start => exact ⟨List.not_mem_nil, fun _ => List.not_mem_nil⟩
  | @step tr c t a m l es h hs _ ih =>
    obtain ⟨hl, hret⟩ := step_holds_no_zero hs (ih.2 t)
    rw [returnedValues_append, List.mem_append, not_or]
    exact ⟨⟨ih.1, hret⟩, forall_move (P := fun _ (l : Pc) => 0 ∉ l.holding) hl fun u _ => ih.2 u⟩

/-- The producer is at none of the points of `try_dequeue`. -/
theorem Fifo.Producer.holding {w : Fifo.World} (hl : Fifo.Producer w l) : l.holding = [] := by
  cases l <;> first | exact hl.elim | rfl

theorem unlinked_eq_returned (h : program.Run UnlinksNoZero start tr c) : unlinkedValues tr = returnedValues tr ++ (c.loc .consumer).holding := by
  induction h with
  | start => rfl
  | @step tr c t a m l es h hs hG ih =>
    obtain ⟨w, hw⟩ := Fifo.holds_of_run h
    obtain ⟨w', hw', hguar⟩ := hw.next hs hG trivial
    rw [unlinkedValues_append, returnedValues_append, ih, List.append_assoc, List.append_assoc]
    congr 1
    cases t with
    | consumer =>
      rw [move_loc_self]
      exact step_unlinked hs hG
    | producer =>
      rw [move_loc_of_ne _ _ _ (by decide)]
      have hl : Fifo.Producer w (c.loc .producer) := hw.loc .producer
      have hl' : Fifo.Producer w' l := move_loc_self c .producer m l ▸ hw'.loc .producer
      have heq := step_unlinked hs hG
      have hret : returnedValues (emit .producer es) = [] := by
        have hguar : Fifo.ProducerGuar w w' := hguar
        have hist : w.hist = tr := hw.hist
        have hist' : w'.hist = tr ++ emit .producer es := hw'.hist
        have := hw'.glob.returned.trans (hguar.returned.trans hw.glob.returned.symm)
        rwa [hist, hist', returnedValues_append, List.append_right_eq_self] at this
      rw [hl.holding, hl'.holding, hret] at heq
      rw [hret, show unlinkedValues (emit .producer es) = [] from heq, List.append_nil, List.nil_append]

/-- The consumer is between two calls. -/
theorem returned_eq_take (h : program.Run UnlinksNoZero start tr c) (hidle : c.loc .consumer = .idle) :
    returnedValues tr = (linkedValues tr).take c.mem.tail ∧
      c.mem.tail ≤ (linkedValues tr).length := by
  obtain ⟨w, hw⟩ := Fifo.holds_of_run h
  have heq := Fifo.contents_eq hw
  rw [hidle] at heq
  obtain rfl : w.hist = tr := hw.hist
  have hmem : w.mem = c.mem := hw.mem
  exact ⟨by simpa [Pc.holding] using heq, hw.glob.linked ▸ hmem ▸ hw.glob.tail⟩

/-- One returned call consumes one node. -/
theorem one_of_run (h : program.Run anyStep start tr₁ c₁) {v : CInt} (hd : Dequeues c₁ tr₂ c v)
    (hzero : 0 ∉ unlinkedValues (tr₁ ++ tr₂)) : unlinkedValues tr₂ = [v] ∧
      c.mem.next c₁.mem.tail = some c.mem.tail ∧ c.mem.data c.mem.tail = v := by
  obtain ⟨hrun, hcall, hret, hv⟩ := hd
  rw [unlinkedValues_append, List.mem_append, not_or] at hzero
  have h := (unlinksNoZero_iff h).mpr hzero.1
  have h' := h.trans ((unlinksNoZero_iff hrun).mpr hzero.2)
  have hkept := unlinked_eq_returned h
  have hkept' := unlinked_eq_returned h'
  obtain ⟨htake, hle⟩ := returned_eq_take h hcall
  obtain ⟨htake', hle'⟩ := returned_eq_take h' hret
  obtain ⟨w, hw⟩ := Fifo.holds_of_run h'
  have hmem : w.mem = c.mem := hw.mem
  obtain hist : w.hist = tr₁ ++ tr₂ := hw.hist
  have hlinked : linkedValues (tr₁ ++ tr₂) = w.linked := hist ▸ hw.glob.linked
  rw [unlinkedValues_append, returnedValues_append, hkept, hcall, hret, hv] at hkept'
  have hunlinked : unlinkedValues tr₂ = [v] := by simpa [Pc.holding] using hkept'
  rw [hlinked] at htake' hle'
  -- `tail` counts the values returned
  have htail : c.mem.tail = c₁.mem.tail + 1 := by
    have h₁ := congrArg List.length htake
    have h₂ := congrArg List.length htake'
    rw [List.length_take, Nat.min_eq_left hle] at h₁
    rw [List.length_take, Nat.min_eq_left hle', returnedValues_append, List.length_append, h₁,
      hv] at h₂
    exact h₂.symm
  have hlt : c₁.mem.tail < w.linked.length := by omega
  have hget : w.linked[c₁.mem.tail]? = some v := by
    have hlen : (returnedValues tr₁).length = c₁.mem.tail := by
      rw [htake, List.length_take, Nat.min_eq_left hle]
    have := congrArg (·[c₁.mem.tail]?) htake'
    rw [returnedValues_append, hv] at this
    simpa [htail, ← hlen] using this.symm
  refine ⟨hunlinked, ?_, ?_⟩
  · rw [← hmem, hw.glob.next, if_pos hlt, hmem, htail]
  · rw [htail, ← hmem]
    exact hw.glob.data _ _ hget

end Nodes

/-! ## Going to sleep -/

namespace Wakeup
variable {w : World} {a : Act} {m : Mem} {l : Pc} {es : List Event} {b : Bool}

/-- At most one element is behind `tail`, and the signal for it is still to be counted. -/
def Behind (w : World) : Prop := (linkedValues w.hist).length ≤ w.mem.tail ∨
  Owes w.prod ∧ (linkedValues w.hist).length ≤ w.mem.tail + 1

def GoingEvent (w : World) : Eventcount.Pc → Prop
  | .get | .asleep | .relock | .waitUnlock => True
  | .waitLoad cmp | .waitLock cmp | .waitRecheck cmp => Armed w cmp ∧ (w.flagged → Behind w)
  | .waitRead | .waitStore _ | .waitCv => w.flagged ∧ Behind w
  | _ => False

/-- What the consumer knows on its way to sleep. -/
def Going (w : World) : Pc → Prop
  | .deqTail (.second cmp) | .deqNext (.second cmp) _ => Armed w cmp
  | .event p => GoingEvent w p
  | .idle | .deqTail _ | .deqNext _ _ | .deqData _ _ _ | .deqDelete _ _ _ _ | .deqRet _ => True
  | _ => False

structure Alert (w : World) (l : Pc) : Prop where
  producer : Producer w w.prod
  owned : l.owns → Owned w
  going : Going w l

theorem behind_quiet (hb : Behind w) (ht : m.tail = w.mem.tail)
    (hlink : linkedValues (emit .producer es) = []) (ho : Owes w.prod → Owes l) :
    Behind (w.produced m es l) := by
  have hlen : linkedValues (w.produced m es l).hist = linkedValues w.hist :=
    (linkedValues_append ..).trans (hlink ▸ List.append_nil _)
  rw [Behind, hlen]
  exact hb.imp (ht ▸ ·) fun h => ⟨ho h.1, ht ▸ h.2⟩

theorem behind_of_access (hp : Producer w w.prod)
    (hs : access .producer b w.mem w.prod = some (m, l, es)) (hf : (w.produced m es l).flagged)
    (hb : Behind w) : Behind (w.produced m es l) := by
  obtain ⟨-, hl⟩ := hp
  cases hprod : w.prod <;> rw [hprod] at hl hs <;> simp only [access, reduceCtorEq] at hs <;>
    try exact hl.elim
  case enqNew data | enqHead data n =>
    cases hs
    exact behind_quiet hb rfl rfl (hprod ▸ False.elim)
  case enqLink data n h =>
    cases hs
    have hle := hb.resolve_right fun h => by rw [hprod] at h; exact h.1
    refine .inr ⟨trivial, ?_⟩
    rw [World.produced, linkedValues_append, List.length_append]
    exact Nat.add_le_add_right hle 1
  case enqMove n =>
    cases hs
    exact behind_quiet hb rfl rfl fun _ => trivial
  case signal p =>
    obtain ⟨⟨e, p'⟩, hs', heq⟩ := Option.map_eq_some_iff.mp hs
    cases heq
    have hlink : linkedValues (emit Thread.producer (if p = .notifyAll then [Event.notified] else [])) =
        [] := by
      split <;> rfl
    refine behind_quiet hb rfl hlink fun ho => ?_
    rw [hprod] at ho
    cases p <;> try exact ho.elim
    all_goals simp only [Eventcount.access, Eventcount.lock_eq_some, Option.some.injEq,
      Prod.mk.injEq] at hs'
    case signal =>
      obtain ⟨rfl, rfl⟩ := hs'
      have hf : w.flagged := hf
      rw [Eventcount.signalImpl, if_pos ((Eventcount.and_flag_ne_zero _).mpr hf)]
      trivial
    case signalLock cmp =>
      obtain ⟨-, -, rfl⟩ := hs'
      trivial
    -- a compare-exchange that succeeds clears the flag
    case signalCas cmp =>
      split at hs' <;> simp only [Option.some.injEq, Prod.mk.injEq] at hs' <;> obtain ⟨rfl, rfl⟩ := hs'
      · have hlt : ((cmp + 1) &&& Eventcount.mask).toNat < 2 ^ 31 :=
          Eventcount.toNat_and_mask _ ▸ Nat.mod_lt _ (by decide)
        exact absurd hf (Nat.not_le.mpr hlt)
      · trivial

theorem alert_producer {lc : Pc} (h : Alert w lc)
    (hs : step .producer a w.mem w.prod = some (m, l, es)) : Alert (w.produced m es l) lc := by
  obtain ⟨hp, hown, hgo⟩ := h
  have hfollows : assertions.Follows .producer w m l es ∧
      ((w.produced m es l).flagged → Behind w → Behind (w.produced m es l)) := by
    cases a with
    | enqueue data =>
      obtain ⟨hidle, rfl, rfl, rfl⟩ : w.prod = .idle ∧ w.mem = m ∧ Pc.enqNew data = l ∧
          [Event.enqueue data] = es := by simpa [step] using hs
      refine ⟨follows_enqueue rfl rfl (.inr ⟨by rw [hidle]; exact id, id⟩)
        (by rw [hidle]; exact fun _ => id) (fun w' h => ⟨h, trivial⟩) (by simp), fun _ hb => ?_⟩
      exact behind_quiet hb rfl rfl (hidle ▸ False.elim)
    | dequeue => simp [step] at hs
    | run | spurious => exact ⟨follows_producer hp hs, behind_of_access hp hs⟩
  obtain ⟨⟨⟨m', hist, l'⟩, hm, hh, -, hp', hguar⟩, hbehind⟩ := hfollows
  obtain rfl : m = m' := hm.symm
  obtain rfl : _ = hist := hh.symm
  obtain rfl : l = l' := hp'.1.symm
  have hguar : ProducerGuar w (w.produced m es l) := hguar
  have hgoing : w.flagged ∧ Behind w → Owned w → (w.produced m es l).flagged ∧
      Behind (w.produced m es l) := by
    rintro ⟨hf, hb⟩ ho
    have hf' : (w.produced m es l).flagged := by rwa [World.flagged, (hguar.owned ho).2.1]
    exact ⟨hf', hbehind hf' hb⟩
  have hwaiting : ∀ {cmp}, Armed w cmp ∧ (w.flagged → Behind w) → Armed (w.produced m es l) cmp ∧
      ((w.produced m es l).flagged → Behind (w.produced m es l)) := by
    rintro cmp ⟨harmed, hb⟩
    refine ⟨harmed.stable hguar, fun hf => hbehind hf (hb ?_)⟩
    rcases hguar.count with heq | ⟨hf', -⟩
    · rwa [World.flagged, heq] at hf
    · exact hf'
  refine ⟨hp', fun ho => (hguar.owned (hown ho)).1, ?_⟩
  cases lc with
  | deqTail s | deqNext s k =>
    cases s with
    | second cmp => exact Armed.stable hgo hguar
    | _ => trivial
  | event p =>
    cases p with
    | waitLoad cmp | waitLock cmp | waitRecheck cmp => exact hwaiting hgo
    | waitRead | waitStore n | waitCv => exact hgoing hgo (hown rfl)
    | _ => exact hgo
  | _ => exact hgo

theorem alert_of_event {p p' : Eventcount.Pc} {e : Eventcount.Mem Thread}
    (h : Alert w (.event p)) (hs : Eventcount.access .consumer b w.mem.ec p = some (e, p')) :
    Alert (w.consumed { w.mem with ec := e } []) (afterEvent p') := by
  obtain ⟨hp, hown, hgo⟩ := h
  obtain ⟨hown', hother⟩ := Eventcount.access_guard hs hown
  have hbehind : Behind w → Behind (w.consumed { w.mem with ec := e } []) := by
    intro hb
    simpa [Behind, World.consumed] using hb
  suffices hstep : (w.flagged → 2 ^ 31 ≤ e.count.toNat) ∧
      Going (w.consumed { w.mem with ec := e } []) (afterEvent p') from
    ⟨hp.kept rfl (hother .producer (by decide)).mpr hstep.1,
      fun ho => hown' (owns_afterEvent ho), hstep.2⟩
  cases p <;> simp only [Eventcount.access, reduceCtorEq, Eventcount.lock_eq_some, Option.some.injEq,
    Prod.mk.injEq] at hs <;> try exact hgo.elim
  case get =>
    obtain ⟨rfl, rfl⟩ := hs
    have hor := Eventcount.toNat_or_flag w.mem.ec.count
    have hand := Eventcount.toNat_and_mask w.mem.ec.count
    refine ⟨fun _ => ?_, ?_, .inl ?_⟩
    · simp only [hor]
      omega
    · omega
    · exact hor.trans (by rw [hand])
  case waitLoad cmp =>
    split at hs <;> simp only [Option.some.injEq, Prod.mk.injEq] at hs <;> obtain ⟨rfl, rfl⟩ := hs
    · exact ⟨id, hgo.1, fun hf => hbehind (hgo.2 hf)⟩
    · exact ⟨id, trivial⟩
  case waitLock cmp =>
    obtain ⟨-, rfl, rfl⟩ := hs
    exact ⟨id, hgo.1, fun hf => hbehind (hgo.2 hf)⟩
  case waitRecheck cmp =>
    split at hs <;> simp only [Option.some.injEq, Prod.mk.injEq] at hs <;> obtain ⟨rfl, rfl⟩ := hs
    · next heq =>
      have hf := hgo.1.flagged heq
      exact ⟨id, hf, hbehind (hgo.2 hf)⟩
    · exact ⟨id, trivial⟩
  case waitRead | waitStore n =>
    obtain ⟨rfl, rfl⟩ := hs
    exact ⟨id, hgo.1, hbehind hgo.2⟩
  case waitCv | waitUnlock =>
    obtain ⟨rfl, rfl⟩ := hs
    exact ⟨id, trivial⟩
  case asleep =>
    split at hs <;> simp only [reduceCtorEq, Option.some.injEq, Prod.mk.injEq] at hs
    obtain ⟨rfl, rfl⟩ := hs
    exact ⟨id, trivial⟩
  case relock =>
    obtain ⟨-, rfl, rfl⟩ := hs
    exact ⟨id, trivial⟩

/-- A step outside the eventcount. -/
theorem alert_consumed (h : Producer w w.prod) (hec : m.ec = w.mem.ec) (ho : l.owns = false)
    (hgo : Going (w.consumed m es) l) : Alert (w.consumed m es) l where
  producer := h.kept rfl (hec ▸ id) fun hf => by rwa [World.flagged, World.consumed, hec]
  owned hl := absurd (ho.symm.trans hl) Bool.false_ne_true
  going := hgo

/-- `hempty` is what the second `try_dequeue` has found. -/
theorem alert_consumer {lc : Pc} (h : Alert w lc) (hs : step .consumer a w.mem lc = some (m, l, es))
    (hempty : ∀ s k, lc = .deqNext s k → w.mem.next k = none →
      (linkedValues w.hist).length ≤ w.mem.tail) (hk : lc.keeps) : Alert (w.consumed m es) l := by
  have hrun : ∀ {b}, access .consumer b w.mem lc = some (m, l, es) → Alert (w.consumed m es) l := by
    clear hs
    intro b hs
    have hp := h.producer
    have hgo := h.going
    cases lc <;> simp only [access, reduceCtorEq] at hs <;> try exact hgo.elim
    case deqTail s =>
      cases hs
      refine alert_consumed hp rfl rfl ?_
      cases s with
      | second cmp => exact hgo
      | _ => trivial
    case deqNext s k =>
      split at hs <;> cases hs
      · next hnone =>
        have hle := hempty s k rfl hnone
        cases s with
        | second cmp =>
          refine alert_consumed hp rfl rfl ⟨hgo, fun _ => .inl ?_⟩
          simpa [World.consumed] using hle
        | _ => exact alert_consumed hp rfl rfl trivial
      · exact alert_consumed hp rfl rfl trivial
    case deqData s k n =>
      cases hs
      exact alert_consumed hp rfl rfl trivial
    case deqDelete s k n data =>
      cases hs
      rw [s.resume_of_ne_zero (by simpa [Pc.keeps] using hk)]
      exact alert_consumed hp rfl rfl trivial
    case event p =>
      obtain ⟨r, hr, heq⟩ := Option.map_eq_some_iff.mp hs
      cases heq
      exact alert_of_event h hr
    case deqRet data =>
      cases hs
      exact alert_consumed hp rfl rfl trivial
  cases a with
  | enqueue data => simp [step] at hs
  | dequeue =>
    obtain ⟨-, rfl, rfl, rfl⟩ : lc = .idle ∧ w.mem = m ∧ Pc.deqTail .first = l ∧
        [Event.dequeue] = es := by simpa [step] using hs
    exact alert_consumed h.producer rfl rfl trivial
  | run | spurious => exact hrun hs

end Wakeup

section Runs
variable {tr : List (Thread × Event)} {c : Config Thread Mem Pc}

theorem alert_of_run (h : program.Run UnlinksNoZero start tr c) :
    Wakeup.Alert ⟨c.mem, tr, c.loc .producer⟩ (c.loc .consumer) := by
  induction h with
  | start => exact ⟨⟨rfl, trivial⟩, nofun, trivial⟩
  | @step tr c t a m l es h hs hG ih =>
    cases t with
    | producer =>
      rw [move_loc_self, move_loc_of_ne _ _ _ (by decide)]
      exact Wakeup.alert_producer ih hs
    | consumer =>
      rw [move_loc_self, move_loc_of_ne _ _ _ (by decide)]
      refine Wakeup.alert_consumer ih hs (fun s k hpc hnone => ?_) hG
      obtain ⟨w, hw⟩ := Fifo.holds_of_run h
      have hl : Fifo.Consumer w (c.loc .consumer) := hw.loc .consumer
      have hmem : w.mem = c.mem := hw.mem
      obtain hist : w.hist = tr := hw.hist
      rw [hpc] at hl
      have hnext := hw.glob.next k
      rw [hmem, hnone] at hnext
      have hge : ¬k < w.linked.length := fun hlt => by simp [hlt] at hnext
      have hlinked : linkedValues tr = w.linked := hist ▸ hw.glob.linked
      have hk : k = c.mem.tail := hmem ▸ hl.2
      rw [hlinked, ← hk]
      exact Nat.le_of_not_lt hge

theorem Contents.unique {m : Mem} {n : ℕ} {vs vs' : List CInt} (h : Contents m n vs)
    (h' : Contents m n vs') : vs = vs' := by
  induction h generalizing vs' with
  | nil hn =>
    cases h' with
    | nil => rfl
    | cons hn' => exact absurd (hn.symm.trans hn') nofun
  | cons hn _ ih =>
    cases h' with
    | nil hn' => exact absurd (hn.symm.trans hn') nofun
    | cons hn' h' =>
      obtain rfl := Option.some.inj (hn.symm.trans hn')
      rw [ih h']

theorem Wakeup.Owes.signalling {l : Pc} (h : Wakeup.Owes l) : l.signalling := by
  cases l <;> first | rfl | exact h.elim

theorem awake_of_run (h : program.Run UnlinksNoZero start tr c)
    (hpc : c.loc .consumer = .event .waitCv) {vs : List CInt} (hvs : Contents c.mem c.mem.tail vs) :
    completed (c.loc .producer) vs = [] := by
  obtain ⟨w, hw⟩ := Fifo.holds_of_run h
  have hmem : w.mem = c.mem := hw.mem
  have hist : w.hist = tr := hw.hist
  have hgo := (alert_of_run h).going
  rw [hpc] at hgo
  have hbehind : w.linked.length ≤ c.mem.tail ∨
      Wakeup.Owes (c.loc .producer) ∧ w.linked.length ≤ c.mem.tail + 1 := by
    rw [← hw.glob.linked, hist]
    exact hgo.2
  obtain rfl := hvs.unique (hmem ▸ hw.glob.contents hw.glob.tail)
  rw [completed]
  rcases hbehind with hle | ⟨ho, hle⟩
  · rw [List.drop_eq_nil_of_le hle]
    exact ite_self _
  · rw [if_pos ho.signalling]
    refine List.eq_nil_of_length_eq_zero ?_
    rw [List.length_dropLast, List.length_drop]
    omega

end Runs

/-- **Each `dequeue` consumes one element and returns it**, and does not sleep on a
completed one, exactly in the runs in which no node that holds 0 is unlinked. -/
theorem consumes_one {tr : List (Thread × Event)} {c : Config Thread Mem Pc}
    (h : program.Run anyStep start tr c) : Consumes tr c ↔ program.Run UnlinksNoZero start tr c := by
  constructor
  · intro hc
    obtain ⟨hret, hholding⟩ := zero_not_returned h
    rw [unlinksNoZero_iff h, hc.kept, List.mem_append, not_or]
    exact ⟨hret, hholding .consumer⟩
  · intro hrun
    have hzero := (unlinksNoZero_iff h).mp hrun
    exact ⟨fun htr h₁ hd => one_of_run h₁ hd (htr ▸ hzero), unlinked_eq_returned hrun,
      fun hpc _ hvs => awake_of_run hrun hpc hvs⟩

/-- The theorem where the consumer is about to sleep and a 0 has been linked, its signal not
yet given. -/
theorem consumes_one_linked : ∃ tr c, c.loc .consumer = .event .waitCv ∧
    Contents c.mem c.mem.tail [0] ∧ Consumes tr c := by
  have h₀ : program.Run anyStep start [] start := .start
  have h₁ := h₀.solo .consumer [.dequeue, .run, .run, .run, .run, .run, .run, .run, .run, .run,
    .run] _ _ _ rfl
  have h₂ := h₁.solo .producer [.enqueue 0, .run, .run, .run] _ _ _ rfl
  have hcontents : ∀ m : Mem, m.next 0 = some 1 → m.next 1 = none → m.data 1 = 0 →
      Contents m 0 [0] := fun m h h' hd => hd ▸ .cons h (.nil h')
  exact ⟨_, _, rfl, hcontents _ rfl rfl rfl,
    (consumes_one h₂).mpr ((unlinksNoZero_iff h₂).mpr List.not_mem_nil)⟩

/-- A 0 and a 5 in the queue: the call of `dequeue` unlinks both and returns 5. -/
theorem zero_dropped : ∃ tr c, program.Run anyStep start tr c ∧ ¬Consumes tr c := by
  have h₀ : program.Run anyStep start [] start := .start
  have h₁ := h₀.solo .producer [.enqueue 0, .run, .run, .run, .run, .run,
    .enqueue 5, .run, .run, .run, .run, .run] _ _ _ rfl
  have h₂ := h₁.solo .consumer [.dequeue, .run, .run, .run, .run, .run, .run, .run, .run, .run,
    .run] _ _ _ rfl
  exact ⟨_, _, h₂, fun hc => absurd hc.kept (by decide)⟩

end Cds.SpscQueue
