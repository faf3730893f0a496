import CdsBenchmarks.TicketLock.TicketLockQueue
import CdsBenchmarks.Concurrent.DataRace
import CdsBenchmarks.Concurrent.Simulation

/-! The ticket lock under the memory orders of `ticket-lock/lock.c`. As long as the tickets do
not wrap it does nothing that it cannot do one access after the other, and what its clients
do to plain memory inside the lock is free of data races. -/

namespace Cds.TicketLock
open Concurrent Program

inductive Cell
  | ticket | turn
deriving DecidableEq, Repr

/-- A call or step of the lock, or a plain access of the client inside it. -/
abbrev ClientAct (Y : Type*) := Act ⊕ (Y × Bool)

variable {T Y : Type*}

def order (T Y : Type*) (_ : T) (a : ClientAct Y) (_ : Unit) (l : Pc) :
    Option (Instr Cell (fun _ => BitVec 32) (Outcome Unit Pc Event Y)) :=
  match a with
  | .inl .lock => if l = .out then some (.plain ⟨(), .fetchAdd, [.lock], []⟩) else none
  | .inl .unlock => if l = .crit then some (.plain ⟨(), .unlockLoad, [.unlock], []⟩) else none
  | .inr use => if l = .crit then some (.plain ⟨(), .crit, [], [use]⟩) else none
  | .inl .run => match l with
    | .out => none
    | .fetchAdd => some (.rmw .relaxed .relaxed .ticket (fun v => some (v + 1)) fun ticket =>
        ⟨(), .spin ticket, [.drawn], []⟩)
    | .spin ticket => some (.load .acquire .turn fun turn =>
        if turn = ticket then ⟨(), .crit, [.entered], []⟩ else ⟨(), .spin ticket, [], []⟩)
    | .crit => none
    | .unlockLoad => some (.load .relaxed .turn fun turn => ⟨(), .unlockStore turn, [], []⟩)
    | .unlockStore turn => some (.store .release .turn (turn + 1) ⟨(), .out, [.unlocked], []⟩)

variable [DecidableEq T]

abbrev WeakConfig (T : Type*) := Config T (Shared Cell T (fun _ => BitVec 32) Unit) (Views Cell T × Pc)

def weakProgram (T Y : Type*) [DecidableEq T] := weak (order T Y)

def weakInit (T : Type*) : WeakConfig T := weakStart T (fun _ => 0) () .out

/-! ## Tickets drawn and served -/

omit [DecidableEq T] in
theorem outstanding_step {a : Act} {m m' : Mem} {l l' : Pc} {es : List Event}
    (h : step a m l = some (m', l', es)) (t : T) :
    occurrences .drawn (emit t es) + (if l.outstanding then 1 else 0) =
      occurrences .unlocked (emit t es) + if l'.outstanding then 1 else 0 := by
  cases a <;> cases l <;> simp only [step, access, reduceCtorEq, if_true, if_false] at h <;>
    try cases h
  case run.spin k => split at h <;> cases h <;> rfl
  all_goals rfl

theorem drawn_eq [Fintype T] {tr : List (T × Event)} {c : Config T Mem Pc}
    (h : (program T).Run anyStep (start T) tr c) :
    occurrences .drawn tr = occurrences .unlocked tr + count Pc.outstanding c := by
  induction h with
  | start => simp [occurrences, count, start, Pc.outstanding]
  | @step tr c t a m l es _ hs _ ih =>
    have hmove := total_move (fun l => if Pc.outstanding l then 1 else 0) c t m l
    have hstep := outstanding_step hs t
    simp only [total_indicator] at hmove
    rw [occurrences_append, occurrences_append, ih]
    split_ifs at hmove hstep <;> omega

/-- The counters and the tickets of a state, as numbers that do not wrap. -/
structure Numbers (tr : List (T × Event)) (c : Config T Mem Pc) : Prop where
  ticket : c.mem.ticket = BitVec.ofNat 32 (occurrences .drawn tr)
  turn : c.mem.turn = BitVec.ofNat 32 (occurrences .unlocked tr)
  spin : ∀ t k, c.loc t = .spin k → ∃ n, k = BitVec.ofNat 32 n ∧ occurrences .unlocked tr ≤ n ∧
    n < occurrences .drawn tr ∧ (n = occurrences .unlocked tr → ∀ u, (c.loc u).inside = false)
  one : ∀ t u, (c.loc t).inside → (c.loc u).inside → t = u
  store : ∀ t v, c.loc t = .unlockStore v → v = c.mem.turn

theorem numbers_of_run [Fintype T] (hT : Fintype.card T < 2 ^ 32) {tr : List (T × Event)}
    {c : Config T Mem Pc} (h : (program T).Run anyStep (start T) tr c) : Numbers tr c := by
  obtain ⟨w, hw⟩ := (Queue.outline hT).sound (fun _ => trivial) (Queue.holds_start hT) h trivial
  have hg : Queue.Glob w := hw.glob
  have hloc : ∀ t, Queue.Local t w (c.loc t) := hw.loc
  have hmem : w.mem = c.mem := hw.mem
  have hhist : w.hist = tr := hw.hist
  have hserved : w.served = occurrences .unlocked tr := hhist ▸ hg.stores
  have hdrawn : w.served + w.q.length = occurrences .drawn tr := by
    rw [drawn_eq h, hserved, ← List.toFinset_card_of_nodup hg.nodup, count]
    congr 2
    ext t
    simp [(hloc t).mem_iff]
  refine ⟨hdrawn ▸ hmem ▸ hg.ticket, hserved ▸ hmem ▸ hg.turn, fun t k ht => ?_, fun t u ht hu => ?_,
    fun t v ht => ?_⟩
  · have hl := hloc t
    rw [ht] at hl
    obtain ⟨i, hi, rfl, h₀⟩ := hl
    have hlt := lt_of_getElem? hi
    refine ⟨_, rfl, by omega, by omega, fun heq u => ?_⟩
    by_contra hin
    have h₁ := ((hloc u).holds (by simpa using hin)).2
    have h₂ := h₀ (by omega)
    exact absurd (h₁.symm.trans h₂) (by decide)
  · exact Option.some.inj (((hloc t).holds ht).1.symm.trans ((hloc u).holds hu).1)
  · have hl := hloc t
    rw [ht] at hl
    exact hl.2.trans (congrArg Mem.turn hmem)

/-! ## The refinement -/

variable {tr : List (T × (Event ⊕ Use Y T))} {C : WeakConfig T} {c : Config T Mem Pc}

/-- A thread inside knows the write to `turn` at `last` and all uses of plain memory. -/
def Owns (last : ℕ) (h : List (T × Use Y T)) (x : Views Cell T × Pc) : Prop :=
  x.2.inside → last ≤ x.1.cur.time .turn ∧ ∀ y, Known x.1.cur h y true

/-- The last write to `turn` is the one at time `last`. It knows all that was done inside
the lock, or the thread inside does. -/
structure Served (tr : List (T × (Event ⊕ Use Y T))) (C : WeakConfig T) (last : ℕ) : Prop where
  val : ∀ k a, C.mem.msg .turn k = some a →
    k = last ∧ a.val = BitVec.ofNat 32 (occurrences .unlocked (events tr)) ∨
      k < last ∧ ∃ j < occurrences .unlocked (events tr), a.val = BitVec.ofNat 32 j
  free : (∀ t, (C.loc t).2.inside = false) → ∀ a, C.mem.msg .turn last = some a →
    ∀ y, Known a.view (notes tr) y true
  inside : ∀ t, Owns last (notes tr) (C.loc t)

structure Relates (tr : List (T × (Event ⊕ Use Y T))) (C : WeakConfig T) (c : Config T Mem Pc) :
    Prop where
  loc : ∀ t, c.loc t = (C.loc t).2
  chain : C.mem.msg.Chain .ticket (occurrences .drawn (events tr))
  ticket : ∀ k a, C.mem.msg .ticket k = some a → a.val = BitVec.ofNat 32 k
  turn : ∃ last, Served tr C last
  raceFree : RaceFree (notes tr)

variable {t : T} {m : Shared Cell T (fun _ => BitVec 32) Unit} {w : Views Cell T} {l : Pc}
  {es : List Event} {us : List (Y × Bool)} {last : ℕ}

theorem Relates.loc_move (hr : Relates tr C c) (mc : Mem) (u : T) :
    (move c t mc l).loc u = ((move C t m (w, l)).loc u).2 := by
  by_cases hu : u = t
  · subst hu
    simp
  · rw [move_loc_of_ne _ _ _ hu, move_loc_of_ne _ _ _ hu, hr.loc u]

/-- A step that does not write `turn` and neither enters nor leaves. -/
theorem Served.keep (hs : Served tr C last) (l : Pc) (es : List Event) (us : List (Y × Bool))
    (hm : m.msg .turn = C.mem.msg .turn)
    (hes : occurrences .unlocked (emit t es) = 0) (hcur : (C.loc t).1.cur ≤ w.cur)
    (hin : l.inside = (C.loc t).2.inside)
    (hus : us = [] ∨ l.inside = true ∧ ∀ u, u ≠ t → (C.loc u).2.inside = false) :
    Served (tr ++ emit t (Outcome.trace ⟨(), l, es, us⟩ w.cur)) (move C t m (w, l)) last := by
  have hev : occurrences .unlocked (events (tr ++ emit t (Outcome.trace ⟨(), l, es, us⟩ w.cur))) =
      occurrences .unlocked (events tr) := by
    rw [events_trace, occurrences_append, hes, Nat.add_zero]
  refine ⟨fun k a ha => ?_, fun hfree a ha y => ?_, ?_⟩
  · rw [hev]
    exact hs.val k a (hm ▸ ha)
  · have hl : l.inside = false := by simpa using hfree t
    obtain rfl : us = [] := hus.resolve_right fun h => by simp [hl] at h
    refine uses_trace ▸ known_append.mpr ⟨hs.free (fun u => ?_) a (hm ▸ ha) y, known_nil⟩
    by_cases hu : u = t
    · rw [hu, ← hin, hl]
    · rw [← hfree u, move_loc_of_ne _ _ _ hu]
  · refine forall_move (P := fun _ => Owns last _) (fun hl => ?_) (fun u hu hl => ?_)
    · obtain ⟨htime, hknown⟩ := hs.inside t (hin ▸ hl)
      exact ⟨htime.trans (hcur.1 _), fun y =>
        uses_trace ▸ known_append.mpr ⟨(hknown y).mono hcur, known_usesOf le_rfl⟩⟩
    · obtain rfl : us = [] := hus.resolve_right fun h => by simp [h.2 u hu] at hl
      obtain ⟨htime, hknown⟩ := hs.inside u hl
      exact ⟨htime, fun y => uses_trace ▸ known_append.mpr ⟨hknown y, known_nil⟩⟩

/-- The thread that reads the last write to `turn` takes over what is known of the uses. -/
theorem Served.enter (hs : Served tr C last) (hm : m.msg = C.mem.msg)
    (hout : ∀ u, (C.loc u).2.inside = false) {a : Message Cell T (BitVec 32)}
    (ha : C.mem.msg .turn last = some a) (hcur : a.view ≤ w.cur) (htime : last ≤ w.cur.time .turn)
    (hl : l.inside = true) :
    Served (tr ++ emit t (Outcome.trace ⟨(), l, [.entered], []⟩ w.cur)) (move C t m (w, l)) last := by
  have hnotes : notes (tr ++ emit t (Outcome.trace ⟨(), l, [Event.entered], []⟩ w.cur)) = notes tr :=
    uses_trace.trans (List.append_nil _)
  have hev : occurrences .unlocked (events (tr ++
      emit t (Outcome.trace (⟨(), l, [.entered], []⟩ : Outcome Unit Pc Event Y) w.cur))) =
      occurrences .unlocked (events tr) := by
    rw [events_trace, occurrences_append]
    rfl
  refine ⟨fun k b hb => ?_, fun hfree => ?_, ?_⟩
  · rw [hev]
    exact hs.val k b (hm ▸ hb)
  · exact absurd (hfree t) (by simp [hl])
  · rw [hnotes]
    refine forall_move (P := fun _ => Owns last _) (fun _ => ?_) (fun u _ hu => ?_)
    · exact ⟨htime, fun y => (hs.free hout a ha y).mono hcur⟩
    · simp [hout u] at hu

/-- The store in `unlock` is the new last write, and carries what its thread knows. -/
theorem Served.serve (hs : Served tr C last) (l : Pc) (hin : (C.loc t).2.inside)
    (hone : ∀ u, u ≠ t → (C.loc u).2.inside = false) {k : ℕ} {a : Message Cell T (BitVec 32)}
    (hm : m.msg = C.mem.msg.put .turn k a) (hk : (C.loc t).1.cur.time .turn < k)
    (hval : a.val = BitVec.ofNat 32 (occurrences .unlocked (events tr) + 1))
    (hview : (C.loc t).1.cur ≤ a.view) (hl : l.inside = false) :
    Served (tr ++ emit t (Outcome.trace ⟨(), l, [.unlocked], []⟩ w.cur)) (move C t m (w, l)) k := by
  have hnotes : notes (tr ++ emit t (Outcome.trace ⟨(), l, [Event.unlocked], []⟩ w.cur)) = notes tr :=
    uses_trace.trans (List.append_nil _)
  have hev : occurrences .unlocked (events (tr ++
      emit t (Outcome.trace (⟨(), l, [.unlocked], []⟩ : Outcome Unit Pc Event Y) w.cur))) =
      occurrences .unlocked (events tr) + 1 := by
    rw [events_trace, occurrences_append]
    rfl
  obtain ⟨htime, hknown⟩ := hs.inside t hin
  refine ⟨fun i b hb => ?_, fun _ b hb y => ?_, ?_⟩
  · rw [hev]
    rcases Messages.put_eq_some.mp (hm ▸ hb) with ⟨rfl, rfl⟩ | ⟨-, hb⟩
    · exact .inl ⟨rfl, hval⟩
    · rcases hs.val i b hb with ⟨rfl, hb⟩ | ⟨hi, j, hj, hb⟩
      · exact .inr ⟨by omega, _, Nat.lt_succ_self _, hb⟩
      · exact .inr ⟨by omega, j, by omega, hb⟩
  · rw [move_mem, hm, Messages.put_self] at hb
    obtain rfl := Option.some.inj hb
    rw [hnotes]
    exact (hknown y).mono hview
  · refine forall_move (P := fun _ => Owns k _) (fun h => ?_) (fun u hu h => ?_)
    · simp [hl] at h
    · simp [hone u hu] at h

/-- A step that draws no ticket. -/
theorem Relates.keep (hr : Relates tr C c) (hm : m.msg .ticket = C.mem.msg .ticket)
    (hes : occurrences .drawn (emit t es) = 0)
    (hs : Served (tr ++ emit t (Outcome.trace ⟨(), l, es, us⟩ w.cur)) (move C t m (w, l)) last)
    (hus : ∀ u ∈ us, Known w.cur (notes tr) u.1 u.2) (mc : Mem) :
    Relates (tr ++ emit t (Outcome.trace ⟨(), l, es, us⟩ w.cur)) (move C t m (w, l)) (move c t mc l) := by
  refine ⟨hr.loc_move mc, ?_, fun k a ha => hr.ticket k a (hm ▸ ha), ⟨last, hs⟩,
    uses_trace ▸ hr.raceFree.append hus⟩
  rw [events_trace, occurrences_append, hes, Nat.add_zero]
  intro k
  rw [move_mem, hm]
  exact hr.chain k

/-- A step that the interleaving model does not take. -/
theorem Relates.stutter (hr : Relates tr C c) (hm : m.msg .ticket = C.mem.msg .ticket)
    (hl : l = (C.loc t).2)
    (hs : Served (tr ++ emit t (Outcome.trace ⟨(), l, [], us⟩ w.cur)) (move C t m (w, l)) last)
    (hus : ∀ u ∈ us, Known w.cur (notes tr) u.1 u.2) :
    Relates (tr ++ emit t (Outcome.trace ⟨(), l, [], us⟩ w.cur)) (move C t m (w, l)) c := by
  have hself : move c t c.mem l = c := by simp [move, hl, ← hr.loc t]
  exact hself ▸ hr.keep hm rfl hs hus c.mem

theorem Relates.draw (hr : Relates tr C c) {a b : Message Cell T (BitVec 32)}
    (ha : C.mem.msg .ticket (occurrences .drawn (events tr)) = some a) (hb : b.val = a.val + 1)
    (hm : m.msg = C.mem.msg.put .ticket (occurrences .drawn (events tr) + 1) b)
    (hs : Served (tr ++ emit t (Outcome.trace ⟨(), l, [.drawn], []⟩ w.cur)) (move C t m (w, l)) last)
    (mc : Mem) :
    Relates (tr ++ emit t (Outcome.trace ⟨(), l, [.drawn], []⟩ w.cur)) (move C t m (w, l))
      (move c t mc l) := by
  have hval := hr.ticket _ a ha
  refine ⟨hr.loc_move mc, ?_, fun k a' ha' => ?_, ⟨last, hs⟩,
    uses_trace ▸ hr.raceFree.append (by simp)⟩
  · rw [events_trace, occurrences_append, move_mem, hm]
    exact hr.chain.put
  · rcases Messages.put_eq_some.mp (hm ▸ ha') with ⟨rfl, rfl⟩ | ⟨-, ha'⟩
    · rw [hb, hval, BitVec.ofNat_add _ 1]
      rfl
    · exact hr.ticket k a' ha'

omit [DecidableEq T] in
/-- No other thread is inside. -/
theorem Relates.outside (hr : Relates tr C c) (hn : Numbers (events tr) c)
    (hin : (C.loc t).2.inside) (u : T) (hu : u ≠ t) : (C.loc u).2.inside = false := by
  by_contra h
  exact hu (hn.one u t (by simpa [hr.loc u] using h) (hr.loc t ▸ hin))

/-- One step of the interleaving model. -/
theorem run_one {a : Act} {mc : Mem} (h : step a c.mem (c.loc t) = some (mc, l, es)) :
    (program T).Run anyStep c (emit t es) (move c t mc l) := Run.start.step h trivial

omit [DecidableEq T] in
theorem events_emit_trace : events (emit t (Outcome.trace (⟨(), l, es, us⟩ : Outcome Unit Pc Event Y)
    w.cur)) = emit t es := by
  rw [Outcome.trace, events_emit]

theorem Relates.access (hr : Relates tr C c) (hn : Numbers (events tr) c) {k : ℕ}
    {i : Instr Cell (fun _ => BitVec 32) (Outcome Unit Pc Event Y)} {r : Outcome Unit Pc Event Y}
    (hi : order T Y t (.inl .run) () (C.loc t).2 = some i)
    (hx : i.exec k C.mem.msg ((C.loc t).1.tick t) = some (m.msg, w, r))
    (hdrawn : occurrences .drawn (events (tr ++ emit t (r.trace w.cur))) ≤ 2 ^ 32) :
    ∃ c', (program T).Run anyStep c (events (emit t (r.trace w.cur))) c' ∧
      Relates (tr ++ emit t (r.trace w.cur)) (move C t m (w, r.loc)) c' := by
  obtain ⟨last, hs⟩ := hr.turn
  have htick : (C.loc t).1.cur ≤ ((C.loc t).1.tick t).cur := Views.cur_le_tick
  have hcur := htick.trans (Instr.exec_cur_le hx)
  have hloc := hr.loc t
  cases hl : (C.loc t).2 <;> rw [hl] at hi hloc <;> cases hi
  case fetchAdd =>
    obtain ⟨a, ha, -, rfl, ⟨hf, -⟩ | ⟨v, hf, hnone, -, hm⟩⟩ := Instr.exec_rmw hx
    · cases hf
    cases hf
    obtain rfl := hr.chain.eq_of_isNone ha hnone
    have hticket : c.mem.ticket = a.val := hn.ticket.trans (hr.ticket _ a ha).symm
    have hstep : step .run c.mem (c.loc t) =
        some ({ c.mem with ticket := c.mem.ticket + 1 }, .spin a.val, [.drawn]) := by
      rw [hloc, ← hticket]
      rfl
    have hturn : m.msg .turn = C.mem.msg .turn := by rw [hm, Messages.put_of_ne (by decide)]
    have hs' := hs.keep (.spin a.val) [.drawn] [] hturn rfl hcur (by rw [hl]; rfl) (.inl rfl)
    exact ⟨_, events_emit_trace ▸ run_one hstep, hr.draw ha rfl hm hs' _⟩
  case spin ticket =>
    obtain ⟨a, ha, -, hm, rfl, hr'⟩ := Instr.exec_load hx
    by_cases hval : a.val = ticket
    · rw [if_pos hval] at hr'
      subst hr'
      obtain ⟨n, rfl, hle, hlt, hout⟩ := hn.spin t ticket hloc
      rw [events_trace, occurrences_append] at hdrawn
      -- the value read is of this round, so it is the last one written
      obtain ⟨rfl, heq⟩ : k = last ∧ n = occurrences .unlocked (events tr) := by
        rcases hs.val k a ha with ⟨hk, hj⟩ | ⟨-, j, hj, hjval⟩
        · have := congrArg BitVec.toNat (hj.symm.trans hval)
          simp only [BitVec.toNat_ofNat] at this
          exact ⟨hk, by omega⟩
        · have := congrArg BitVec.toNat (hjval.symm.trans hval)
          simp only [BitVec.toNat_ofNat] at this
          omega
      have hout' : ∀ u, (C.loc u).2.inside = false := fun u => hr.loc u ▸ hout heq u
      have hstep : step .run c.mem (c.loc t) = some (c.mem, .crit, [.entered]) := by
        rw [hloc]
        exact if_pos (by rw [hn.turn, heq])
      exact ⟨_, events_emit_trace ▸ run_one hstep, hr.keep (congrFun hm _) rfl
        (hs.enter hm hout' ha (Views.le_cur_read rfl) Views.le_time_read rfl) (by simp) _⟩
    · rw [if_neg hval] at hr'
      subst hr'
      refine ⟨c, events_emit_trace ▸ .start, ?_⟩
      have hs' := hs.keep (.spin ticket) [] [] (congrFun hm .turn) rfl hcur (by rw [hl]) (.inl rfl)
      exact hr.stutter (congrFun hm _) hl.symm hs' (by simp)
  case unlockLoad =>
    obtain ⟨a, ha, htime, hm, rfl, rfl⟩ := Instr.exec_load hx
    have hin : (C.loc t).2.inside := by rw [hl]; rfl
    have hval : a.val = c.mem.turn := by
      have hlast := ((hs.inside t hin).1.trans (htick.1 _)).trans htime
      rcases hs.val k a ha with ⟨-, hval⟩ | ⟨hlt, -⟩
      · rw [hval, hn.turn]
      · omega
    have hstep : step .run c.mem (c.loc t) = some (c.mem, .unlockStore a.val, []) := by
      rw [hloc, hval]
      rfl
    have hs' := hs.keep (.unlockStore a.val) [] [] (congrFun hm .turn) rfl hcur
      (by rw [hl]; rfl) (.inl rfl)
    exact ⟨_, events_emit_trace ▸ run_one hstep, hr.keep (congrFun hm _) rfl hs' (by simp) _⟩
  case unlockStore turn =>
    obtain ⟨-, hk, hm, rfl, rfl⟩ := Instr.exec_store hx
    have hin : (C.loc t).2.inside := by rw [hl]; rfl
    have hval : turn + 1 = BitVec.ofNat 32 (occurrences .unlocked (events tr) + 1) := by
      rw [hn.store t turn hloc, hn.turn, BitVec.ofNat_add _ 1]
      rfl
    have hstep : step .run c.mem (c.loc t) =
        some ({ c.mem with turn := turn + 1 }, .out, [.unlocked]) := by
      rw [hloc]
      rfl
    have hs' := hs.serve (w := ((C.loc t).1.tick t).write .turn k) .out hin (hr.outside hn hin) hm
      (Nat.lt_of_le_of_lt (htick.1 _) hk) hval (hcur.trans (Views.cur_le_released rfl)) rfl
    refine ⟨_, events_emit_trace ▸ run_one hstep, hr.keep ?_ rfl hs' (by simp) _⟩
    rw [hm, Messages.put_of_ne (by decide)]

theorem Relates.next (hr : Relates tr C c) (hn : Numbers (events tr) c) {a : ClientAct Y × ℕ}
    {m : Shared Cell T (fun _ => BitVec 32) Unit} {x : Views Cell T × Pc}
    {es : List (Event ⊕ Use Y T)}
    (hs : (weakProgram T Y).step t a C.mem (C.loc t) = some (m, x, es))
    (hdrawn : occurrences .drawn (events (tr ++ emit t es)) ≤ 2 ^ 32) :
    ∃ c', (program T).Run anyStep c (events (emit t es)) c' ∧
      Relates (tr ++ emit t es) (move C t m x) c' := by
  obtain ⟨a, k⟩ := a
  obtain ⟨w, l⟩ := x
  obtain ⟨i, r, hi, hx, -, rfl, rfl⟩ := weak_step hs
  have hloc := hr.loc t
  obtain ⟨last, hsv⟩ := hr.turn
  have hcur := Views.cur_le_tick.trans (Instr.exec_cur_le hx)
  match a with
  | .inl .run => exact hr.access hn hi hx hdrawn
  | .inl .lock =>
    obtain ⟨hl, rfl⟩ : (C.loc t).2 = .out ∧ Instr.plain ⟨(), .fetchAdd, [.lock], []⟩ = i := by
      simpa [order] using hi
    obtain ⟨hm, -, rfl⟩ := Instr.exec_plain hx
    have hstep : step .lock c.mem (c.loc t) = some (c.mem, .fetchAdd, [.lock]) := by
      simp [step, hloc, hl]
    have hs' := hsv.keep .fetchAdd [.lock] [] (congrFun hm .turn) rfl hcur (by rw [hl]; rfl) (.inl rfl)
    exact ⟨_, events_emit_trace ▸ run_one hstep, hr.keep (congrFun hm _) rfl hs' (by simp) _⟩
  | .inl .unlock =>
    obtain ⟨hl, rfl⟩ : (C.loc t).2 = .crit ∧ Instr.plain ⟨(), .unlockLoad, [.unlock], []⟩ = i := by
      simpa [order] using hi
    obtain ⟨hm, -, rfl⟩ := Instr.exec_plain hx
    have hstep : step .unlock c.mem (c.loc t) = some (c.mem, .unlockLoad, [.unlock]) := by
      simp [step, hloc, hl]
    have hs' := hsv.keep .unlockLoad [.unlock] [] (congrFun hm .turn) rfl hcur (by rw [hl]; rfl) (.inl rfl)
    exact ⟨_, events_emit_trace ▸ run_one hstep, hr.keep (congrFun hm _) rfl hs' (by simp) _⟩
  | .inr use =>
    obtain ⟨hl, rfl⟩ : (C.loc t).2 = .crit ∧ Instr.plain ⟨(), .crit, [], [use]⟩ = i := by
      simpa [order] using hi
    obtain ⟨hm, -, rfl⟩ := Instr.exec_plain hx
    have hin : (C.loc t).2.inside := by rw [hl]; rfl
    have hknown : ∀ u ∈ [use], Known w.cur (notes tr) u.1 u.2 := fun u _ =>
      (((hsv.inside t hin).2 u.1).mono hcur).of_all
    have hs' := hsv.keep .crit [] [use] (congrFun hm .turn) rfl hcur (by rw [hl])
      (.inr ⟨rfl, hr.outside hn hin⟩)
    exact ⟨c, events_emit_trace ▸ .start, hr.stutter (congrFun hm _) hl.symm hs' hknown⟩

omit [DecidableEq T] in
theorem relates_start : Relates ([] : List (T × (Event ⊕ Use Y T))) (weakInit T) (start T) where
  loc _ := rfl
  chain := Messages.chain_initial
  ticket k a ha := by
    obtain ⟨rfl, rfl⟩ := weakStart_msg.mp ha
    rfl
  turn := by
    refine ⟨0, fun k a ha => ?_, fun _ a _ y => known_nil, fun t ht => ?_⟩
    · obtain ⟨rfl, rfl⟩ := weakStart_msg.mp ha
      exact .inl ⟨rfl, rfl⟩
    · exact absurd ht Bool.false_ne_true
  raceFree := .nil

/-- **The ticket lock under weak memory.** Every run in which no ticket is drawn twice is, as
to its calls, returns and tickets, a run of the interleaving model, with every thread at the
same point; so no two threads are inside, and they enter in the order of their tickets. All
that clients do to plain memory inside the lock is free of data races. -/
theorem weak_refines [Fintype T] (hT : Fintype.card T < 2 ^ 32) {tr : List (T × (Event ⊕ Use Y T))}
    {C : WeakConfig T} (h : (weakProgram T Y).Run anyStep (weakInit T) tr C)
    (hdrawn : occurrences .drawn (events tr) ≤ 2 ^ 32) :
    (∃ c, (program T).Run anyStep (start T) (events tr) c ∧ ∀ t, c.loc t = (C.loc t).2) ∧
      (∀ t u, (C.loc t).2.inside → (C.loc u).2.inside → t = u) ∧ RaceFree (notes tr) := by
  have hadm : ∀ {h h' : List (T × (Event ⊕ Use Y T))},
      occurrences .drawn (events (h ++ h')) ≤ 2 ^ 32 → occurrences .drawn (events h) ≤ 2 ^ 32 := by
    intro h h' hle
    rw [events_append, occurrences_append] at hle
    omega
  obtain ⟨c, hc, hr⟩ := h.simulate (fun tr => occurrences .drawn (events tr) ≤ 2 ^ 32) hadm relates_start
    (fun hd hr hs hle => hr.next (numbers_of_run hT hd) hs hle) hdrawn
  refine ⟨⟨c, hc, hr.loc⟩, fun t u ht hu => ?_, hr.raceFree⟩
  exact (numbers_of_run hT hc).one t u (hr.loc t ▸ ht) (hr.loc u ▸ hu)

/-- The theorem where the second thread has spun on a stale value of `turn`, and both have
written the same variable. -/
theorem weak_refines_stale : ∃ (tr : List (Bool × (Event ⊕ Use Unit Bool))) (C : WeakConfig Bool),
    emitters .entered (events tr) = [true, false] ∧ (notes tr).length = 2 ∧
      (∃ c, (program Bool).Run anyStep (start Bool) (events tr) c ∧ ∀ t, c.loc t = (C.loc t).2) ∧
      (∀ t u, (C.loc t).2.inside → (C.loc u).2.inside → t = u) ∧ RaceFree (notes tr) := by
  have h₀ : (weakProgram Bool Unit).Run anyStep (weakInit Bool) [] (weakInit Bool) := .start
  have h₁ := h₀.solo true [(.inl .lock, 0), (.inl .run, 0), (.inl .run, 0), (.inr ((), true), 0),
    (.inl .unlock, 0), (.inl .run, 0), (.inl .run, 3)] _ _ _ rfl
  have h₂ := h₁.solo false [(.inl .lock, 0), (.inl .run, 1), (.inl .run, 0), (.inl .run, 3),
    (.inr ((), true), 0)] _ _ _ rfl
  exact ⟨_, _, by decide, by decide, weak_refines (by decide) h₂ (by decide)⟩

end Cds.TicketLock
