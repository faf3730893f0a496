import CdsBenchmarks.MpmcQueue.MpmcQueueCounts
import CdsBenchmarks.Concurrent.Counting

/-! The program follows the tickets although it only keeps the counters modulo `2^16`, as long
as fewer than `2^16` granted operations of a side are unfinished. -/

namespace Cds.MpmcQueue
open Concurrent Program

variable {T : Type*}

/-- The `k`-th granted operation of side `s` returned bin `b` and finished before position `n`. -/
def Finished (h : List (T × Event)) (s : Side) (k : ℕ) (b : Size) (n : ℕ) : Prop :=
  ∃ i t j p, Kth (.granted s) h k i t ∧ Next h t i j (.returned s (some b)) ∧
    Next h t j p (.finished s b) ∧ p < n

/-- An operation is given a bin after the operation of the other side that had it last. -/
def Ordered (cap : ℕ) (h : List (T × Event)) : Prop :=
  ∀ s k i t j b, Kth (.granted s) h (k + s.lag cap) i t → Next h t i j (.returned s (some b)) →
    ∃ b', Finished h s.other k b' j

section Ordered
variable {h h' : List (T × Event)} {s : Side} {k n n' : ℕ} {b : Size}

theorem Finished.append (hf : Finished h s k b n) (hn : n ≤ n') : Finished (h ++ h') s k b n' := by
  obtain ⟨i, t, j, p, h₁, h₂, h₃, hp⟩ := hf
  exact ⟨i, t, j, p, h₁.append, h₂.append, h₃.append, Nat.lt_of_lt_of_le hp hn⟩

theorem Ordered.snoc {cap : ℕ} (hh : Ordered cap h) {t : T} {e : Event}
    (hnew : ∀ s k i b, e = .returned s (some b) → Kth (.granted s) h (k + s.lag cap) i t →
      Latest h t i → ∃ b', Finished h s.other k b' h.length) : Ordered cap (h ++ [(t, e)]) := by
  intro s k i u j b hk hn
  obtain ⟨hk', hn | ⟨rfl, rfl, rfl, hl⟩⟩ := next_snoc_of_kth hk hn
  · obtain ⟨b', hf⟩ := hh s k i u j b hk' hn
    exact ⟨b', hf.append le_rfl⟩
  · obtain ⟨b', hf⟩ := hnew s k i b rfl hk' hl
    exact ⟨b', hf.append le_rfl⟩

end Ordered

namespace Tracking

/-- `r` is the state of the tickets, `own` the thread of each, and `pend` are the threads
in a call that has not been granted. -/
structure World (T : Type*) where
  mem : Mem
  hist : List (T × Event)
  r : Tickets
  own : Side → ℕ → T
  pend : Finset T

structure Glob (cap : ℕ) (w : World T) : Prop where
  valid : w.r.Valid cap
  rdwr : Packs w.mem.rdwr (w.r.granted .read) (w.r.granted .write)
  finished : ∀ s, (finishedOf w.mem s).toNat % 2 ^ 16 = w.r.finished s % 2 ^ 16
  grants : ∀ s, MpmcQueue.grants s w.hist = w.r.granted s
  finishes : ∀ s, MpmcQueue.finishes s w.hist = w.r.finished s
  returns : number isCall w.hist = number isReturn w.hist + w.pend.card +
    ((w.r.waiting .read).card + (w.r.waiting .write).card)
  ends : number isCall w.hist = number isEnd w.hist + w.pend.card +
    ((w.r.flight .read).card + (w.r.flight .write).card)
  past : ∀ s k, k < w.r.granted s → k ∉ w.r.flight s → ∃ b, Finished w.hist s k b w.hist.length
  ordered : Ordered cap w.hist

def Owns (t : T) (w : World T) (s : Side) (k : ℕ) : Prop := k ∈ w.r.flight s ∧ w.own s k = t

def Free (t : T) (w : World T) : Prop := ∀ s k, ¬Owns t w s k

/-- Thread `t` was granted `k` at position `i` and has no other operation in flight. -/
structure Granted (t : T) (w : World T) (s : Side) (k i : ℕ) : Prop where
  own : w.own s k = t
  only : ∀ s' k', Owns t w s' k' → s' = s ∧ k' = k
  kth : Kth (.granted s) w.hist k i t

/-- The counts that operation `k` loaded, as far as its wait loop and its bin use them. -/
def Loaded (r : Tickets) (k : ℕ) (rd wr : Word) : Side → Prop
  | .read => rd.toNat = k % 2 ^ 16 ∧ wr.toNat = r.snap .read k % 2 ^ 16
  | .write => rd.toNat = r.snap .write k % 2 ^ 16 ∧ wr.toNat = k % 2 ^ 16

/-- The grant was the last event of `t`, and as many operations of the other side were
granted before as the snapshot says. -/
structure Waiting (t : T) (w : World T) (s : Side) (rd wr : Word) (k i : ℕ) : Prop
    extends Granted t w s k i where
  mem : k ∈ w.r.waiting s
  loaded : Loaded w.r k rd wr s
  latest : Latest w.hist t i
  snap : MpmcQueue.grants s.other (w.hist.take i) = w.r.snap s k

structure Holding (t : T) (w : World T) (s : Side) (b : Size) (k i : ℕ) : Prop
    extends Granted t w s k i where
  mem : k ∈ w.r.holding s
  returned : ∃ j, Next w.hist t i j (.returned s (some b)) ∧ Latest w.hist t j

def Local (tSize : Size) (t : T) (w : World T) : Pc → Prop
  | .idle => t ∉ w.pend ∧ Free t w
  | .load _ => t ∈ w.pend ∧ Free t w
  | .cas s rdwr => (t ∈ w.pend ∧ Free t w) ∧ s.refuses tSize rdwr = false
  | .wait s rd wr => t ∉ w.pend ∧ ∃ k i, Waiting t w s rd wr k i
  | .hold s b => t ∉ w.pend ∧ ∃ k i, Holding t w s b k i

structure Guar (t : T) (w w' : World T) : Prop where
  hist : ∃ es, w'.hist = w.hist ++ emit t es
  pend : ∀ u, u ≠ t → (u ∈ w'.pend ↔ u ∈ w.pend)
  own : ∀ s k, k < w.r.granted s → w'.own s k = w.own s k
  snap : ∀ s k, k < w.r.granted s → w'.r.snap s k = w.r.snap s k
  waiting : ∀ s k, k ∈ w.r.waiting s → w.own s k ≠ t → k ∈ w'.r.waiting s
  holding : ∀ s k, k ∈ w.r.holding s → w.own s k ≠ t → k ∈ w'.r.holding s
  flight : ∀ s k, k ∈ w'.r.flight s → w'.own s k ≠ t → k ∈ w.r.flight s ∧ w.own s k = w'.own s k

variable {cap : ℕ} {tSize : Size} {t u : T} {w w' : World T} {s : Side} {k i : ℕ} {rd wr : Word}

theorem Waiting.lt (hl : Waiting t w s rd wr k i) (hg : Glob cap w) : k < w.r.granted s :=
  hg.valid.lt s k (Finset.mem_union_left _ hl.mem)

theorem Holding.lt {b : Size} (hl : Holding t w s b k i) (hg : Glob cap w) : k < w.r.granted s :=
  hg.valid.lt s k (Finset.mem_union_right _ hl.mem)

section Stable

theorem Guar.refl (t : T) (w : World T) : Guar t w w :=
  ⟨⟨[], (List.append_nil _).symm⟩, fun _ _ => Iff.rfl, fun _ _ _ => rfl, fun _ _ _ => rfl,
    fun _ _ h _ => h, fun _ _ h _ => h, fun _ _ h _ => ⟨h, rfl⟩⟩

theorem Guar.owns (hgu : Guar t w w') (hu : u ≠ t) (h : Owns u w' s k) : Owns u w s k := by
  obtain ⟨hk, rfl⟩ := h
  exact hgu.flight s k hk hu

theorem Guar.free (hgu : Guar t w w') (hu : u ≠ t) (h : Free u w) : Free u w' :=
  fun s k hk => h s k (hgu.owns hu hk)

theorem Guar.granted (hgu : Guar t w w') (hu : u ≠ t) (hk : k < w.r.granted s)
    (h : Granted u w s k i) : Granted u w' s k i := by
  obtain ⟨es, hhist⟩ := hgu.hist
  exact ⟨(hgu.own s k hk).trans h.own, fun s' k' hk' => h.only s' k' (hgu.owns hu hk'),
    hhist ▸ h.kth.append⟩

theorem Local.stable {l : Pc} (hu : u ≠ t) (hg : Glob cap w) (hl : Local tSize u w l)
    (hgu : Guar t w w') : Local tSize u w' l := by
  have hpend := hgu.pend u hu
  obtain ⟨es, hhist⟩ := hgu.hist
  cases l with
  | idle => exact ⟨mt hpend.mp hl.1, hgu.free hu hl.2⟩
  | load => exact ⟨hpend.mpr hl.1, hgu.free hu hl.2⟩
  | cas => exact ⟨⟨hpend.mpr hl.1.1, hgu.free hu hl.1.2⟩, hl.2⟩
  | wait s rd wr =>
    obtain ⟨hp, k, i, hw⟩ := hl
    have hlt := hw.lt hg
    have hsnap := hgu.snap s k hlt
    have hi := Nat.le_of_lt hw.latest.1
    refine ⟨mt hpend.mp hp, k, i, hgu.granted hu hlt hw.toGranted,
      hgu.waiting s k hw.mem (hw.own ▸ hu), ?_, hhist ▸ hw.latest.other hu es, ?_⟩
    · have hload := hw.loaded
      cases s <;> simpa only [Loaded, hsnap] using hload
    · rw [hhist, List.take_append_of_le_length hi, hw.snap, hsnap]
  | hold s b =>
    obtain ⟨hp, k, i, hw⟩ := hl
    obtain ⟨j, hnext, hlast⟩ := hw.returned
    exact ⟨mt hpend.mp hp, k, i, hgu.granted hu (hw.lt hg) hw.toGranted,
      hgu.holding s k hw.mem (hw.own ▸ hu), j, hhist ▸ hnext.append, hhist ▸ hlast.other hu es⟩

end Stable

def assertions (tSize : Size) : Assertions T Mem Pc Event (World T) where
  mem := World.mem
  hist := World.hist
  glob := Glob tSize.toNat
  loc := Local tSize
  guar := Guar

theorem finishes_snoc (s : Side) (h : List (T × Event)) (t : T) (e : Event) :
    finishes s (h ++ [(t, e)]) = finishes s h + if isFinish s e then 1 else 0 := number_snoc ..

/-- What was past stays past when the trace grows. -/
theorem Glob.past_append (hg : Glob cap w) (h' : List (T × Event)) (hk : k < w.r.granted s)
    (hf : k ∉ w.r.flight s) : ∃ b, Finished (w.hist ++ h') s k b (w.hist ++ h').length := by
  obtain ⟨b, hb⟩ := hg.past s k hk hf
  exact ⟨b, hb.append (by simp)⟩

/-! ## Calls and returns of `NULL` -/

/-- The world after thread `t` emitted an event that moves no ticket. -/
def World.event (w : World T) (t : T) (e : Event) (pend : Finset T) : World T :=
  { w with hist := w.hist ++ [(t, e)], pend := pend }

theorem Guar.event (e : Event) {pend : Finset T} (hp : ∀ u, u ≠ t → (u ∈ pend ↔ u ∈ w.pend)) :
    Guar t w (w.event t e pend) :=
  ⟨⟨[e], rfl⟩, hp, fun _ _ _ => rfl, fun _ _ _ => rfl, fun _ _ h _ => h, fun _ _ h _ => h,
    fun _ _ h _ => ⟨h, rfl⟩⟩

theorem Glob.event (hg : Glob cap w) {e : Event} {pend : Finset T} (hgrant : ∀ s, e ≠ .granted s)
    (hret : ∀ s b, e ≠ .returned s (some b)) (hfin : ∀ s, isFinish s e = false)
    (hend : isEnd e = isReturn e)
    (hcalls : w.pend.card + (if isCall e then 1 else 0) = (if isReturn e then 1 else 0) + pend.card) :
    Glob cap (w.event t e pend) where
  valid := hg.valid
  rdwr := hg.rdwr
  finished := hg.finished
  grants s := (grants_of_ne w.hist t (hgrant s)).trans (hg.grants s)
  finishes s := by
    have := hg.finishes s
    simpa [World.event, finishes_snoc, hfin s] using this
  returns := by
    have := hg.returns
    simp only [World.event, number_snoc]
    omega
  ends := by
    have := hg.ends
    simp only [World.event, number_snoc, hend]
    omega
  past s k := hg.past_append [(t, e)]
  ordered := hg.ordered.snoc fun s k i b heq => absurd heq (hret s b)

variable [DecidableEq T]

theorem follows_call (hg : Glob tSize.toNat w) (hl : Local tSize t w .idle) (s : Side) :
    (assertions tSize).Follows t w w.mem (.load s) [.call s] := by
  obtain ⟨hpend, hfree⟩ := hl
  refine ⟨w.event t (.call s) (insert t w.pend), rfl, rfl,
    hg.event (by simp) (by simp) (fun _ => rfl) rfl ?_, ⟨Finset.mem_insert_self .., hfree⟩,
    .event _ fun u hu => by simp [hu]⟩
  simp [Finset.card_insert_of_notMem hpend, isCall, isReturn]

theorem follows_refused (hg : Glob tSize.toNat w) (hl : t ∈ w.pend ∧ Free t w) (s : Side) :
    (assertions tSize).Follows t w w.mem .idle [.returned s none] := by
  obtain ⟨hpend, hfree⟩ := hl
  refine ⟨w.event t (.returned s none) (w.pend.erase t), rfl, rfl,
    hg.event (by simp) (by simp) (fun _ => rfl) rfl ?_, ⟨Finset.notMem_erase t w.pend, hfree⟩,
    .event _ fun u hu => by simp [hu]⟩
  have := Finset.card_erase_add_one hpend
  simp only [isCall, isReturn, if_true, Bool.false_eq_true, if_false]
  omega

/-! ## A grant -/

/-- The world after the compare-exchange of thread `t`. -/
def World.grant (w : World T) (t : T) (s : Side) : World T :=
  ⟨{ w.mem with rdwr := s.next w.mem.rdwr }, w.hist ++ [(t, .granted s)], w.r.grant s,
    Function.update w.own s (Function.update (w.own s) (w.r.granted s) t), w.pend.erase t⟩

theorem own_grant (w : World T) (t : T) (s s' : Side) (k : ℕ) :
    (w.grant t s).own s' k = if s' = s ∧ k = w.r.granted s then t else w.own s' k := by
  by_cases hs : s' = s
  · subst hs
    by_cases hk : k = w.r.granted s' <;> simp [World.grant, hk]
  · simp [World.grant, hs]

omit [DecidableEq T] in
theorem room_of_not_refuses (hg : Glob tSize.toNat w) (hs : s.refuses tSize w.mem.rdwr = false) :
    w.r.Room tSize.toNat s := by
  have hfree : ¬Blocked tSize.toNat (w.r.granted .read) (w.r.granted .write) s := fun hb => by
    simp [refuses_of_blocked hg.rdwr hb] at hs
  have hroom := hg.valid.room
  cases s <;> simp only [Blocked] at hfree <;> simp only [Tickets.Room] <;> omega

theorem Guar.grant (w : World T) (t : T) (s : Side) : Guar t w (w.grant t s) := by
  refine ⟨⟨[.granted s], rfl⟩, fun u hu => by simp [World.grant, hu], fun s' k hk => ?_,
    fun s' k hk => Tickets.snap_grant hk, fun s' k hk _ => ?_, fun s' k hk _ => hk,
    fun s' k hk hown => ?_⟩
  · rw [own_grant, if_neg]
    rintro ⟨rfl, rfl⟩
    exact Nat.lt_irrefl _ hk
  · by_cases h : s' = s
    · subst h
      simp [World.grant, Tickets.grant, hk]
    · simpa [World.grant, Tickets.grant, h] using hk
  · rw [own_grant] at hown ⊢
    split_ifs at hown ⊢ with h
    · exact absurd rfl hown
    · exact ⟨(Tickets.mem_flight_grant.mp hk).resolve_left h, rfl⟩

theorem Glob.grant (hg : Glob tSize.toNat w) (hpend : t ∈ w.pend) (hroom : w.r.Room tSize.toNat s) :
    Glob tSize.toNat (w.grant t s) := by
  have hcard := Finset.card_erase_add_one hpend
  have hnew := hg.valid.notMem_flight s
  refine ⟨hg.valid.grant hroom, packs_next hg.rdwr s, fun s' => ?_, fun s' => ?_, fun s' => ?_, ?_, ?_,
    fun s' k hk hf => ?_, hg.ordered.snoc (by simp)⟩
  · rw [World.grant, hg.valid.finished_grant, ← hg.finished]
    cases s' <;> rfl
  · rw [World.grant, grants_snoc, hg.grants, Tickets.granted_grant]
    by_cases h : s' = s
    · simp [h]
    · simp [h, Ne.symm h]
  · rw [World.grant, finishes_snoc, hg.finishes, hg.valid.finished_grant]
    rfl
  · have hreturns := hg.returns
    have hnot : w.r.granted s ∉ w.r.waiting s := fun h => hnew (Finset.mem_union_left _ h)
    simp only [World.grant, number_snoc, isCall, isReturn, Bool.false_eq_true, if_false]
    cases s <;> simp [Tickets.grant, Finset.card_insert_of_notMem hnot] <;> omega
  · have hends := hg.ends
    simp only [World.grant, number_snoc, isCall, isEnd, Bool.false_eq_true, if_false,
      Tickets.flight_grant]
    cases s <;> simp [Finset.card_insert_of_notMem hnew] <;> omega
  · simp only [World.grant, Tickets.mem_flight_grant, not_or] at hf
    refine hg.past_append _ ?_ hf.2
    rcases Tickets.lt_granted_grant hk with hk | hnew
    · exact hk
    · exact absurd ⟨hnew.1, hnew.1 ▸ hnew.2⟩ hf.1

/-- The compare-exchange succeeds: the value tested is the current one. -/
theorem follows_grant (hg : Glob tSize.toNat w) (hl : Local tSize t w (.cas s w.mem.rdwr)) :
    (assertions tSize).Follows t w { w.mem with rdwr := s.next w.mem.rdwr }
      (.wait s (rdOf w.mem.rdwr) (wrOf w.mem.rdwr)) [.granted s] := by
  obtain ⟨⟨hpend, hfree⟩, hroom⟩ := hl
  refine ⟨w.grant t s, rfl, rfl, hg.grant hpend (room_of_not_refuses hg hroom),
    ⟨Finset.notMem_erase t w.pend, w.r.granted s, w.hist.length, ⟨?_, ?_, ?_⟩, ?_, ?_,
      latest_snoc t _, ?_⟩, .grant w t s⟩
  · rw [own_grant, if_pos ⟨rfl, rfl⟩]
  · rintro s' k' ⟨hk', hown⟩
    rcases Tickets.mem_flight_grant.mp hk' with h | hk'
    · exact h
    · rw [own_grant] at hown
      split_ifs at hown with h
      · exact h
      · exact absurd ⟨hk', hown⟩ (hfree s' k')
  · exact kth_snoc.mpr (.inr ⟨rfl, rfl, rfl, hg.grants s⟩)
  · simp [World.grant, Tickets.grant]
  · have hr := toNat_rdOf hg.rdwr
    have hw := toNat_wrOf hg.rdwr
    cases s <;> simp [Loaded, World.grant, Tickets.grant, Side.other, hr, hw]
  · have hsnap := Tickets.snap_grant_new w.r s
    simpa [World.grant, hsnap] using hg.grants s.other

/-! ## Leaving the wait loop -/

omit [DecidableEq T] in
theorem Glob.ready_iff (hg : Glob cap w) (hl : Loaded w.r k rd wr s) :
    s.ready w.mem rd wr = true ↔ w.r.finished s.other % 2 ^ 16 = w.r.snap s k % 2 ^ 16 := by
  rw [← hg.finished]
  cases s <;> rw [Side.ready, beq_iff_eq, ← BitVec.toNat_inj, toNat_and_ffff (by decide)]
  · rw [hl.2]
    rfl
  · rw [hl.1]
    rfl

/-- The world after operation `k` of thread `t` left its wait loop with bin `b`. -/
def World.enter (w : World T) (t : T) (s : Side) (k : ℕ) (b : Size) : World T :=
  { w with hist := w.hist ++ [(t, .returned s (some b))], r := w.r.enter s k }

omit [DecidableEq T] in
theorem Guar.enter (hk : k ∈ w.r.waiting s) (hown : w.own s k = t) (b : Size) :
    Guar t w (w.enter t s k b) := by
  refine ⟨⟨[.returned s (some b)], rfl⟩, fun _ _ => Iff.rfl, fun _ _ _ => rfl, fun _ _ _ => rfl,
    fun s' k' hk' hne => ?_, fun s' k' hk' _ => ?_,
    fun s' k' hk' _ => ⟨Tickets.flight_enter hk s' ▸ hk', rfl⟩⟩
  · by_cases h : s' = s
    · subst h
      have : k' ≠ k := fun heq => hne (heq ▸ hown)
      simp [World.enter, Tickets.enter, hk', this]
    · simpa [World.enter, Tickets.enter, h] using hk'
  · by_cases h : s' = s
    · subst h
      simp [World.enter, Tickets.enter, hk']
    · simpa [World.enter, Tickets.enter, h] using hk'

omit [DecidableEq T] in
theorem Glob.enter (hg : Glob cap w) (hl : Waiting t w s rd wr k i) (hclear : w.r.Clear s k) (b : Size) :
    Glob cap (w.enter t s k b) := by
  have hf := Tickets.flight_enter hl.mem
  have hcard := Finset.card_erase_add_one hl.mem
  refine ⟨hg.valid.enter hl.mem hclear, hg.rdwr, fun s' => ?_, fun s' => ?_, fun s' => ?_, ?_, ?_,
    fun s' k' hk' hnot => hg.past_append _ hk' (hf s' ▸ hnot), ?_⟩
  · rw [World.enter, hg.finished, Tickets.finished_enter hl.mem]
  · rw [World.enter, grants_of_ne w.hist t (by simp), hg.grants]
    rfl
  · rw [World.enter, finishes_snoc, hg.finishes, Tickets.finished_enter hl.mem]
    rfl
  · have hreturns := hg.returns
    simp only [World.enter, number_snoc, isCall, isReturn, Bool.false_eq_true, if_false, if_true]
    cases s <;> simp [Tickets.enter] <;> omega
  · simpa [World.enter, number_snoc, isCall, isEnd, hf] using hg.ends
  · -- the operation of the other side that had this bin last is before the snapshot
    refine hg.ordered.snoc fun s' k' i' b' heq hkth hlast => ?_
    obtain ⟨rfl, -⟩ : s = s' ∧ some b = some b' := by simpa using heq
    obtain rfl := hl.latest.unique hlast hl.kth.1 hkth.1
    obtain rfl : k' + s.lag cap = k := hkth.2.symm.trans hl.kth.2
    have hlt := hl.lt hg
    have hsnap := hg.valid.lt_snap hlt
    refine hg.past s.other k' (Nat.lt_of_lt_of_le hsnap (hg.valid.snap_le hlt)) fun hmem => ?_
    exact absurd hsnap (Nat.not_lt.mpr (hclear k' hmem))

omit [DecidableEq T] in
theorem follows_enter (hg : Glob tSize.toNat w) (hfew : ∀ s, (w.r.flight s).card < 2 ^ 16)
    (hl : Local tSize t w (.wait s rd wr)) (hready : s.ready w.mem rd wr = true) (b : Size) :
    (assertions tSize).Follows t w w.mem (.hold s b) [.returned s (some b)] := by
  obtain ⟨hpend, k, i, hw⟩ := hl
  have hmem : k ∈ w.r.flight s := Finset.mem_union_left _ hw.mem
  have hclear := hg.valid.clear_of_mod (hfew _) hmem ((hg.ready_iff hw.loaded).mp hready)
  refine ⟨w.enter t s k b, rfl, rfl, hg.enter hw hclear b,
    ⟨hpend, k, i, ⟨hw.own, fun s' k' hk' => ?_, hw.kth.append⟩, ?_, w.hist.length,
      next_snoc.mpr (.inr ⟨rfl, rfl, rfl, hw.latest⟩), latest_snoc t _⟩, .enter hw.mem hw.own b⟩
  · exact hw.only s' k' ⟨Tickets.flight_enter hw.mem s' ▸ hk'.1, hk'.2⟩
  · simp [World.enter, Tickets.enter]

/-! ## Giving the bin back -/

/-- The world after `read_consume` or `write_publish` of operation `k` of thread `t`. -/
def World.finish (w : World T) (t : T) (s : Side) (k : ℕ) (b : Size) : World T :=
  { w with mem := s.finish w.mem, hist := w.hist ++ [(t, .finished s b)], r := w.r.finish s k }

omit [DecidableEq T] in
theorem Guar.finish (hg : Glob cap w) (hk : k ∈ w.r.holding s) (hown : w.own s k = t) (b : Size) :
    Guar t w (w.finish t s k b) := by
  refine ⟨⟨[.finished s b], rfl⟩, fun _ _ => Iff.rfl, fun _ _ _ => rfl, fun _ _ _ => rfl,
    fun _ _ h _ => h, fun s' k' hk' hne => ?_,
    fun s' k' hk' _ => ⟨((Tickets.mem_flight_finish hg.valid hk).mp hk').1, rfl⟩⟩
  by_cases h : s' = s
  · subst h
    have : k' ≠ k := fun heq => hne (heq ▸ hown)
    simp [World.finish, Tickets.finish, hk', this]
  · simpa [World.finish, Tickets.finish, h] using hk'

omit [DecidableEq T] in
theorem Glob.finish {b : Size} (hg : Glob cap w) (hl : Holding t w s b k i) :
    Glob cap (w.finish t s k b) := by
  have hmem : k ∈ w.r.flight s := Finset.mem_union_right _ hl.mem
  have hfin := hg.valid.finished_finish hl.mem
  refine ⟨hg.valid.finish hl.mem, ?_, fun s' => ?_, fun s' => ?_, fun s' => ?_, ?_, ?_,
    fun s' k' hk' hnot => ?_, hg.ordered.snoc (by simp)⟩
  · have hrdwr : (s.finish w.mem).rdwr = w.mem.rdwr := by cases s <;> rfl
    exact hrdwr ▸ hg.rdwr
  · have := hg.finished s'
    rw [World.finish, hfin]
    cases s <;> cases s' <;> simp [finishedOf, Side.finish] at this ⊢ <;> omega
  · rw [World.finish, grants_of_ne w.hist t (by simp), hg.grants]
    rfl
  · rw [World.finish, finishes_snoc, hg.finishes, hfin]
    simp [isFinish, eq_comm]
  · simpa [World.finish, number_snoc, isCall, isReturn, Tickets.finish] using hg.returns
  · have hends := hg.ends
    have hcard := Finset.card_erase_add_one hmem
    simp only [World.finish, number_snoc, isCall, isEnd, Bool.false_eq_true, if_false, if_true,
      Tickets.flight_finish hg.valid hl.mem]
    cases s <;> simp <;> omega
  · simp only [World.finish, Tickets.mem_flight_finish hg.valid hl.mem, not_and_not_right] at hnot
    by_cases hk : k' ∈ w.r.flight s'
    · obtain ⟨rfl, rfl⟩ := hnot hk
      obtain ⟨j, hnext, hlast⟩ := hl.returned
      exact ⟨b, i, t, j, w.hist.length, hl.kth.append, hnext.append,
        next_snoc.mpr (.inr ⟨rfl, rfl, rfl, hlast⟩), by simp [World.finish]⟩
    · exact hg.past_append _ hk' hk

omit [DecidableEq T] in
theorem follows_finish {b : Size} (hg : Glob tSize.toNat w) (hl : Local tSize t w (.hold s b)) :
    (assertions tSize).Follows t w (s.finish w.mem) .idle [.finished s b] := by
  obtain ⟨hpend, k, i, hw⟩ := hl
  refine ⟨w.finish t s k b, rfl, rfl, hg.finish hw, ⟨hpend, ?_⟩, .finish hg hw.mem hw.own b⟩
  rintro s' k' ⟨hk', hown⟩
  obtain ⟨hk', hne⟩ := (Tickets.mem_flight_finish hg.valid hw.mem).mp hk'
  exact hne (hw.only s' k' ⟨hk', hown⟩)

/-! ## All steps -/

omit [DecidableEq T] in
theorem Local.of_trying {l : Pc} (h : l.trying = some s) (hl : Local tSize t w l) :
    t ∈ w.pend ∧ Free t w := by
  cases l with
  | load => exact hl
  | cas => exact hl.1
  | _ => cases h

theorem follows_step (hg : Glob tSize.toNat w) (hfew : ∀ s, (w.r.flight s).card < 2 ^ 16) {l₀ l : Pc}
    (hl : Local tSize t w l₀) {a : Act} {m : Mem} {es : List Event}
    (hs : step tSize a w.mem l₀ = some (m, l, es)) : (assertions tSize).Follows t w m l es := by
  cases moves_of_step hs with
  | call s hidle =>
    subst hidle
    exact follows_call hg hl s
  | refused htry => exact follows_refused hg (hl.of_trying htry) _
  | tested htry hr => exact Assertions.follows_quiet hg ⟨hl.of_trying htry, hr⟩ (.refl t w)
  | granted s => exact follows_grant hg hl
  | blocked => exact Assertions.follows_quiet hg hl (.refl t w)
  | entered s rd wr hready => exact follows_enter hg hfew hl hready _
  | finish s b hhold =>
    subst hhold
    exact follows_finish hg hl

/-- The traces followed are those with a property `few` that bounds the granted operations. -/
def outline (tSize : Size) {few : List (T × Event) → Prop}
    (hfew : ∀ w : World T, Glob tSize.toNat w → few w.hist → ∀ s, (w.r.flight s).card < 2 ^ 16) :
    Outline (program tSize T) anyStep (fun h => ∀ h', h' <+: h → few h') (World T) where
  toAssertions := assertions tSize
  step hg hl hs _ hadm := follows_step hg (hfew _ hg (hadm _ (List.prefix_append ..))) (hl _) hs
  stable hu hg _ hl hguar := hl.stable hu hg hguar

theorem holds_start [Nonempty T] {few : List (T × Event) → Prop}
    (hfew : ∀ w : World T, Glob tSize.toNat w → few w.hist → ∀ s, (w.r.flight s).card < 2 ^ 16) :
    (outline tSize hfew).Holds ⟨mpmcBoundq, [], .empty, fun _ _ => Classical.arbitrary T, ∅⟩ []
    (start T) where
  mem := rfl
  hist := rfl
  glob := by
    refine ⟨Tickets.valid_empty, by simp [Packs, mpmcBoundq, Tickets.empty], fun s => ?_,
      fun _ => rfl, fun s => ?_, rfl, rfl, fun s k hk => absurd hk (Nat.not_lt_zero k),
      fun s k i t j b hk => ?_⟩
    · cases s <;> simp [finishedOf, mpmcBoundq, Tickets.finished, Tickets.empty]
    · simp [finishes, Tickets.finished, Tickets.empty]
    · exact absurd hk.1 (by simp)
  loc _ := ⟨Finset.notMem_empty _, fun s k h => by simpa [Tickets.flight, Tickets.empty] using h.1⟩

theorem sound {few : List (T × Event) → Prop}
    (hfew : ∀ w : World T, Glob tSize.toNat w → few w.hist → ∀ s, (w.r.flight s).card < 2 ^ 16)
    {tr : List (T × Event)} {c : Config T Mem Pc} (h : (program tSize T).Run anyStep (start T) tr c)
    (hadm : ∀ h', h' <+: tr → few h') (t : T) : ∃ w, (outline tSize hfew).Holds w tr c :=
  have : Nonempty T := ⟨t⟩
  (outline tSize hfew).sound (fun hf h' hp => hf h' (hp.trans (List.prefix_append ..)))
    (holds_start hfew) h hadm

end Tracking

end Cds.MpmcQueue
