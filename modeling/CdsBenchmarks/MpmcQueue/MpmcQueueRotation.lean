import CdsBenchmarks.MpmcQueue.MpmcQueueCounts

/-! The rotation of the bins past the wrap of the 16-bit counters. The `k`-th granted
operation of a side gets bin `k % 2^16 % t_size`, which is `k % t_size` for all `k` only if
`t_size` divides `2^16`. -/

namespace Cds.MpmcQueue
open Concurrent Program

variable {T : Type*} {tSize : Size}

/-- The `k`-th granted operation of side `s` was given bin `b`. -/
def Given (h : List (T × Event)) (s : Side) (k : ℕ) (b : Size) : Prop :=
  ∃ i t j, Kth (.granted s) h k i t ∧ Next h t i j (.returned s (some b))

/-- The bins rotate: `cap` consecutive writes get different bins, no write gets a bin that
was written and not granted to a read since, and reads get the bins in the order of the writes. -/
structure Rotates (cap : ℕ) (h : List (T × Event)) : Prop where
  distinct : ∀ k k' b b', k < k' → k' < k + cap → Given h .write k b → Given h .write k' b' → b ≠ b'
  unread : ∀ k k' i t b b', k < k' → Kth (.granted .write) h k' i t → grants .read (h.take i) ≤ k →
    Given h .write k b → Given h .write k' b' → b ≠ b'
  handed : ∀ k b b', Given h .write k b → Given h .read k b' → b = b'

/-- The counter whose residue is the index of the bin. -/
def Side.counter (rd wr : Word) : Side → Word
  | .read => rd
  | .write => wr

theorem toNat_bin_counter (s : Side) (rd wr : Word) :
    (s.bin tSize rd wr).toNat = (s.counter rd wr).toNat % tSize.toNat := by
  have hwide : ∀ x : Word, x.toNat % 2 ^ 64 = x.toNat := fun x => Nat.mod_eq_of_lt (by omega)
  cases s <;> rw [Side.bin, BitVec.toNat_umod, BitVec.toNat_setWidth, hwide] <;> rfl

theorem toNat_counter {x : Word} {h : List (T × Event)}
    (hx : Packs x (grants .read h) (grants .write h)) (s : Side) :
    (s.counter (rdOf x) (wrOf x)).toNat = grants s h % 2 ^ 16 := by
  cases s
  · exact toNat_rdOf hx
  · exact toNat_wrOf hx

/-! ## The bin of every granted operation -/

section Bins
variable {h h' : List (T × Event)} {s : Side} {k : ℕ} {b : Size} {t : T} {e : Event}

theorem Given.append (hg : Given h s k b) : Given (h ++ h') s k b := by
  obtain ⟨i, t, j, hk, hn⟩ := hg
  exact ⟨i, t, j, hk.append, hn.append⟩

theorem given_snoc (hg : Given (h ++ [(t, e)]) s k b) : Given h s k b ∨
    ∃ i, Kth (.granted s) h k i t ∧ Latest h t i ∧ e = .returned s (some b) := by
  obtain ⟨i, u, j, hk, hn⟩ := hg
  obtain ⟨hk', hn | ⟨-, rfl, rfl, hl⟩⟩ := next_snoc_of_kth hk hn
  · exact .inl ⟨i, u, j, hk', hn⟩
  · exact .inr ⟨i, hk', hl, rfl⟩

/-- Thread `t` was granted `k` by its last event and keeps its residue. -/
def Snapped (h : List (T × Event)) (t : T) : Pc → Prop
  | .wait s rd wr => ∃ k i, Kth (.granted s) h k i t ∧ Latest h t i ∧
      (s.counter rd wr).toNat = k % 2 ^ 16
  | _ => True

structure Binned (cap : ℕ) (h : List (T × Event)) : Prop where
  given : ∀ s k b, Given h s k b → b.toNat = k % 2 ^ 16 % cap
  /-- A write was granted only while fewer than `cap` elements were not granted to a read. -/
  room : ∀ k i t, Kth (.granted .write) h k i t → k < grants .read (h.take i) + cap

theorem Snapped.other {u : T} {l : Pc} (hs : Snapped h u l) (hu : u ≠ t) (es : List Event) :
    Snapped (h ++ emit t es) u l := by
  cases l with
  | wait s rd wr =>
    obtain ⟨k, i, hk, hl, hc⟩ := hs
    exact ⟨k, i, hk.append, hl.other hu es, hc⟩
  | _ => trivial

theorem Binned.snoc {cap : ℕ} (hb : Binned cap h)
    (hgiven : ∀ s k b i, e = .returned s (some b) → Kth (.granted s) h k i t → Latest h t i →
      b.toNat = k % 2 ^ 16 % cap)
    (hroom : e = .granted .write → grants .write h < grants .read h + cap) :
    Binned cap (h ++ [(t, e)]) := by
  constructor
  · intro s k b hg
    rcases given_snoc hg with hg | ⟨i, hk, hl, heq⟩
    · exact hb.given s k b hg
    · exact hgiven s k b i heq hk hl
  · intro k i u hk
    rcases kth_snoc.mp hk with hk | ⟨rfl, rfl, heq, hcount⟩
    · rw [List.take_append_of_le_length (Nat.le_of_lt (lt_of_getElem? hk.1))]
      exact hb.room k i u hk
    · rw [List.take_left, ← hcount]
      exact hroom heq

variable {starts : Pc → Prop} {ends : Pc → Side → Size → Prop} {m m' : Mem} {l l' : Pc}
  {es : List Event}

theorem Moves.snapped (hm : Moves tSize starts ends m l m' l' es) (hc : Counts tSize.toNat h m)
    (hs : Snapped h t l) : Snapped (h ++ emit t es) t l' := by
  cases hm with
  | granted s =>
    exact ⟨grants s h, h.length, kth_snoc.mpr (.inr ⟨rfl, rfl, rfl, rfl⟩), latest_snoc t _,
      toNat_counter hc.packs s⟩
  | blocked => simpa using hs
  | _ => trivial

theorem Moves.binned (hcap : tSize.toNat ≤ 65535) (hm : Moves tSize starts ends m l m' l' es)
    (hc : Counts tSize.toNat h m) (hl : Tested tSize l) (hs : Snapped h t l)
    (hb : Binned tSize.toNat h) : Binned tSize.toNat (h ++ emit t es) := by
  cases hm with
  | call | refused | finish => exact hb.snoc (by simp) (by simp)
  | tested | blocked => simpa using hb
  | granted s =>
    refine hb.snoc (by simp) fun heq => ?_
    obtain rfl : s = .write := by simpa using heq
    exact Nat.lt_of_le_of_ne hc.writes ((hc.free_iff hcap .write).mp hl)
  | entered s rd wr =>
    refine hb.snoc (fun s' k b i heq hk hlast => ?_) (by simp)
    obtain ⟨k', i', hk', hlast', hcount⟩ := hs
    obtain ⟨rfl, rfl⟩ : s = s' ∧ s.bin tSize rd wr = b := by simpa using heq
    -- the thread's last event is its grant, so that the numbers agree
    obtain rfl := hlast.unique hlast' hk.1 hk'.1
    obtain rfl : k' = k := hk'.2.symm.trans hk.2
    rw [toNat_bin_counter, hcount]

end Bins

/-! ## Capacities that divide `2^16` -/

theorem Binned.rotates {tr : List (T × Event)} {cap : ℕ} (hdvd : cap ∣ 2 ^ 16)
    (hb : Binned cap tr) : Rotates cap tr := by
  have hbin : ∀ s k b, Given tr s k b → b.toNat = k % cap := fun s k b hg => by
    rw [hb.given s k b hg, Nat.mod_mod_of_dvd _ hdvd]
  have hne : ∀ k k' b b', k < k' → k' < k + cap → Given tr .write k b → Given tr .write k' b' →
      b ≠ b' := by
    rintro k k' b b' hlt hlt' hg hg' rfl
    exact Tickets.mod_ne hlt hlt' ((hbin _ _ _ hg).symm.trans (hbin _ _ _ hg'))
  refine ⟨hne, fun k k' i t b b' hlt hk hread => ?_, fun k b b' hg hg' => ?_⟩
  · have hroom := hb.room k' i t hk
    exact hne k k' b b' hlt (by omega)
  · exact BitVec.eq_of_toNat_eq ((hbin _ _ _ hg).trans (hbin _ _ _ hg').symm)

/-! ## One thread that writes and reads in turn -/

/-- The events of a whole operation. -/
def operation (s : Side) (b : Size) : List Event :=
  [.call s, .granted s, .returned s (some b), .finished s b]

theorem toNat_finishedOf_finish (m : Mem) (s s' : Side) :
    (finishedOf (s.finish m) s').toNat % 2 ^ 16 =
      ((finishedOf m s').toNat + if s' = s then 1 else 0) % 2 ^ 16 := by
  cases s <;> cases s' <;> simp [finishedOf, Side.finish]

theorem ready_congr {m m' : Mem} (hr : m'.read = m.read) (hw : m'.written = m.written) (s : Side)
    (rd wr : Word) : s.ready m' rd wr = s.ready m rd wr := by
  cases s <;> simp only [Side.ready, hr, hw]

theorem solo_operation {m : Mem} {s : Side} (hr : s.refuses tSize m.rdwr = false)
    (hready : s.ready m (rdOf m.rdwr) (wrOf m.rdwr) = true) (t : T) :
    (program tSize T).solo t [.call s, .run, .run, .run, .finish] m .idle =
      some (s.finish { m with rdwr := s.next m.rdwr }, .idle,
        operation s (s.bin tSize (rdOf m.rdwr) (wrOf m.rdwr))) := by
  have hready' : s.ready { m with rdwr := s.next m.rdwr } (rdOf m.rdwr) (wrOf m.rdwr) = true :=
    (ready_congr rfl rfl s _ _).trans hready
  simp [solo, soloAt, program, step, access, test, hr, hready', operation]

theorem given_operation (h : List (T × Event)) (t : T) (s : Side) (b : Size) :
    Given (h ++ emit t (operation s b)) s (grants s h) b := by
  refine ⟨h.length + 1, t, h.length + 2, ⟨?_, ?_⟩, Nat.lt_succ_self _, ?_, fun k hlt hlt' => ?_⟩
  · simp [operation]
  · simp [operation, List.take_append, List.take_of_length_le, grants, occurrences]
  · simp [operation]
  · omega

theorem grants_operation (h : List (T × Event)) (t : T) (s s' : Side) (b : Size) :
    grants s' (h ++ emit t (operation s b)) = grants s' h + if s' = s then 1 else 0 := by
  have hone : occurrences (.granted s') (emit t (operation s b)) = if s' = s then 1 else 0 := by
    cases s <;> cases s' <;> simp [operation, occurrences]
  rw [grants, occurrences_append, hone]
  rfl

variable [DecidableEq T] {tr : List (T × Event)} {c : Config T Mem Pc}

theorem binned_of_run (hcap : tSize.toNat ≤ 65535)
    (hrun : (freeProgram tSize T).Run anyStep (start T) tr c) :
    Binned tSize.toNat tr ∧ ∀ t, Snapped tr t (c.loc t) := by
  induction hrun with
  | start =>
    refine ⟨⟨?_, ?_⟩, fun _ => trivial⟩
    · rintro s k b ⟨i, t, j, hk, -⟩
      cases hk.1
    · rintro k i t hk
      cases hk.1
  | @step tr c t a m l es h hs _ ih =>
    obtain ⟨hb, hsnap⟩ := ih
    obtain ⟨hc, ht⟩ := counts_of_run hcap h
    have hmove := moves_of_freeStep hs
    have hother : ∀ u, u ≠ t → Snapped (tr ++ emit t es) u (c.loc u) := fun u hu =>
      (hsnap u).other hu es
    exact ⟨hmove.binned hcap hc (ht t) (hsnap t) hb,
      forall_move (P := Snapped (tr ++ emit t es)) (hmove.snapped hc (hsnap t)) hother⟩

/-- Thread `t` is the only one, and has finished what it was granted. -/
structure Rested (tSize : Size) (t : T) (tr : List (T × Event)) (c : Config T Mem Pc) : Prop where
  run : (program tSize T).Run anyStep (start T) tr c
  idle : c.loc t = .idle
  finished : ∀ s, (finishedOf c.mem s).toNat % 2 ^ 16 = grants s tr % 2 ^ 16

theorem Rested.operation {t : T} (hcap : tSize.toNat ≤ 65535) (h : Rested tSize t tr c) (s : Side)
    (hfree : ¬Blocked tSize.toNat (grants .read tr) (grants .write tr) s) :
    ∃ b c', Rested tSize t (tr ++ emit t (operation s b)) c' := by
  have hc := (counts_of_run hcap (free_of_run h.run)).1
  have hr := (hc.free_iff hcap s).mpr hfree
  have hready : s.ready c.mem (rdOf c.mem.rdwr) (wrOf c.mem.rdwr) = true := by
    have hread : c.mem.read.toNat % 2 ^ 16 = grants .read tr % 2 ^ 16 := h.finished .read
    have hwritten : c.mem.written.toNat % 2 ^ 16 = grants .write tr % 2 ^ 16 := h.finished .write
    cases s <;> simp only [Side.ready, beq_iff_eq, ← BitVec.toNat_inj]
    · rw [toNat_and_ffff (by decide), hwritten, toNat_wrOf hc.packs]
    · rw [toNat_and_ffff (by decide), hread, toNat_rdOf hc.packs]
  have hsolo := solo_operation hr hready t
  rw [← h.idle] at hsolo
  refine ⟨_, _, h.run.solo t _ _ _ _ hsolo, (move_loc_self ..).trans h.idle, fun s' => ?_⟩
  have hsame : finishedOf { c.mem with rdwr := s.next c.mem.rdwr } s' =
      finishedOf c.mem s' := by cases s' <;> rfl
  rw [move_mem, toNat_finishedOf_finish, hsame, grants_operation, Nat.add_mod, h.finished s',
    ← Nat.add_mod]

/-- After `n` rounds of a write and a read. -/
theorem exists_rounds (hpos : 1 ≤ tSize.toNat) (hcap : tSize.toNat ≤ 65535) (t : T) (n : ℕ) :
    ∃ tr c, Rested tSize t tr c ∧ (∀ s, grants s tr = n) ∧ ∀ k < n, ∃ b, Given tr .write k b := by
  induction n with
  | zero =>
    refine ⟨[], start T, ⟨.start, rfl, fun s => ?_⟩, fun _ => rfl,
      fun k hk => absurd hk (Nat.not_lt_zero k)⟩
    cases s <;> rfl
  | succ n ih =>
    obtain ⟨tr, c, hrest, hgrants, hgiven⟩ := ih
    obtain ⟨b, c₁, h₁⟩ := hrest.operation hcap .write (by simp only [Blocked, hgrants]; omega)
    have hg₁ := fun s => grants_operation tr t .write s b
    have hfree : ¬Blocked tSize.toNat (grants .read (tr ++ emit t (MpmcQueue.operation .write b)))
        (grants .write (tr ++ emit t (MpmcQueue.operation .write b))) .read := by
      simp [Blocked, hg₁, hgrants]
    obtain ⟨b', c₂, h₂⟩ := h₁.operation hcap .read hfree
    refine ⟨_, c₂, h₂, fun s => ?_, fun k hk => ?_⟩
    · rw [grants_operation, hg₁, hgrants]
      cases s <;> rfl
    · rcases Nat.lt_succ_iff_lt_or_eq.mp hk with hk | rfl
      · obtain ⟨b₀, hb₀⟩ := hgiven k hk
        exact ⟨b₀, hb₀.append.append⟩
      · refine ⟨b, Given.append ?_⟩
        simpa only [hgrants] using given_operation tr t .write b

/-- The bins rotate through the wrap of the counters in every run exactly for the capacities
that divide `2^16`. -/
theorem rotates_iff_dvd [Nonempty T] (hpos : 1 ≤ tSize.toNat) (hcap : tSize.toNat ≤ 65535) :
    (∀ (tr : List (T × Event)) (c : Config T Mem Pc),
      (freeProgram tSize T).Run anyStep (start T) tr c → Rotates tSize.toNat tr) ↔
    tSize.toNat ∣ 2 ^ 16 := by
  constructor
  · intro h
    by_contra hdvd
    obtain ⟨t⟩ : Nonempty T := inferInstance
    have hrem : 0 < 65536 % tSize.toNat := Nat.pos_of_ne_zero fun h0 => hdvd (Nat.dvd_of_mod_eq_zero h0)
    have hlt : 65536 % tSize.toNat < tSize.toNat := Nat.mod_lt _ hpos
    obtain ⟨tr, c, hrest, -, hgiven⟩ := exists_rounds hpos hcap t 65537
    have hb := (binned_of_run hcap (free_of_run hrest.run)).1
    obtain ⟨b, hg⟩ := hgiven (65536 - 65536 % tSize.toNat) (by omega)
    obtain ⟨b', hg'⟩ := hgiven 65536 (by omega)
    -- the last multiple of the capacity before the wrap, and the wrap itself
    have hzero : b.toNat = 0 := by
      rw [hb.given _ _ _ hg, Nat.mod_eq_of_lt (b := 2 ^ 16) (by omega)]
      exact Nat.mod_eq_zero_of_dvd (Nat.dvd_sub_mod 65536)
    have hzero' : b'.toNat = 0 := by
      rw [hb.given _ _ _ hg']
      exact Nat.zero_mod _
    exact (h tr c (free_of_run hrest.run)).distinct _ _ b b' (by omega) (by omega) hg hg'
      (BitVec.eq_of_toNat_eq (hzero.trans hzero'.symm))
  · intro hdvd tr c hrun
    exact (binned_of_run hcap hrun).1.rotates hdvd

/-- Two bins rotate past the wrap of the counters. -/
theorem rotates_iff_dvd_two : ∃ (tr : List (Unit × Event)) (c : Config Unit Mem Pc),
    (freeProgram 2 Unit).Run anyStep (start Unit) tr c ∧ (∀ s, grants s tr = 65540) ∧ Rotates 2 tr := by
  obtain ⟨tr, c, hrest, hgrants, -⟩ :=
    exists_rounds (show 1 ≤ (2 : Size).toNat by decide) (by decide) () 65540
  have hrun := free_of_run hrest.run
  exact ⟨tr, c, hrun, hgrants, (rotates_iff_dvd (T := Unit) (show 1 ≤ (2 : Size).toNat by decide)
    (by decide)).mpr (by decide) tr c hrun⟩

/-- With three bins the writes 65535 and 65536 get bin 0 both, and neither was granted to a
read in between. -/
theorem bins_collide : ∃ (tr : List (Unit × Event)) (c : Config Unit Mem Pc),
    (freeProgram 3 Unit).Run anyStep (start Unit) tr c ∧ Given tr .write 65535 0 ∧
    Given tr .write 65536 0 ∧ grants .read tr = 65535 ∧ ¬Rotates 3 tr := by
  obtain ⟨tr, c, hrest, hgrants, -⟩ :=
    exists_rounds (show 1 ≤ (3 : Size).toNat by decide) (by decide) () 65535
  obtain ⟨b, c₁, h₁⟩ := hrest.operation (by decide) .write (by simp [Blocked, hgrants])
  have hg₁ := fun s => grants_operation tr () .write s b
  obtain ⟨b', c₂, h₂⟩ := h₁.operation (by decide) .write (by simp [Blocked, hg₁, hgrants])
  have hrun := free_of_run h₂.run
  have hbins := (binned_of_run (by decide) hrun).1
  have hg : Given (tr ++ _ ++ emit () (operation .write b')) _ _ b :=
    (given_operation tr () .write b).append
  have hg' := given_operation (tr ++ emit () (operation .write b)) () .write b'
  rw [hgrants] at hg
  rw [hg₁, hgrants] at hg'
  obtain rfl : b = 0 := BitVec.eq_of_toNat_eq (hbins.given _ _ _ hg)
  obtain rfl : b' = 0 := BitVec.eq_of_toNat_eq (hbins.given _ _ _ hg')
  refine ⟨_, c₂, hrun, hg, hg', by rw [grants_operation, hg₁, hgrants]; rfl, fun hrot => ?_⟩
  exact hrot.distinct 65535 65536 0 0 (by decide) (by decide) hg hg' rfl

end Cds.MpmcQueue
