import CdsBenchmarks.RwLock.RwLockExclusion

/-! How many threads the reader-writer lock excludes. Each failed write attempt lowers the
counter by `RW_LOCK_BIAS` until it is undone, so that with one writer 2048 attempts bring it
to the least `int`; the next `fetch_sub` wraps it to a positive value, and a reader gets in. -/

namespace Cds.RwLock
open Concurrent Program Finset

variable {T : Type*}

/-- An acquisition by `t` in a step to `l` leaves a write holder alone. -/
def AcquiresAlone (c : Config T Mem Pc) (t : T) (l : Pc) : Prop :=
  ((c.loc t).readHolder = false → l.readHolder → ∀ u, u ≠ t → (c.loc u).writeHolder = false) ∧
  ((c.loc t).writeHolder = false → l.writeHolder → ∀ u, u ≠ t →
    (c.loc u).readHolder = false ∧ (c.loc u).writeHolder = false)

/-- In no run does an acquisition succeed while another thread holds the lock, unless both
read. -/
def Excludes (T : Type*) [DecidableEq T] : Prop :=
  ∀ tr c, (program T).Run anyStep (start T) tr c → ∀ t a m l es,
    step a c.mem (c.loc t) = some (m, l, es) → AcquiresAlone c t l

variable [Fintype T] [DecidableEq T]

/-- At most 2049 threads other than `t` are inside a call or hold a lock. -/
def FewOthers (c : Config T Mem Pc) (t : T) : Prop :=
  (univ.filter fun u => u ≠ t ∧ c.loc u ≠ .rest .nothing).card ≤ 2049

/-- The counter does not wrap for a thread that weighs nothing. -/
theorem Inv.toInt_of_few {c : Config T Mem Pc} (h : Inv c) {t : T} (hfew : FewOthers c t)
    (ht : (c.loc t).weight = 0) : c.mem.lock.toInt = bias - total Pc.weight c := by
  have h₁ := total_nonneg weight_nonneg c
  have h₂ : total Pc.weight c ≤
      (univ.filter fun u => u ≠ t ∧ c.loc u ≠ .rest .nothing).card * bias := by
    refine total_le_card (fun u _ => weight_le _) fun u hu => ?_
    by_cases hut : u = t
    · rw [hut, ht]
    · have : c.loc u = .rest .nothing := by simpa [hut] using hu
      rw [this]
      rfl
  have h₃ : ((univ.filter fun u => u ≠ t ∧ c.loc u ≠ .rest .nothing).card : ℤ) ≤ 2049 := by
    exact_mod_cast hfew
  rw [h.lock, BitVec.toInt_ofInt]
  unfold bias at *
  exact Int.bmod_eq_of_le (by omega) (by omega)

theorem inv_of_few {tr : List (T × Event)} {c : Config T Mem Pc}
    (h : (program T).Run (fun c t _ => FewOthers c t) (start T) tr c) : Inv c :=
  h.invariant (I := fun _ c => Inv c) .start fun hc hs hfew => hc.step (hc.toInt_of_few hfew) hs

theorem Inv.acquiresAlone {c : Config T Mem Pc} (hc : Inv c) {t : T} (hfew : FewOthers c t) {a : Act}
    {m : Mem} {l : Pc} {es : List Event} (hs : RwLock.step a c.mem (c.loc t) = some (m, l, es)) :
    AcquiresAlone c t l := by
  have hnext := hc.step (hc.toInt_of_few hfew) hs
  have hloc : ∀ u, u ≠ t → (move c t m l).loc u = c.loc u := fun u hu => move_loc_of_ne _ _ _ hu
  constructor
  · intro _ hl u hu
    by_contra h
    have hw : ((move c t m l).loc u).writeHolder := by rw [hloc u hu]; simpa using h
    have := (hnext.excl u t hu hw).1
    simp [hl] at this
  · intro _ hl u hu
    have hw : ((move c t m l).loc t).writeHolder := by simpa using hl
    have := hnext.excl t u hu.symm hw
    rwa [hloc u hu] at this

/-! ## Too many threads -/

theorem rwLockBias_eq : rwLockBias = BitVec.ofInt 32 bias := rfl

theorem lock_ne_bias {k : ℕ} (hk : k < 4095) : BitVec.ofInt 32 (-(k * bias)) ≠ rwLockBias := by
  intro h
  have h := congrArg BitVec.toNat h
  rw [BitVec.toNat_ofInt, show rwLockBias.toNat = 1048576 from rfl] at h
  unfold bias at h
  omega

omit [Fintype T] in
/-- One writer, and a failed write attempt to be undone for every thread of `ds`. -/
theorem exists_debts (w : T) (ds : List T) (hnd : (w :: ds).Nodup) (hlen : ds.length < 4095) :
    ∃ tr c, (program T).Run anyStep (start T) tr c ∧
      c.mem.lock = BitVec.ofInt 32 (-(ds.length * bias)) ∧ c.loc w = .rest .write ∧
      ∀ u, u ∉ w :: ds → c.loc u = .rest .nothing := by
  induction ds with
  | nil =>
    have h₀ : (program T).Run anyStep (start T) [] (start T) := .start
    have h₁ := h₀.solo w [.call .writeTrylock, .run] ⟨0⟩ (.rest .write)
      [.call .writeTrylock, .ret (some 1)]
      (by simp [Program.solo, Program.soloAt, program, step, start, Op.entry, access])
    refine ⟨_, _, h₁, by simp, move_loc_self .., fun u hu => ?_⟩
    rw [move_loc_of_ne _ _ _ (by simpa using hu)]
    rfl
  | cons d ds ih =>
    rw [List.length_cons] at hlen ⊢
    have hnd' : (w :: ds).Nodup := hnd.sublist (List.Sublist.cons_cons w (List.sublist_cons_self d ds))
    obtain ⟨tr, c, hrun, hlock, hw, hrest⟩ := ih hnd' (by omega)
    obtain ⟨hd, hdw⟩ : d ∉ w :: ds ∧ w ≠ d := by
      simp only [List.nodup_cons, List.mem_cons, not_or] at hnd ⊢
      exact ⟨⟨Ne.symm hnd.1.1, hnd.2.1⟩, hnd.1.1⟩
    -- `d` finds the lock taken and stops before it undoes its attempt
    have hne : c.mem.lock ≠ rwLockBias := hlock ▸ lock_ne_bias (by omega)
    have hsolo : (program T).solo d [.call .writeTrylock, .run] c.mem (c.loc d) =
        some (⟨c.mem.lock - rwLockBias⟩, .writeTryUndo, [.call .writeTrylock]) := by
      rw [hrest d hd]
      simp [Program.solo, Program.soloAt, program, step, Op.entry, access, hne]
    refine ⟨_, _, hrun.solo d _ _ _ _ hsolo, ?_, ?_, fun u hu => ?_⟩
    · have hsum : -((ds.length + 1 : ℕ) * bias) = -(ds.length * bias) + -bias := by
        rw [Nat.cast_succ, add_mul, one_mul, neg_add]
      rw [move_mem, hlock, hsum, BitVec.ofInt_add, BitVec.sub_eq_add_neg, rwLockBias_eq,
        ← BitVec.ofInt_neg]
    · rw [move_loc_of_ne _ _ _ hdw, hw]
    · simp only [List.mem_cons, not_or] at hu
      rw [move_loc_of_ne _ _ _ hu.2.1]
      exact hrest u (by simp [hu])

omit [Fintype T] in
/-- With 2048 debts a failed read attempt makes the counter positive for the next one. -/
theorem not_excludes_of_list {w r v : T} {ds : List T} (hnd : (w :: r :: v :: ds).Nodup)
    (hlen : ds.length = 2048) : ¬Excludes T := by
  intro hex
  simp only [List.nodup_cons, List.mem_cons, not_or] at hnd
  obtain ⟨⟨hwr, hwv, hw⟩, ⟨hrv, hr⟩, hv, hds⟩ := hnd
  obtain ⟨tr, c, hrun, hlock, hholds, hrest⟩ :=
    exists_debts w ds (List.nodup_cons.mpr ⟨hw, hds⟩) (by omega)
  have hr' := hrest r (by simp [Ne.symm hwr, hr])
  have hv' := hrest v (by simp [Ne.symm hwv, hv])
  rw [hlen] at hlock
  -- the counter is the least `int`, and the failed attempt takes it to the greatest
  have hsolo : (program T).solo r [.call .readTrylock, .run] c.mem (c.loc r) =
      some (⟨BitVec.ofInt 32 (2 ^ 31 - 1)⟩, .readTryUndo, [.call .readTrylock]) := by
    rw [hr', show c.mem = ⟨BitVec.ofInt 32 (-(2048 * bias))⟩ from congrArg Mem.mk hlock]
    rfl
  have hrun' := hrun.solo r _ _ _ _ hsolo
  have hsolo' :
      (program T).solo v [.call .readTrylock] ⟨BitVec.ofInt 32 (2 ^ 31 - 1)⟩ (.rest .nothing) =
        some (⟨BitVec.ofInt 32 (2 ^ 31 - 1)⟩, .readTry, [.call .readTrylock]) := rfl
  have hrun'' := hrun'.solo v _ _ _ _ (by rw [move_loc_of_ne _ _ _ (Ne.symm hrv), hv']; exact hsolo')
  have hacq := (hex _ _ hrun'' v .run ⟨BitVec.ofInt 32 (2 ^ 31 - 2)⟩ (.rest .read) [.ret (some 1)]
    (by rw [move_loc_self, move_mem]; rfl)).1 (by rw [move_loc_self]; rfl) rfl w hwv
  rw [move_loc_of_ne _ _ _ hwv, move_loc_of_ne _ _ _ hwr, hholds] at hacq
  cases hacq

/-- **How far the lock excludes.** With at most 2050 threads no acquisition is wrong in any
run, with more some run has a wrong one; and with any number of threads, no run has one in
which at most 2050 threads use the lock at a time. -/
theorem excludes_iff_le : (Excludes T ↔ Fintype.card T ≤ 2050) ∧
    ∀ tr c, (program T).Run (fun c t _ => FewOthers c t) (start T) tr c → ∀ t a m l es,
      step a c.mem (c.loc t) = some (m, l, es) → FewOthers c t → AcquiresAlone c t l := by
  refine ⟨⟨fun hex => ?_, fun hT tr c h t a m l es hs => ?_⟩, ?_⟩
  · by_contra hT
    obtain ⟨L, hnd, hlen⟩ : ∃ L : List T, L.Nodup ∧ L.length = 2051 := by
      refine ⟨(univ : Finset T).toList.take 2051, (nodup_toList _).sublist (List.take_sublist ..), ?_⟩
      rw [List.length_take, length_toList, card_univ]
      omega
    match L with
    | w :: r :: v :: ds => exact not_excludes_of_list hnd (by simpa using hlen) hex
  · have hfew : ∀ (c : Config T Mem Pc) t, FewOthers c t := by
      intro c t
      have hsub : (univ.filter fun u => u ≠ t ∧ c.loc u ≠ .rest .nothing) ⊆ univ.erase t :=
        fun u hu => mem_erase.mpr ⟨(mem_filter.mp hu).2.1, mem_univ u⟩
      have hcard := card_le_card hsub
      rw [card_erase_of_mem (mem_univ t), card_univ] at hcard
      unfold FewOthers
      omega
    exact (inv_of_few (h.mono fun c t _ _ => hfew c t)).acquiresAlone (hfew c t) hs
  · exact fun tr c h t a m l es hs hfew => (inv_of_few h).acquiresAlone hfew hs

/-- A reader gets in beside the writer with 2051 threads. -/
theorem reader_beside_writer : ¬Excludes (Fin 2051) := by
  have hnd := List.nodup_finRange 2051
  have hlen : (List.finRange 2051).length = 2051 := List.length_finRange
  generalize List.finRange 2051 = L at hnd hlen
  match L with
  | w :: r :: v :: ds => exact not_excludes_of_list hnd (by simpa using hlen)

end Cds.RwLock
