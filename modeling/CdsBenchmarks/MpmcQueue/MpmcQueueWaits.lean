import CdsBenchmarks.MpmcQueue.MpmcQueueTracking

/-! The wait loops, for every capacity. A loop waits for the number of finished operations of
the other side to equal its snapshot; the number never passes it, since whatever was granted
on the other side later waits for this operation in turn. -/

namespace Cds.MpmcQueue
open Concurrent Program

variable {T : Type*}

/-- At no time are `2^16` operations in flight. -/
def FewOperations (h : List (T × Event)) : Prop := ∀ h', h' <+: h → operations h' < 2 ^ 16

/-- The snapshot that the loop compares with. -/
def Side.snapshot (rd wr : Word) : Side → Word
  | .read => wr
  | .write => rd

theorem fewOperations_of_length {h : List (T × Event)} (hlen : h.length < 2 ^ 16) :
    FewOperations h := fun _ hp => number_sub_lt hp hlen

namespace Tracking
variable {cap : ℕ} {tSize : Size} {t : T} {w : World T}

/-- An operation with a ticket is in flight. -/
theorem Glob.flight_lt_of_operations (hg : Glob cap w) (hfew : operations w.hist < 2 ^ 16) (s : Side) :
    (w.r.flight s).card < 2 ^ 16 := by
  have hends := hg.ends
  unfold operations at hfew
  unfold number at hends
  cases s <;> omega

/-- The counter of finished operations does not pass the snapshot of a waiting one, and the
loop ends exactly when they are equal. -/
theorem Waiting.finishes_le (hg : Glob cap w) (hfew : operations w.hist < 2 ^ 16) {s : Side}
    {rd wr : Word} {k i : ℕ} (hw : Waiting t w s rd wr k i) :
    (s.snapshot rd wr).toNat = occurrences (.granted s.other) (w.hist.take i) % 2 ^ 16 ∧
      finishes s.other w.hist ≤ occurrences (.granted s.other) (w.hist.take i) ∧
      (s.ready w.mem rd wr = true ↔
        finishes s.other w.hist = occurrences (.granted s.other) (w.hist.take i)) := by
  have hsnap : occurrences (.granted s.other) (w.hist.take i) = w.r.snap s k := hw.snap
  have hadd := hg.valid.finished_add (Finset.mem_union_left _ hw.mem)
  have hle : (w.r.before s k).card ≤ (w.r.flight s.other).card := Finset.card_filter_le ..
  have hlt := hg.flight_lt_of_operations hfew s.other
  refine ⟨?_, ?_, ?_⟩
  · rw [hsnap]
    have hload := hw.loaded
    cases s
    · exact hload.2
    · exact hload.1
  · rw [hsnap, hg.finishes]
    omega
  · rw [hg.ready_iff hw.loaded, hsnap, hg.finishes]
    omega

/-- If everybody is idle or waits, the operations in flight are those that wait. -/
theorem exists_ready (hg : Glob cap w) {ls : T → Pc} (hl : ∀ t, Local tSize t w (ls t))
    (hquiet : ∀ t, ls t = .idle ∨ ∃ s rd wr, ls t = .wait s rd wr)
    (hsome : ∃ t s rd wr, ls t = .wait s rd wr) :
    ∃ t s rd wr, ls t = .wait s rd wr ∧ s.ready w.mem rd wr = true := by
  -- every unfinished operation is that of a thread in its wait loop
  have hflight : ∀ s, ∀ k ∈ w.r.flight s, k ∈ w.r.waiting s ∧
      ∃ t rd wr, ls t = .wait s rd wr ∧ Loaded w.r k rd wr s := by
    intro s k hk
    have hown := hl (w.own s k)
    rcases hquiet (w.own s k) with hpc | ⟨s', rd, wr, hpc⟩
    · rw [hpc] at hown
      exact absurd ⟨hk, rfl⟩ (hown.2 s k)
    · rw [hpc] at hown
      obtain ⟨-, k', i, hw⟩ := hown
      obtain ⟨rfl, rfl⟩ := hw.only s k ⟨hk, rfl⟩
      exact ⟨hw.mem, _, rd, wr, hpc, hw.loaded⟩
  have hhold : ∀ s, w.r.holding s = ∅ := by
    intro s
    apply Finset.eq_empty_of_forall_notMem
    intro k hk
    have hwait := (hflight s k (Finset.mem_union_right _ hk)).1
    exact Finset.disjoint_left.mp (hg.valid.disjoint s) hwait hk
  obtain ⟨t, s, rd, wr, hpc⟩ := hsome
  have ht := hl t
  rw [hpc] at ht
  obtain ⟨-, k, j, hw⟩ := ht
  -- one of them waits for no other
  obtain ⟨s, i, hi, hclear⟩ := hg.valid.exists_clear hhold ⟨s, k, hw.mem⟩
  have hmem := Finset.mem_union_left (w.r.holding s) hi
  obtain ⟨-, u, rd, wr, hpc, hload⟩ := hflight s i hmem
  refine ⟨u, s, rd, wr, hpc, (hg.ready_iff hload).mpr ?_⟩
  rw [hg.valid.finished_of_clear hmem hclear]

end Tracking

section Runs
variable [DecidableEq T] {tSize : Size} {tr : List (T × Event)} {c : Config T Mem Pc}

theorem tracked_of_run (h : (program tSize T).Run anyStep (start T) tr c) (hfew : FewOperations tr)
    (t : T) : ∃ w : Tracking.World T, w.hist = tr ∧ w.mem = c.mem ∧ Tracking.Glob tSize.toNat w ∧
      ∀ u, Tracking.Local tSize u w (c.loc u) := by
  obtain ⟨w, hw⟩ := Tracking.sound (fun _ hg => hg.flight_lt_of_operations) h hfew t
  exact ⟨w, hw.hist, hw.mem, hw.glob, hw.loc⟩

/-- What is known of an operation in its loop. -/
theorem finishes_le_of_run (h : (program tSize T).Run anyStep (start T) tr c) (hfew : FewOperations tr)
    {t : T} {s : Side} {rd wr : Word} (hpc : c.loc t = .wait s rd wr) :
    ∃ i, tr[i]? = some (t, .granted s) ∧ Latest tr t i ∧
      (s.snapshot rd wr).toNat = occurrences (.granted s.other) (tr.take i) % 2 ^ 16 ∧
      finishes s.other tr ≤ occurrences (.granted s.other) (tr.take i) ∧
      (s.ready c.mem rd wr = true ↔
        finishes s.other tr = occurrences (.granted s.other) (tr.take i)) := by
  obtain ⟨w, rfl, hmem, hg, hl⟩ := tracked_of_run h hfew t
  have ht := hl t
  rw [hpc] at ht
  obtain ⟨-, k, i, hw⟩ := ht
  exact ⟨i, hw.kth.1, hw.latest, hmem ▸ hw.finishes_le hg (hfew _ List.prefix_rfl)⟩

end Runs

/-- **The waits end.** While an operation is in its loop, the number of finished operations
of the other side has not passed the snapshot, so that the exit condition, once true, stays
true until the operation leaves; and when every thread is idle or in a loop, and some thread
is in one, an exit condition holds. -/
theorem waits_end [DecidableEq T] {tSize : Size} {tr : List (T × Event)} {c : Config T Mem Pc}
    (h : (program tSize T).Run anyStep (start T) tr c) (hfew : FewOperations tr) :
    (∀ t s rd wr, c.loc t = .wait s rd wr → ∃ i, tr[i]? = some (t, .granted s) ∧ Latest tr t i ∧
      (s.snapshot rd wr).toNat = occurrences (.granted s.other) (tr.take i) % 2 ^ 16 ∧
      finishes s.other tr ≤ occurrences (.granted s.other) (tr.take i)) ∧
    (∀ t s rd wr, c.loc t = .wait s rd wr → s.ready c.mem rd wr = true →
      ∀ tr' c', (program tSize T).Run (fun _ u _ => u ≠ t) c tr' c' → FewOperations (tr ++ tr') →
        c'.loc t = .wait s rd wr ∧ s.ready c'.mem rd wr = true) ∧
    ((∀ t, c.loc t = .idle ∨ ∃ s rd wr, c.loc t = .wait s rd wr) →
      (∃ t s rd wr, c.loc t = .wait s rd wr) →
      ∃ t s rd wr, c.loc t = .wait s rd wr ∧ s.ready c.mem rd wr = true) := by
  refine ⟨?_, ?_, ?_⟩
  · intro t s rd wr hpc
    obtain ⟨i, hi, hlast, hsnap, hle, -⟩ := finishes_le_of_run h hfew hpc
    exact ⟨i, hi, hlast, hsnap, hle⟩
  · intro t s rd wr hpc hready tr' c' h' hfew'
    have hstay : c'.loc t = .wait s rd wr := (h'.loc_eq).trans hpc
    refine ⟨hstay, ?_⟩
    obtain ⟨i, hi, hlast, -, -, hiff⟩ := finishes_le_of_run h hfew hpc
    obtain ⟨i', hi', hlast', -, hle, hiff'⟩ :=
      finishes_le_of_run (h.trans (h'.mono fun _ _ _ _ => trivial)) hfew' hstay
    -- the snapshot is the one of the same event
    have hilt := lt_of_getElem? hi
    obtain rfl := hlast'.unique (hlast.run h') hi' (by rwa [List.getElem?_append_left hilt])
    rw [List.take_append_of_le_length (Nat.le_of_lt hilt)] at hle hiff'
    have hgrow : finishes s.other (tr ++ tr') = finishes s.other tr + finishes s.other tr' :=
      List.countP_append ..
    have := hiff.mp hready
    exact hiff'.mpr (by omega)
  · intro hquiet hsome
    obtain ⟨t, s, rd, wr, hpc⟩ := hsome
    obtain ⟨w, -, hmem, hg, hl⟩ := tracked_of_run h hfew t
    rw [← hmem]
    exact Tracking.exists_ready hg hl hquiet ⟨t, s, rd, wr, hpc⟩

/-- The theorem where a reader still has to notice that the write it waits for was published. -/
theorem waits_end_published : ∃ (tr : List (Bool × Event)) (c : Config Bool Mem Pc),
    (program 3 Bool).Run anyStep (start Bool) tr c ∧ c.loc true = .idle ∧
      c.loc false = .wait .read 0 1 ∧
      ∃ t s rd wr, c.loc t = .wait s rd wr ∧ s.ready c.mem rd wr = true := by
  have h₀ : (program 3 Bool).Run anyStep (start Bool) [] (start Bool) := .start
  have h₁ := h₀.solo true [.call .write, .run, .run, .run, .finish] _ _ _ rfl
  have h₂ := h₁.solo false [.call .read, .run, .run] _ _ _ rfl
  have hquiet := (waits_end h₂ (fewOperations_of_length (by decide))).2.2
  refine ⟨_, _, h₂, rfl, rfl, hquiet ?_ ⟨false, .read, 0, 1, rfl⟩⟩
  rintro (_ | _)
  · exact .inr ⟨.read, 0, 1, rfl⟩
  · exact .inl rfl

end Cds.MpmcQueue
