import CdsBenchmarks.MpmcQueue.MpmcQueueTracking
import CdsBenchmarks.MpmcQueue.MpmcQueueRotation

/-! No bin is held twice, and bins are handed from the writes to the reads and back in order,
for the capacities that divide `2^16`. -/

namespace Cds.MpmcQueue
open Concurrent Program

variable {T : Type*}

/-- The `k`-th granted read returns the bin of the `k`-th granted write, after that write
was published; and the granted write that comes `cap` later returns it after that read was
consumed. -/
structure HandOff (cap : ℕ) (h : List (T × Event)) : Prop where
  fetched : ∀ k i t j b, Kth (.granted .read) h k i t → Next h t i j (.returned .read (some b)) →
    Finished h .write k b j
  prepared : ∀ k i t j b, Kth (.granted .write) h (k + cap) i t →
    Next h t i j (.returned .write (some b)) → Finished h .read k b j

/-- No two threads hold the same bin. -/
def Exclusive (c : Config T Mem Pc) : Prop :=
  ∀ t u s s' b, c.loc t = .hold s b → c.loc u = .hold s' b → t = u

/-- At no time are `2^16` calls in progress. -/
def Few (h : List (T × Event)) : Prop := ∀ h', h' <+: h → inFlight h' < 2 ^ 16

theorem few_of_length {h : List (T × Event)} (hlen : h.length < 2 ^ 16) : Few h :=
  fun _ hp => number_sub_lt hp hlen

theorem Finished.given {h : List (T × Event)} {s : Side} {k n : ℕ} {b : Size}
    (hf : Finished h s k b n) : Given h s k b := by
  obtain ⟨i, t, j, -, hk, hn, -⟩ := hf
  exact ⟨i, t, j, hk, hn⟩

variable {cap : ℕ}

/-- Operations whose numbers differ by a multiple of the capacity are given the same bin. -/
theorem Binned.eq_of_mod {h : List (T × Event)} (hb : Binned cap h) (hdvd : cap ∣ 2 ^ 16)
    {s s' : Side} {k k' : ℕ} {b b' : Size} (hg : Given h s k b) (hg' : Given h s' k' b')
    (hmod : k % cap = k' % cap) : b = b' := by
  apply BitVec.eq_of_toNat_eq
  rw [hb.given s k b hg, hb.given s' k' b' hg', Nat.mod_mod_of_dvd _ hdvd, Nat.mod_mod_of_dvd _ hdvd,
    hmod]

theorem Ordered.handOff {h : List (T × Event)} (ho : Ordered cap h) (hb : Binned cap h)
    (hdvd : cap ∣ 2 ^ 16) : HandOff cap h := by
  constructor
  · intro k i t j b hk hn
    obtain ⟨b', hf⟩ := ho .read k i t j b hk hn
    obtain rfl := hb.eq_of_mod hdvd hf.given ⟨i, t, j, hk, hn⟩ rfl
    exact hf
  · intro k i t j b hk hn
    obtain ⟨b', hf⟩ := ho .write k i t j b hk hn
    obtain rfl := hb.eq_of_mod hdvd hf.given ⟨i, t, j, hk, hn⟩ (Nat.add_mod_right ..).symm
    exact hf

/-- The operations that hold a bin are few, as at most `cap` of one side do at a time. -/
theorem Tracking.Glob.flight_lt {w : Tracking.World T} (hcap : cap ≤ 2 ^ 15)
    (hg : Tracking.Glob cap w) (hfew : inFlight w.hist < 2 ^ 16) (s : Side) :
    (w.r.flight s).card < 2 ^ 16 := by
  have hreturns := hg.returns
  refine hg.valid.card_flight_lt hcap ?_ s
  unfold inFlight at hfew
  unfold number at hreturns
  omega

variable [DecidableEq T] {tSize : Size}

/-- **Exclusive bins and first-in first-out hand-off**, for a capacity that is a power of two. -/
theorem exclusive_handOff {e : ℕ} (he : e ≤ 15) (hsize : tSize.toNat = 2 ^ e) {tr : List (T × Event)}
    {c : Config T Mem Pc} (h : (program tSize T).Run anyStep (start T) tr c) (hfew : Few tr) :
    Exclusive c ∧ HandOff (2 ^ e) tr := by
  have hcap : tSize.toNat ≤ 2 ^ 15 := hsize ▸ Nat.pow_le_pow_right (by decide) he
  have hdvd : tSize.toNat ∣ 2 ^ 16 := hsize ▸ Nat.pow_dvd_pow 2 (by omega)
  have hbinned := (binned_of_run (by omega) (free_of_run h)).1
  have hsound := Tracking.sound (fun _ hg => hg.flight_lt hcap) h hfew
  constructor
  · intro t u s s' b ht hu
    obtain ⟨w, hw⟩ := hsound t
    obtain rfl : w.hist = tr := hw.hist
    have h₁ : Tracking.Local tSize t w (c.loc t) := hw.loc t
    have h₂ : Tracking.Local tSize u w (c.loc u) := hw.loc u
    rw [ht] at h₁
    rw [hu] at h₂
    obtain ⟨-, k, i, hk⟩ := h₁
    obtain ⟨-, k', i', hk'⟩ := h₂
    obtain ⟨j, hn, -⟩ := hk.returned
    obtain ⟨j', hn', -⟩ := hk'.returned
    have hbin := hbinned.given s k b ⟨i, t, j, hk.kth, hn⟩
    have hbin' := hbinned.given s' k' b ⟨i', u, j', hk'.kth, hn'⟩
    rw [Nat.mod_mod_of_dvd _ hdvd] at hbin hbin'
    obtain ⟨rfl, rfl⟩ := hw.glob.valid.exclusive hk.mem hk'.mem (hbin.symm.trans hbin')
    exact hk.own.symm.trans hk'.own
  · rw [← hsize]
    rcases isEmpty_or_nonempty T with hT | ⟨⟨t⟩⟩
    · exact ⟨fun _ _ t => isEmptyElim t, fun _ _ t => isEmptyElim t⟩
    · obtain ⟨w, hw⟩ := hsound t
      obtain rfl : w.hist = tr := hw.hist
      exact hw.glob.ordered.handOff hbinned hdvd

/-- The theorem where one thread reads what the other has written, with two bins. -/
theorem exclusive_handOff_write_read :
    ∃ (tr : List (Bool × Event)) (c : Config Bool Mem Pc), (true, .finished .write 0) ∈ tr ∧
      c.loc false = .hold .read 0 ∧ Exclusive c ∧ HandOff (2 ^ 1) tr := by
  have h₀ : (program 2 Bool).Run anyStep (start Bool) [] (start Bool) := .start
  have h₁ := h₀.solo true [.call .write, .run, .run, .run, .finish] _ _ _ rfl
  have h₂ := h₁.solo false [.call .read, .run, .run, .run] _ _ _ rfl
  exact ⟨_, _, by decide, rfl, exclusive_handOff (by decide) rfl h₂ (few_of_length (by decide))⟩

end Cds.MpmcQueue
