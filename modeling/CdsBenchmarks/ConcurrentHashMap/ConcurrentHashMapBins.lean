import CdsBenchmarks.ConcurrentHashMap.ConcurrentHashMapDefs
import Mathlib.Data.List.TakeWhile

/-! Slots, segments, and the lists of entries. -/

namespace Cds.ConcurrentHashMap
open Concurrent

/-! ## Capacities and indices -/

/-- A power of two from `MINIMUM_CAPACITY` to `MAXIMUM_CAPACITY`. -/
def Capacity (n : ℕ) : Prop := ∃ k, 5 ≤ k ∧ k ≤ 30 ∧ n = 2 ^ k

theorem segment_eq (h : JInt) : segment h = h.toNat % 32 := by
  rw [segment, BitVec.toNat_and]
  exact Nat.and_two_pow_sub_one_eq_mod h.toNat 5

theorem segment_lt (h : JInt) : segment h < concurrencyLevel := by
  rw [segment_eq]
  exact Nat.mod_lt _ (by decide)

namespace Capacity
variable {n : ℕ}

theorem le (hn : Capacity n) : 32 ≤ n := by
  obtain ⟨k, h₁, -, rfl⟩ := hn
  exact Nat.pow_le_pow_right (n := 2) (by decide) h₁

theorem double (hn : Capacity n) (h : n < maximumCapacity) : Capacity (2 * n) := by
  obtain ⟨k, h₁, h₂, rfl⟩ := hn
  have hk : k < 30 := (Nat.pow_lt_pow_iff_right (a := 2) (by decide)).mp h
  exact ⟨k + 1, by omega, by omega, by rw [Nat.pow_succ, Nat.mul_comm]⟩

theorem dvd (hn : Capacity n) : 32 ∣ n := by
  obtain ⟨k, h₁, -, rfl⟩ := hn
  exact Nat.pow_dvd_pow 2 h₁

theorem index_eq (hn : Capacity n) (h : JInt) : index h n = h.toNat % n := by
  obtain ⟨k, h₁, h₂, rfl⟩ := hn
  have hlt : 2 ^ k < 2 ^ 32 := Nat.pow_lt_pow_right (by decide) (by omega)
  have hpos : 0 < 2 ^ k := Nat.two_pow_pos k
  have hone : (BitVec.ofNat 32 (2 ^ k) - 1).toNat = 2 ^ k - 1 := by
    rw [BitVec.toNat_sub_of_le, BitVec.toNat_ofNat, Nat.mod_eq_of_lt hlt]
    · rfl
    · rw [BitVec.le_def, BitVec.toNat_ofNat, Nat.mod_eq_of_lt hlt]
      exact hpos
  rw [index, BitVec.toNat_and, hone]
  exact Nat.and_two_pow_sub_one_eq_mod h.toNat k

theorem index_lt (hn : Capacity n) (h : JInt) : index h n < n := by
  rw [hn.index_eq]
  exact Nat.mod_lt _ (by have := hn.le; omega)

/-- A segment has the same slots in every table. -/
theorem index_mod (hn : Capacity n) (h : JInt) : index h n % concurrencyLevel = segment h := by
  rw [hn.index_eq, segment_eq, concurrencyLevel, Nat.mod_mod_of_dvd _ hn.dvd]

/-- After doubling, the slot is the old one or the one `n` above. -/
theorem index_double (hn : Capacity n) (h₂ : Capacity (2 * n)) (h : JInt) :
    index h (2 * n) % n = index h n := by
  rw [hn.index_eq, h₂.index_eq, Nat.mod_mod_of_dvd _ (Nat.dvd_mul_left n 2)]

end Capacity

theorem double_capacity {cap : ℕ} (n : ℕ) {k : ℕ} (h₁ : 5 ≤ k) (h₂ : k + n ≤ 30) :
    Capacity (double cap n (2 ^ k)) := by
  induction n generalizing k with
  | zero => exact ⟨k, h₁, h₂, rfl⟩
  | succ n ih =>
    rw [double]
    split
    · rw [← Nat.pow_succ']
      exact ih (by omega) (by omega)
    · exact ⟨k, h₁, by omega, rfl⟩

theorem p2capacity_capacity (c : JInt) : Capacity (p2capacity c) := by
  rw [p2capacity]
  split
  · exact ⟨30, by decide, by decide, rfl⟩
  · exact double_capacity 25 (k := 5) (by decide) (by decide)

/-! ## Lists of entries -/

section Lists
variable {K : Type*} {E : Env K} {l l' : Bin K} {e : Entry K} {key : K}

/-- None of the entries has the key. -/
def Lacks (key : K) (l : Bin K) : Prop := ∀ e ∈ l, e.key ≠ key

/-- The entries have the hashes of their keys. -/
def Hashed (E : Env K) (l : Bin K) : Prop := ∀ e ∈ l, e.hash = hash E e.key

theorem lacks_of_nodup (h : ((l ++ e :: l').map Entry.key).Nodup) : Lacks e.key (l ++ l') := by
  have h := (List.perm_middle.map Entry.key).nodup_iff.mp h
  rw [List.map_cons, List.nodup_cons] at h
  exact fun a ha heq => h.1 (List.mem_map.mpr ⟨a, ha, heq⟩)

/-- What `rehash` finds: the list ends with `lastRun`, whose entries all go to slot `lastIdx`. -/
theorem run_spec (length : ℕ) (lastRun : Bin K) (lastIdx : ℕ) (next : Bin K) (h₀ : lastRun ≠ [])
    (h : ∃ run, lastRun = run ++ next ∧ ∀ e ∈ run, index e.hash length = lastIdx) :
    (run length lastRun lastIdx next).1 <:+ lastRun ∧ (run length lastRun lastIdx next).1 ≠ [] ∧
      ∀ e ∈ (run length lastRun lastIdx next).1, index e.hash length = (run length lastRun lastIdx next).2 := by
  induction next generalizing lastRun lastIdx with
  | nil =>
    obtain ⟨r, rfl, hr⟩ := h
    exact ⟨List.suffix_rfl, h₀, by simpa [run] using hr⟩
  | cons e next ih =>
    obtain ⟨r, rfl, hr⟩ := h
    rw [run]
    split
    · obtain ⟨h₁, h₂, h₃⟩ := ih (e :: next) (index e.hash length) (by simp) ⟨[e], rfl, by simp⟩
      exact ⟨h₁.trans (List.suffix_append ..), h₂, h₃⟩
    · next heq =>
      refine ih _ _ h₀ ⟨r ++ [e], by simp, fun a ha => ?_⟩
      rcases List.mem_append.mp ha with ha | ha
      · exact hr a ha
      · exact List.mem_singleton.mp ha ▸ not_not.mp heq

variable [DecidableEq K]

theorem Entry.is_iff (h : e.hash = ConcurrentHashMap.hash E e.key) : e.is E key ↔ e.key = key := by
  rw [Entry.is, h]
  simp only [Bool.and_eq_true, decide_eq_true_eq]
  exact ⟨fun h => h.2.symm, fun h => ⟨by rw [h], h.symm⟩⟩

theorem walk_nil (hl : Hashed E l) (h : walk E key l = []) : Lacks key l := by
  intro e he heq
  have := List.dropWhile_eq_nil_iff.mp h e he
  simp [(Entry.is_iff (hl e he)).mpr heq] at this

theorem walk_cons (hl : Hashed E l) (h : walk E key l = e :: l') :
    ∃ pre, l = pre ++ e :: l' ∧ e.key = key := by
  refine ⟨l.takeWhile fun e => !e.is E key, ?_, ?_⟩
  · rw [← h]
    exact (List.takeWhile_append_dropWhile ..).symm
  · have hmem : e ∈ l := (List.dropWhile_suffix _).subset (h ▸ List.mem_cons_self)
    have := List.head?_dropWhile_not (fun e => !e.is E key) l
    rw [show l.dropWhile _ = walk E key l from rfl, h] at this
    exact (Entry.is_iff (hl e hmem)).mp (by simpa using this)

end Lists

end Cds.ConcurrentHashMap
