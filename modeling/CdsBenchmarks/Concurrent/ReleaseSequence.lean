import CdsBenchmarks.Concurrent.Trace
import Mathlib.Data.Nat.Find
import Mathlib.Logic.Relation

/-! Synchronization through one atomic location by the rules of C11. A history lists the
accesses in the order of the run, so that its writes are in modification order and a
read-modify-write reads the last write before it. -/

namespace Cds.Concurrent

inductive MemoryOrder
  | relaxed
  | acquire
  | release
  | acqRel
deriving DecidableEq, Repr

def MemoryOrder.acquires (o : MemoryOrder) : Bool := o = .acquire || o = .acqRel

def MemoryOrder.releases (o : MemoryOrder) : Bool := o = .release || o = .acqRel

inductive AccessKind
  | load
  | store
  /-- A read-modify-write. -/
  | rmw
deriving DecidableEq, Repr

structure Access where
  kind : AccessKind
  order : MemoryOrder
deriving DecidableEq, Repr

def Access.reads (a : Access) : Bool := a.kind ≠ .store

def Access.writes (a : Access) : Bool := a.kind ≠ .load

section Synchronization
variable {T ε : Type*} (access : ε → Access) (h : List (T × ε))

/-- The access of thread `t` at position `i` satisfies `p`. -/
def AccessAt (p : Access → Bool) (t : T) (i : ℕ) : Prop := EventAt h (fun e => p (access e)) t i

/-- The access at `i` reads the value written at `k`. -/
def ReadsFrom (k i : ℕ) : Prop :=
  (∃ t, AccessAt access h Access.reads t i) ∧ (∃ u, AccessAt access h Access.writes u k) ∧ k < i ∧
    ∀ j, k < j → j < i → ∀ u, ¬AccessAt access h Access.writes u j

/-- The write at `k` is in the release sequence headed by the release write of `t` at `j`: the
writes from `j` on up to `k` are of thread `t` or read-modify-writes. -/
def InReleaseSequence (t : T) (j k : ℕ) : Prop :=
  AccessAt access h (fun a => a.writes && a.order.releases) t j ∧
    (∃ u, AccessAt access h Access.writes u k) ∧ j ≤ k ∧
    ∀ i, j < i → i ≤ k → ∀ u, AccessAt access h Access.writes u i →
      u = t ∨ AccessAt access h (fun a => a.kind = .rmw) u i

/-- The acquire operation at `i` reads from the release sequence of the operation at `j`. -/
def SynchronizesWith (j i : ℕ) : Prop :=
  (∃ u, AccessAt access h (fun a => a.reads && a.order.acquires) u i) ∧
    ∃ t k, InReleaseSequence access h t j k ∧ ReadsFrom access h k i

def SequencedBefore (i j : ℕ) : Prop :=
  i < j ∧ ∃ t e e', h[i]? = some (t, e) ∧ h[j]? = some (t, e')

def HappensBefore : ℕ → ℕ → Prop :=
  Relation.TransGen fun i j => SequencedBefore h i j ∨ SynchronizesWith access h i j

variable {access h}

/-- A read with a write before it reads from the last one. -/
theorem exists_readsFrom {t u : T} {j i : ℕ} (hj : AccessAt access h Access.writes t j)
    (hi : AccessAt access h Access.reads u i) (hji : j < i) :
    ∃ k, j ≤ k ∧ ReadsFrom access h k i := by
  classical
  have hw : ∃ t, AccessAt access h Access.writes t j := ⟨t, hj⟩
  have hle : j ≤ i - 1 := by omega
  have hk := Nat.findGreatest_spec (P := fun k => ∃ t, AccessAt access h Access.writes t k) hle hw
  have hjk := Nat.le_findGreatest (P := fun k => ∃ t, AccessAt access h Access.writes t k) hle hw
  have hki := Nat.findGreatest_le (P := fun k => ∃ t, AccessAt access h Access.writes t k) (i - 1)
  refine ⟨_, hjk, ⟨u, hi⟩, hk, by omega, fun m hm hmi v hv => ?_⟩
  exact Nat.findGreatest_is_greatest hm (by omega) ⟨v, hv⟩

/-- Where no write is a plain store, a release write synchronizes with every later acquire
read-modify-write. -/
theorem synchronizesWith_of_rmw (hrmw : ∀ x ∈ h, (access x.2).kind ≠ .store) {t u : T} {j i : ℕ}
    (hj : AccessAt access h (fun a => a.writes && a.order.releases) t j)
    (hi : AccessAt access h (fun a => a.reads && a.order.acquires) u i) (hji : j < i) :
    SynchronizesWith access h j i := by
  obtain ⟨e, he, hwr⟩ := hj
  obtain ⟨e', he', hra⟩ := hi
  have hj' : AccessAt access h Access.writes t j := ⟨e, he, (Bool.and_eq_true_iff.mp hwr).1⟩
  have hi' : AccessAt access h Access.reads u i := ⟨e', he', (Bool.and_eq_true_iff.mp hra).1⟩
  obtain ⟨k, hjk, hfrom⟩ := exists_readsFrom hj' hi' hji
  refine ⟨⟨u, e', he', hra⟩, t, k, ⟨⟨e, he, hwr⟩, hfrom.2.1, hjk, fun m _ _ v hv => .inr ?_⟩, hfrom⟩
  obtain ⟨x, hx, hw⟩ := hv
  have hstore := hrmw _ (List.mem_of_getElem? hx)
  have hload : (access x).kind ≠ .load := by simpa [Access.writes] using hw
  refine ⟨x, hx, ?_⟩
  cases hk : (access x).kind <;> simp_all

/-- What the releasing thread did before is visible to what the acquiring one does after. -/
theorem SynchronizesWith.happensBefore {t u : T} {e e' e₁ e₂ : ε} {p j i q : ℕ}
    (hsync : SynchronizesWith access h j i) (hp : h[p]? = some (t, e)) (hj : h[j]? = some (t, e₁))
    (hi : h[i]? = some (u, e₂)) (hq : h[q]? = some (u, e')) (hpj : p ≤ j) (hiq : i ≤ q) :
    HappensBefore access h p q := by
  have hmid : HappensBefore access h j i := .single (.inr hsync)
  have hleft : HappensBefore access h p i := by
    rcases Nat.eq_or_lt_of_le hpj with rfl | hpj
    · exact hmid
    · exact .head (.inl ⟨hpj, t, e, e₁, hp, hj⟩) hmid
  rcases Nat.eq_or_lt_of_le hiq with rfl | hiq
  · exact hleft
  · exact hleft.tail (.inl ⟨hiq, u, e₂, e', hi, hq⟩)

end Synchronization

end Cds.Concurrent
