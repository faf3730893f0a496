import CdsBenchmarks.ChaseLev.DequeSequential

/-! The memory the deque grows into. `resize` doubles the size at each call but takes the
array from `newArray`, which `create_size` leaves `NULL` and `create` gives room for 8. -/

namespace Cds.ChaseLev

/-- The slots that `create` allocates. -/
def createSlots : Arr → ℕ
  | .initial => 2
  | .new => 8

def createSizeSlots (size : CInt) : Arr → ℕ
  | .initial => size.toNat
  | .new => 0

/-- A deque as made, and how many slots have been allocated for each array. -/
inductive Allocated : Mem → (Arr → ℕ) → Prop
  | create : Allocated create createSlots
  | createSize (size : CInt) (h : 0 < size.toInt) : Allocated (createSize size) (createSizeSlots size)

/-- The elements at the indices from `top` to `bottom - 1`. -/
def Mem.elements (m : Mem) : List CInt :=
  (List.range (m.bottom - m.top).toNat).map fun j => slot m m.array (m.top + .ofNat 64 j).toNat

/-- The slot that the next access reads or writes. -/
def Pc.touches : Pc → Option (Arr × ℕ)
  | .takeBuffer b a _ sz => some (a, intSlot b sz)
  | .resizeLoad _ _ a size _ i _ => some (a, (i % size).toNat)
  | .resizeStore _ _ _ size newA i _ _ => some (newA, (i % (size <<< 1)).toNat)
  | .pushBuffer _ b a size => some (a, (b % size).toNat)
  | .stealBuffer t a sz => some (a, intSlot t sz)
  | _ => none

/-- The thread at `l` comes to `l'` while it runs alone. -/
inductive Reaches (m : Mem) (l : Pc) : Mem → Pc → Prop
  | refl : Reaches m l m l
  | step {m₁ l₁ m₂ l₂ es} (h : Reaches m l m₁ l₁) (hs : access m₁ l₁ = some (m₂, l₂, es)) :
      Reaches m l m₂ l₂

/-- At `l` the memory in use is the memory allocated. -/
structure Within (slots : Arr → ℕ) (m : Mem) (l : Pc) : Prop where
  /-- `newArray` was not `NULL`. -/
  valid : l ≠ .crash
  size : ∀ a, (m.size a).toNat ≤ slots a
  index : ∀ a i, l.touches = some (a, i) → i < slots a

/-- The call returns, stays within its memory, and any `resize` keeps the elements. -/
structure SafeCall (slots : Arr → ℕ) (m : Mem) (o : Op) (m' : Mem) (r : Option CInt) : Prop where
  returns : Returns m o.entry m' r
  within : ∀ {m₁ l₁}, Reaches m o.entry m₁ l₁ → Within slots m₁ l₁
  kept : ∀ {m₁ m₂ x b x' b'}, Reaches m o.entry m₁ (.resizeArray x b) →
    Reaches m₁ (.resizeArray x b) m₂ (.pushReload x' b') → m₂.elements = m₁.elements

def Safe (slots : Arr → ℕ) : Mem → List Op → Prop
  | _, [] => True
  | m, o :: os => ∃ m' r, SafeCall slots m o m' r ∧ Safe slots m' os

/-- The slots of `a` under twice the size hold the elements already. -/
def Mem.Matches (m : Mem) (a : Arr) : Prop := ∀ j < (m.bottom - m.top).toNat,
  m.buffer a ((m.top + .ofNat 64 j).toNat % (2 * (m.size m.array).toNat)) =
    slot m m.array (m.top + .ofNat 64 j).toNat

/-- The deque may grow into `a`. -/
def Mem.MayGrow (slots : Arr → ℕ) (m : Mem) (a : Arr) : Prop :=
  m.newArray = some a ∧ 2 * (m.size m.array).toNat ≤ slots a ∧ (m.top ≤ m.bottom ∨ m.Matches a)

/-- The test of `push`. -/
def Mem.Full (m : Mem) : Prop := m.bottom - m.top > m.size m.array - 1

instance (m : Mem) : Decidable m.Full := inferInstanceAs (Decidable (_ < _))

/-- A push on a full deque finds a new array with room for twice the elements. -/
def Op.Backed (slots : Arr → ℕ) (m : Mem) : Op → Prop
  | .push _ => m.Full → ∃ a, m.MayGrow slots a
  | _ => True

def Backed (slots : Arr → ℕ) : Mem → List Op → Prop
  | _, [] => True
  | m, o :: os => o.Backed slots m ∧ ∀ m' r, Returns m o.entry m' r → Backed slots m' os

/-! ## What an access touches -/

section Touch
variable {m m' : Mem} {l l' : Pc} {es : List Event}

/-- An access writes to no other slot. -/
theorem access_writes (hs : access m l = some (m', l', es)) {a : Arr} {i : ℕ}
    (h : l.touches ≠ some (a, i)) : m'.buffer a i = m.buffer a i := by
  have hstore : ∀ {b k v}, (b, k) ≠ (a, i) → (m.store b k v).buffer a i = m.buffer a i := by
    intro b k v hne
    by_cases hb : a = b
    · subst hb
      have hi : i ≠ k := fun hi => hne (hi ▸ rfl)
      simp [Mem.store, hi]
    · simp [Mem.store, hb]
  cases l <;> simp only [access] at hs <;> (try split at hs) <;> cases hs <;> try rfl
  all_goals exact hstore fun heq => h (congrArg some heq)

/-- Nor does it depend on one. -/
theorem access_reads {f : Arr → ℕ → CInt} (h : ∀ a i, l.touches = some (a, i) → f a i = m.buffer a i) :
    (access { m with buffer := f } l).map (·.2) = (access m l).map (·.2) := by
  cases l <;> simp only [access] <;> (try rw [h _ _ rfl]) <;> (try split) <;> rfl

end Touch

/-! ## Within a call -/

section Call
variable {slots : Arr → ℕ} {m₀ m m' : Mem} {a newA : Arr} {l l' : Pc} {es : List Event}

/-- Every array has the slots its size says, and a size that fits an `int`. -/
structure Allot (slots : Arr → ℕ) (m : Mem) : Prop where
  pos : 0 < (m.size m.array).toNat
  fits : ∀ a, (m.size a).toNat ≤ slots a
  small : ∀ a, slots a < 2 ^ 31

theorem Allot.intSlot_lt (h : Allot slots m) (ha : a = m.array) (i : Size) :
    intSlot i ((m.size a).setWidth 32) < slots a := by
  subst ha
  have hfits := h.fits m.array
  unfold intSlot
  rw [signExtend_setWidth (Nat.lt_of_le_of_lt hfits (h.small _)), BitVec.toNat_umod]
  exact Nat.lt_of_lt_of_le (Nat.mod_lt _ h.pos) hfits

/-- `resize` has stored the new size, and copied the elements before `i`. A copy onto the
array itself leaves the slots of the old size as they are. -/
structure Copying (m₀ m : Mem) (newA : Arr) (i : ℕ) : Prop where
  top : m.top = m₀.top
  bottom : m.bottom = m₀.bottom
  array : m.array = m₀.array
  size : m.size = Function.update m₀.size newA (m₀.size m₀.array <<< 1)
  source : ∀ j < (m₀.size m₀.array).toNat, m.buffer m₀.array j = m₀.buffer m₀.array j
  copied : ∀ k, m₀.top.toNat ≤ k → k < i →
    m.buffer newA (k % (2 * (m₀.size m₀.array).toNat)) = slot m₀ m₀.array k

/-- What holds at each point of a call that began with memory `m₀`. -/
def During (slots : Arr → ℕ) (m₀ m : Mem) : Pc → Prop
  | .takeLower _ a | .takeTop _ a | .takeSize _ a _ | .stealSize _ a | .pushSize _ _ a =>
    Allot slots m ∧ a = m.array
  | .takeBuffer _ a _ sz | .stealBuffer _ a sz =>
    Allot slots m ∧ a = m.array ∧ sz = (m.size a).setWidth 32
  | .pushBottom _ => Allot slots m ∧ m = m₀ ∧ (m₀.Full → ∃ a, m₀.MayGrow slots a)
  | .pushTop _ b => Allot slots m ∧ m = m₀ ∧ (m₀.Full → ∃ a, m₀.MayGrow slots a) ∧ b = m₀.bottom
  | .pushArray _ b t => Allot slots m ∧ m = m₀ ∧ (m₀.Full → ∃ a, m₀.MayGrow slots a) ∧
      b = m₀.bottom ∧ t = m₀.top
  | .pushCheck _ b t a => Allot slots m ∧ m = m₀ ∧ (m₀.Full → ∃ a, m₀.MayGrow slots a) ∧
      b = m₀.bottom ∧ t = m₀.top ∧ a = m₀.array
  | .resizeArray _ _ => Allot slots m ∧ m = m₀ ∧ ∃ a, m₀.MayGrow slots a
  | .resizeSize _ _ a => Allot slots m ∧ m = m₀ ∧ (∃ a, m₀.MayGrow slots a) ∧ a = m₀.array
  | .resizeTop _ _ a size newA => Allot slots m ∧ m = m₀ ∧ (∃ a, m₀.MayGrow slots a) ∧
      a = m₀.array ∧ size = m₀.size m₀.array ∧ newA = m₀.newArray
  | .resizeBottom _ _ a size newA top => Allot slots m ∧ m = m₀ ∧ (∃ a, m₀.MayGrow slots a) ∧
      a = m₀.array ∧ size = m₀.size m₀.array ∧ newA = m₀.newArray ∧ top = m₀.top
  | .resizeNewSize _ _ a size newA top bottom => Allot slots m ∧ m = m₀ ∧
      (∃ a, m₀.MayGrow slots a) ∧ a = m₀.array ∧ size = m₀.size m₀.array ∧ newA = m₀.newArray ∧
      top = m₀.top ∧ bottom = m₀.bottom
  | .resizeLoad _ _ a size newA i bottom => Allot slots m ∧ m₀.MayGrow slots newA ∧ a = m₀.array ∧
      size = m₀.size m₀.array ∧ bottom = m₀.bottom ∧ (m₀.top ≤ i ∧ i < m₀.bottom) ∧
      Copying m₀ m newA i.toNat
  | .resizeStore _ _ a size newA i bottom v => Allot slots m ∧ m₀.MayGrow slots newA ∧ a = m₀.array ∧
      size = m₀.size m₀.array ∧ bottom = m₀.bottom ∧ (m₀.top ≤ i ∧ i < m₀.bottom) ∧
      Copying m₀ m newA i.toNat ∧ v = slot m₀ m₀.array i.toNat
  | .resizePublish _ _ newA => Allot slots m ∧ m₀.MayGrow slots newA ∧
      Copying m₀ m newA m₀.bottom.toNat ∧ (m₀.top ≤ m₀.bottom ∨ m.buffer = m₀.buffer)
  | .pushReload _ _ => Allot slots m ∧ m.elements = m₀.elements
  | .pushBuffer _ _ a size => Allot slots m ∧ a = m.array ∧ size = m.size a
  | .crash => False
  | _ => Allot slots m

/-- The other fields do not matter. -/
theorem Allot.of_eq (h : Allot slots m) (hsize : m'.size = m.size) (harray : m'.array = m.array) :
    Allot slots m' :=
  ⟨by rw [hsize, harray]; exact h.pos, fun a => by rw [hsize]; exact h.fits a, h.small⟩

theorem During.allot (h : During slots m₀ m l) : Allot slots m := by
  cases l <;> first | exact h | exact h.1 | exact h.elim

theorem toNat_double {s : Size} (h : s.toNat < 2 ^ 31) : (s <<< 1).toNat = 2 * s.toNat := by
  rw [BitVec.toNat_shiftLeft, Nat.shiftLeft_eq, Nat.mod_eq_of_lt (by omega)]
  omega

theorem Allot.size_lt (h : Allot slots m) (a : Arr) : (m.size a).toNat < 2 ^ 31 :=
  Nat.lt_of_le_of_lt (h.fits a) (h.small a)

/-- The slot in the new array. -/
theorem Allot.toNat_umod_double (h : Allot slots m) (a : Arr) (i : Size) :
    (i % (m.size a <<< 1)).toNat = i.toNat % (2 * (m.size a).toNat) := by
  rw [BitVec.toNat_umod, toNat_double (h.size_lt a)]

theorem Allot.umod_lt (h : Allot slots m) (ha : a = m.array) (i : Size) :
    (i % m.size a).toNat < slots a := by
  subst ha
  rw [BitVec.toNat_umod]
  exact Nat.lt_of_lt_of_le (Nat.mod_lt _ h.pos) (h.fits _)

theorem During.within (h₀ : Allot slots m₀) (h : During slots m₀ m l) : Within slots m l := by
  refine ⟨?_, h.allot.fits, fun a i ht => ?_⟩
  · rintro rfl
    exact h
  · cases l <;> simp only [Pc.touches, reduceCtorEq, Option.some.injEq, Prod.mk.injEq] at ht <;>
      obtain ⟨rfl, rfl⟩ := ht
    case takeBuffer b a t sz =>
      obtain ⟨hal, ha, rfl⟩ := h
      exact hal.intSlot_lt ha b
    case resizeLoad x b a size newA i bottom =>
      obtain ⟨-, -, ha, rfl, -⟩ := h
      exact ha ▸ h₀.umod_lt rfl i
    case resizeStore x b a size newA i bottom v =>
      obtain ⟨-, hgrow, -, rfl, -⟩ := h
      rw [h₀.toNat_umod_double]
      have hpos := h₀.pos
      exact Nat.lt_of_lt_of_le (Nat.mod_lt _ (by omega)) hgrow.2.1
    case pushBuffer x b a size =>
      obtain ⟨hal, ha, rfl⟩ := h
      exact hal.umod_lt ha b
    case stealBuffer t a sz =>
      obtain ⟨hal, ha, rfl⟩ := h
      exact hal.intSlot_lt ha t

/-! ## The copying loop -/

theorem Allot.grown (h₀ : Allot slots m₀) (hgrow : m₀.MayGrow slots newA) {size : Arr → Size}
    (hsize : size = Function.update m₀.size newA (m₀.size m₀.array <<< 1)) :
    (∀ a, (size a).toNat ≤ slots a) ∧ 0 < (size m₀.array).toNat ∧ 0 < (size newA).toNat := by
  have hpos := h₀.pos
  have hdouble := toNat_double (h₀.size_lt m₀.array)
  have hnew : (size newA).toNat = 2 * (m₀.size m₀.array).toNat := by
    rw [hsize, Function.update_self, hdouble]
  have hother : ∀ a, a ≠ newA → size a = m₀.size a := by
    intro a ha
    rw [hsize, Function.update_of_ne ha]
  refine ⟨fun a => ?_, ?_, by omega⟩
  · by_cases ha : a = newA
    · rw [ha, hnew]
      exact hgrow.2.1
    · rw [hother a ha]
      exact h₀.fits a
  · by_cases ha : m₀.array = newA
    · rw [ha]
      omega
    · rwa [hother _ ha]

theorem Copying.allot (h₀ : Allot slots m₀) (hgrow : m₀.MayGrow slots newA) {i : ℕ}
    (hc : Copying m₀ m newA i) : Allot slots m := by
  obtain ⟨hfits, hpos, -⟩ := h₀.grown hgrow hc.size
  exact ⟨hc.array.symm ▸ hpos, hfits, h₀.small⟩

theorem Copying.start (m₀ : Mem) (newA : Arr) : Copying m₀
    { m₀ with size := Function.update m₀.size newA (m₀.size m₀.array <<< 1) } newA m₀.top.toNat :=
  ⟨rfl, rfl, rfl, rfl, fun _ _ => rfl, fun _ hk hk' => absurd hk (Nat.not_le.mpr hk')⟩

/-- One more element. The slot it is copied to is its own, or past the old size. -/
theorem Copying.store {i : ℕ} (hc : Copying m₀ m newA i) :
    Copying m₀ (m.store newA (i % (2 * (m₀.size m₀.array).toNat)) (slot m₀ m₀.array i)) newA
      (i + 1) := by
  have hmod : ∀ k, k % (2 * (m₀.size m₀.array).toNat) % (m₀.size m₀.array).toNat =
      k % (m₀.size m₀.array).toNat := fun k => Nat.mod_mod_of_dvd _ (Nat.dvd_mul_left ..)
  have hstore : ∀ j,
      (m.store newA (i % (2 * (m₀.size m₀.array).toNat)) (slot m₀ m₀.array i)).buffer newA j =
      if j = i % (2 * (m₀.size m₀.array).toNat) then slot m₀ m₀.array i else m.buffer newA j := by
    intro j
    simp [Mem.store, Function.update_apply]
  refine ⟨hc.top, hc.bottom, hc.array, hc.size, fun j hj => ?_, fun k hk hk' => ?_⟩
  · by_cases hA : newA = m₀.array
    · subst hA
      rw [hstore]
      split
      · next heq =>
        have hji : i % (m₀.size m₀.array).toNat = j := by rw [← hmod, ← heq, Nat.mod_eq_of_lt hj]
        rw [slot, hji]
      · exact hc.source j hj
    · have hne : m₀.array ≠ newA := Ne.symm hA
      simpa [Mem.store, hne] using hc.source j hj
  · rw [hstore]
    split
    · next heq =>
      rw [slot, slot, ← hmod k, heq, hmod]
    · next hne =>
      refine hc.copied k hk (Nat.lt_of_le_of_ne (Nat.lt_succ_iff.mp hk') ?_)
      rintro rfl
      exact hne rfl

theorem elements_published (h₀ : Allot slots m₀) (hgrow : m₀.MayGrow slots newA)
    (hc : Copying m₀ m newA m₀.bottom.toNat) (hloop : m₀.top ≤ m₀.bottom ∨ m.buffer = m₀.buffer) :
    ({ m with array := newA } : Mem).elements = m₀.elements := by
  have hslot : ∀ k, slot { m with array := newA } newA k =
      m.buffer newA (k % (2 * (m₀.size m₀.array).toNat)) := by
    intro k
    rw [slot, hc.size, Function.update_self, toNat_double (h₀.size_lt _)]
  unfold Mem.elements
  rw [hc.top, hc.bottom]
  refine List.map_congr_left fun j hj => ?_
  have hj := List.mem_range.mp hj
  refine (hslot _).trans ?_
  by_cases hle : m₀.top ≤ m₀.bottom
  · exact hc.copied _ (by bv_omega) (by bv_omega)
  · rw [hloop.resolve_left hle]
    exact hgrow.2.2.resolve_left hle j hj

theorem during_loop {x : CInt} {b i : Size} (h₀ : Allot slots m₀) (hgrow : m₀.MayGrow slots newA)
    (hi : m₀.top ≤ i) (hc : Copying m₀ m newA i.toNat)
    (hloop : i ≤ m₀.bottom ∨ m₀.bottom < m₀.top ∧ m.buffer = m₀.buffer) :
    During slots m₀ m (resizeLoop x b m₀.array (m₀.size m₀.array) newA i m₀.bottom) := by
  have hallot := hc.allot h₀ hgrow
  unfold resizeLoop
  split
  · next hlt => exact ⟨hallot, hgrow, rfl, rfl, rfl, ⟨hi, hlt⟩, hc⟩
  · next hge =>
    refine ⟨hallot, hgrow, ⟨hc.top, hc.bottom, hc.array, hc.size, hc.source, fun k hk hk' => ?_⟩, ?_⟩
    · exact hc.copied k hk (by bv_omega)
    · exact hloop.imp (BitVec.le_trans hi) And.right

/-- **What one access keeps.** -/
theorem during_step (h₀ : Allot slots m₀) (h : During slots m₀ m l)
    (hs : access m l = some (m', l', es)) : During slots m₀ m' l' := by
  cases l <;> simp only [access, reduceCtorEq] at hs
  case resizeNewSize x b a size newA top bottom =>
    obtain ⟨hal, rfl, ⟨a, hgrow⟩, rfl, rfl, rfl, rfl, rfl⟩ := h
    split at hs
    · next hnone => exact absurd (hnone.symm.trans hgrow.1) (by simp)
    · next newA hsome =>
      obtain rfl := Option.some.inj (hsome.symm.trans hgrow.1)
      cases hs
      refine during_loop h₀ hgrow (BitVec.le_refl _) (Copying.start m newA) ?_
      by_cases hle : m.top ≤ m.bottom
      · exact .inl hle
      · exact .inr ⟨BitVec.not_le.mp hle, rfl⟩
  case resizeLoad x b a size newA i bottom =>
    cases hs
    obtain ⟨hal, hgrow, rfl, rfl, rfl, hi, hc⟩ := h
    refine ⟨hal, hgrow, rfl, rfl, rfl, hi, hc, ?_⟩
    rw [BitVec.toNat_umod]
    exact hc.source _ (Nat.mod_lt _ h₀.pos)
  case resizeStore x b a size newA i bottom v =>
    cases hs
    obtain ⟨hal, hgrow, rfl, rfl, rfl, ⟨hi, hlt⟩, hc, rfl⟩ := h
    rw [h₀.toNat_umod_double]
    have hsucc : (i + 1).toNat = i.toNat + 1 := by bv_omega
    exact during_loop h₀ hgrow (by bv_omega) (hsucc ▸ hc.store) (.inl (by bv_omega))
  case resizePublish x b newA =>
    cases hs
    obtain ⟨hal, hgrow, hc, hloop⟩ := h
    obtain ⟨hfits, -, hpos⟩ := h₀.grown hgrow hc.size
    exact ⟨⟨hpos, hfits, h₀.small⟩, elements_published h₀ hgrow hc hloop⟩
  case pushCheck x b t a =>
    obtain ⟨hal, rfl, hb, rfl, rfl, rfl⟩ := h
    split at hs <;> cases hs
    · next hfull => exact ⟨hal, rfl, hb hfull⟩
    · exact ⟨hal, rfl⟩
  case takeTop b a =>
    split at hs <;> cases hs
    · exact h
    · exact h.1
  case takeBuffer b a t sz =>
    split at hs <;> cases hs <;> exact h.1
  case takeCas b t x =>
    split at hs <;> cases hs
    · exact h.allot.of_eq rfl rfl
    · exact h
  case stealBottom t =>
    split at hs <;> cases hs <;> exact h
  case stealCas t x =>
    split at hs <;> cases hs
    · exact h.allot.of_eq rfl rfl
    · exact h
  case takeLower b a =>
    cases hs
    exact ⟨h.1.of_eq rfl rfl, h.2⟩
  case pushBuffer x b a size =>
    cases hs
    exact h.1.of_eq rfl rfl
  case takeRestore | pushPublish =>
    cases hs
    exact h.allot.of_eq rfl rfl
  case takeArray b | stealArray t | pushReload x b =>
    cases hs
    exact ⟨h.allot, rfl⟩
  case takeSize b a t | stealSize t a | pushSize x b a =>
    cases hs
    exact ⟨h.1, h.2, rfl⟩
  case takeBottom | stealTop | ret r =>
    cases hs
    exact h
  case stealBuffer t a sz =>
    cases hs
    exact h.1
  case pushBottom x =>
    cases hs
    obtain ⟨hal, rfl, hb⟩ := h
    exact ⟨hal, rfl, hb, rfl⟩
  case pushTop x b =>
    cases hs
    obtain ⟨hal, rfl, hb, rfl⟩ := h
    exact ⟨hal, rfl, hb, rfl, rfl⟩
  case pushArray x b t =>
    cases hs
    obtain ⟨hal, rfl, hb, rfl, rfl⟩ := h
    exact ⟨hal, rfl, hb, rfl, rfl, rfl⟩
  case resizeArray x b =>
    cases hs
    exact ⟨h.1, h.2.1, h.2.2, h.2.1 ▸ rfl⟩
  case resizeSize x b a =>
    cases hs
    obtain ⟨hal, rfl, hfull, rfl⟩ := h
    exact ⟨hal, rfl, hfull, rfl, rfl, rfl⟩
  case resizeTop x b a size newA =>
    cases hs
    obtain ⟨hal, rfl, hfull, rfl, rfl, rfl⟩ := h
    exact ⟨hal, rfl, hfull, rfl, rfl, rfl, rfl⟩
  case resizeBottom x b a size newA top =>
    cases hs
    obtain ⟨hal, rfl, hfull, rfl, rfl, rfl, rfl⟩ := h
    exact ⟨hal, rfl, hfull, rfl, rfl, rfl, rfl, rfl⟩

theorem During.reaches (h₀ : Allot slots m₀) (h : During slots m₀ m l) (hr : Reaches m l m' l') :
    During slots m₀ m' l' := by
  induction hr with
  | refl => exact h
  | step _ hs ih => exact during_step h₀ ih hs

theorem During.entry (h₀ : Allot slots m₀) {o : Op} (hb : o.Backed slots m₀) :
    During slots m₀ m₀ o.entry := by
  cases o with
  | push x => exact ⟨h₀, rfl, hb⟩
  | _ => exact h₀

end Call

/-! ## Every call returns -/

section Returns

theorem returns_publish (m : Mem) (x : CInt) (b : Size) (newA : Arr) :
    ∃ m' r, Returns m (.resizePublish x b newA) m' r :=
  ⟨_, _, .step rfl <| .step rfl <| .step rfl <| .step rfl <| .step rfl .ret⟩

theorem returns_loop (x : CInt) (b : Size) (a : Arr) (size : Size) (newA : Arr) (bottom : Size)
    (n : ℕ) (m : Mem) (i : Size) (hn : bottom.toNat - i.toNat = n) :
    ∃ m' r, Returns m (resizeLoop x b a size newA i bottom) m' r := by
  induction n generalizing m i with
  | zero =>
    have hge : ¬i < bottom := by bv_omega
    rw [resizeLoop, if_neg hge]
    exact returns_publish ..
  | succ n ih =>
    have hlt : i < bottom := by bv_omega
    rw [resizeLoop, if_pos hlt]
    obtain ⟨m', r, h⟩ := ih (m.store newA (i % (size <<< 1)).toNat (m.buffer a (i % size).toNat))
      (i + 1) (by bv_omega)
    exact ⟨m', r, .step rfl <| .step rfl h⟩

theorem returns_call (m : Mem) (o : Op) (hb : ∀ x, o = .push x → m.Full → m.newArray ≠ none) :
    ∃ m' r, Returns m o.entry m' r := by
  cases o with
  | push x =>
    by_cases hfull : m.Full
    · obtain ⟨newA, hnew⟩ := Option.ne_none_iff_exists'.mp (hb x rfl hfull)
      have hsize : access m
          (.resizeNewSize x m.bottom m.array (m.size m.array) m.newArray m.top m.bottom) =
          some ({ m with size := Function.update m.size newA (m.size m.array <<< 1) },
            resizeLoop x m.bottom m.array (m.size m.array) newA m.top m.bottom, []) := by
        simp only [access, hnew]
      obtain ⟨m', r, h⟩ := returns_loop x m.bottom m.array (m.size m.array) newA m.bottom _
        { m with size := Function.update m.size newA (m.size m.array <<< 1) } m.top rfl
      exact ⟨m', r, .step rfl <| .step rfl <| .step rfl <| .step (if_pos hfull) <| .step rfl <|
        .step rfl <| .step rfl <| .step rfl <| .step hsize h⟩
    · exact ⟨_, _, returns_push x hfull⟩
  | take =>
    by_cases h : m.top ≤ m.bottom - 1
    · by_cases hlast : m.top = m.bottom - 1
      · exact ⟨_, _, returns_take_last hlast⟩
      · exact ⟨_, _, returns_take h hlast⟩
    · exact ⟨_, _, returns_take_empty h⟩
  | steal =>
    by_cases h : m.top < m.bottom
    · exact ⟨_, _, returns_steal h⟩
    · exact ⟨_, _, returns_steal_empty h⟩

end Returns

/-! ## A call -/

section SafeCall
variable {slots : Arr → ℕ} {m m' : Mem} {o : Op} {r : Option CInt}

theorem Reaches.trans {m₁ m₂ : Mem} {l l₁ l₂ : Pc} (h₁ : Reaches m l m₁ l₁) (h₂ : Reaches m₁ l₁ m₂ l₂) :
    Reaches m l m₂ l₂ := by
  induction h₂ with
  | refl => exact h₁
  | step _ hs ih => exact ih.step hs

theorem Reaches.head {m₁ m₂ : Mem} {l l₁ l₂ : Pc} {es : List Event}
    (hs : access m l = some (m₁, l₁, es)) (h : Reaches m₁ l₁ m₂ l₂) : Reaches m l m₂ l₂ :=
  (Reaches.refl.step hs).trans h

theorem Returns.reaches {l : Pc} (h : Returns m l m' r) : Reaches m l m' (.ret r) := by
  induction h with
  | ret => exact .refl
  | step hs _ ih => exact .head hs ih

theorem allot_of_call (h : Allot slots m) (hb : o.Backed slots m) (hr : Returns m o.entry m' r) :
    Allot slots m' := ((During.entry h hb).reaches h hr.reaches).allot

/-- A call that is backed is safe. -/
theorem safeCall_of_backed (h : Allot slots m) (hb : o.Backed slots m) :
    ∃ m' r, SafeCall slots m o m' r := by
  have hnew : ∀ x, o = .push x → m.Full → m.newArray ≠ none := by
    rintro x rfl hfull hnone
    obtain ⟨a, hgrow⟩ := hb hfull
    exact absurd (hnone.symm.trans hgrow.1) nofun
  obtain ⟨m', r, hret⟩ := returns_call m o hnew
  refine ⟨m', r, hret, fun hr => ((During.entry h hb).reaches h hr).within h, fun hr₁ hr₂ => ?_⟩
  -- the memory at the start of `resize` is that of the call
  obtain ⟨-, rfl, -⟩ := (During.entry h hb).reaches h hr₁
  exact ((During.entry h hb).reaches h (hr₁.trans hr₂)).2

/-- A push that is not backed runs out of its memory, or loses elements. -/
theorem backed_of_safeCall (h : Allot slots m) (hs : SafeCall slots m o m' r) : o.Backed slots m := by
  cases o with
  | push x =>
    intro hfull
    have hstart : Reaches m (Op.push x).entry m (.resizeArray x m.bottom) :=
      .head rfl <| .head rfl <| .head rfl <| .head (if_pos hfull) .refl
    have hsize : Reaches m (.resizeArray x m.bottom) m
        (.resizeNewSize x m.bottom m.array (m.size m.array) m.newArray m.top m.bottom) :=
      .head rfl <| .head rfl <| .head rfl <| .head rfl .refl
    cases hnew : m.newArray with
    | none =>
      rw [hnew] at hsize
      exact absurd rfl (hs.within ((hstart.trans hsize).step rfl)).valid
    | some newA =>
      rw [hnew] at hsize
      have hgrown : Reaches m (.resizeArray x m.bottom)
          { m with size := Function.update m.size newA (m.size m.array <<< 1) }
          (resizeLoop x m.bottom m.array (m.size m.array) newA m.top m.bottom) := hsize.step rfl
      have hsize' : (Function.update m.size newA (m.size m.array <<< 1) newA).toNat =
          2 * (m.size m.array).toNat := by rw [Function.update_self, toNat_double (h.size_lt _)]
      have hfits := (hs.within (hstart.trans hgrown)).size newA
      refine ⟨newA, hnew, hsize' ▸ hfits, ?_⟩
      by_cases hle : m.top ≤ m.bottom
      · exact .inl hle
      -- the loop does not run
      · rw [resizeLoop, if_neg fun hlt => hle (BitVec.le_of_lt hlt)] at hgrown
        have hpublish : Reaches m (.resizeArray x m.bottom)
            { m with size := Function.update m.size newA (m.size m.array <<< 1), array := newA }
            (.pushReload x m.bottom) := hgrown.trans (.head rfl .refl)
        have hkept := hs.kept hstart hpublish
        unfold Mem.elements at hkept
        have hkept := List.map_inj_left.mp hkept
        refine .inr fun j hj => ?_
        rw [← hsize']
        exact hkept j (List.mem_range.mpr hj)
  | _ => trivial

end SafeCall

theorem allot_of_allocated {m : Mem} {slots : Arr → ℕ} (h : Allocated m slots) : Allot slots m := by
  cases h with
  | create => exact ⟨by decide, fun a => by cases a <;> decide, fun a => by cases a <;> decide⟩
  | createSize size hpos =>
    obtain ⟨hsize, hpos, hlt⟩ := toNat_signExtend hpos
    refine ⟨hsize.symm ▸ hpos, fun a => ?_, fun a => ?_⟩
    · cases a with
      | initial => exact Nat.le_of_eq hsize
      | new => exact Nat.le_refl _
    · cases a with
      | initial => exact hlt
      | new => exact Nat.two_pow_pos 31

theorem safe_iff_of_allot {slots : Arr → ℕ} {m : Mem} (h : Allot slots m) (os : List Op) :
    Safe slots m os ↔ Backed slots m os := by
  induction os generalizing m with
  | nil => exact Iff.rfl
  | cons o os ih =>
    constructor
    · rintro ⟨m', r, hcall, hsafe⟩
      have hb := backed_of_safeCall h hcall
      refine ⟨hb, fun m₁ r₁ hret => ?_⟩
      obtain ⟨rfl, -⟩ := hcall.returns.unique hret
      exact (ih (allot_of_call h hb hret)).mp hsafe
    · rintro ⟨hb, hnext⟩
      obtain ⟨m', r, hcall⟩ := safeCall_of_backed h hb
      exact ⟨m', r, hcall, (ih (allot_of_call h hb hcall.returns)).mpr (hnext m' r hcall.returns)⟩

/-- **Growing within the memory allocated.** A single thread's calls stay within the arrays and
lose no element in a resize if and only if every push on a full deque finds a `newArray` with
room for twice the elements, before `bottom` has wrapped. -/
theorem safe_iff_backed {m : Mem} {slots : Arr → ℕ} (h : Allocated m slots) (os : List Op) :
    Safe slots m os ↔ Backed slots m os := safe_iff_of_allot (allot_of_allocated h) os

/-- The theorem for two resizes of the deque from `create`. -/
theorem safe_iff_backed_create : Safe createSlots create [.push 1, .push 2, .push 3, .push 4, .push 5] ↔
    Backed createSlots create [.push 1, .push 2, .push 3, .push 4, .push 5] := safe_iff_backed .create _

/-- The second push on a deque from `create_size(1)` finds no new array. -/
theorem createSize_crashes : Allocated (createSize 1) (createSizeSlots 1) ∧
    ¬Safe (createSizeSlots 1) (createSize 1) [.push 1, .push 2] := by
  have hmade : Allocated (createSize 1) (createSizeSlots 1) := .createSize 1 (by decide)
  refine ⟨hmade, fun hsafe => ?_⟩
  obtain ⟨-, hnext⟩ := (safe_iff_of_allot (allot_of_allocated hmade) _).mp hsafe
  have hroom : ¬(createSize 1).Full := by decide
  obtain ⟨hb, -⟩ := hnext _ _ (returns_push 1 hroom)
  have hfull : ∀ m : Mem, m.bottom = 1 → m.top = 0 → m.size m.array = 1 → m.Full := by
    intro m h₁ h₂ h₃
    rw [Mem.Full, h₁, h₂, h₃]
    decide
  obtain ⟨a, hgrow⟩ := hb (hfull _ rfl rfl rfl)
  exact absurd hgrow.1 nofun

end Cds.ChaseLev
