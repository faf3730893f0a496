import CdsBenchmarks.ChaseLev.DequeDefs
import Mathlib.Data.List.Intervals
import Mathlib.Data.Nat.ModEq

/-! Where the elements of the deque are: which indices are present, and in which slots, and what
each write to the memory does to that. -/

namespace Cds.ChaseLev

/-- The slot of array `a` for index `i`. -/
def slot (m : Mem) (a : Arr) (i : ℕ) : CInt := m.buffer a (i % (m.size a).toNat)

section Slot
variable {m : Mem} {a a' : Arr} {i j : ℕ} {v : CInt}

@[simp] theorem slot_store_self : slot (m.store a (i % (m.size a).toNat) v) a i = v := by
  simp [slot, Mem.store]

theorem slot_store_of_ne (h : j % (m.size a).toNat ≠ i) : slot (m.store a i v) a j = slot m a j := by
  simp [slot, Mem.store, h]

theorem slot_store_other (h : a' ≠ a) : slot (m.store a i v) a' j = slot m a' j := by
  simp [slot, Mem.store, h]

end Slot

/-- The owner has published the array, so that thieves may have loaded it. -/
def InUse (m : Mem) (a : Arr) : Prop := a = .initial ∨ m.array = a

namespace Ends

/-- Where the elements are, when those present have the indices from `top` to `bot`. -/
structure Shape (k : ℕ) (m : Mem) (s : List CInt) (bot : ℕ) (elem : ℕ → CInt) : Prop where
  contents : s = (List.Ico m.top.toNat bot).map elem
  value : ∀ i, m.top.toNat ≤ i → i < bot → elem i ≠ EMPTY ∧ elem i ≠ ABORT
  held : ∀ i, m.top.toNat ≤ i → i < bot → slot m m.array i = elem i
  le : m.top.toNat ≤ bot
  room : bot ≤ m.top.toNat + (m.size m.array).toNat
  lt : bot < 2 ^ 64
  bottom : m.bottom.toNat ≤ bot
  sizes : ∀ a, InUse m a → 0 < (m.size a).toNat ∧ ((m.size a).setWidth 32).signExtend 64 = m.size a
  made : k = 1 → m.size .initial = 2 ∧ m.newArray = some .new

section Shape
variable {k bot : ℕ} {m : Mem} {s : List CInt} {elem : ℕ → CInt}

theorem slot_ne {n i j : ℕ} (hij : i ≠ j) (hi : i < j + n) (hj : j < i + n) : i % n ≠ j % n := by
  intro h
  rcases Nat.lt_or_gt_of_ne hij with hlt | hlt
  · have := (Nat.modEq_iff_dvd' hlt.le).mp h
    exact absurd (Nat.le_of_dvd (by omega) this) (by omega)
  · have := (Nat.modEq_iff_dvd' hlt.le).mp h.symm
    exact absurd (Nat.le_of_dvd (by omega) this) (by omega)

theorem Shape.top_succ (h : Shape k m s bot elem) (hlt : m.top.toNat < bot) :
    (m.top + 1).toNat = m.top.toNat + 1 := by
  have := h.lt
  bv_omega

/-- The oldest element goes. -/
theorem Shape.removeFirst (h : Shape k m s bot elem) (hlt : m.top.toNat < bot) :
    s = elem m.top.toNat :: s.tail ∧ Shape k { m with top := m.top + 1 } s.tail bot elem := by
  have hsucc := h.top_succ hlt
  have hcons : s = elem m.top.toNat :: (List.Ico (m.top.toNat + 1) bot).map elem := by
    rw [h.contents, List.Ico.eq_cons hlt, List.map_cons]
  have htail : s.tail = (List.Ico (m.top.toNat + 1) bot).map elem := by rw [hcons, List.tail_cons]
  refine ⟨by rw [htail]; exact hcons, ?_, ?_, ?_, ?_, ?_, h.lt, h.bottom, h.sizes, h.made⟩
  · rw [htail]
    exact congrArg (fun n => (List.Ico n bot).map elem) hsucc.symm
  · exact fun i hi => h.value i (by rw [hsucc] at hi; omega)
  · exact fun i hi => h.held i (by rw [hsucc] at hi; omega)
  · exact hsucc ▸ hlt
  · have := h.room
    change bot ≤ (m.top + 1).toNat + (m.size m.array).toNat
    omega

/-- The newest element goes. -/
theorem Shape.removeLast (h : Shape k m s (bot + 1) elem) (hle : m.top.toNat ≤ bot)
    (hb : m.bottom.toNat ≤ bot) : s = s.dropLast ++ [elem bot] ∧ Shape k m s.dropLast bot elem := by
  have hsnoc : s = (List.Ico m.top.toNat bot).map elem ++ [elem bot] := by
    rw [h.contents, List.Ico.succ_top hle, List.map_append, List.map_singleton]
  have hdrop : s.dropLast = (List.Ico m.top.toNat bot).map elem := by rw [hsnoc, List.dropLast_concat]
  have hlt := h.lt
  have hroom := h.room
  exact ⟨by rw [hdrop]; exact hsnoc, hdrop, fun i hi hi' => h.value i hi (by omega),
    fun i hi hi' => h.held i hi (by omega),
    hle, by omega, by omega, hb, h.sizes, h.made⟩

theorem Shape.setBottom (h : Shape k m s bot elem) {b : Size} (hb : b.toNat ≤ bot) :
    Shape k { m with bottom := b } s bot elem :=
  ⟨h.contents, h.value, h.held, h.le, h.room, h.lt, hb, h.sizes, h.made⟩

/-- A value is stored in the slot after the newest element. -/
theorem Shape.store (h : Shape k m s bot elem) (hroom : bot < m.top.toNat + (m.size m.array).toNat)
    (x : CInt) :
    Shape k (m.store m.array (bot % (m.size m.array).toNat) x) s bot (Function.update elem bot x) := by
  have hne : ∀ {i}, i < bot → Function.update elem bot x i = elem i := fun hi =>
    Function.update_of_ne (Nat.ne_of_lt hi) ..
  refine ⟨?_, fun i hi hi' => ?_, fun i hi hi' => ?_, h.le, h.room, h.lt, h.bottom, h.sizes, h.made⟩
  · rw [h.contents]
    exact List.map_congr_left fun i hi => (hne (List.Ico.mem.mp hi).2).symm
  · rw [hne hi']
    exact h.value i hi hi'
  · have hslot : i % (m.size m.array).toNat ≠ bot % (m.size m.array).toNat :=
      slot_ne (Nat.ne_of_lt hi') (by omega) (by have : m.top.toNat ≤ i := hi; omega)
    rw [hne hi', ← h.held i hi hi']
    exact slot_store_of_ne hslot

/-- The stored value becomes the newest element. -/
theorem Shape.append (h : Shape k m s bot elem) {b : Size} (hb : b.toNat = bot + 1)
    (hroom : bot < m.top.toNat + (m.size m.array).toNat) {x : CInt} (hx : x ≠ EMPTY ∧ x ≠ ABORT)
    (helem : elem bot = x) (hslot : slot m m.array bot = x) :
    Shape k { m with bottom := b } (s ++ [x]) (bot + 1) elem := by
  have hlast : ∀ {i}, i < bot + 1 → i < bot ∨ i = bot := by omega
  refine ⟨?_, fun i hi hi' => ?_, fun i hi hi' => ?_, Nat.le_succ_of_le h.le, hroom, ?_, hb.le,
    h.sizes, h.made⟩
  · change s ++ [x] = (List.Ico m.top.toNat (bot + 1)).map elem
    rw [List.Ico.succ_top h.le, List.map_append, List.map_singleton, ← h.contents, helem]
  · rcases hlast hi' with hi' | rfl
    · exact h.value i hi hi'
    · rwa [helem]
  · rcases hlast hi' with hi' | rfl
    · exact h.held i hi hi'
    · exact hslot.trans helem.symm
  · rw [← hb]
    exact b.isLt

theorem Shape.eq_nil (h : Shape k m s bot elem) (heq : m.top.toNat = bot) : s = [] := by
  rw [h.contents, List.Ico.eq_nil_of_le heq.ge, List.map_nil]

/-- A write to an array that no one uses yet. -/
theorem Shape.unused (h : Shape k m s bot elem) {m' : Mem} (htop : m'.top = m.top)
    (hbottom : m'.bottom = m.bottom) (harray : m'.array = m.array) (hnewA : m'.newArray = m.newArray)
    (hsize : ∀ a, InUse m a → m'.size a = m.size a)
    (hslot : ∀ i, slot m' m.array i = slot m m.array i) : Shape k m' s bot elem := by
  obtain ⟨hcontents, hvalue, hheld, hle, hroom, hlt, hbot, hsizes, hmade⟩ := h
  have hcap := hsize m.array (.inr rfl)
  refine ⟨?_, ?_, ?_, ?_, ?_, hlt, ?_, fun a ha => ?_, fun hk => ?_⟩
  · rwa [htop]
  · rwa [htop]
  · rw [htop, harray]
    exact fun i hi hi' => (hslot i).trans (hheld i hi hi')
  · rwa [htop]
  · rwa [htop, harray, hcap]
  · rwa [hbottom]
  · have ha' : InUse m a := by rwa [InUse, harray] at ha
    rw [hsize a ha']
    exact hsizes a ha'
  · rw [hsize .initial (.inl rfl), hnewA]
    exact hmade hk

theorem Shape.room_initial (h : Shape k m s bot elem) (harray : m.array = .initial) (hk : k = 1) :
    bot ≤ m.top.toNat + 2 := by
  have hroom := h.room
  rwa [harray, (h.made hk).1] at hroom

/-- The index that `resize` computes for `newArray` in the first resize. -/
theorem toNat_umod_newSize (hsize : m.size .new = 4) (i : Size) :
    (i % ((2 : Size) <<< 1)).toNat = i.toNat % (m.size .new).toNat := by
  rw [hsize, BitVec.toNat_umod]
  rfl

/-- The copying loop of the first resize gets one element further. -/
theorem copied_store {i top : ℕ} {v : CInt} (hsize : m.size .new = 4) (hi : i < top + 2)
    (hc : ∀ j, top ≤ j → j < i → slot m .new j = elem j) (hv : top ≤ i → v = elem i) (j : ℕ)
    (hj : top ≤ j) (hj' : j < i + 1) :
    slot (m.store .new (i % (m.size .new).toNat) v) .new j = elem j := by
  rcases Nat.lt_succ_iff_lt_or_eq.mp hj' with hlt | rfl
  · have hne : j % (m.size .new).toNat ≠ i % (m.size .new).toNat := by
      rw [hsize]
      have h4 : (4 : Size).toNat = 4 := rfl
      exact slot_ne (Nat.ne_of_lt hlt) (by omega) (by omega)
    rw [slot_store_of_ne hne]
    exact hc j hj hlt
  · rw [slot_store_self]
    exact hv hj

theorem Shape.publish (h : Shape k m s bot elem) (harray : m.array = .initial) (hk : k = 1)
    (hsize : m.size .new = 4) (hnew : ∀ j, m.top.toNat ≤ j → j < bot → slot m .new j = elem j) :
    Shape k { m with array := .new } s bot elem := by
  have hroom := h.room_initial harray hk
  refine ⟨h.contents, h.value, hnew, h.le, ?_, h.lt, h.bottom, fun a ha => ?_, h.made⟩
  · simp only [hsize]
    exact Nat.le_trans hroom (Nat.add_le_add_left (by decide) _)
  · rcases ha with rfl | rfl
    · exact h.sizes .initial (.inl rfl)
    · rw [show ({ m with array := Arr.new } : Mem).size .new = 4 from hsize]
      decide

theorem intSlot_eq (h : Shape k m s bot elem) {a : Arr} (ha : InUse m a) (i : Size) :
    m.buffer a (intSlot i ((m.size a).setWidth 32)) = slot m a i.toNat := by
  unfold intSlot slot
  rw [(h.sizes a ha).2, BitVec.toNat_umod]

/-- A new size under which the elements keep their slots. -/
theorem Shape.resize (h : Shape k m s bot elem) (harray : m.array = .new) (hsize : m.size .new = 4)
    (hkeep : ∀ j, m.top.toNat ≤ j → j < bot → j % 8 = j % 4) :
    Shape k { m with size := Function.update m.size .new 8 } s bot elem := by
  have hroom := h.room
  rw [harray, hsize] at hroom
  refine ⟨h.contents, h.value, fun j hj hj' => ?_, h.le, ?_, h.lt, h.bottom, fun a ha => ?_, h.made⟩
  · rw [← h.held j hj hj', harray, slot, slot, hsize]
    exact congrArg (m.buffer .new) (hkeep j hj hj')
  · simp only [harray, Function.update_self]
    exact Nat.le_trans hroom (Nat.add_le_add_left (by decide) _)
  · rcases ha with rfl | ha
    · exact h.sizes .initial (.inl rfl)
    · obtain rfl : a = .new := ha.symm.trans harray
      simp only [Function.update_self]
      decide

/-- A store of what is there already for the element with that slot. -/
theorem Shape.overwrite (h : Shape k m s bot elem) {i : ℕ} {v : CInt}
    (hv : ∀ j, m.top.toNat ≤ j → j < bot → j % (m.size m.array).toNat = i → v = elem j) :
    Shape k (m.store m.array i v) s bot elem := by
  refine ⟨h.contents, h.value, fun j hj hj' => ?_, h.le, h.room, h.lt, h.bottom, h.sizes, h.made⟩
  by_cases hi : j % (m.size m.array).toNat = i
  · rw [← hv j hj hj' hi, ← hi]
    exact slot_store_self
  · exact (slot_store_of_ne hi).trans (h.held j hj hj')

end Shape

theorem size_createSize {size : CInt} (h : 0 < size.toInt) : 0 < (size.signExtend 64).toNat ∧
    ((size.signExtend 64).setWidth 32).signExtend 64 = size.signExtend 64 := by
  obtain ⟨hsize, hpos, hlt⟩ := toNat_signExtend h
  exact ⟨hsize.symm ▸ hpos, signExtend_setWidth (hsize.symm ▸ hlt)⟩

theorem shape_made {m : Mem} (h : Made m k) : Shape k m [] 0 fun _ => 0 := by
  have hinitial : m.top = 0 ∧ m.bottom = 0 ∧ m.array = .initial := by cases h <;> exact ⟨rfl, rfl, rfl⟩
  obtain ⟨htop, hbottom, harray⟩ := hinitial
  refine ⟨?_, fun i _ hi => absurd hi (Nat.not_lt_zero i), fun i _ hi => absurd hi (Nat.not_lt_zero i),
    ?_, Nat.zero_le _,
    by decide, ?_, fun a ha => ?_, fun hk => ?_⟩
  · rw [htop]
    rfl
  · rw [htop]
    rfl
  · rw [hbottom]
    rfl
  · obtain rfl : a = .initial := by
      rcases ha with rfl | rfl
      · rfl
      · exact harray
    cases h with
    | create => decide
    | createSize size h => exact size_createSize h
  · cases h with
    | create => exact ⟨rfl, rfl⟩
    | createSize size h => cases hk

end Ends

end Cds.ChaseLev
