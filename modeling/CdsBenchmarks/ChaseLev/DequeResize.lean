import CdsBenchmarks.ChaseLev.DequeSteps

/-! What two resizes do to the values stored. The second one stores the new size for the array in
use, which is transparent exactly where the elements present keep their slots. -/

namespace Cds.ChaseLev
open Concurrent Program

variable {T : Type*}

namespace Ends
variable [DecidableEq T] {k : ℕ} {owner t : T} {w : World T}

theorem Glob.transparent (hg : Glob k owner w) : Transparent w.hist w.mem := by
  refine { hg.logged.explained with filled := fun i hi hi' => ?_ }
  have hlt := Nat.lt_of_lt_of_le hi' hg.shape.bottom
  rw [hg.logged.notes, hg.put i hi hlt, hg.shape.held i hi hlt]

/-- A new size under which some element changes its slot exposes a slot that nothing filled. -/
theorem exposed (hg : Glob k owner w) {l : Pc} (hl : Local k owner t w l)
    (hkeeps : ¬KeepsSlots w.mem l) {m : Mem} {l' : Pc} {es : List Event}
    (h : access w.mem l = some (m, l', es)) :
    ∃ i v, m.top.toNat ≤ i ∧ i < m.bottom.toNat ∧ lastPut w.notes i = some v ∧
      slot m m.array i = 0 := by
  cases l with
  | resizeNewSize x b a size newA top bottom =>
    obtain ⟨hp, ⟨-, rfl, hsource⟩, rfl, rfl, -⟩ := hl
    simp only [KeepsSlots, Option.some.injEq, not_forall] at hkeeps
    obtain ⟨harray, i, hi, hi', hne⟩ := hkeeps
    obtain ⟨-, hsize, -⟩ := hsource.resolve_left fun h => by cases harray.trans h.1
    rw [← harray, hsize] at hne
    change ¬i % 8 = i % 4 at hne
    simp only [access, Option.some.injEq, Prod.mk.injEq] at h
    obtain ⟨rfl, -, -⟩ := h
    refine ⟨i, _, hi, hi', hg.put i hi (hp.2.2.1 ▸ hi'), ?_⟩
    simp only [slot, ← harray, hsize, Function.update_self]
    exact hg.fresh (.inr hsize) _ (by change 4 ≤ i % 8; omega)
  | _ => exact absurd trivial hkeeps

end Ends

/-- **Resizing twice.** In every run of at most two resizes, each of which leaves the elements
present in their slots when it stores a new size for the array in use, every take and every
steal returns the value stored for the index it removes, and no index present has an unfilled
slot. A step that stores such a size although some element would change its slot exposes a slot
that is still as `create` left it. -/
theorem resize_transparent [DecidableEq T] {owner : T} {tr : List (T × (Event ⊕ Note))}
    {c : Config T Mem Pc} (hrun : (noted T).Run (inPlace owner) (start T create) tr c)
    (hfirst : PushFirst owner (events tr)) (hfew : resizes (events tr) ≤ 2) :
    Transparent tr c.mem ∧ ∀ t m l es, access c.mem (c.loc t) = some (m, l, es) →
      ¬KeepsSlots c.mem (c.loc t) → ∃ i v, m.top.toNat ≤ i ∧ i < m.bottom.toNat ∧
        lastPut (notes tr) i = some v ∧ slot m m.array i = 0 := by
  have hkeep : (noted T).Run (Ends.keeping 2 owner) (start T create) tr c :=
    hrun.mono fun _ _ _ h => ⟨h.1, fun _ => h.2⟩
  obtain ⟨w, hmem, hhist, hg, hl⟩ :=
    (Ends.outline owner (Nat.le_refl 2) fun _ => rfl).sound Ends.Few.of_append
      (Ends.holds_start .create _ _) hkeep ⟨hfirst, hfew⟩
  have hmem : w.mem = c.mem := hmem
  have hhist : w.hist = tr := hhist
  rw [← hmem, ← hhist]
  refine ⟨Ends.Glob.transparent hg, fun t m l es h hkeeps => ?_⟩
  rw [(Ends.Glob.logged hg).notes]
  exact Ends.exposed hg (hl t) hkeeps h

/-- The steps of `inPlace` that no condition on the memory restricts. -/
def inPlaceAt (t : Bool) (l : Pc) (a : Act) : Bool :=
  inRole true t l a && match l with
    | .resizeNewSize .. => false
    | _ => true

theorem inPlace_of_at (c : Config Bool Mem Pc) (t : Bool) (a : Act) (h : inPlaceAt t (c.loc t) a) :
    inPlace true c t a := by
  obtain ⟨hrole, hl⟩ := Bool.and_eq_true_iff.mp h
  refine ⟨hrole, ?_⟩
  cases hloc : c.loc t <;> first | trivial | simp [hloc] at hl

/-- The slots after four pushes. -/
def full : Mem :=
  { ((((((create.store .initial 0 1).store .initial 1 2).store .new 0 1).store .new 1 2).store .new 2
    3).store .new 3 4) with array := .new }

/-- The theorem where the elements at 0 to 3 keep their slots as the size becomes 8, and a thief
that has read the size 4 steals the first of them. -/
theorem resize_transparent_stale_size : ∃ (tr : List (Bool × (Event ⊕ Note))) (c : Config Bool Mem Pc),
    (noted Bool).Run (inPlace true) (start Bool create) tr c ∧ resizes (events tr) = 2 ∧
      (false, Sum.inr (.got 0 1)) ∈ tr ∧ Transparent tr c.mem := by
  have h₀ : (noted Bool).Run (inPlace true) (start Bool create) [] (start Bool create) := .start
  have h₁ := h₀.soloAt inPlaceAt inPlace_of_at true
    (.call (.push 1) :: List.replicate 8 .run ++ .call (.push 2) :: List.replicate 8 .run ++
      .call (.push 3) :: List.replicate 8 .run)
    { (create.store .initial 0 1).store .initial 1 2 with bottom := 2 }
    (.resizeNewSize 3 2 .initial 2 (some .new) 0 2)
    [.inl (.call (.push 1)), .inr (.put 0 1), .inl .lin, .inl (.ret none), .inl (.call (.push 2)),
      .inr (.put 1 2), .inl .lin, .inl (.ret none), .inl (.call (.push 3)), .inl .resize] rfl
  have h₂ := h₁.step (t := true) (a := Act.run) rfl ⟨rfl, fun h => by cases h⟩
  have h₃ := h₂.soloAt inPlaceAt inPlace_of_at true
    (List.replicate 10 .run ++ .call (.push 4) :: List.replicate 8 .run ++
      .call (.push 5) :: List.replicate 8 .run)
    { full with bottom := 4, size := Function.update create.size .new 4 }
    (.resizeNewSize 5 4 .new 4 (some .new) 0 4)
    [.inr (.put 2 3), .inl .lin, .inl (.ret none), .inl (.call (.push 4)), .inr (.put 3 4), .inl .lin,
      .inl (.ret none), .inl (.call (.push 5)), .inl .resize] rfl
  have h₄ := h₃.soloAt inPlaceAt inPlace_of_at false (.call .steal :: List.replicate 4 .run)
    { full with bottom := 4, size := Function.update create.size .new 4 } (.stealBuffer 0 .new 4)
    [.inl (.call .steal)] rfl
  have h₅ := h₄.step (t := true) (a := Act.run) rfl ⟨rfl, fun _ i _ hi => by
    have hi : i < 4 := hi
    change i % 8 = i % 4
    omega⟩
  have h₆ := h₅.soloAt inPlaceAt inPlace_of_at true (List.replicate 14 .run) _ .idle
    [.inr (.put 4 5), .inl .lin, .inl (.ret none)] rfl
  have h₇ := h₆.soloAt inPlaceAt inPlace_of_at false (List.replicate 3 .run) _ .idle
    [.inl .lin, .inr (.got 0 1), .inl (.ret (some 1))] rfl
  refine ⟨_, _, h₇, rfl, List.mem_append_right _ (.tail _ (.head _)),
    (resize_transparent h₇ (fun pre post h => ?_) (by decide)).1⟩
  cases pre with
  | nil => cases (List.cons.inj h).1
  | cons e pre => exact ⟨1, List.mem_cons.mpr (.inl (List.cons.inj h).1)⟩

/-- The slots after four pushes, the first element taken in between. -/
def wrapped : Mem :=
  { ((((((create.store .initial 0 1).store .initial 1 2).store .initial 0 3).store .new 1 2).store
    .new 2 3).store .new 3 4) with top := 1, array := .new }

/-- A thief steals the element at index 4 under the size 8 before it has been copied to slot 4. -/
theorem unfilled_slot : ∃ (tr : List (Bool × (Event ⊕ Note))) (c : Config Bool Mem Pc),
    (noted Bool).Run (byRole true) (start Bool create) tr c ∧ PushFirst true (events tr) ∧
      resizes (events tr) = 2 ∧ ¬Transparent tr c.mem := by
  have h₀ : (noted Bool).Run (byRole true) (start Bool create) [] (start Bool create) := .start
  have hok : ∀ (c : Config Bool Mem Pc) t a, inRole true t (c.loc t) a → byRole true c t a :=
    fun _ _ _ h => h
  have h₁ := h₀.soloAt (inRole true) hok true
    (.call (.push 1) :: List.replicate 8 .run ++ .call .take :: List.replicate 9 .run ++
      .call (.push 2) :: List.replicate 8 .run)
    { (create.store .initial 0 1).store .initial 1 2 with top := 1, bottom := 2 } .idle
    [.inl (.call (.push 1)), .inr (.put 0 1), .inl .lin, .inl (.ret none), .inl (.call .take),
      .inl .lin, .inr (.got 0 1), .inl (.ret (some 1)), .inl (.call (.push 2)), .inr (.put 1 2),
      .inl .lin, .inl (.ret none)] rfl
  have h₂ := h₁.soloAt (inRole true) hok true
    (.call (.push 3) :: List.replicate 8 .run ++ .call (.push 4) :: List.replicate 19 .run)
    { wrapped with bottom := 4, size := Function.update create.size .new 4 } .idle
    [.inl (.call (.push 3)), .inr (.put 2 3), .inl .lin, .inl (.ret none), .inl (.call (.push 4)),
      .inl .resize, .inr (.put 3 4), .inl .lin, .inl (.ret none)] rfl
  have h₃ := h₂.soloAt (inRole true) hok true
    (.call (.push 5) :: List.replicate 8 .run ++ .call (.push 6) :: List.replicate 9 .run)
    { wrapped.store .new 0 5 with
      bottom := 5, size := Function.update (Function.update create.size .new 4) .new 8 }
    (.resizeLoad 6 5 .new 4 .new 1 5)
    [.inl (.call (.push 5)), .inr (.put 4 5), .inl .lin, .inl (.ret none), .inl (.call (.push 6)),
      .inl .resize] rfl
  have h₄ := h₃.soloAt (inRole true) hok false
    ((List.replicate 4 (.call .steal :: List.replicate 7 .run)).flatten) _ .idle
    [.inl (.call .steal), .inl .lin, .inr (.got 1 2), .inl (.ret (some 2)), .inl (.call .steal),
      .inl .lin, .inr (.got 2 3), .inl (.ret (some 3)), .inl (.call .steal), .inl .lin,
      .inr (.got 3 4), .inl (.ret (some 4)), .inl (.call .steal), .inl .lin, .inr (.got 4 0),
      .inl (.ret (some 0))] rfl
  refine ⟨_, _, h₄, fun pre post h => ?_, rfl, fun h => ?_⟩
  · cases pre with
    | nil => cases (List.cons.inj h).1
    | cons e pre => exact ⟨1, List.mem_cons.mpr (.inl (List.cons.inj h).1)⟩
  · exact absurd (h.got 9 false 4 0 rfl) (by decide)

end Cds.ChaseLev
