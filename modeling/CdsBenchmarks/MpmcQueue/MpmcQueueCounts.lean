import CdsBenchmarks.MpmcQueue.MpmcQueueTickets

/-! The packed word counts the grants of both sides, and the answers `NULL` are exact, for
every capacity and for clients that call the four operations in any order. -/

namespace Cds.MpmcQueue
open Concurrent Program

/-! ## The packed word -/

/-- `rdwr` packs `r` grants to read and `w` grants to write. -/
def Packs (rdwr : Word) (r w : ℕ) : Prop := rdwr.toNat = r % 2 ^ 16 * 2 ^ 16 + w % 2 ^ 16

theorem toNat_and_ffff {n : ℕ} (hn : 16 ≤ n) (x : BitVec n) :
    (x &&& 0xFFFF).toNat = x.toNat % 2 ^ 16 := by
  have h : (0xFFFF : ℕ) < 2 ^ n := Nat.lt_of_lt_of_le (by decide) (Nat.pow_le_pow_right (by decide) hn)
  have hmask : (0xFFFF : BitVec n).toNat = 2 ^ 16 - 1 := Nat.mod_eq_of_lt h
  rw [BitVec.toNat_and, hmask, Nat.and_two_pow_sub_one_eq_mod]

section Packs
variable {x : Word} {r w : ℕ}

theorem toNat_rdOf (h : Packs x r w) : (rdOf x).toNat = r % 2 ^ 16 := by
  have hx := x.isLt
  rw [rdOf, toNat_and_ffff (by decide), BitVec.toNat_ushiftRight, Nat.shiftRight_eq_div_pow, h]
  omega

theorem toNat_wrOf (h : Packs x r w) : (wrOf x).toNat = w % 2 ^ 16 := by
  rw [wrOf, toNat_and_ffff (by decide), h]
  omega

theorem packs_next_read (h : Packs x r w) : Packs (Side.next x .read) (r + 1) w := by
  have hx := x.isLt
  unfold Packs at *
  rw [Side.next, BitVec.toNat_add, show ((1 : Word) <<< 16).toNat = 2 ^ 16 from rfl]
  omega

theorem packs_next_write (h : Packs x r w) : Packs (Side.next x .write) r (w + 1) := by
  have hr := toNat_rdOf h
  have hw := toNat_wrOf h
  unfold Packs
  have hlow : ((wrOf x + 1) &&& 0xFFFF).toNat = (w + 1) % 2 ^ 16 := by
    rw [toNat_and_ffff (by decide), BitVec.toNat_add, hw, show (1 : Word).toNat = 1 from rfl]
    omega
  have hhigh : (rdOf x <<< 16).toNat = 2 ^ 16 * (r % 2 ^ 16) := by
    rw [BitVec.toNat_shiftLeft, Nat.shiftLeft_eq, hr]
    omega
  rw [Side.next, BitVec.toNat_or, hhigh, hlow, ← Nat.two_pow_add_eq_or_of_lt (Nat.mod_lt _ (by decide))]
  omega

/-- The compare-exchange counts the grant of its side. -/
theorem packs_next {t : Tickets} (h : Packs x (t.granted .read) (t.granted .write)) (s : Side) :
    Packs (s.next x) ((t.grant s).granted .read) ((t.grant s).granted .write) := by
  cases s
  · exact packs_next_read h
  · exact packs_next_write h

end Packs

/-- There is nothing to read, or no room to write. -/
def Blocked (cap r w : ℕ) : Side → Prop
  | .read => w = r
  | .write => w = r + cap

section Refuses
variable {tSize : Size} {x : Word} {r w : ℕ}

theorem refuses_of_blocked (h : Packs x r w) {s : Side} (hb : Blocked tSize.toNat r w s) :
    s.refuses tSize x = true := by
  have hrd := toNat_rdOf h
  have hwr := toNat_wrOf h
  cases s <;> simp only [Side.refuses, beq_iff_eq, ← BitVec.toNat_inj, Blocked] at hb ⊢
  · rw [hrd, hwr, hb]
  · rw [toNat_and_ffff (by decide), BitVec.toNat_add, BitVec.toNat_setWidth,
      BitVec.toNat_setWidth, hrd, hwr]
    omega

/-- The test of the residues decides whether the operation is blocked. -/
theorem refuses_iff (hcap : tSize.toNat ≤ 65535) (h : Packs x r w) (hr : r ≤ w)
    (hw : w ≤ r + tSize.toNat) (s : Side) :
    s.refuses tSize x = true ↔ Blocked tSize.toNat r w s := by
  refine ⟨fun hs => ?_, refuses_of_blocked h⟩
  have hrd := toNat_rdOf h
  have hwr := toNat_wrOf h
  cases s <;> simp only [Side.refuses, beq_iff_eq, ← BitVec.toNat_inj, Blocked] at hs ⊢
  · rw [hrd, hwr] at hs
    omega
  · rw [toNat_and_ffff (by decide), BitVec.toNat_add, BitVec.toNat_setWidth,
      BitVec.toNat_setWidth, hrd, hwr] at hs
    omega

end Refuses

/-- The completed-operations counter of a side. -/
def finishedOf (m : Mem) : Side → Word
  | .read => m.read
  | .write => m.written

/-! ## Clients without a discipline -/

/-- A thread may call either operation again without publishing or consuming its bin, and
may publish or consume what it does not hold. -/
inductive FreeAct
  | call (s : Side)
  | run
  | spurious
  | finish (s : Side) (bin : Size)
deriving DecidableEq, Repr

/-- The thread is in neither `read_fetch` nor `write_prepare`. -/
def Pc.outside : Pc → Bool
  | .idle | .hold _ _ => true
  | _ => false

/-- The operation that the thread is in and has not been granted. -/
def Pc.trying : Pc → Option Side
  | .load s | .cas s _ => some s
  | _ => none

section Free
variable (tSize : Size)

def freeStep (a : FreeAct) (m : Mem) (l : Pc) : Option (Mem × Pc × List Event) :=
  match a with
  | .call s => if l.outside then some (m, .load s, [.call s]) else none
  | .run => access tSize false m l
  | .spurious => access tSize true m l
  | .finish s bin => if l.outside then some (s.finish m, .idle, [.finished s bin]) else none

def freeProgram (T : Type*) : Program T Mem Pc FreeAct Event := ⟨fun _ => freeStep tSize⟩

/-- What a step can do, if operations start at the points `starts` and bins are given back
at the points `ends`. -/
inductive Moves (starts : Pc → Prop) (ends : Pc → Side → Size → Prop) (m : Mem) :
    Pc → Mem → Pc → List Event → Prop
  | call {l : Pc} (s : Side) (h : starts l) : Moves starts ends m l m (.load s) [.call s]
  | refused {l : Pc} {s : Side} (h : l.trying = some s) (hr : s.refuses tSize m.rdwr = true) :
      Moves starts ends m l m .idle [.returned s none]
  | tested {l : Pc} {s : Side} (h : l.trying = some s) (hr : s.refuses tSize m.rdwr = false) :
      Moves starts ends m l m (.cas s m.rdwr) []
  | granted (s : Side) : Moves starts ends m (.cas s m.rdwr) { m with rdwr := s.next m.rdwr }
      (.wait s (rdOf m.rdwr) (wrOf m.rdwr)) [.granted s]
  | blocked (s : Side) (rd wr : Word) :
      Moves starts ends m (.wait s rd wr) m (.wait s rd wr) []
  | entered (s : Side) (rd wr : Word) (hr : s.ready m rd wr = true) :
      Moves starts ends m (.wait s rd wr) m (.hold s (s.bin tSize rd wr))
        [.returned s (some (s.bin tSize rd wr))]
  | finish {l : Pc} (s : Side) (bin : Size) (h : ends l s bin) :
      Moves starts ends m l (s.finish m) .idle [.finished s bin]

end Free

section Moves
variable {T : Type*} {tSize : Size} {starts : Pc → Prop} {ends : Pc → Side → Size → Prop}
  {m m' : Mem} {l l' : Pc} {es : List Event}

theorem moves_test {s : Side} (h : l.trying = some s) :
    Moves tSize starts ends m l m (test tSize s m.rdwr).1 (test tSize s m.rdwr).2 := by
  unfold test
  split
  · next hr => exact .refused h hr
  · next hr => exact .tested h (by simpa using hr)

theorem moves_of_access {b : Bool} (h : access tSize b m l = some (m', l', es)) :
    Moves tSize starts ends m l m' l' es := by
  have htest : ∀ {s}, l.trying = some s → some (m, test tSize s m.rdwr) = some (m', l', es) →
      Moves tSize starts ends m l m' l' es := by
    intro s hl heq
    obtain ⟨rfl, hpair⟩ := Prod.mk.inj (Option.some.inj heq)
    have hmove : Moves tSize starts ends m l m (test tSize s m.rdwr).1 (test tSize s m.rdwr).2 :=
      moves_test hl
    rwa [hpair] at hmove
  cases l with
  | idle | hold => cases h
  | load s => exact htest rfl h
  | cas s rdwr =>
    simp only [access] at h
    split_ifs at h with hcas
    · obtain rfl : m.rdwr = rdwr := (by simpa using hcas : _ ∧ _).1
      cases h
      exact .granted s
    · exact htest rfl h
  | wait s rd wr =>
    simp only [access] at h
    split_ifs at h with hready
    · cases h
      exact .entered s rd wr hready
    · cases h
      exact .blocked s rd wr

theorem moves_of_freeStep {a : FreeAct} (h : freeStep tSize a m l = some (m', l', es)) :
    Moves tSize (fun l => l.outside = true) (fun l _ _ => l.outside = true) m l m' l' es := by
  cases a with
  | call s =>
    obtain ⟨ho, heq⟩ := Option.ite_none_right_eq_some.mp h
    cases heq
    exact .call s ho
  | run | spurious => exact moves_of_access h
  | finish s bin =>
    obtain ⟨ho, heq⟩ := Option.ite_none_right_eq_some.mp h
    cases heq
    exact .finish s bin ho

theorem moves_of_step {a : Act} (h : step tSize a m l = some (m', l', es)) :
    Moves tSize (fun l => l = .idle) (fun l s bin => l = .hold s bin) m l m' l' es := by
  cases a with
  | call s =>
    obtain ⟨hl, heq⟩ := Option.ite_none_right_eq_some.mp h
    cases heq
    exact .call s hl
  | run | spurious => exact moves_of_access h
  | finish =>
    cases l with
    | hold s bin =>
      cases h
      exact .finish s bin rfl
    | _ => cases h

/-- The clients that publish or consume each bin before their next call are among them. -/
theorem freeStep_of_step {a : Act} (h : step tSize a m l = some (m', l', es)) :
    ∃ a', freeStep tSize a' m l = some (m', l', es) := by
  cases a with
  | call s =>
    obtain ⟨rfl, heq⟩ := Option.ite_none_right_eq_some.mp h
    exact ⟨.call s, heq⟩
  | run => exact ⟨.run, h⟩
  | spurious => exact ⟨.spurious, h⟩
  | finish =>
    cases l with
    | hold s bin => exact ⟨.finish s bin, h⟩
    | _ => cases h

theorem free_of_run [DecidableEq T] {c₀ c : Config T Mem Pc} {tr : List (T × Event)}
    (h : (program tSize T).Run anyStep c₀ tr c) : (freeProgram tSize T).Run anyStep c₀ tr c := by
  induction h with
  | start => exact .start
  | step _ hs _ ih =>
    obtain ⟨a', hs'⟩ := freeStep_of_step hs
    exact ih.step (a := a') hs' trivial

end Moves

/-! ## The counts -/

section Counts
variable {T : Type*}

/-- The grants of a side, a number without bound. -/
def grants (s : Side) (h : List (T × Event)) : ℕ := occurrences (.granted s) h

/-- `m_rdwr` packs the two counts, and they differ by the number of elements. -/
structure Counts (cap : ℕ) (h : List (T × Event)) (m : Mem) : Prop where
  packs : Packs m.rdwr (grants .read h) (grants .write h)
  reads : grants .read h ≤ grants .write h
  writes : grants .write h ≤ grants .read h + cap

theorem grants_snoc (s : Side) (h : List (T × Event)) (t : T) (e : Event) :
    grants s (h ++ [(t, e)]) = grants s h + if e = .granted s then 1 else 0 := occurrences_snoc ..

theorem grants_of_ne {s : Side} (h : List (T × Event)) (t : T) {e : Event} (he : e ≠ .granted s) :
    grants s (h ++ [(t, e)]) = grants s h := by
  rw [grants_snoc, if_neg he, Nat.add_zero]

/-- A grant is possible exactly if the operation is not blocked. -/
theorem Counts.free_iff {tSize : Size} (hcap : tSize.toNat ≤ 65535) {h : List (T × Event)} {m : Mem}
    (hc : Counts tSize.toNat h m) (s : Side) : s.refuses tSize m.rdwr = false ↔
      ¬Blocked tSize.toNat (grants .read h) (grants .write h) s := by
  rw [← refuses_iff hcap hc.packs hc.reads hc.writes s, Bool.not_eq_true]

/-- A step that grants nothing. -/
theorem Counts.other {cap : ℕ} {h : List (T × Event)} {m m' : Mem} (hc : Counts cap h m)
    (hm : m'.rdwr = m.rdwr) (t : T) {e : Event} (he : ∀ s, e ≠ .granted s) :
    Counts cap (h ++ [(t, e)]) m' := by
  have hg : ∀ s, grants s (h ++ [(t, e)]) = grants s h := fun s => grants_of_ne h t (he s)
  exact ⟨by rw [hg, hg, hm]; exact hc.packs, by rw [hg, hg]; exact hc.reads,
    by rw [hg, hg]; exact hc.writes⟩

theorem Counts.grant {tSize : Size} (hcap : tSize.toNat ≤ 65535) {h : List (T × Event)} {m : Mem}
    (hc : Counts tSize.toNat h m) (t : T) {s : Side} (hs : s.refuses tSize m.rdwr = false) :
    Counts tSize.toNat (h ++ [(t, .granted s)]) { m with rdwr := s.next m.rdwr } := by
  have hfree := (hc.free_iff hcap s).mp hs
  have hr := hc.reads
  have hw := hc.writes
  have hg := fun s' => grants_snoc s' h t (.granted s)
  cases s with
  | read =>
    have hread : grants .read (h ++ [(t, .granted .read)]) = grants .read h + 1 := hg .read
    have hwrite : grants .write (h ++ [(t, .granted .read)]) = grants .write h := hg .write
    simp only [Blocked] at hfree
    exact ⟨by rw [hread, hwrite]; exact packs_next_read hc.packs, by omega, by omega⟩
  | write =>
    have hread : grants .read (h ++ [(t, .granted .write)]) = grants .read h := hg .read
    have hwrite : grants .write (h ++ [(t, .granted .write)]) = grants .write h + 1 := hg .write
    simp only [Blocked] at hfree
    exact ⟨by rw [hread, hwrite]; exact packs_next_write hc.packs, by omega, by omega⟩

theorem counts_start (cap : ℕ) : Counts cap ([] : List (T × Event)) mpmcBoundq :=
  ⟨by simp [Packs, grants, occurrences, mpmcBoundq], Nat.le_refl _, Nat.zero_le _⟩

/-- A value still to be exchanged has passed the test. -/
def Tested (tSize : Size) : Pc → Prop
  | .cas s rdwr => s.refuses tSize rdwr = false
  | _ => True

section Moves
variable {tSize : Size} {starts : Pc → Prop} {ends : Pc → Side → Size → Prop} {m m' : Mem} {l l' : Pc}
  {es : List Event}

theorem Moves.tested_next (h : Moves tSize starts ends m l m' l' es) : Tested tSize l' := by
  cases h with
  | tested _ hr => exact hr
  | _ => trivial

theorem Moves.counts (hcap : tSize.toNat ≤ 65535) (h : Moves tSize starts ends m l m' l' es)
    {tr : List (T × Event)} (hc : Counts tSize.toNat tr m) (hl : Tested tSize l) (t : T) :
    Counts tSize.toNat (tr ++ emit t es) m' := by
  cases h with
  | call s | refused | entered => exact hc.other rfl t (by simp)
  | tested | blocked => simpa using hc
  | granted s => exact hc.grant hcap t hl
  | finish s => exact hc.other (by cases s <;> rfl) t (by simp)

end Moves

variable [DecidableEq T] {tSize : Size} {tr : List (T × Event)} {c : Config T Mem Pc}

theorem counts_of_run (hcap : tSize.toNat ≤ 65535)
    (hrun : (freeProgram tSize T).Run anyStep (start T) tr c) :
    Counts tSize.toNat tr c.mem ∧ ∀ t, Tested tSize (c.loc t) := by
  have h₀ : ∀ t, Tested tSize ((start T).loc t) := fun _ => trivial
  refine hrun.invariant (I := fun tr c => Counts tSize.toNat tr c.mem ∧ ∀ t, Tested tSize (c.loc t))
    ⟨counts_start tSize.toNat, h₀⟩ ?_
  intro tr c t a m l es ⟨hc, hl⟩ hs _
  have hmove := moves_of_freeStep hs
  exact ⟨hmove.counts hcap hc (hl t) t,
    forall_move (P := fun _ => Tested tSize) hmove.tested_next fun u _ => hl u⟩

/-- What a step says about the counts: `NULL` is returned by the step that obtains the value
tested, and a grant is a successful compare-exchange. -/
structure StepCounts (cap : ℕ) (tr : List (T × Event)) (t : T) (m : Mem) (l : Pc) (m' : Mem)
    (es : List Event) : Prop where
  null : ∀ s, .returned s none ∈ es →
    l.trying = some s ∧ m' = m ∧ Blocked cap (grants .read tr) (grants .write tr) s
  grant : ∀ s, .granted s ∈ es → l = .cas s m.rdwr ∧ m' = { m with rdwr := s.next m.rdwr } ∧
    grants s (tr ++ emit t es) = grants s tr + 1 ∧
    grants s.other (tr ++ emit t es) = grants s.other tr
  keep : (∀ s, .granted s ∉ es) → m'.rdwr = m.rdwr ∧ ∀ s, grants s (tr ++ emit t es) = grants s tr

omit [DecidableEq T] in
theorem Moves.stepCounts (hcap : tSize.toNat ≤ 65535) {starts : Pc → Prop}
    {ends : Pc → Side → Size → Prop} {m m' : Mem} {l l' : Pc} {es : List Event}
    (h : Moves tSize starts ends m l m' l' es) (hc : Counts tSize.toNat tr m) (t : T) :
    StepCounts tSize.toNat tr t m l m' es := by
  have hkeep : ∀ {e : Event}, (∀ s, e ≠ .granted s) → ∀ s, grants s (tr ++ [(t, e)]) = grants s tr :=
    fun he s => grants_of_ne tr t (he s)
  cases h with
  | call s => exact ⟨by simp, by simp, fun _ => ⟨rfl, hkeep (by simp)⟩⟩
  | @refused _ s hl hr =>
    refine ⟨fun s' hs' => ?_, by simp, fun _ => ⟨rfl, hkeep (by simp)⟩⟩
    obtain rfl : s' = s := by simpa using hs'
    exact ⟨hl, rfl, (refuses_iff hcap hc.packs hc.reads hc.writes s').mp hr⟩
  | tested | blocked => exact ⟨by simp, by simp, fun _ => ⟨rfl, by simp⟩⟩
  | granted s =>
    refine ⟨by simp, fun s' hs' => ?_, fun hno => absurd (List.mem_singleton_self _) (hno s)⟩
    obtain rfl : s' = s := by simpa using hs'
    exact ⟨rfl, rfl, by simp [grants_snoc], by cases s' <;> simp [grants_snoc, Side.other]⟩
  | entered => exact ⟨by simp, by simp, fun _ => ⟨rfl, hkeep (by simp)⟩⟩
  | finish s => exact ⟨by simp, by simp, fun _ => ⟨by cases s <;> rfl, hkeep (by simp)⟩⟩

/-- In every reachable state `m_rdwr` packs the numbers of granted reads and writes and the
queue holds at most `t_size` elements; `NULL` means that it was empty or full when the value
tested was obtained; and a grant, the only step that changes `m_rdwr`, raises one of the two
counts by one. -/
theorem counts_exact (hcap : tSize.toNat ≤ 65535)
    (hrun : (freeProgram tSize T).Run anyStep (start T) tr c) :
    Counts tSize.toNat tr c.mem ∧ ∀ t a m l es,
      (freeProgram tSize T).step t a c.mem (c.loc t) = some (m, l, es) →
      StepCounts tSize.toNat tr t c.mem (c.loc t) m es := by
  have hc := (counts_of_run hcap hrun).1
  exact ⟨hc, fun t a m l es hs => (moves_of_freeStep hs).stepCounts hcap hc t⟩

/-- A thread that holds the only bin calls `write_prepare` again and finds the queue full. -/
theorem counts_exact_full :
    Counts 1 [((), .call .write), ((), .granted .write), ((), .returned .write (some 0)),
      ((), .call .write)] ⟨1, 0, 0⟩ ∧
    StepCounts 1 [((), .call .write), ((), .granted .write), ((), .returned .write (some 0)),
      ((), .call .write)] () ⟨1, 0, 0⟩ (.load .write) ⟨1, 0, 0⟩ [.returned .write none] := by
  have hrun : (freeProgram 1 Unit).Run anyStep (start Unit) _ _ :=
    Run.start.solo () [.call .write, .run, .run, .run, .call .write] ⟨1, 0, 0⟩ (.load .write)
      [.call .write, .granted .write, .returned .write (some 0), .call .write] rfl
  obtain ⟨hc, hstep⟩ := counts_exact (by decide) hrun
  exact ⟨hc, hstep () .run ⟨1, 0, 0⟩ .idle [.returned .write none] rfl⟩

end Counts

end Cds.MpmcQueue
