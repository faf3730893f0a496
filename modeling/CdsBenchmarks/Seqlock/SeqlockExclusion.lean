import CdsBenchmarks.Seqlock.SeqlockDefs

/-! Writers exclude each other as long as the parity test is not fooled. The test
`old_seq % 2 == 1` misses odd values once the signed counter is negative; the steps
that can go wrong there are a `read` that loads such a value, and a `write` whose
`compare_exchange` succeeds from it. -/

namespace Cds.Seqlock
open Concurrent Program

/-! ## What a step can do to the window -/

theorem step_window {a : Act} {m m' : Mem} {l l' : Pc} {es : List (Mark Op Res)}
    (h : step a m l = some (m', l', es)) :
    (m'.seq = m.seq ∧ l'.inWindow = l.inWindow) ∨
    (∃ d1 d2, l = .writeCas m.seq d1 d2 ∧ l' = .writeData1 d1 d2 ∧ m'.seq = m.seq + 1) ∨
    (∃ d1 d2, l = .writeAdd d1 d2 ∧ l' = .ret none ∧ m'.seq = m.seq + 1) := by
  cases a with
  | call o =>
    obtain ⟨rfl, rfl, rfl, rfl⟩ : l = .idle ∧ m = m' ∧ o.entry = l' ∧ [Mark.call o] = es := by
      simpa [step] using h
    exact .inl ⟨rfl, by cases o <;> rfl⟩
  | run =>
    cases l <;> simp only [step, access, reduceCtorEq] at h
    case writeCas oldSeq d1 d2 =>
      split at h <;> cases h
      · next hseq => exact .inr (.inl ⟨d1, d2, by rw [hseq], rfl, by rw [hseq]⟩)
      · exact .inl ⟨rfl, rfl⟩
    case writeAdd d1 d2 =>
      cases h
      exact .inr (.inr ⟨d1, d2, rfl, rfl, rfl⟩)
    all_goals
      try split at h
      all_goals
        cases h
        exact .inl ⟨rfl, rfl⟩

/-- A write reaches its `compare_exchange` only through the parity test. -/
theorem step_writeCas {a : Act} {m m' : Mem} {l : Pc} {es : List (Mark Op Res)}
    {oldSeq d1 d2 : CInt} (h : step a m l = some (m', .writeCas oldSeq d1 d2, es)) :
    busy oldSeq = false := by
  cases a with
  | call o => cases o <;> simp [step, Op.entry] at h
  | run =>
    cases l <;> simp only [step, access, reduceCtorEq] at h
    case writeSeq =>
      split at h <;> cases h
      next hbusy => simpa using hbusy
    all_goals
      try split at h
      all_goals cases h

theorem step_readSeq {a : Act} {m m' : Mem} {l' : Pc} {es : List (Mark Op Res)}
    (h : step a m .readSeq = some (m', l', es)) : l'.pastTest = !busy m.seq := by
  cases a with
  | call o => simp [step] at h
  | run =>
    simp only [step, access] at h
    split at h <;> cases h <;> simp_all [Pc.pastTest]

variable {T : Type*}

def Exclusive (c : Config T Mem Pc) : Prop :=
  ∀ t u, (c.loc t).inWindow → (c.loc u).inWindow → t = u

/-- A read that loads `_seq` while a writer is in its window does not get past the
parity test, where `l` is the point that the step of `t` leads to. -/
def ReadBlocked (c : Config T Mem Pc) (t : T) (l : Pc) : Prop :=
  c.loc t = .readSeq → (∃ u, (c.loc u).inWindow) → l.pastTest = false

/-- The step of `t` does not act on an odd value that the parity test misses. -/
def Seen (c : Config T Mem Pc) (t : T) (_ : Act) : Prop :=
  (c.loc t = .readSeq → hiddenOdd c.mem.seq = false) ∧
    ∀ d1 d2, c.loc t = .writeCas c.mem.seq d1 d2 → hiddenOdd c.mem.seq = false

namespace Exclusion

structure World (T : Type*) where
  mem : Mem
  hist : List (T × Mark Op Res)
  writer : Option T

/-- `_seq` is odd exactly while a writer is in its window. -/
def Glob (w : World T) : Prop := w.mem.seq.toNat % 2 = if w.writer.isSome then 1 else 0

structure Local (t : T) (w : World T) (l : Pc) : Prop where
  window : l.inWindow ↔ w.writer = some t
  passed : ∀ oldSeq d1 d2, l = .writeCas oldSeq d1 d2 → busy oldSeq = false

def Guar (t : T) (w w' : World T) : Prop := ∀ u, u ≠ t → (w'.writer = some u ↔ w.writer = some u)

/-- The compare-exchange of a writer that passed the parity test finds no other writer. -/
theorem writer_none {w : World T} {ls : T → Pc} {t : T} {a : Act} {d1 d2 : CInt} (hg : Glob w)
    (hl : Local t w (ls t)) (hG : Seen ⟨w.mem, ls⟩ t a) (hpc : ls t = .writeCas w.mem.seq d1 d2) :
    w.writer = none := by
  by_contra hne
  have hodd : w.mem.seq.toNat % 2 = 1 := by
    rw [hg, if_pos (Option.isSome_iff_ne_none.mpr hne)]
  have hseen := hG.2 d1 d2 hpc
  have hpassed := hl.passed _ d1 d2 hpc
  rcases (odd_iff _).mp hodd with h | h
  · simp [hpassed] at h
  · simp [hseen] at h

variable [DecidableEq T]

def outline : Outline (program T) Seen (fun _ => True) (World T) where
  mem := World.mem
  hist := World.hist
  glob := Glob
  loc := Local
  guar := Guar
  step := by
    intro w ls t a m l es hg hl hs hG _
    have hpassed : ∀ oldSeq d1 d2, l = .writeCas oldSeq d1 d2 → busy oldSeq = false := by
      rintro oldSeq d1 d2 rfl
      exact step_writeCas hs
    rcases step_window hs with ⟨hseq, hwin⟩ | ⟨d1, d2, hpc, rfl, hseq⟩ | ⟨d1, d2, hpc, rfl, hseq⟩
    · refine ⟨⟨m, _, w.writer⟩, rfl, rfl, ?_, ⟨?_, hpassed⟩, fun u _ => Iff.rfl⟩
      · change m.seq.toNat % 2 = _
        rw [hseq, hg]
      · rw [hwin]
        exact (hl t).window
    · have hnone := writer_none hg (hl t) hG hpc
      refine ⟨⟨m, _, some t⟩, rfl, rfl, ?_, ⟨by simp [Pc.inWindow], hpassed⟩, fun u hu => ?_⟩
      · have := hg
        simp only [Glob, hnone, Option.isSome_none] at this
        simp only [Glob, hseq, toNat_succ_mod_two, Option.isSome_some, if_true]
        simp at this
        omega
      · simp [hnone, Ne.symm hu]
    · have hsome : w.writer = some t := (hl t).window.mp (by simp [hpc, Pc.inWindow])
      refine ⟨⟨m, _, none⟩, rfl, rfl, ?_, ⟨by simp [Pc.inWindow], hpassed⟩, fun u hu => ?_⟩
      · have := hg
        simp only [Glob, hsome, Option.isSome_some, if_true] at this
        simp only [Glob, hseq, toNat_succ_mod_two, Option.isSome_none]
        simp
        omega
      · simp [hsome, Ne.symm hu]
  stable := by
    intro t u w w' l hu _ _ hl hguar
    exact ⟨hl.window.trans (hguar u hu).symm, hl.passed⟩

theorem holds_start : (outline (T := T)).Holds ⟨seqlock, [], none⟩ [] (start T) :=
  ⟨rfl, rfl, rfl, fun _ => ⟨by simp [start, Pc.inWindow], by simp [start]⟩⟩

theorem exclusive_of_holds {w : World T} {tr : List (T × Mark Op Res)} {c : Config T Mem Pc}
    (hw : outline.Holds w tr c) : Exclusive c := fun t u ht hu => by
  have h₁ := (hw.loc t).window.mp ht
  have h₂ := (hw.loc u).window.mp hu
  simpa [h₁] using h₂

/-- In a world of the outline, `_seq` is odd exactly when some writer is in its window. -/
theorem odd_iff_window {w : World T} {tr : List (T × Mark Op Res)} {c : Config T Mem Pc}
    (hw : outline.Holds w tr c) : c.mem.seq.toNat % 2 = 1 ↔ ∃ u, (c.loc u).inWindow := by
  have hg : c.mem.seq.toNat % 2 = if w.writer.isSome then 1 else 0 := hw.mem ▸ hw.glob
  constructor
  · intro hodd
    obtain ⟨u, hu⟩ : ∃ u, w.writer = some u := by
      cases hwr : w.writer with
      | none => simp [hwr] at hg; omega
      | some u => exact ⟨u, rfl⟩
    exact ⟨u, (hw.loc u).window.mpr hu⟩
  · rintro ⟨u, hu⟩
    rw [hg, (hw.loc u).window.mp hu]
    rfl

theorem seen_of_exclusive {w : World T} {tr : List (T × Mark Op Res)} {c : Config T Mem Pc}
    (hw : outline.Holds w tr c) {t : T} {a : Act} {m : Mem} {l : Pc} {es : List (Mark Op Res)}
    (hs : step a c.mem (c.loc t) = some (m, l, es)) (hex : Exclusive (move c t m l))
    (hrb : ReadBlocked c t l) : Seen c t a := by
  -- a hidden odd count is that of a writer in its window
  have hwin : hiddenOdd c.mem.seq = true → ∃ u, (c.loc u).inWindow := fun h =>
    (odd_iff_window hw).mp ((odd_iff _).mpr (.inr h))
  have hnot : hiddenOdd c.mem.seq = true → busy c.mem.seq = false := by
    intro h
    by_contra hb
    have h₁ := (hiddenOdd_iff _).mp h
    have h₂ := (busy_iff _).mp (by simpa using hb)
    omega
  constructor
  · intro hpc
    by_contra hhid
    have hhid : hiddenOdd c.mem.seq = true := by simpa using hhid
    have hpast := hrb hpc (hwin hhid)
    rw [step_readSeq (hpc ▸ hs), hnot hhid] at hpast
    simp at hpast
  · intro d1 d2 hpc
    by_contra hhid
    obtain ⟨u, hu⟩ := hwin (by simpa using hhid)
    have hne : u ≠ t := by
      rintro rfl
      simp [hpc, Pc.inWindow] at hu
    have hl : l.inWindow = true := by
      cases a <;> simp [hpc, step, access] at hs
      simp [← hs.2.1, Pc.inWindow]
    exact hne (hex u t (by rwa [move_loc_of_ne _ _ _ hne]) (by rwa [move_loc_self]))

end Exclusion

open Exclusion

variable [DecidableEq T]

/-- As long as every step sees the parity of `_seq`, writers exclude each other and reads
stay out of write windows; and the first step that does not see it breaks one of the two. -/
theorem exclusive_iff_seen {tr : List (T × Mark Op Res)} {c : Config T Mem Pc}
    (h : (program T).Run Seen (start T) tr c) : Exclusive c ∧ ∀ t a m l es,
      step a c.mem (c.loc t) = some (m, l, es) →
        (Exclusive (move c t m l) ∧ ReadBlocked c t l ↔ Seen c t a) := by
  obtain ⟨w, hw⟩ := outline.sound (fun _ => trivial) holds_start h trivial
  refine ⟨exclusive_of_holds hw, fun t a m l es hs => ⟨fun ⟨hex, hrb⟩ =>
    seen_of_exclusive hw hs hex hrb, fun hseen => ⟨?_, fun hpc hu => ?_⟩⟩⟩
  · obtain ⟨w', hw', -⟩ := hw.next hs hseen trivial
    exact exclusive_of_holds hw'
  · have hodd := (odd_iff_window hw).mpr hu
    have hbusy : busy c.mem.seq = true := by
      simpa [hseen.1 hpc] using (odd_iff _).mp hodd
    rw [step_readSeq (hpc ▸ hs), hbusy]
    rfl

/-- The theorem at a run that stops inside the first write. -/
theorem exclusive_iff_seen_first_write : ∃ c : Config Bool Mem Pc, (c.loc true).inWindow ∧
    Exclusive c ∧ ∀ t a m l es, step a c.mem (c.loc t) = some (m, l, es) →
      (Exclusive (move c t m l) ∧ ReadBlocked c t l ↔ Seen c t a) := by
  refine ⟨_, ?_, exclusive_iff_seen (.step (.step (.step .start
    (t := true) (a := .call (.write 3 4)) rfl ?_) (t := true) (a := .run) rfl ?_)
    (t := true) (a := .run) rfl ?_)⟩
  · rfl
  all_goals exact ⟨fun _ => by decide, fun _ _ _ => by decide⟩

/-! ## Past the wrap -/

theorem busy_ofNat_even (k : ℕ) : busy (BitVec.ofNat 32 (2 * k)) = false := by
  by_contra h
  have := (busy_iff _).mp (by simpa using h)
  rw [BitVec.toNat_ofNat] at this
  omega

/-- One write that meets no other thread. -/
theorem solo_write (seq : CInt) (h : busy seq = false) : (program Bool).solo true
    [.call (.write 0 0), .run, .run, .run, .run, .run, .run] ⟨seq, 0, 0⟩ .idle =
      some (⟨seq + 1 + 1, 0, 0⟩, .idle, [.call (.write 0 0), .lin, .ret none]) := by
  simp [solo, soloAt, program, step, access, Op.entry, h]

/-- `k` writes by one thread, one after the other. -/
theorem run_writes (k : ℕ) : ∃ tr, (program Bool).Run anyStep (start Bool) tr
    ⟨⟨BitVec.ofNat 32 (2 * k), 0, 0⟩, fun _ => .idle⟩ := by
  induction k with
  | zero => exact ⟨[], .start⟩
  | succ k ih =>
    obtain ⟨tr, htr⟩ := ih
    have hrun := htr.solo true _ _ _ _ (solo_write _ (busy_ofNat_even k))
    have hseq : BitVec.ofNat 32 (2 * k) + 1 + 1 = BitVec.ofNat 32 (2 * (k + 1)) := by
      rw [Nat.mul_add, BitVec.ofNat_add, BitVec.add_assoc]
      rfl
    simp only [move, Function.update_eq_self, hseq] at hrun
    exact ⟨_, hrun⟩

/-- After `2^30` writes a writer in its window leaves `_seq` odd and negative, and a
second writer enters. -/
theorem two_writers_past_wrap : ¬∀ (tr : List (Bool × Mark Op Res)) (c : Config Bool Mem Pc),
    (program Bool).Run anyStep (start Bool) tr c → Exclusive c ∧ ∀ t a m l es,
      step a c.mem (c.loc t) = some (m, l, es) → ReadBlocked c t l := by
  intro h
  obtain ⟨tr, hrun⟩ := run_writes (2 ^ 30)
  have h₁ := hrun.solo true [.call (.write 0 0), .run, .run] ⟨0x80000001, 0, 0⟩
    (.writeData1 0 0) [.call (.write 0 0)] rfl
  have h₂ := h₁.solo false [.call (.write 0 0), .run, .run] ⟨0x80000002, 0, 0⟩
    (.writeData1 0 0) [.call (.write 0 0)] rfl
  have := (h _ _ h₂).1 true false (by decide) (by decide)
  simp at this

end Cds.Seqlock
