import CdsBenchmarks.ChaseLev.DequeInvariant

/-! Every step of the deque, for what the calls return and for what is stored. Each operation
takes effect at one access: a push when it publishes the new `bottom`, a take when it loads
`top` or, for the last element, at its compare-exchange, and a steal at its compare-exchange.

The first resize copies the elements to `newArray` before it publishes that array. The second
finds it published already: it stores the new size first, and the thieves use it while the
elements are still being copied. This does no harm where no element changes its slot. -/

namespace Cds.ChaseLev
open Concurrent Program

variable {T : Type*}

namespace Ends

/-- What a step does to the atomic deque: nothing, or the transition of the call under way. -/
inductive Effect [DecidableEq T] (t : T) (s : List CInt) (st : T → Status Op (Option CInt)) :
    List Event → List CInt → (T → Status Op (Option CInt)) → Prop
  | quiet : Effect t s st [] s st
  | lin {o r s'} (hst : st t = .pending o) (hpost : deque.post s o r s') :
      Effect t s st [.lin] s' (Function.update st t (.done o r))

section Effect
variable [DecidableEq T] {t u : T} {s s' : List CInt} {st st' : T → Status Op (Option CInt)}
  {es : List Event}

theorem Effect.replay (he : Effect t s st es s' st') {h : List (T × Event)}
    (hr : deque.Replay (history h) s st) : deque.Replay (history (h ++ emit t es)) s' st' := by
  cases he with
  | quiet => rwa [emit_nil, List.append_nil]
  | lin hst hpost =>
    rw [emit_cons, emit_nil, history_snoc _ _ rfl]
    exact hr.lin hst hpost

theorem Effect.other (he : Effect t s st es s' st') (hu : u ≠ t) : st' u = st u := by
  cases he with
  | quiet => rfl
  | lin => exact Function.update_of_ne hu ..

theorem Effect.count_resize (he : Effect t s st es s' st') : es.count .resize = 0 := by
  cases he <;> rfl

theorem Effect.notMem (he : Effect t s st es s' st') {e : Event} (hne : e ≠ .lin) : e ∉ es := by
  cases he with
  | quiet => exact List.not_mem_nil
  | lin => exact fun h => hne (List.mem_singleton.mp h)

end Effect

/-- What a step of `t` with events `es` and notes `ks` adds to the trace. -/
abbrev record (t : T) (es : List Event) (ks : List Note) : List (T × (Event ⊕ Note)) :=
  emit t (es.map Sum.inl ++ ks.map Sum.inr)

/-- Such a step is accounted for. -/
abbrev Follows [DecidableEq T] (k : ℕ) (owner t : T) (w : World T) (m : Mem) (l : Pc) (es : List Event)
    (ks : List Note) : Prop :=
  (assertions k owner).Follows t w m l (es.map Sum.inl ++ ks.map Sum.inr)

section Steps
variable {k : ℕ} {owner t : T} {w : World T} {es : List Event} {ks : List Note} {m : Mem} {l : Pc}

theorem resizes_emit (es : List Event) : resizes (emit t es) = es.count .resize := by
  simp [resizes, occurrences, emit, List.countP_map, Function.comp_def, List.count, beq_eq_decide]

theorem Logged.extend (h : Logged owner w) (es : List Event) (ks : List Note) {w' : World T}
    (hexplained : Explained w'.hist) (hhist : w'.hist = w.hist ++ record t es ks)
    (hnotes : w'.notes = w.notes ++ emit t ks) (hresized : w'.resized = w.resized + es.count .resize)
    (hbegun : w.begun → w'.begun)
    (hpush : ∀ x, .call (.push x) ∈ es → t = owner → w'.begun) : Logged owner w' := by
  have hevents : events w'.hist = events w.hist ++ emit t es := by
    rw [hhist, events_append, events_emit]
  refine ⟨hexplained, ?_, ?_, fun ⟨x, hx⟩ => ?_⟩
  · rw [hhist, notes_append, notes_emit, h.notes, hnotes]
  · rw [hevents, resizes_append, h.resized, resizes_emit, hresized]
  · rw [hevents] at hx
    rcases List.mem_append.mp hx with hx | hx
    · exact hbegun (h.pushed ⟨x, hx⟩)
    · obtain ⟨e, he, heq⟩ := List.mem_map.mp hx
      cases heq
      exact hpush x he rfl

theorem Logged.next (h : Logged owner w) (es : List Event) (ks : List Note) (hes : ∀ r, .ret r ∉ es)
    (hks : ∀ i x, (Note.got i x) ∈ ks → ks = [.got i x] ∧ lastPut w.notes i.toNat = some x)
    {w' : World T} (hhist : w'.hist = w.hist ++ record t es ks)
    (hnotes : w'.notes = w.notes ++ emit t ks) (hresized : w'.resized = w.resized + es.count .resize)
    (hbegun : w.begun → w'.begun)
    (hpush : ∀ x, .call (.push x) ∈ es → t = owner → w'.begun) : Logged owner w' :=
  h.extend es ks (hhist ▸ h.explained.append hes (h.notes.symm ▸ hks)) hhist hnotes hresized hbegun
    hpush

theorem Local.rehist (h : Local k owner t w l) (hist : List (T × (Event ⊕ Note))) (s : List CInt) :
    Local k owner t { w with hist := hist, s := s } l := by
  cases l <;> exact h

variable [DecidableEq T] {s : List CInt} {st : T → Status Op (Option CInt)}

/-- A step that may take effect and removes no index, so that it needs no note. -/
theorem Logged.effect (h : Logged owner w) (he : Effect t w.s w.st es s st) (m : Mem) (bot : ℕ) :
    Logged owner { w with
      mem := m, hist := w.hist ++ record t es [], s := s, st := st, bot := bot } :=
  h.next es [] (fun _ => he.notMem (by simp)) (fun _ _ hk => absurd hk List.not_mem_nil) rfl
    (List.append_nil _).symm (by rw [he.count_resize]; rfl) id
    fun _ hx => absurd hx (he.notMem (by simp))

theorem Glob.replay_emit (hg : Glob k owner w) (he : Effect t w.s w.st es s st) (ks : List Note) :
    deque.Replay (history (events (w.hist ++ record t es ks))) s st := by
  rw [events_append, events_emit]
  exact he.replay hg.replay

theorem follows_quiet (hg : Glob k owner w) (he : Effect t w.s w.st es w.s st)
    (hl : Local k owner t { w with st := st } l) : Follows k owner t w w.mem l es [] :=
  ⟨{ w with hist := w.hist ++ record t es [], st := st }, rfl, rfl,
    ⟨hg.replay_emit he [], hg.shape, hg.put, hg.grown, hg.fresh, hg.logged.effect he w.mem w.bot⟩,
    hl.rehist _ w.s,
    .of_mem [] (fun _ hu => he.other hu) rfl rfl rfl (List.append_nil _).symm
      fun _ => ⟨rfl, rfl, fun _ => rfl⟩⟩

/-- A step of the owner that leaves the thieves the oldest element where it is. -/
theorem follows_owner (hg : Glob k owner w) (bot : ℕ) (he : Effect t w.s w.st es s st) (ht : t = owner)
    (htop : m.top = w.mem.top) (hshape : Shape k m s bot w.elem)
    (hput : ∀ i, w.top ≤ i → i < bot → lastPut w.notes i = some (w.elem i))
    (hgrown : Grown m w.resized)
    (hfresh : m.array = .initial ∨ m.size .new = 4 → ∀ j, 4 ≤ j → m.buffer .new j = 0)
    (huse : ∀ a, InUse w.mem a → InUse m a)
    (holdest : w.top < w.bot → w.top < bot ∧ ∀ a, InUse w.mem a →
      w.top % (m.size a).toNat = w.top % (w.mem.size a).toNat ∧ slot m a w.top = slot w.mem a w.top)
    (hl : Local k owner t { w with mem := m, st := st, bot := bot } l) :
    Follows k owner t w m l es [] := by
  refine ⟨_, rfl, rfl, ⟨hg.replay_emit he [], hshape, ?_, hgrown, hfresh, hg.logged.effect he m bot⟩,
    hl.rehist _ s, fun _ hu => he.other hu, ⟨[], (List.append_nil _).symm⟩,
    Nat.le_of_eq (congrArg BitVec.toNat htop.symm), huse, fun _ hlt => ?_, fun h => absurd ht h⟩
  · have htop' : m.top.toNat = w.top := congrArg BitVec.toNat htop
    exact fun i hi hi' => hput i (htop' ▸ hi) hi'
  · obtain ⟨hlt', hslots⟩ := holdest hlt
    exact ⟨hlt', rfl, fun a ha => ⟨(hslots a ha).1, fun h => (hslots a ha).2.trans h⟩⟩

/-- A step of the owner that changes no array. -/
theorem follows_bottom (hg : Glob k owner w) (bot : ℕ) (he : Effect t w.s w.st es s st) (ht : t = owner)
    {b : Size} (hshape : Shape k { w.mem with bottom := b } s bot w.elem)
    (hput : ∀ i, w.top ≤ i → i < bot → lastPut w.notes i = some (w.elem i))
    (hbot : w.top < w.bot → w.top < bot)
    (hl : Local k owner t { w with mem := { w.mem with bottom := b }, st := st, bot := bot } l) :
    Follows k owner t w { w.mem with bottom := b } l es [] :=
  follows_owner hg bot he ht rfl hshape hput hg.grown hg.fresh (fun _ ha => ha)
    (fun h => ⟨hbot h, fun _ _ => ⟨rfl, rfl⟩⟩) hl

/-- A write to `newArray` before the first resize has published it. -/
theorem follows_unused (hg : Glob k owner w) (ht : t = owner) (harray : w.mem.array = .initial)
    (htop : m.top = w.mem.top) (hbottom : m.bottom = w.mem.bottom) (harray' : m.array = w.mem.array)
    (hnewA : m.newArray = w.mem.newArray) (hsize : m.size .initial = w.mem.size .initial)
    (hslot : ∀ i, slot m .initial i = slot w.mem .initial i)
    (hfresh : ∀ j, 4 ≤ j → m.buffer .new j = 0) (hl : Local k owner t { w with mem := m } l) :
    Follows k owner t w m l [] [] := by
  have huse : ∀ a, InUse w.mem a → a = .initial := by
    rintro a (rfl | rfl)
    · rfl
    · exact harray
  have hshape := hg.shape.unused htop hbottom harray' hnewA (fun a ha => huse a ha ▸ hsize)
    (harray ▸ hslot)
  refine follows_owner hg w.bot .quiet ht htop hshape hg.put (.inl (harray'.trans harray))
    (fun _ => hfresh) (fun a ha => huse a ha ▸ .inl rfl) (fun h => ⟨h, fun a ha => ?_⟩) hl
  rw [huse a ha]
  exact ⟨congrArg (w.top % BitVec.toNat ·) hsize, hslot w.top⟩

/-- A compare-exchange that removes the oldest element. -/
theorem follows_cas (hg : Glob k owner w) (hlt : w.top < w.bot) {o : Op} (hst : w.st t = .pending o)
    (hpost : deque.post w.s o (some (w.elem w.top)) w.s.tail)
    (hl : Local k owner t { w with
      mem := { w.mem with top := w.mem.top + 1 },
      notes := w.notes ++ emit t [.got w.mem.top (w.elem w.top)],
      st := Function.update w.st t (.done o (some (w.elem w.top))) } l) :
    Follows k owner t w { w.mem with top := w.mem.top + 1 } l [.lin]
      [.got w.mem.top (w.elem w.top)] := by
  have hsucc := hg.shape.top_succ hlt
  refine ⟨{ w with
      mem := { w.mem with top := w.mem.top + 1 },
      hist := w.hist ++ record t [.lin] [.got w.mem.top (w.elem w.top)],
      notes := w.notes ++ emit t [.got w.mem.top (w.elem w.top)], s := w.s.tail,
      st := Function.update w.st t (.done o (some (w.elem w.top))) }, rfl, rfl,
    ⟨hg.replay_emit (.lin hst hpost) _, (hg.shape.removeFirst hlt).2, fun i hi hi' => ?_, hg.grown,
      hg.fresh, ?_⟩,
    hl.rehist _ _, fun _ hu => Function.update_of_ne hu .., ⟨_, rfl⟩, ?_, fun _ ha => ha,
    fun heq => ?_, fun _ => ⟨rfl, rfl, rfl, rfl, rfl, fun i => lastPut_got _ _⟩⟩
  · have hle : w.mem.top.toNat ≤ i := by
      have : (w.mem.top + 1).toNat ≤ i := hi
      omega
    exact (lastPut_got _ _).trans (hg.put i hle hi')
  · refine hg.logged.next _ _ (by simp) (fun i x hk => ?_) rfl rfl (by simp) id (by simp)
    obtain ⟨rfl, rfl⟩ : i = w.mem.top ∧ x = w.elem w.top := by simpa using hk
    exact ⟨rfl, hg.put _ (Nat.le_refl _) hlt⟩
  · change w.mem.top.toNat ≤ (w.mem.top + 1).toNat
    omega
  · have heq : w.mem.top + 1 = w.mem.top := heq
    rw [heq] at hsucc
    omega

/-! ## Thieves -/

theorem follows_stealBottom (hg : Glob k owner w) {t₀ : Size} (hl : Local k owner t w (.stealBottom t₀))
    (h : access w.mem (.stealBottom t₀) = some (m, l, es)) :
    Follows k owner t w m l es [] := by
  simp only [access] at h
  split at h <;> simp only [Option.some.injEq, Prod.mk.injEq] at h <;> obtain ⟨rfl, rfl, rfl⟩ := h
  · next hlt =>
    exact follows_quiet hg .quiet ⟨hl.1, hl.2, fun _ =>
      ⟨Nat.lt_of_lt_of_le (BitVec.lt_def.mp hlt) hg.shape.bottom, trivial⟩⟩
  · refine follows_quiet hg (.lin hl.1.2 (.inr ⟨.inl rfl, rfl⟩))
      ⟨⟨_, Function.update_self ..⟩, fun x hx hne => ?_, fun h => absurd h hl.1.1⟩
    exact absurd (Option.some.inj hx).symm hne

theorem local_stealSize (hg : Glob k owner w) {t₀ : Size} (hl : Local k owner t w (.stealArray t₀)) :
    Local k owner t w (.stealSize t₀ w.mem.array) := by
  refine ⟨hl.1, .inr rfl, hl.2.1, fun heq => ⟨(hl.2.2 heq).1, ?_⟩⟩
  subst heq
  exact hg.shape.held _ (Nat.le_refl _) (hl.2.2 rfl).1

theorem local_stealBuffer (hg : Glob k owner w) {t₀ : Size} {a : Arr}
    (hl : Local k owner t w (.stealSize t₀ a)) :
    Local k owner t w (.stealBuffer t₀ a ((w.mem.size a).setWidth 32)) := by
  refine ⟨hl.1, hl.2.1, hl.2.2.1, fun heq => ⟨(hl.2.2.2 heq).1, (hl.2.2.2 heq).2, ?_⟩⟩
  unfold intSlot
  rw [(hg.shape.sizes a hl.2.1).2, BitVec.toNat_umod]

omit [DecidableEq T] in
theorem local_stealCas {t₀ : Size} {a : Arr} {sz : CInt}
    (hl : Local k owner t w (.stealBuffer t₀ a sz)) :
    Local k owner t w (.stealCas t₀ (w.mem.buffer a (intSlot t₀ sz))) := by
  refine ⟨hl.1, hl.2.2.1, fun heq => ⟨(hl.2.2.2 heq).1, ?_⟩⟩
  obtain ⟨-, hslot, hidx⟩ := hl.2.2.2 heq
  rw [hidx]
  exact hslot

/-- The compare-exchange of a steal takes the oldest element, and the value read is that of
the element. -/
theorem follows_stealCas (hg : Glob k owner w) {t₀ : Size} {x : CInt}
    (hl : Local k owner t w (.stealCas t₀ x)) (h : access w.mem (.stealCas t₀ x) = some (m, l, es)) :
    Follows k owner t w m l es (note .run w.mem (.stealCas t₀ x)) := by
  obtain ⟨⟨hne, hst⟩, ho⟩ := hl
  simp only [access] at h
  split at h <;> simp only [Option.some.injEq, Prod.mk.injEq] at h <;> obtain ⟨rfl, rfl, rfl⟩ := h
  · next htop =>
    obtain ⟨hlt, rfl⟩ := ho.2 htop
    subst htop
    obtain ⟨hcons, -⟩ := hg.shape.removeFirst hlt
    obtain ⟨hv₁, hv₂⟩ := hg.shape.value _ (Nat.le_refl _) hlt
    rw [note, if_pos rfl]
    refine follows_cas hg hlt hst (.inl ⟨_, rfl, hv₁, hv₂, hcons⟩)
      ⟨⟨_, Function.update_self ..⟩, fun x hx _ _ => ⟨w.mem.top, ?_⟩, fun h => absurd h hne⟩
    cases hx
    exact lastNote_snoc _
  · next hchanged =>
    rw [note, if_neg hchanged]
    refine follows_quiet hg (.lin hst (.inr ⟨.inr rfl, rfl⟩))
      ⟨⟨_, Function.update_self ..⟩, fun x hx _ hx' => ?_, fun h => absurd h hne⟩
    exact absurd (Option.some.inj hx).symm hx'

/-! ## Takes -/

theorem follows_takeTop (hg : Glob k owner w) {b : Size} {a : Arr}
    (hl : Local k owner t w (.takeTop b a)) (h : access w.mem (.takeTop b a) = some (m, l, es)) :
    Follows k owner t w m l es [] := by
  obtain ⟨⟨⟨rfl, hst⟩, hb⟩, rfl, hbottom⟩ := hl
  simp only [access] at h
  split at h <;> simp only [Option.some.injEq, Prod.mk.injEq] at h <;> obtain ⟨rfl, rfl, rfl⟩ := h
  · next hle =>
    have hle' : w.top ≤ b.toNat := BitVec.le_def.mp hle
    have hslot := hg.shape.held b.toNat hle' (by omega)
    split
    · next heq =>
      exact follows_quiet hg .quiet
        ⟨.inr ⟨heq, ⟨⟨rfl, hst⟩, hb⟩, Nat.le_of_eq (congrArg BitVec.toNat heq.symm)⟩, rfl, hslot⟩
    -- thieves that read the lowered `bottom` leave this element to the take
    · next hne =>
      have hlt : w.top < b.toNat :=
        Nat.lt_of_le_of_ne hle' fun h => hne (BitVec.eq_of_toNat_eq h)
      have hput := hg.put b.toNat hle' (by omega)
      obtain ⟨hv₁, hv₂⟩ := hg.shape.value b.toNat hle' (by omega)
      have hshape := hg.shape
      rw [← hb] at hshape
      obtain ⟨hsnoc, hshape'⟩ := hshape.removeLast hle' (Nat.le_of_eq (congrArg BitVec.toNat hbottom))
      refine follows_owner hg b.toNat (.lin hst (.inl ⟨_, rfl, hv₁, hv₂, hsnoc⟩)) rfl rfl hshape'
        (fun i hi hi' => hg.put i hi (by omega)) hg.grown hg.fresh (fun _ ha => ha)
        (fun _ => ⟨hlt, fun _ _ => ⟨rfl, rfl⟩⟩)
        ⟨.inl ⟨hne, ⟨rfl, ?_⟩, rfl, hbottom, ?_, hput⟩, rfl, hslot⟩
      · exact Function.update_self ..
      · exact Nat.lt_of_le_of_lt (Nat.zero_le _) hlt
  · next hgt =>
    have hlt : b.toNat < w.mem.top.toNat := Nat.lt_of_not_le fun h => hgt (BitVec.le_def.mpr h)
    have hle := hg.shape.le
    have hnil : w.s = [] := hg.shape.eq_nil (by omega)
    exact follows_quiet hg (.lin hst (.inr ⟨rfl, hnil, hnil⟩))
      ⟨⟨rfl, Function.update_self ..⟩, hb, .inl rfl⟩

theorem follows_takeBuffer (hg : Glob k owner w) {b t₀ : Size} {a : Arr} {sz : CInt}
    (hl : Local k owner t w (.takeBuffer b a t₀ sz))
    (h : access w.mem (.takeBuffer b a t₀ sz) = some (m, l, es)) :
    Follows k owner t w m l es (note .run w.mem (.takeBuffer b a t₀ sz)) := by
  obtain ⟨hnew, rfl, hslot, rfl⟩ := hl
  have hval := (intSlot_eq hg.shape (.inr rfl) b).trans hslot
  simp only [access, hval] at h
  rw [note, hval]
  split at h <;> simp only [Option.some.injEq, Prod.mk.injEq] at h <;> obtain ⟨rfl, rfl, rfl⟩ := h
  · next heq =>
    rw [if_pos heq]
    obtain ⟨hne, -⟩ | ⟨-, htake, hle⟩ := hnew
    · exact absurd heq hne
    · exact follows_quiet hg .quiet ⟨heq, htake, hle, rfl⟩
  · next hne =>
    rw [if_neg hne]
    obtain ⟨-, ⟨ht, hst⟩, hb, hbottom, hpos, hput⟩ | ⟨heq, -⟩ := hnew
    · refine ⟨{ w with
        hist := w.hist ++ record t [] [.got b (w.elem b.toNat)],
        notes := w.notes ++ emit t [.got b (w.elem b.toNat)] }, rfl, rfl,
        ⟨hg.replay_emit .quiet _, hg.shape, fun i hi hi' => (lastPut_got _ _).trans (hg.put i hi hi'),
          hg.grown, hg.fresh, ?_⟩,
        ⟨⟨_, hst⟩, fun x hx _ _ => ⟨b, ?_⟩, fun _ => ⟨?_, hpos⟩⟩,
        .of_mem _ (fun _ _ => rfl) rfl rfl rfl rfl fun h => absurd ht h⟩
      · refine hg.logged.next _ _ (by simp) (fun i x hk => ?_) rfl rfl (by simp) id (by simp)
        obtain ⟨rfl, rfl⟩ : i = b ∧ x = w.elem b.toNat := by simpa using hk
        exact ⟨rfl, hput⟩
      · cases hx
        exact lastNote_snoc _
      · exact (congrArg BitVec.toNat hbottom).trans hb
    · exact absurd heq hne

/-- The owner races for the last element. -/
theorem follows_takeCas (hg : Glob k owner w) {b t₀ : Size} {x : CInt}
    (hl : Local k owner t w (.takeCas b t₀ x)) (h : access w.mem (.takeCas b t₀ x) = some (m, l, es)) :
    Follows k owner t w m l es (note .run w.mem (.takeCas b t₀ x)) := by
  obtain ⟨rfl, ⟨⟨rfl, hst⟩, hb⟩, hle, rfl⟩ := hl
  have htop := hg.shape.le
  simp only [access] at h
  rw [note]
  split at h <;> simp only [Option.some.injEq, Prod.mk.injEq] at h <;> obtain ⟨rfl, rfl, rfl⟩ := h
  · next heq =>
    subst heq
    have hlt : w.mem.top.toNat < w.bot := by omega
    obtain ⟨hcons, hshape⟩ := hg.shape.removeFirst hlt
    obtain ⟨hv₁, hv₂⟩ := hg.shape.value _ (Nat.le_refl _) hlt
    have hnil : w.s.tail = [] := hshape.eq_nil ((hg.shape.top_succ hlt).trans hb)
    have hsnoc : w.s = w.s.tail ++ [w.elem w.top] := by
      rw [hnil] at hcons ⊢
      exact hcons
    rw [if_pos rfl]
    exact follows_cas hg hlt hst (.inl ⟨_, rfl, hv₁, hv₂, hsnoc⟩)
      ⟨⟨rfl, Function.update_self ..⟩, hb, .inr (lastNote_snoc _)⟩
  · next hne =>
    rw [if_neg hne]
    have hlt : t₀.toNat < w.mem.top.toNat :=
      Nat.lt_of_le_of_ne hle fun h => hne (BitVec.eq_of_toNat_eq h.symm)
    have hnil : w.s = [] := hg.shape.eq_nil (by omega)
    exact follows_quiet hg (.lin hst (.inr ⟨rfl, hnil, hnil⟩))
      ⟨⟨rfl, Function.update_self ..⟩, hb, .inl rfl⟩

theorem follows_takeRestore (hg : Glob k owner w) {b : Size} {x : CInt}
    (hl : Local k owner t w (.takeRestore b x)) :
    Follows k owner t w { w.mem with bottom := b + 1 } (.ret (some x)) [] [] := by
  obtain ⟨⟨ht, hst⟩, hb, hx⟩ := hl
  have hsucc : (b + 1).toNat = w.bot := by
    have := hg.shape.lt
    bv_omega
  refine follows_bottom hg w.bot .quiet ht (hg.shape.setBottom hsucc.le) hg.put id
    ⟨⟨_, hst⟩, fun y hy hne _ => ⟨b, ?_⟩, fun _ => ⟨hsucc, hb ▸ Nat.succ_pos _⟩⟩
  cases hy
  exact hx.resolve_left hne

/-! ## Pushes -/

omit [DecidableEq T] in
theorem Pushing.toNat {x : CInt} {b : Size} (hp : Pushing owner t w x b) : b.toNat = w.bot :=
  hp.2.2.2 ▸ hp.2.2.1

theorem follows_pushCheck (hg : Glob k owner w) {x : CInt} {b t₀ : Size} {a : Arr}
    (hl : Local k owner t w (.pushCheck x b t₀ a))
    (h : access w.mem (.pushCheck x b t₀ a) = some (m, l, es)) {n : ℕ} (hn : n ≤ 2)
    (hk : 0 < n → k = 1) (hfew : w.resized + es.count .resize ≤ n) :
    Follows k owner t w m l es [] := by
  obtain ⟨hp, ⟨htop, hle, hroom⟩, rfl⟩ := hl
  have hpos := (hg.shape.sizes _ (.inr rfl)).1
  have hb := hp.toNat
  simp only [access] at h
  split at h <;> simp only [Option.some.injEq, Prod.mk.injEq] at h <;> obtain ⟨rfl, rfl, rfl⟩ := h
  · have hfew : w.resized + 1 ≤ n := hfew
    refine ⟨{ w with
      hist := w.hist ++ record t [.resize] [], resized := w.resized + 1 }, rfl, rfl, ⟨?_, hg.shape, hg.put, ?_, hg.fresh, ?_⟩,
      ⟨hp, hk (by omega), rfl, ?_⟩,
      .of_mem [] (fun _ _ => rfl) rfl rfl rfl (List.append_nil _).symm fun h => absurd hp.1.1 h⟩
    · have hsame : history (events w.hist ++ emit t [.resize]) = history (events w.hist) := by
        rw [history_append]
        simp [history, Event.mark]
      rw [events_append, events_emit, hsame]
      exact hg.replay
    · exact hg.grown.imp_right fun h => ⟨h.1, h.2.imp (fun h => ⟨h.1, Nat.le_succ_of_le h.2⟩)
        fun h => ⟨h.1, Nat.le_succ_of_le h.2⟩⟩
    · exact hg.logged.next _ [] (by simp) (by simp) rfl (List.append_nil _).symm rfl id (by simp)
    · rcases hg.grown with h | ⟨h, ⟨hsize, hr⟩ | ⟨-, hr⟩⟩
      · exact .inl ⟨h, Nat.succ_pos _⟩
      · exact .inr ⟨h, hsize, Nat.succ_le_succ hr⟩
      -- it would be the third resize
      · exact absurd hr (by omega)
  · next hroom' =>
    refine follows_quiet hg .quiet ⟨hp, ?_, rfl⟩
    change w.bot < w.mem.top.toNat + (w.mem.size w.mem.array).toNat
    change t₀.toNat ≤ w.mem.top.toNat at htop
    bv_omega

omit [DecidableEq T] in
theorem local_resizeLoop {x : CInt} {b i bottom size : Size} {a : Arr} (hp : Pushing owner t w x b)
    (hbottom : bottom = b) (hi : i.toNat ≤ b.toNat) (hc : Copying k w a size i.toNat) :
    Local k owner t w (resizeLoop x b a size .new i bottom) := by
  subst hbottom
  unfold resizeLoop
  split
  · next hlt => exact ⟨hp, rfl, rfl, hlt, hc⟩
  · next hge =>
    have hge' : ¬i.toNat < bottom.toNat := fun h => hge (BitVec.lt_def.mpr h)
    have heq : i.toNat = w.bot := by
      rw [← hp.toNat]
      omega
    exact ⟨hp, rfl, a, size, heq ▸ hc⟩

theorem local_resizeTop (hg : Glob k owner w) {x : CInt} {b : Size} {a : Arr}
    (hl : Local k owner t w (.resizeSize x b a)) :
    Local k owner t w (.resizeTop x b a (w.mem.size a) w.mem.newArray) :=
  ⟨hl.1, hl.2, rfl, (hg.shape.made hl.2.1).2⟩

theorem local_resizeBottom (hg : Glob k owner w) {x : CInt} {b size : Size} {a : Arr}
    {newA : Option Arr} (hl : Local k owner t w (.resizeTop x b a size newA)) :
    Local k owner t w (.resizeBottom x b a size newA w.mem.top) := by
  obtain ⟨hp, hsource, rfl, hnewA⟩ := hl
  refine ⟨hp, hsource, rfl, hnewA, Nat.le_refl _, ?_⟩
  rw [hsource.2.1]
  exact hg.shape.room

theorem follows_resizeNewSize (hg : Glob k owner w) {x : CInt} {b size top bottom : Size} {a : Arr}
    {newA : Option Arr} (hl : Local k owner t w (.resizeNewSize x b a size newA top bottom))
    (hkeeps : 2 ≤ w.resized → KeepsSlots w.mem (.resizeNewSize x b a size newA top bottom))
    (h : access w.mem (.resizeNewSize x b a size newA top bottom) = some (m, l, es)) :
    Follows k owner t w m l es [] := by
  obtain ⟨hp, ⟨hk, rfl, hsource⟩, rfl, rfl, htop, hfits, rfl⟩ := hl
  have hb := hp.toNat
  simp only [access, Option.some.injEq, Prod.mk.injEq] at h
  obtain ⟨rfl, rfl, rfl⟩ := h
  have hle : top.toNat ≤ bottom.toNat := hb ▸ Nat.le_trans htop hg.shape.le
  rcases hsource with ⟨harray, hr⟩ | ⟨harray, hsize, hr⟩
  · have hsize : w.mem.size w.mem.array = 2 := by rw [harray, (hg.shape.made hk).1]
    rw [hsize] at hfits ⊢
    have hnew : Function.update w.mem.size .new ((2 : Size) <<< 1) .new = 4 := Function.update_self ..
    -- nothing has been copied yet, and `top` may have passed what `resize` read
    exact follows_unused hg hp.1.1 harray rfl rfl rfl rfl rfl (fun _ => rfl) (hg.fresh (.inl harray))
      (local_resizeLoop hp rfl hle ⟨hk, .inl ⟨harray, harray, hr, rfl, hnew,
        fun j hj hj' => absurd (Nat.lt_of_lt_of_le hj' htop) (Nat.not_lt.mpr hj)⟩⟩)
  -- `newArray` is in use, and the elements present are found under both sizes
  · have hsize' : w.mem.size w.mem.array = 4 := by rw [harray, hsize]
    have hroom := hg.shape.room
    rw [hsize'] at hroom hfits ⊢
    have hkeep : ∀ j, w.mem.top.toNat ≤ j → j < w.bot → j % 8 = j % 4 := by
      have hkeeps := hkeeps hr
      rw [KeepsSlots, hsize', show w.mem.bottom.toNat = w.bot from hp.2.2.1] at hkeeps
      exact hkeeps (congrArg some harray.symm)
    have hshape := hg.shape.resize harray hsize hkeep
    have hnew : Function.update w.mem.size .new ((4 : Size) <<< 1) .new = 8 := Function.update_self ..
    refine follows_owner hg w.bot .quiet hp.1.1 rfl hshape hg.put
      (.inr ⟨harray, .inr ⟨hnew, hr⟩⟩) (fun h => ?_) (fun _ ha => ha) (fun h => ⟨h, fun a _ => ?_⟩)
      (local_resizeLoop hp rfl hle
        ⟨hk, .inr ⟨harray, harray, hr, rfl, hnew, ⟨hroom, hfits⟩, hkeep⟩⟩)
    · rcases h with h | h
      · exact absurd (harray.symm.trans h) (by decide)
      · exact absurd (hnew.symm.trans h) (by decide)
    · cases a with
      | initial => exact ⟨rfl, rfl⟩
      | new =>
        have hidx := hkeep w.top (Nat.le_refl _) h
        rw [slot, slot, hsize]
        exact ⟨hidx, congrArg (w.mem.buffer .new) hidx⟩

theorem local_resizeStore (hg : Glob k owner w) {x : CInt} {b size i bottom : Size} {a newA : Arr}
    (hl : Local k owner t w (.resizeLoad x b a size newA i bottom)) :
    Local k owner t w (.resizeStore x b a size newA i bottom (w.mem.buffer a (i % size).toNat)) := by
  obtain ⟨hp, rfl, rfl, hlt, hk, hc⟩ := hl
  refine ⟨hp, rfl, rfl, hlt, ⟨hk, hc⟩, fun hi => ?_⟩
  have hib : i.toNat < w.bot := hp.toNat ▸ BitVec.lt_def.mp hlt
  have hheld := hg.shape.held i.toNat hi hib
  rw [← hheld, slot, BitVec.toNat_umod]
  rcases hc with ⟨rfl, harray, -, rfl, -⟩ | ⟨rfl, harray, -, rfl, hsize, -, hkeep⟩
  · rw [harray, (hg.shape.made hk).1]
  · rw [harray, hsize]
    exact congrArg (w.mem.buffer .new) (hkeep i.toNat hi hib).symm

theorem follows_resizeStore (hg : Glob k owner w) {x v : CInt} {b size i bottom : Size} {a newA : Arr}
    (hl : Local k owner t w (.resizeStore x b a size newA i bottom v))
    (h : access w.mem (.resizeStore x b a size newA i bottom v) = some (m, l, es)) :
    Follows k owner t w m l es [] := by
  obtain ⟨hp, rfl, rfl, hlt, ⟨hk, hc⟩, hv⟩ := hl
  simp only [access, Option.some.injEq, Prod.mk.injEq] at h
  obtain ⟨rfl, rfl, rfl⟩ := h
  have hb := hp.toNat
  have hlt' : i.toNat < bottom.toNat := BitVec.lt_def.mp hlt
  have hsucc : (i + 1).toNat = i.toNat + 1 := by bv_omega
  rcases hc with ⟨rfl, harray, hr, rfl, hsize, hc⟩ | ⟨rfl, harray, hr, rfl, hsize, hroom, hkeep⟩
  · have hroom : w.bot ≤ w.top + 2 := hg.shape.room_initial harray hk
    rw [toNat_umod_newSize hsize]
    refine follows_unused hg hp.1.1 harray rfl rfl rfl rfl rfl (fun _ => slot_store_other (by decide))
      (fun j hj => ?_)
      (local_resizeLoop hp rfl (hsucc ▸ hlt')
        ⟨hk, .inl ⟨rfl, harray, hr, rfl, hsize, fun j hj hj' => ?_⟩⟩)
    · have hne : j ≠ i.toNat % (w.mem.size .new).toNat := by
        rw [hsize]
        have := Nat.mod_lt i.toNat (show 0 < (4 : Size).toNat by decide)
        change _ < 4 at this
        omega
      simp only [Mem.store, Function.update_self, Function.update_of_ne hne]
      exact hg.fresh (.inl harray) j hj
    · exact copied_store hsize (by omega) hc hv j hj (hsucc ▸ hj')
  · obtain ⟨hroom₁, hroom₂⟩ : w.bot ≤ w.mem.top.toNat + 4 ∧ w.bot ≤ i.toNat + 4 := hroom
    have hlast : w.bot ≤ (i + 1).toNat + 4 := by omega
    have hsize' : w.mem.size w.mem.array = 8 := by rw [harray, hsize]
    have hidx : (i % ((4 : Size) <<< 1)).toNat = i.toNat % 8 := by
      rw [BitVec.toNat_umod]
      rfl
    -- the slot is that of no element but the one at `i`
    have hover : ∀ j, w.mem.top.toNat ≤ j → j < w.bot →
        j % (w.mem.size w.mem.array).toNat = i.toNat % 8 → v = w.elem j := by
      intro j hj hj' heq
      rw [hsize'] at heq
      change j % 8 = _ at heq
      obtain rfl : j = i.toNat := by omega
      exact hv hj
    have hshape := hg.shape.overwrite hover
    rw [hidx, ← harray]
    refine follows_owner hg w.bot .quiet hp.1.1 rfl hshape hg.put
      (.inr ⟨harray, .inr ⟨hsize, hr⟩⟩) (fun h => ?_) (fun _ ha => ha)
      (fun h => ⟨h, fun a ha => ⟨rfl, ?_⟩⟩)
      (harray ▸ local_resizeLoop hp rfl (hsucc ▸ hlt')
        ⟨hk, .inr ⟨rfl, harray, hr, rfl, hsize, ⟨hroom₁, hlast⟩, hkeep⟩⟩)
    · rcases h with h | h
      · exact absurd (harray.symm.trans h) (by decide)
      · exact absurd (hsize.symm.trans h) (by decide)
    · cases a with
      | initial => exact slot_store_other (by simp [harray])
      | new =>
        have hold := hg.shape.held w.top (Nat.le_refl _) h
        have hnew := hshape.held w.top (Nat.le_refl _) h
        rw [← harray]
        exact hnew.trans hold.symm

theorem follows_resizePublish (hg : Glob k owner w) {x : CInt} {b : Size} {newA : Arr}
    (hl : Local k owner t w (.resizePublish x b newA)) :
    Follows k owner t w { w.mem with array := newA } (.pushReload x b) [] [] := by
  obtain ⟨hp, rfl, a, size, hk, hc⟩ := hl
  rcases hc with ⟨-, harray, hr, -, hsize, hc⟩ | ⟨-, harray, hr, -, hsize, hroom, -⟩
  · have hroom := hg.shape.room_initial harray hk
    refine follows_owner hg w.bot .quiet hp.1.1 rfl (hg.shape.publish harray hk hsize hc)
      hg.put (.inr ⟨rfl, .inl ⟨hsize, hr⟩⟩) (fun _ => hg.fresh (.inl harray)) (fun a ha => ?_)
      (fun h => ⟨h, fun _ _ => ⟨rfl, rfl⟩⟩) ⟨hp, ?_⟩
    · rcases ha with rfl | rfl
      · exact .inl rfl
      · exact .inl harray
    · change w.bot < w.mem.top.toNat + (w.mem.size .new).toNat
      rw [hsize]
      exact Nat.lt_of_le_of_lt hroom (Nat.add_lt_add_left (by decide) _)
  · rw [← harray]
    refine follows_quiet hg .quiet ⟨hp, ?_⟩
    change w.bot < w.mem.top.toNat + (w.mem.size w.mem.array).toNat
    rw [harray, hsize]
    exact Nat.lt_of_le_of_lt hroom.1 (Nat.add_lt_add_left (by decide) _)

/-- The element is stored, still out of reach. -/
theorem follows_pushBuffer (hg : Glob k owner w) {x : CInt} {b size : Size} {a : Arr}
    (hl : Local k owner t w (.pushBuffer x b a size)) :
    Follows k owner t w (w.mem.store a (b % size).toNat x) (.pushPublish b) [] [.put b x] := by
  obtain ⟨hp, hroom, rfl, rfl⟩ := hl
  have hb := hp.toNat
  have hput : ∀ i, i ≠ w.bot → lastPut (w.notes ++ emit t [.put b x]) i = lastPut w.notes i :=
    fun i hi => (lastPut_put b x).trans (if_neg (hb ▸ hi.symm))
  rw [BitVec.toNat_umod, hb]
  refine ⟨{ w with
    mem := w.mem.store w.mem.array (w.bot % (w.mem.size w.mem.array).toNat) x,
    hist := w.hist ++ record t [] [.put b x],
    notes := w.notes ++ emit t [.put b x], elem := Function.update w.elem w.bot x }, rfl, rfl,
    ⟨hg.replay_emit .quiet _, hg.shape.store hroom x, fun i hi hi' => ?_, hg.grown,
      fun h j hj => ?_, ?_⟩,
    ⟨x, hp, hroom, Function.update_self .., slot_store_self, (lastPut_put b x).trans (if_pos hb)⟩,
    fun _ _ => rfl, ⟨_, rfl⟩, Nat.le_refl _, fun _ ha => ha,
    fun _ hlt => ⟨hlt, Function.update_of_ne (Nat.ne_of_lt hlt) .., fun a _ => ⟨rfl, fun h => ?_⟩⟩,
    fun ht => absurd hp.1.1 ht⟩
  · have hne : i ≠ w.bot := Nat.ne_of_lt hi'
    have helem : Function.update w.elem w.bot x i = w.elem i := Function.update_of_ne hne ..
    exact (hput i hne).trans ((hg.put i hi hi').trans (congrArg some helem.symm))
  -- a push stores below the size there is, so the slots past it stay as they are
  · rcases hg.grown with harray | ⟨harray, -⟩
    · simp only [Mem.store, harray, Function.update_of_ne (show Arr.new ≠ .initial by decide)]
      exact hg.fresh (.inl harray) j hj
    · have hsize : w.mem.size .new = 4 := h.resolve_left fun h => by cases harray.symm.trans h
      have hne : j ≠ w.bot % (w.mem.size w.mem.array).toNat := by
        rw [harray, hsize]
        have := Nat.mod_lt w.bot (show 0 < (4 : Size).toNat by decide)
        change _ < 4 at this
        omega
      simp only [Mem.store]
      rw [harray] at hne ⊢
      rw [Function.update_self, Function.update_of_ne hne]
      exact hg.fresh (.inr hsize) j hj
  · exact hg.logged.next _ _ (by simp) (by simp) rfl rfl (by simp) id (by simp)
  · have hcap : w.bot < w.mem.top.toNat + (w.mem.size w.mem.array).toNat := hroom
    by_cases ha : a = w.mem.array
    · subst ha
      exact (slot_store_of_ne (slot_ne (Nat.ne_of_lt hlt) (by omega) hcap)).trans h
    · exact (slot_store_other ha).trans h

theorem follows_pushPublish (hg : Glob k owner w) {b : Size} (hl : Local k owner t w (.pushPublish b))
    (hb0 : b + 1 ≠ 0) :
    Follows k owner t w { w.mem with bottom := b + 1 } (.ret none) [.lin] [] := by
  obtain ⟨x, ⟨⟨ht, hst⟩, hx, hsettled, rfl⟩, hroom, helem, hslot, hput⟩ := hl
  have hsucc : (w.mem.bottom + 1).toNat = w.bot + 1 := by
    rw [← show w.mem.bottom.toNat = w.bot from hsettled]
    bv_omega
  refine follows_bottom hg (w.bot + 1) (.lin hst ⟨rfl, rfl⟩) ht
    (hg.shape.append hsucc hroom hx helem hslot) (fun i hi hi' => ?_) Nat.lt_succ_of_lt
    ⟨⟨_, Function.update_self ..⟩, fun _ h => (by cases h), fun _ => ⟨hsucc, Nat.succ_pos _⟩⟩
  rcases Nat.lt_succ_iff_lt_or_eq.mp hi' with hi' | rfl
  · exact hg.put i hi hi'
  · rw [hput, helem]

/-! ## The outline -/

theorem follows_ret (hg : Glob k owner w) {r : Option CInt} (hl : Local k owner t w (.ret r)) :
    Follows k owner t w w.mem .idle [.ret r] [] := by
  obtain ⟨⟨o, hst⟩, hgot, ho⟩ := hl
  have hlog := hg.logged
  refine ⟨{ w with
    hist := w.hist ++ record t [.ret r] [], st := Function.update w.st t .idle }, rfl, rfl,
    ⟨?_, hg.shape, hg.put, hg.grown, hg.fresh, ?_⟩,
    ⟨Function.update_self .., fun ht => ⟨(ho ht).1, fun _ => (ho ht).2⟩⟩,
    .of_mem [] (fun _ hu => Function.update_of_ne hu ..) rfl rfl rfl (List.append_nil _).symm
      fun _ => ⟨rfl, rfl, fun _ => rfl⟩⟩
  · rw [events_append, events_emit, emit_cons, emit_nil, history_snoc _ _ rfl]
    exact hg.replay.ret hst
  · exact hlog.extend _ [] (hlog.explained.ret (hlog.notes.symm ▸ hgot)) rfl
      (List.append_nil _).symm (by simp) id (by simp)

theorem inRole_push {l : Pc} {x : CInt} :
    inRole owner t l (.call (.push x)) = true ↔ t = owner ∧ x ≠ EMPTY ∧ x ≠ ABORT := by
  simp [inRole, and_assoc]

theorem follows_call (hg : Glob k owner w) (hl : Local k owner t w .idle) {o : Op} {l : Pc}
    (hrole : inRole owner t l (.call o))
    (hfirst : PushFirst owner (events w.hist ++ emit t [.call o])) :
    Follows k owner t w w.mem o.entry [.call o] [] := by
  obtain ⟨hidle, ho⟩ := hl
  have hst : Function.update w.st t (.pending o) t = .pending o := Function.update_self ..
  refine ⟨{ w with
    hist := w.hist ++ record t [.call o] [], st := Function.update w.st t (.pending o),
    begun := w.begun ∨ ∃ x, o = .push x }, rfl, rfl,
    ⟨?_, hg.shape, hg.put, hg.grown, hg.fresh, ?_⟩, ?_,
    .of_mem [] (fun _ hu => Function.update_of_ne hu ..) rfl rfl rfl (List.append_nil _).symm
      fun ht => ⟨?_, rfl, fun _ => rfl⟩⟩
  · rw [events_append, events_emit, emit_cons, emit_nil, history_snoc _ _ rfl]
    exact hg.replay.call hidle
  · refine hg.logged.next _ [] (by simp) (by simp) rfl (List.append_nil _).symm (by simp) Or.inl
      fun x hx _ => .inr ⟨x, ?_⟩
    simpa using (List.mem_singleton.mp hx).symm
  · cases o with
    | push x =>
      obtain ⟨ht, hx⟩ := inRole_push.mp hrole
      exact ⟨⟨ht, hst⟩, hx, (ho ht).1⟩
    | take =>
      obtain rfl : t = owner := of_decide_eq_true hrole
      have hpushed := hg.logged.pushed (hfirst _ [] rfl)
      exact ⟨⟨rfl, hst⟩, (ho rfl).1, (ho rfl).2 hpushed⟩
    | steal => exact ⟨of_decide_eq_true hrole, hst⟩
  · cases o with
    | push x => exact absurd (inRole_push.mp hrole).1 ht
    | take | steal => simp

theorem follows_of_eq {m' : Mem} {l' : Pc} {es' : List Event}
    (h : some (m, l, es) = some (m', l', es'))
    (hf : Follows k owner t w m l es ks) : Follows k owner t w m' l' es' ks := by
  cases h
  exact hf

theorem follows_access (hg : Glob k owner w) (hl : Local k owner t w l) {l' : Pc}
    (h : access w.mem l = some (m, l', es)) (hrole : inRole owner t l .run) {n : ℕ} (hn : n ≤ 2)
    (hk : 0 < n → k = 1) (hkeeps : 1 < n → KeepsSlots w.mem l)
    (hfew : w.resized + es.count .resize ≤ n) :
    Follows k owner t w m l' es (note .run w.mem l) := by
  have hquiet : ∀ {l₁}, Local k owner t w l₁ → Follows k owner t w w.mem l₁ [] [] :=
    follows_quiet hg .quiet
  cases l with
  | idle | crash => simp [access] at h
  | takeBottom =>
    obtain ⟨ho, hsettled, hpos⟩ := hl
    refine follows_of_eq h (hquiet ⟨ho, ?_⟩)
    rw [← show w.mem.bottom.toNat = w.bot from hsettled] at hpos ⊢
    bv_omega
  | takeArray => exact follows_of_eq h (hquiet ⟨hl, rfl⟩)
  | takeLower b a =>
    have hb : b.toNat ≤ w.bot := hl.1.2 ▸ Nat.le_succ _
    exact follows_of_eq h (follows_bottom hg w.bot .quiet hl.1.1.1 (hg.shape.setBottom hb) hg.put id
      ⟨hl.1, hl.2, rfl⟩)
  | takeTop => exact follows_takeTop hg hl h
  | takeSize => exact follows_of_eq h (hquiet ⟨hl.1, hl.2.1, hl.2.2, rfl⟩)
  | takeBuffer => exact follows_takeBuffer hg hl h
  | takeCas => exact follows_takeCas hg hl h
  | takeRestore => exact follows_of_eq h (follows_takeRestore hg hl)
  | pushBottom => exact follows_of_eq h (hquiet ⟨hl.1, hl.2.1, hl.2.2, rfl⟩)
  | pushTop => exact follows_of_eq h (hquiet ⟨hl, Nat.le_refl _, hg.shape.le, hg.shape.room⟩)
  | pushArray => exact follows_of_eq h (hquiet ⟨hl.1, hl.2, rfl⟩)
  | pushCheck => exact follows_pushCheck hg hl h hn hk hfew
  | resizeArray => exact follows_of_eq h (hquiet hl)
  | resizeSize => exact follows_of_eq h (hquiet (local_resizeTop hg hl))
  | resizeTop => exact follows_of_eq h (hquiet (local_resizeBottom hg hl))
  | resizeBottom =>
    obtain ⟨hp, hsource, hsize, hnewA, htop, hfits⟩ := hl
    exact follows_of_eq h (hquiet ⟨hp, hsource, hsize, hnewA, htop, hfits, hp.2.2.2⟩)
  | resizeNewSize =>
    refine follows_resizeNewSize hg hl (fun hr => hkeeps ?_) h
    omega
  | resizeLoad => exact follows_of_eq h (hquiet (local_resizeStore hg hl))
  | resizeStore => exact follows_resizeStore hg hl h
  | resizePublish => exact follows_of_eq h (follows_resizePublish hg hl)
  | pushReload => exact follows_of_eq h (hquiet ⟨hl.1, hl.2, rfl⟩)
  | pushSize => exact follows_of_eq h (hquiet ⟨hl.1, hl.2.1, hl.2.2, rfl⟩)
  | pushBuffer => exact follows_of_eq h (follows_pushBuffer hg hl)
  | pushPublish b => exact follows_of_eq h (follows_pushPublish hg hl (of_decide_eq_true hrole))
  | stealTop => exact follows_of_eq h (hquiet ⟨hl, Nat.le_refl _⟩)
  | stealBottom => exact follows_stealBottom hg hl h
  | stealArray => exact follows_of_eq h (hquiet (local_stealSize hg hl))
  | stealSize => exact follows_of_eq h (hquiet (local_stealBuffer hg hl))
  | stealBuffer => exact follows_of_eq h (hquiet (local_stealCas hl))
  | stealCas => exact follows_stealCas hg hl h
  | ret => exact follows_of_eq h (follows_ret hg hl)

/-- Steps by role. Where a second resize is to come, a new size leaves the elements in their
slots. -/
def keeping (n : ℕ) (owner : T) (c : Config T Mem Pc) (t : T) (a : Act) : Prop :=
  byRole owner c t a ∧ (1 < n → KeepsSlots c.mem (c.loc t))

theorem follows_step (hg : Glob k owner w) {ls : T → Pc} (hl : Local k owner t w (ls t)) {a : Act}
    {es : List (Event ⊕ Note)} (h : (noted T).step t a w.mem (ls t) = some (m, l, es)) {n : ℕ}
    (hn : n ≤ 2) (hk : 0 < n → k = 1) (hin : keeping n owner ⟨w.mem, ls⟩ t a)
    (hfirst : PushFirst owner (events (w.hist ++ emit t es)))
    (hfew : resizes (events (w.hist ++ emit t es)) ≤ n) : (assertions k owner).Follows t w m l es := by
  obtain ⟨es, hs, rfl⟩ := observe_step h
  rw [events_append, events_emit] at hfirst hfew
  cases a with
  | call o =>
    simp only [program, step] at hs
    split at hs
    · next hidle =>
      cases hs
      exact follows_call hg (hidle ▸ hl) hin.1 hfirst
    · cases hs
  | run =>
    rw [resizes_append, hg.logged.resized, resizes_emit] at hfew
    exact follows_access hg hl hs hin.1 hn hk hin.2 hfew

end Steps

section Outline
variable [DecidableEq T] {k n : ℕ} {owner : T}

/-- At most `n` resizes, and a push comes first. -/
def Few (n : ℕ) (owner : T) (tr : List (T × (Event ⊕ Note))) : Prop :=
  PushFirst owner (events tr) ∧ resizes (events tr) ≤ n

omit [DecidableEq T] in
theorem Few.of_append {h h' : List (T × (Event ⊕ Note))} (hf : Few n owner (h ++ h')) :
    Few n owner h := by
  obtain ⟨hp, hr⟩ := hf
  rw [events_append] at hp hr
  rw [resizes_append] at hr
  exact ⟨hp.of_append, by omega⟩

def outline (owner : T) (hn : n ≤ 2) (hk : 0 < n → k = 1) :
    Outline (noted T) (keeping n owner) (Few n owner) (World T) where
  toAssertions := assertions k owner
  step hg hl hs hG hadm := follows_step hg (hl _) hs hn hk hG hadm.1 hadm.2
  stable hu _ _ hl hgu := hl.stable hu hgu

theorem holds_start {m : Mem} (h : Made m k) (hn : n ≤ 2) (hk : 0 < n → k = 1) :
    (outline owner hn hk).Holds ⟨m, [], [], [], fun _ => .idle, 0, False, 0, fun _ => 0⟩ []
      (start T m) where
  mem := rfl
  hist := rfl
  glob :=
    { replay := .nil
      shape := shape_made h
      put := fun i _ hi => absurd hi (Nat.not_lt_zero i)
      grown := by cases h <;> exact .inl rfl
      fresh := by cases h <;> exact fun _ _ _ => rfl
      logged := ⟨.nil, rfl, rfl, fun ⟨_, h⟩ => absurd h List.not_mem_nil⟩ }
  loc _ := by
    refine ⟨rfl, fun _ => ⟨?_, fun h => by cases h⟩⟩
    cases h <;> rfl

end Outline

end Ends

end Cds.ChaseLev
