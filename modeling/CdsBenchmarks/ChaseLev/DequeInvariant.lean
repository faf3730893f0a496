import CdsBenchmarks.ChaseLev.DequeNotes

/-! What holds between the steps of the deque, and what each call asserts at its points. Between
the lowering of `bottom` in a take and the access at which the take takes effect the element at
`bottom` still counts as present. -/

namespace Cds.ChaseLev
open Concurrent Program

variable {T : Type*}

namespace Ends

/-- The elements present, `s`, have the indices from `top` to `bot`, and `elem` is what was
stored for an index. `resized` counts the calls of `resize`, and `begun` says that `push` has
been called. -/
structure World (T : Type*) where
  mem : Mem
  hist : List (T × (Event ⊕ Note))
  notes : List (T × Note)
  s : List CInt
  st : T → Status Op (Option CInt)
  resized : ℕ
  begun : Prop
  bot : ℕ
  elem : ℕ → CInt

abbrev World.top (w : World T) : ℕ := w.mem.top.toNat

/-- How far the deque has grown, after `r` calls of `resize`. -/
def Grown (m : Mem) (r : ℕ) : Prop :=
  m.array = .initial ∨ m.array = .new ∧ (m.size .new = 4 ∧ 1 ≤ r ∨ m.size .new = 8 ∧ 2 ≤ r)

structure Logged (owner : T) (w : World T) : Prop where
  explained : Explained w.hist
  notes : Concurrent.notes w.hist = w.notes
  resized : resizes (events w.hist) = w.resized
  pushed : (∃ x, (owner, .call (.push x)) ∈ events w.hist) → w.begun

structure Glob [DecidableEq T] (k : ℕ) (owner : T) (w : World T) : Prop where
  replay : deque.Replay (history (events w.hist)) w.s w.st
  shape : Shape k w.mem w.s w.bot w.elem
  put : ∀ i, w.top ≤ i → i < w.bot → lastPut w.notes i = some (w.elem i)
  grown : Grown w.mem w.resized
  /-- The slots past the first size of `newArray` are as `create` left them. -/
  fresh : w.mem.array = .initial ∨ w.mem.size .new = 4 → ∀ j, 4 ≤ j → w.mem.buffer .new j = 0
  logged : Logged owner w

section Local
variable (k : ℕ) (owner t : T) (w : World T)

/-- No take is under way. -/
def Settled : Prop := w.mem.bottom.toNat = w.bot

def Stealing : Prop := t ≠ owner ∧ w.st t = .pending .steal

def Pushing (x : CInt) (b : Size) : Prop :=
  (t = owner ∧ w.st t = .pending (.push x)) ∧ (x ≠ EMPTY ∧ x ≠ ABORT) ∧ Settled w ∧ w.mem.bottom = b

def Taking (b : Size) : Prop := (t = owner ∧ w.st t = .pending .take) ∧ b.toNat + 1 = w.bot

/-- A take that looks at the newest element, at index `b`: either the element is its own
already, or it is the last one and thieves may get it. -/
def Newest (b t₀ : Size) : Prop :=
  (t₀ ≠ b ∧ (t = owner ∧ w.st t = .done .take (some (w.elem b.toNat))) ∧ b.toNat = w.bot ∧
    w.mem.bottom = b ∧ 1 ≤ w.bot ∧ lastPut w.notes b.toNat = some (w.elem b.toNat)) ∨
  (t₀ = b ∧ Taking owner t w b ∧ b.toNat ≤ w.top)

/-- `resize` copies from array `a`. -/
def Source (a : Arr) : Prop :=
  k = 1 ∧ a = w.mem.array ∧
    (a = .initial ∧ 1 ≤ w.resized ∨ a = .new ∧ w.mem.size .new = 4 ∧ 2 ≤ w.resized)

/-- The new size has been stored. In the first resize the elements before `i` have been copied,
in the second none has to be. -/
def Copying (a : Arr) (size : Size) (i : ℕ) : Prop :=
  k = 1 ∧ ((a = .initial ∧ w.mem.array = .initial ∧ 1 ≤ w.resized ∧ size = 2 ∧ w.mem.size .new = 4 ∧
    ∀ j, w.top ≤ j → j < i → slot w.mem .new j = w.elem j) ∨
  (a = .new ∧ w.mem.array = .new ∧ 2 ≤ w.resized ∧ size = 4 ∧ w.mem.size .new = 8 ∧
    (w.bot ≤ w.top + 4 ∧ w.bot ≤ i + 4) ∧ ∀ j, w.top ≤ j → j < w.bot → j % 8 = j % 4))

def Room : Prop := w.bot < w.top + (w.mem.size w.mem.array).toNat

/-- While `t₀` is still `top`, the element there is present. -/
def Oldest (t₀ : Size) (P : Prop) : Prop := t₀.toNat ≤ w.top ∧ (w.mem.top = t₀ → t₀.toNat < w.bot ∧ P)

def Local : Pc → Prop
  | .idle => w.st t = .idle ∧ (t = owner → Settled w ∧ (w.begun → 1 ≤ w.bot))
  | .takeBottom => (t = owner ∧ w.st t = .pending .take) ∧ Settled w ∧ 1 ≤ w.bot
  | .takeArray b => Taking owner t w b
  | .takeLower b a => Taking owner t w b ∧ a = w.mem.array
  | .takeTop b a => Taking owner t w b ∧ a = w.mem.array ∧ w.mem.bottom = b
  | .takeSize b a t₀ => Newest owner t w b t₀ ∧ a = w.mem.array ∧ slot w.mem a b.toNat = w.elem b.toNat
  | .takeBuffer b a t₀ sz => Newest owner t w b t₀ ∧ a = w.mem.array ∧
      slot w.mem a b.toNat = w.elem b.toNat ∧ sz = (w.mem.size a).setWidth 32
  | .takeCas b t₀ x => t₀ = b ∧ Taking owner t w b ∧ b.toNat ≤ w.top ∧ x = w.elem b.toNat
  | .takeRestore b x => (t = owner ∧ w.st t = .done .take (some x)) ∧ b.toNat + 1 = w.bot ∧
      (x = EMPTY ∨ LastNote w.notes t (.got b x))
  | .pushBottom x => (t = owner ∧ w.st t = .pending (.push x)) ∧ (x ≠ EMPTY ∧ x ≠ ABORT) ∧ Settled w
  | .pushTop x b => Pushing owner t w x b
  | .pushArray x b t₀ => Pushing owner t w x b ∧ t₀.toNat ≤ w.top ∧ t₀.toNat ≤ w.bot ∧
      w.bot ≤ t₀.toNat + (w.mem.size w.mem.array).toNat
  | .pushCheck x b t₀ a => Pushing owner t w x b ∧ (t₀.toNat ≤ w.top ∧ t₀.toNat ≤ w.bot ∧
      w.bot ≤ t₀.toNat + (w.mem.size w.mem.array).toNat) ∧ a = w.mem.array
  | .resizeArray x b => Pushing owner t w x b ∧ Source k w w.mem.array
  | .resizeSize x b a => Pushing owner t w x b ∧ Source k w a
  | .resizeTop x b a size newA => Pushing owner t w x b ∧ Source k w a ∧ size = w.mem.size a ∧
      newA = some .new
  | .resizeBottom x b a size newA top => Pushing owner t w x b ∧ Source k w a ∧ size = w.mem.size a ∧
      newA = some .new ∧ top.toNat ≤ w.top ∧ w.bot ≤ top.toNat + size.toNat
  | .resizeNewSize x b a size newA top bottom => Pushing owner t w x b ∧ Source k w a ∧
      size = w.mem.size a ∧ newA = some .new ∧ top.toNat ≤ w.top ∧
      w.bot ≤ top.toNat + size.toNat ∧ bottom = b
  | .resizeLoad x b a size newA i bottom => Pushing owner t w x b ∧ newA = .new ∧ bottom = b ∧ i < b ∧
      Copying k w a size i.toNat
  | .resizeStore x b a size newA i bottom v => Pushing owner t w x b ∧ newA = .new ∧ bottom = b ∧
      i < b ∧ Copying k w a size i.toNat ∧ (w.top ≤ i.toNat → v = w.elem i.toNat)
  | .resizePublish x b newA => Pushing owner t w x b ∧ newA = .new ∧ ∃ a size, Copying k w a size w.bot
  | .pushReload x b => Pushing owner t w x b ∧ Room w
  | .pushSize x b a => Pushing owner t w x b ∧ Room w ∧ a = w.mem.array
  | .pushBuffer x b a size => Pushing owner t w x b ∧ Room w ∧ a = w.mem.array ∧ size = w.mem.size a
  | .pushPublish b => ∃ x, Pushing owner t w x b ∧ Room w ∧ w.elem w.bot = x ∧
      slot w.mem w.mem.array w.bot = x ∧ lastPut w.notes w.bot = some x
  | .stealTop => Stealing owner t w
  | .stealBottom t₀ => Stealing owner t w ∧ t₀.toNat ≤ w.top
  | .stealArray t₀ => Stealing owner t w ∧ Oldest w t₀ True
  | .stealSize t₀ a => Stealing owner t w ∧ InUse w.mem a ∧
      Oldest w t₀ (slot w.mem a t₀.toNat = w.elem t₀.toNat)
  | .stealBuffer t₀ a sz => Stealing owner t w ∧ InUse w.mem a ∧
      Oldest w t₀ (slot w.mem a t₀.toNat = w.elem t₀.toNat ∧
        intSlot t₀ sz = t₀.toNat % (w.mem.size a).toNat)
  | .stealCas t₀ x => Stealing owner t w ∧ Oldest w t₀ (x = w.elem t₀.toNat)
  | .ret r => (∃ o, w.st t = .done o r) ∧
      (∀ x, r = some x → x ≠ EMPTY → x ≠ ABORT → ∃ i, LastNote w.notes t (.got i x)) ∧
      (t = owner → Settled w ∧ 1 ≤ w.bot)
  | .crash => True

end Local

structure Guar (owner t : T) (w w' : World T) : Prop where
  st : ∀ u, u ≠ t → w'.st u = w.st u
  notes : ∃ ks, w'.notes = w.notes ++ emit t ks
  top : w.top ≤ w'.top
  inUse : ∀ a, InUse w.mem a → InUse w'.mem a
  oldest : w'.mem.top = w.mem.top → w.top < w.bot → w.top < w'.bot ∧ w'.elem w.top = w.elem w.top ∧
    ∀ a, InUse w.mem a → w.top % (w'.mem.size a).toNat = w.top % (w.mem.size a).toNat ∧
      (slot w.mem a w.top = w.elem w.top → slot w'.mem a w.top = w.elem w.top)
  owned : t ≠ owner → w'.mem = { w.mem with top := w'.mem.top } ∧ w'.bot = w.bot ∧ w'.elem = w.elem ∧
    w'.begun = w.begun ∧ w'.resized = w.resized ∧ ∀ i, lastPut w'.notes i = lastPut w.notes i

section Stable
variable {k : ℕ} {owner t u : T} {w w' : World T}

theorem LastNote.guar (hgu : Guar owner t w w') (hu : u ≠ t) {n : Note} (h : LastNote w.notes u n) :
    LastNote w'.notes u n := by
  obtain ⟨ks, hks⟩ := hgu.notes
  rw [hks]
  exact h.other hu ks

/-- A step that changes neither the memory nor the elements. -/
theorem Guar.of_mem (ks : List Note) (hst : ∀ u, u ≠ t → w'.st u = w.st u) (hmem : w'.mem = w.mem)
    (hbot : w'.bot = w.bot) (helem : w'.elem = w.elem) (hnotes : w'.notes = w.notes ++ emit t ks)
    (howned : t ≠ owner → w'.begun = w.begun ∧ w'.resized = w.resized ∧
      ∀ i, lastPut w'.notes i = lastPut w.notes i) : Guar owner t w w' where
  st := hst
  notes := ⟨ks, hnotes⟩
  top := Nat.le_of_eq (congrArg (fun m => m.top.toNat) hmem.symm)
  inUse a ha := hmem ▸ ha
  oldest _ hlt := by
    rw [hmem, hbot, helem]
    exact ⟨hlt, rfl, fun _ _ => ⟨rfl, id⟩⟩
  owned ht := by
    rw [hmem]
    exact ⟨rfl, hbot, helem, howned ht⟩

theorem Oldest.stable (hgu : Guar owner t w w') {t₀ : Size} {P Q : Prop} (h : Oldest w t₀ P)
    (hPQ : w'.mem.top = w.mem.top → w.mem.top = t₀ → t₀.toNat < w.bot → P → Q) : Oldest w' t₀ Q := by
  have htop := hgu.top
  refine ⟨Nat.le_trans h.1 htop, fun heq => ?_⟩
  have hsame : w'.mem.top = w.mem.top := by
    have hle := h.1
    rw [← heq] at hle
    exact BitVec.eq_of_toNat_eq (Nat.le_antisymm hle htop)
  obtain ⟨hlt, hP⟩ := h.2 (hsame.symm.trans heq)
  refine ⟨?_, hPQ hsame (hsame.symm.trans heq) hlt hP⟩
  rw [← heq, hsame] at hlt ⊢
  exact (hgu.oldest hsame hlt).1

/-- What the owner asserts does not depend on how far the thieves are. -/
theorem Local.owner_stable {l : Pc} (ht : t ≠ owner) (hgu : Guar owner t w w')
    (hl : Local k owner owner w l) : Local k owner owner w' l := by
  have hnote : ∀ {n}, LastNote w.notes owner n → LastNote w'.notes owner n :=
    LastNote.guar hgu (Ne.symm ht)
  have hst := hgu.st owner (Ne.symm ht)
  have htop := hgu.top
  obtain ⟨hmem, hbot, helem, hbegun, hresized, hput⟩ := hgu.owned ht
  clear hgu
  -- a thief moves `top` at most
  obtain ⟨m', hist', notes', s', st', resized', begun', bot', elem'⟩ := w'
  obtain ⟨top', rfl⟩ : ∃ top', m' = { w.mem with top := top' } := ⟨_, hmem⟩
  dsimp only at hmem hbot helem hbegun hresized hput hnote hst
  subst hbot helem hbegun hresized
  replace htop : w.top ≤ top'.toNat := htop
  generalize hw' : World.mk _ hist' notes' s' st' w.resized w.begun w.bot w.elem = w'
  have hpend : ∀ {x}, w.st owner = x → w'.st owner = x := fun h => by
    subst hw'
    exact hst.trans h
  have hpush : ∀ {x b}, Pushing owner owner w x b → Pushing owner owner w' x b := fun h => by
    subst hw'
    exact ⟨⟨rfl, hst.trans h.1.2⟩, h.2⟩
  have htake : ∀ {b}, Taking owner owner w b → Taking owner owner w' b := fun h => by
    subst hw'
    exact ⟨⟨rfl, hst.trans h.1.2⟩, h.2⟩
  have hnew : ∀ {b t₀}, Newest owner owner w b t₀ → Newest owner owner w' b t₀ := by
    subst hw'
    rintro b t₀ (⟨h₁, h₂, h₃, h₄, h₅, h₆⟩ | ⟨h₁, h₂, h₃⟩)
    · exact .inl ⟨h₁, ⟨rfl, hst.trans h₂.2⟩, h₃, h₄, h₅, (hput _).trans h₆⟩
    · exact .inr ⟨h₁, htake h₂, Nat.le_trans h₃ htop⟩
  have hcopy : ∀ {a size i}, Copying k w a size i → Copying k w' a size i := by
    subst hw'
    rintro a size i ⟨hk, ⟨h₁, h₂, h₃, h₄, h₅, h₆⟩ | ⟨h₁, h₂, h₃, h₄, h₅, h₆, h₇⟩⟩
    · exact ⟨hk, .inl ⟨h₁, h₂, h₃, h₄, h₅, fun j hj => h₆ j (Nat.le_trans htop hj)⟩⟩
    · exact ⟨hk, .inr ⟨h₁, h₂, h₃, h₄, h₅, ⟨Nat.le_trans h₆.1 (Nat.add_le_add_right htop _), h₆.2⟩,
        fun j hj => h₇ j (Nat.le_trans htop hj)⟩⟩
  have hroom : Room w → Room w' := fun h => by
    subst hw'
    exact Nat.lt_of_lt_of_le h (Nat.add_le_add_right htop _)
  have hle : ∀ {i}, i ≤ w.top → i ≤ w'.top := fun h => by
    subst hw'
    exact Nat.le_trans h htop
  cases l with
  | idle => subst hw'; exact ⟨hpend hl.1, hl.2⟩
  | takeBottom | pushBottom => subst hw'; exact ⟨⟨rfl, hpend hl.1.2⟩, hl.2⟩
  | takeArray => exact htake hl
  | takeLower | takeTop => subst hw'; exact ⟨htake hl.1, hl.2⟩
  | takeSize | takeBuffer => subst hw'; exact ⟨hnew hl.1, hl.2⟩
  | takeCas => subst hw'; exact ⟨hl.1, htake hl.2.1, hle hl.2.2.1, hl.2.2.2⟩
  | takeRestore => subst hw'; exact ⟨⟨rfl, hpend hl.1.2⟩, hl.2.1, hl.2.2.imp_right hnote⟩
  | pushTop => exact hpush hl
  | pushArray => subst hw'; exact ⟨hpush hl.1, hle hl.2.1, hl.2.2⟩
  | pushCheck => subst hw'; exact ⟨hpush hl.1, ⟨hle hl.2.1.1, hl.2.1.2⟩, hl.2.2⟩
  | resizeArray | resizeSize | resizeTop => subst hw'; exact ⟨hpush hl.1, hl.2⟩
  | resizeBottom =>
    obtain ⟨h₁, h₂, h₃, h₄, h₅, h₆⟩ := hl
    subst hw'
    exact ⟨hpush h₁, h₂, h₃, h₄, hle h₅, h₆⟩
  | resizeNewSize =>
    obtain ⟨h₁, h₂, h₃, h₄, h₅, h₆⟩ := hl
    subst hw'
    exact ⟨hpush h₁, h₂, h₃, h₄, hle h₅, h₆⟩
  | resizeLoad =>
    obtain ⟨h₁, h₂, h₃, h₄, h₅⟩ := hl
    exact ⟨hpush h₁, h₂, h₃, h₄, hcopy h₅⟩
  | resizeStore =>
    obtain ⟨h₁, h₂, h₃, h₄, h₅, h₆⟩ := hl
    refine ⟨hpush h₁, h₂, h₃, h₄, hcopy h₅, ?_⟩
    subst hw'
    exact fun hi => h₆ (Nat.le_trans htop hi)
  | resizePublish =>
    obtain ⟨h₁, h₂, a, size, h₃⟩ := hl
    subst hw'
    exact ⟨hpush h₁, h₂, a, size, hcopy h₃⟩
  | pushReload => exact ⟨hpush hl.1, hroom hl.2⟩
  | pushSize | pushBuffer => subst hw'; exact ⟨hpush hl.1, hroom hl.2.1, hl.2.2⟩
  | pushPublish =>
    obtain ⟨x, h₁, h₂, h₃, h₄, h₅⟩ := hl
    subst hw'
    exact ⟨x, hpush h₁, hroom h₂, h₃, h₄, (hput _).trans h₅⟩
  | ret =>
    subst hw'
    refine ⟨hl.1.imp fun _ => hpend, fun x hr hx hx' => ?_, hl.2.2⟩
    obtain ⟨i, hi⟩ := hl.2.1 x hr hx hx'
    exact ⟨i, hnote hi⟩
  | stealTop => exact absurd rfl hl.1
  | stealBottom | stealArray | stealSize | stealBuffer | stealCas => exact absurd rfl hl.1.1
  | crash => trivial

theorem Local.stable {l : Pc} (hu : u ≠ t) (hl : Local k owner u w l) (hgu : Guar owner t w w') :
    Local k owner u w' l := by
  by_cases huo : u = owner
  · subst huo
    exact hl.owner_stable (Ne.symm hu) hgu
  have hst := hgu.st u hu
  have hsteal : Stealing owner u w → Stealing owner u w' := fun h => ⟨h.1, hst.trans h.2⟩
  cases l with
  | idle => exact ⟨hst.trans hl.1, fun h => absurd h huo⟩
  | ret =>
    refine ⟨hl.1.imp fun _ => hst.trans, fun x hr hx hx' => ?_, fun h => absurd h huo⟩
    obtain ⟨i, hi⟩ := hl.2.1 x hr hx hx'
    exact ⟨i, LastNote.guar hgu hu hi⟩
  | stealTop => exact hsteal hl
  | stealBottom => exact ⟨hsteal hl.1, Nat.le_trans hl.2 hgu.top⟩
  | stealArray => exact ⟨hsteal hl.1, hl.2.stable hgu fun _ _ _ h => h⟩
  | stealSize t₀ a =>
    refine ⟨hsteal hl.1, hgu.inUse a hl.2.1, hl.2.2.stable hgu fun hsame htop hlt h => ?_⟩
    subst htop
    obtain ⟨-, helem, hslots⟩ := hgu.oldest hsame hlt
    rw [helem]
    exact (hslots a hl.2.1).2 h
  | stealBuffer t₀ a =>
    refine ⟨hsteal hl.1, hgu.inUse a hl.2.1, hl.2.2.stable hgu fun hsame htop hlt h => ?_⟩
    subst htop
    obtain ⟨-, helem, hslots⟩ := hgu.oldest hsame hlt
    rw [helem]
    exact ⟨(hslots a hl.2.1).2 h.1, h.2.trans (hslots a hl.2.1).1.symm⟩
  | stealCas =>
    refine ⟨hsteal hl.1, hl.2.stable hgu fun hsame htop hlt h => ?_⟩
    subst htop
    rw [(hgu.oldest hsame hlt).2.1]
    exact h
  | crash => trivial
  | takeBottom | takeRestore | pushBottom => exact absurd hl.1.1 huo
  | takeArray | pushTop => exact absurd hl.1.1 huo
  | takeLower | takeTop => exact absurd hl.1.1.1 huo
  | takeSize | takeBuffer =>
    rcases hl.1 with h | h
    · exact absurd h.2.1.1 huo
    · exact absurd h.2.1.1.1 huo
  | takeCas => exact absurd hl.2.1.1.1 huo
  | pushArray | pushCheck | pushReload | pushSize | pushBuffer => exact absurd hl.1.1.1 huo
  | resizeArray | resizeSize | resizeTop | resizeBottom | resizeNewSize | resizeLoad | resizeStore |
    resizePublish => exact absurd hl.1.1.1 huo
  | pushPublish => exact absurd hl.choose_spec.1.1.1 huo

end Stable

def assertions [DecidableEq T] (k : ℕ) (owner : T) :
    Assertions T Mem Pc (Event ⊕ Note) (World T) where
  mem := World.mem
  hist := World.hist
  glob := Glob k owner
  loc := Local k owner
  guar := Guar owner

end Ends

end Cds.ChaseLev
