import Tori.Spec.RwLock

/-! The readers-writer lock excludes. The invariant is the property itself with a loaded value that is not negative: a
compare-exchange checks everything else again. -/

namespace Tori.RwLock

open Threads Function

variable {ι : Type} [Fintype ι] {c d : Config ι Loc ℤ} {t : ι} {a : Act} {l l' : Loc} {g g' : ℤ} {loc : ι → Loc}

def Loc.Outside (l : Loc) : Prop := l ≠ .reading ∧ l ≠ .writing

/-- What one operation does. -/
inductive Effect (g : ℤ) : Loc → Loc → ℤ → Prop
  | quiet {l l' : Loc} (hl : l.Outside) (hl' : l'.Outside) (hload : ∀ s, l' = .exchangeRead s → 0 ≤ s) : Effect g l l' g
  | enterRead : Effect g (.exchangeRead g) .reading (int32 (g + 1))
  | leaveRead : Effect g .reading .idle (int32 (g - 1))
  | enterWrite {l : Loc} (hl : l.Outside) (hg : g = 0) : Effect g l .writing (-1)
  | leaveWrite : Effect g .writing .idle 0

theorem step_effect (h : step a l g = some (l', g')) : Effect g l l' g' := by
  have hload : 0 ≤ g → ∀ s, Loc.exchangeRead g = .exchangeRead s → 0 ≤ s := fun hg s hs => by
    rw [← Loc.exchangeRead.inj hs]
    exact hg
  revert h
  fun_cases step a l g <;> intro h <;> cases h
  case case4 =>
    split_ifs with hg
    · exact .quiet ⟨by decide, by decide⟩ ⟨nofun, nofun⟩ (hload hg)
    · exact .quiet ⟨by decide, by decide⟩ ⟨by decide, by decide⟩ nofun
  case case5 => exact .enterRead
  case case7 => exact .enterWrite ⟨by decide, by decide⟩ rfl
  case case9 => exact .enterWrite ⟨by decide, by decide⟩ rfl
  case case11 => exact .leaveRead
  case case12 => exact .leaveWrite
  all_goals exact .quiet ⟨nofun, nofun⟩ ⟨nofun, nofun⟩ nofun

structure Inv (c : Config ι Loc ℤ) : Prop where
  exclusive : Exclusive c
  loaded : ∀ w s, c.loc w = .exchangeRead s → 0 ≤ s

theorem int32_of_small {x : ℤ} (h1 : -2 ^ 31 ≤ x) (h2 : x < 2 ^ 31) : int32 x = x := by
  unfold int32
  rw [Int.bmod_eq_of_le_mul_two]
  · omega
  · omega

theorem readers_le (loc : ι → Loc) : readers loc ≤ Fintype.card ι := Finset.card_le_univ _

theorem readers_pos (h : loc t = .reading) : 0 < readers loc :=
  Finset.card_pos.mpr ⟨t, Finset.mem_filter.mpr ⟨Finset.mem_univ t, h⟩⟩

theorem readers_eq_zero (h : readers loc = 0) : loc t ≠ .reading := fun ht => (readers_pos ht).ne' h

variable [DecidableEq ι]

theorem readers_enter (h : loc t ≠ .reading) : readers (update loc t .reading) = readers loc + 1 := by
  have hset : (Finset.univ.filter fun u => update loc t Loc.reading u = .reading) =
      insert t (Finset.univ.filter fun u => loc u = .reading) := by
    ext u
    by_cases hu : u = t
    · simp [hu]
    · simp [hu]
  rw [readers, hset, Finset.card_insert_of_notMem (by simp [h])]
  rfl

theorem readers_leave (h : loc t = .reading) (hl : l ≠ .reading) :
    readers (update loc t l) + 1 = readers loc := by
  rw [← readers_enter (t := t) (by simpa using hl), update_idem, ← h, update_eq_self]

theorem readers_same (h : loc t ≠ .reading) (hl : l ≠ .reading) : readers (update loc t l) = readers loc := by
  have h1 := readers_enter h
  have h2 : readers (update (update loc t l) t .reading) = readers (update loc t l) + 1 :=
    readers_enter (by simpa using hl)
  rw [update_idem] at h2
  omega

omit [Fintype ι] in
theorem at_update {w : ι} : update loc t l w = l' ↔ (w = t ∧ l = l') ∨ (w ≠ t ∧ loc w = l') := by
  by_cases hw : w = t
  · simp [hw]
  · simp [hw]

omit [DecidableEq ι] in
theorem inv_start : Inv (start ι) where
  exclusive := ⟨nofun, fun _ => by simp [start, readers], nofun, nofun⟩
  loaded := nofun

/-- An operation that neither takes nor gives back the lock. -/
theorem Inv.quiet (hinv : Inv c) (hl : (c.loc t).Outside) (hl' : l.Outside) (hload : ∀ s, l = .exchangeRead s → 0 ≤ s) :
    Inv (⟨update c.loc t l, c.shared⟩ : Config ι Loc ℤ) := by
  have hwriting : ∀ w, update c.loc t l w = .writing ↔ c.loc w = .writing := by
    intro w
    by_cases hw : w = t
    · simp [hw, hl.2, hl'.2]
    · simp [hw]
  have hreading : ∀ w, update c.loc t l w = .reading ↔ c.loc w = .reading := by
    intro w
    by_cases hw : w = t
    · simp [hw, hl.1, hl'.1]
    · simp [hw]
  refine ⟨⟨?_, ?_, ?_, ?_⟩, ?_⟩
  · simpa only [hwriting] using hinv.exclusive.writer
  · simpa only [ne_eq, hwriting, readers_same hl.1 hl'.1] using hinv.exclusive.readers
  · simpa only [hwriting] using hinv.exclusive.one
  · simpa only [ne_eq, hwriting, hreading] using hinv.exclusive.apart
  · intro w s hw
    rcases at_update.mp hw with ⟨_, hs⟩ | ⟨_, hs⟩
    · exact hload s hs
    · exact hinv.loaded w s hs

theorem Inv.counted (hinv : Inv c) (hl : l = .idle ∨ l = .reading) (hwriter : ∀ w, update c.loc t l w ≠ .writing)
    (hg : g = readers (update c.loc t l)) : Inv (⟨update c.loc t l, g⟩ : Config ι Loc ℤ) := by
  refine ⟨⟨?_, fun _ => hg, ?_, fun _ w _ => hwriter w⟩, ?_⟩
  · intro ⟨w, hw⟩
    exact absurd hw (hwriter w)
  · intro w _ hw
    exact absurd hw (hwriter w)
  · intro w s hw
    rcases at_update.mp hw with ⟨_, hs⟩ | ⟨_, hs⟩
    · rcases hl with rfl | rfl <;> cases hs
    · exact hinv.loaded w s hs

omit [DecidableEq ι] in
theorem Inv.no_writer (hinv : Inv c) (hg : 0 ≤ c.shared) (w : ι) : c.loc w ≠ .writing := by
  intro hw
  have := hinv.exclusive.writer ⟨w, hw⟩
  omega

theorem inv_enterRead (hcard : Fintype.card ι < 2 ^ 31) (hinv : Inv c) (hl : c.loc t = .exchangeRead c.shared) :
    Inv (⟨update c.loc t .reading, int32 (c.shared + 1)⟩ : Config ι Loc ℤ) := by
  have hno := hinv.no_writer (hinv.loaded t _ hl)
  have hcount := hinv.exclusive.readers hno
  have henter : readers (update c.loc t .reading) = readers c.loc + 1 := readers_enter (by rw [hl]; nofun)
  have hle := readers_le (update c.loc t .reading)
  refine hinv.counted (.inr rfl) ?_ ?_
  · intro w hw
    rcases at_update.mp hw with ⟨_, hs⟩ | ⟨_, hs⟩
    · cases hs
    · exact hno w hs
  · rw [int32_of_small (by omega) (by omega)]
    omega

theorem inv_leaveRead (hcard : Fintype.card ι < 2 ^ 31) (hinv : Inv c) (hl : c.loc t = .reading) :
    Inv (⟨update c.loc t .idle, int32 (c.shared - 1)⟩ : Config ι Loc ℤ) := by
  have hno := fun w => hinv.exclusive.apart t w hl
  have hcount := hinv.exclusive.readers hno
  have hleave := readers_leave (l := .idle) hl nofun
  have hle := readers_le c.loc
  refine hinv.counted (.inl rfl) ?_ ?_
  · intro w hw
    rcases at_update.mp hw with ⟨_, hs⟩ | ⟨_, hs⟩
    · cases hs
    · exact hno w hs
  · rw [int32_of_small (by omega) (by omega)]
    omega

theorem inv_leaveWrite (hinv : Inv c) (hl : c.loc t = .writing) :
    Inv (⟨update c.loc t .idle, 0⟩ : Config ι Loc ℤ) := by
  refine hinv.counted (.inl rfl) ?_ ?_
  · intro w hw
    rcases at_update.mp hw with ⟨_, hs⟩ | ⟨hne, hs⟩
    · cases hs
    · exact hne (hinv.exclusive.one w t hs hl)
  · have hzero : readers (update c.loc t .idle) = 0 := by
      refine Finset.card_eq_zero.mpr (Finset.filter_eq_empty_iff.mpr fun w _ hw => ?_)
      rcases at_update.mp hw with ⟨_, hs⟩ | ⟨_, hs⟩
      · cases hs
      · exact hinv.exclusive.apart w t hs hl
    rw [hzero]
    rfl

theorem inv_enterWrite (hinv : Inv c) (hg : c.shared = 0) :
    Inv (⟨update c.loc t .writing, -1⟩ : Config ι Loc ℤ) := by
  have hno := hinv.no_writer hg.ge
  have hzero : readers c.loc = 0 := by
    have := hinv.exclusive.readers hno
    omega
  have honly : ∀ w, update c.loc t .writing w = .writing → w = t := by
    intro w hw
    rcases at_update.mp hw with ⟨heq, _⟩ | ⟨_, hs⟩
    · exact heq
    · exact absurd hs (hno w)
  refine ⟨⟨fun _ => rfl, ?_, ?_, ?_⟩, ?_⟩
  · intro h
    exact absurd (update_self t _ _) (h t)
  · intro w w' hw hw'
    rw [honly w hw, honly w' hw']
  · intro r w hr
    rcases at_update.mp hr with ⟨_, hs⟩ | ⟨_, hs⟩
    · cases hs
    · exact absurd hs (readers_eq_zero hzero)
  · intro w s hw
    rcases at_update.mp hw with ⟨_, hs⟩ | ⟨_, hs⟩
    · cases hs
    · exact hinv.loaded w s hs

theorem inv_act (hcard : Fintype.card ι < 2 ^ 31) (hinv : Inv c) (h : act step t a c = some d) : Inv d := by
  obtain ⟨l, g, hstep, rfl⟩ := act_eq_some.mp h
  have heffect := step_effect hstep
  generalize hl : c.loc t = l₀ at heffect
  generalize hg : c.shared = g₀ at heffect
  cases heffect with
  | quiet hout hout' hload => exact hg ▸ hinv.quiet (hl ▸ hout) hout' hload
  | enterRead => exact hg ▸ inv_enterRead hcard hinv (hg ▸ hl)
  | leaveRead => exact hg ▸ inv_leaveRead hcard hinv hl
  | enterWrite _ hzero => exact inv_enterWrite hinv (hg.trans hzero)
  | leaveWrite => exact inv_leaveWrite hinv hl

/-- Fewer than `2 ^ 31` threads, any interleaving. -/
theorem rwlock_exclusive (hcard : Fintype.card ι < 2 ^ 31) (hrun : Run step (fun _ _ _ => True) (start ι) c) :
    Exclusive c :=
  (hrun.inv (fun _ _ _ _ hinv _ hact => inv_act hcard hinv hact) inv_start).exclusive

/-- Thread 0 reads, thread 1 is refused, thread 0 leaves, thread 1 writes. -/
def readThenWrite : List (Fin 2 × Act) :=
  [(0, .read), (0, .load), (0, .compareExchange), (1, .tryWrite), (1, .compareExchange), (0, .unlockRead), (1, .write),
    (1, .compareExchange)]

def written : Config (Fin 2) Loc ℤ := (exec step (fun _ _ _ => True) readThenWrite (start (Fin 2))).get (by decide)

theorem rwlock_exclusive_two : written.loc 1 = .writing ∧ Exclusive written :=
  ⟨by decide, rwlock_exclusive (by decide) (run_of_exec (Option.some_get _).symm)⟩

end Tori.RwLock
