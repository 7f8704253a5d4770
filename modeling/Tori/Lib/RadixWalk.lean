import Tori.Lib.Radix

/-! Walks through radix tables in memory. A table is a frame with `n` slots; `next e` is the table one level down that the
entry `e` leads to. A path `ix` gives the slot at each level. What is read along one path stays as it is under stores to
slots of other paths, where no two paths meet in a table. -/

namespace Tori.RadixWalk

open Function

variable {ε σ : Type} {n : ℕ}

section Walk

variable (next : ε → Option ℕ) (rd : ℕ → Fin n → ε) (ix : ℕ → Fin n)

/-- The table at level `k` on the path from the table `f` at level `d`. -/
def tableAt (k : ℕ) : ℕ → ℕ → Option ℕ
  | 0, f => if k = 0 then some f else none
  | d + 1, f => if k = d + 1 then some f else (next (rd f (ix (d + 1)))).bind (tableAt k d)

/-- The end of the walk: what `step` makes of the entries passed, the level of the last table and its entry. -/
def descend (step : σ → ε → σ) : ℕ → ℕ → σ → σ × ℕ × ε
  | 0, f, s => (s, 0, rd f (ix 0))
  | d + 1, f, s =>
    match next (rd f (ix (d + 1))) with
    | some g => descend step d g (step s (rd f (ix (d + 1))))
    | none => (s, d + 1, rd f (ix (d + 1)))

/-- `g` is a table of the tree. -/
def IsTable (d f g : ℕ) : Prop := ∃ ix k, tableAt next rd ix k d f = some g

/-- Paths that meet in a table are the same down to it. -/
def Unshared (d f : ℕ) : Prop :=
  ∀ ix ix' k k' g, tableAt next rd ix k d f = some g → tableAt next rd ix' k' d f = some g →
    k = k' ∧ ∀ l, k < l → l ≤ d → ix' l = ix l

end Walk

variable {next : ε → Option ℕ} {rd rd' : ℕ → Fin n → ε} {ix ix' : ℕ → Fin n} {d f g k l : ℕ} {step : σ → ε → σ} {s : σ}

theorem tableAt_self (d f : ℕ) : tableAt next rd ix d d f = some f := by
  cases d <;> exact if_pos rfl

theorem tableAt_of_ne (h : k ≠ d + 1) : tableAt next rd ix k (d + 1) f = (next (rd f (ix (d + 1)))).bind (tableAt next rd ix k d) :=
  if_neg h

theorem tableAt_root (h : tableAt next rd ix d d f = some g) : g = f := by
  rw [tableAt_self] at h
  exact (Option.some.inj h).symm

theorem tableAt_some (h : tableAt next rd ix k (d + 1) f = some g) :
    k = d + 1 ∧ g = f ∨ ∃ f', next (rd f (ix (d + 1))) = some f' ∧ tableAt next rd ix k d f' = some g := by
  by_cases hk : k = d + 1
  · subst hk
    exact .inl ⟨rfl, tableAt_root h⟩
  · rw [tableAt_of_ne hk] at h
    exact .inr (Option.bind_eq_some_iff.mp h)

theorem tableAt_le (h : tableAt next rd ix k d f = some g) : k ≤ d := by
  induction d generalizing f with
  | zero =>
    unfold tableAt at h
    split_ifs at h with hk
    exact hk.le
  | succ d ih =>
    rcases tableAt_some h with ⟨hk, -⟩ | ⟨f', -, h'⟩
    · exact hk.le
    · exact (ih h').trans (Nat.le_succ d)

theorem tableAt_succ (h : k ≤ d) : tableAt next rd ix k (d + 1) f = (next (rd f (ix (d + 1)))).bind (tableAt next rd ix k d) :=
  tableAt_of_ne (by omega)

theorem tableAt_next {f' : ℕ} (hnext : next (rd f (ix (d + 1))) = some f') (h : tableAt next rd ix k d f' = some g) :
    tableAt next rd ix k (d + 1) f = some g := by
  rw [tableAt_succ (tableAt_le h), hnext]
  exact h

/-- Up the path from `g`, table by table. -/
theorem tableAt_induction {P : ℕ → ℕ → Prop} (h : tableAt next rd ix k d f = some g) (hat : P k g)
    (hup : ∀ {d f f'}, next (rd f (ix (d + 1))) = some f' → tableAt next rd ix k d f' = some g → P d f' → P (d + 1) f) :
    P d f := by
  induction d generalizing f with
  | zero =>
    obtain rfl := Nat.le_zero.mp (tableAt_le h)
    exact tableAt_root h ▸ hat
  | succ d ih =>
    rcases tableAt_some h with ⟨rfl, rfl⟩ | ⟨f', hnext, h'⟩
    · exact hat
    · exact hup hnext h' (ih h')

/-- The slots above level `k` decide the table at level `k`. -/
theorem tableAt_congr (h : ∀ l g, k < l → tableAt next rd ix l d f = some g → rd' g (ix' l) = rd g (ix l)) :
    tableAt next rd' ix' k d f = tableAt next rd ix k d f := by
  induction d generalizing f with
  | zero => rfl
  | succ d ih =>
    by_cases hk : k = d + 1
    · rw [hk, tableAt_self, tableAt_self]
    · rw [tableAt_of_ne hk, tableAt_of_ne hk]
      by_cases hle : k ≤ d
      · rw [h (d + 1) f (by omega) (tableAt_self _ _)]
        cases hnext : next (rd f (ix (d + 1))) with
        | none => rfl
        | some f' => exact ih fun l g hl hg => h l g hl (tableAt_next hnext hg)
      · have hnone : ∀ (r : ℕ → Fin n → ε) (i : ℕ → Fin n) (o : Option ℕ), o.bind (tableAt next r i k d) = none := by
          intro r i o
          refine Option.bind_eq_none_iff.mpr fun a _ => ?_
          cases ht : tableAt next r i k d a with
          | none => rfl
          | some g => exact absurd (tableAt_le ht) hle
        rw [hnone, hnone]

theorem tableAt_path (h : ∀ l, k < l → l ≤ d → ix' l = ix l) : tableAt next rd ix' k d f = tableAt next rd ix k d f :=
  tableAt_congr fun l g hl hg => by rw [h l hl (tableAt_le hg)]

theorem tableAt_trans (h : tableAt next rd ix k d f = some g) (hl : l ≤ k) :
    tableAt next rd ix l d f = tableAt next rd ix l k g := by
  refine tableAt_induction (P := fun d f => tableAt next rd ix l d f = tableAt next rd ix l k g) h rfl fun hnext h' ih => ?_
  rw [tableAt_succ (hl.trans (tableAt_le h')), hnext]
  exact ih

theorem tableAt_down (h : tableAt next rd ix (k + 1) d f = some g) :
    tableAt next rd ix k d f = next (rd g (ix (k + 1))) := by
  rw [tableAt_trans h (Nat.le_succ k), tableAt_succ le_rfl]
  cases next (rd g (ix (k + 1))) with
  | none => rfl
  | some g' => exact tableAt_self k g'

theorem tableAt_up (h : tableAt next rd ix k d f = some g) (hl : k ≤ l) (hd : l ≤ d) :
    ∃ g', tableAt next rd ix l d f = some g' := by
  revert hd
  refine tableAt_induction (P := fun d f => l ≤ d → ∃ g', tableAt next rd ix l d f = some g') h (fun hd => ?_) ?_
  · exact ⟨g, le_antisymm hl hd ▸ tableAt_self k g⟩
  · intro d f f' hnext _ ih hd
    by_cases hl' : l = d + 1
    · exact ⟨f, hl' ▸ tableAt_self _ _⟩
    · obtain ⟨g', hg'⟩ := ih (by omega)
      exact ⟨g', tableAt_next hnext hg'⟩

theorem tableAt_below_none (h : tableAt next rd ix k d f = some g) (hnext : next (rd g (ix k)) = none) (hl : l < k) :
    tableAt next rd ix l d f = none := by
  obtain ⟨k, rfl⟩ := Nat.exists_eq_succ_of_ne_zero (Nat.ne_zero_of_lt hl)
  rw [tableAt_trans h hl.le, tableAt_succ (Nat.le_of_lt_succ hl), hnext]
  rfl

theorem tableAt_bare (hbare : ∀ i, next (rd f i) = none) (h : tableAt next rd ix k d f = some g) : k = d ∧ g = f := by
  by_cases hk : k = d
  · exact ⟨hk, tableAt_root (hk ▸ h)⟩
  · rw [tableAt_below_none (tableAt_self d f) (hbare _) (lt_of_le_of_ne (tableAt_le h) hk)] at h
    cases h

theorem unshared_bare (hbare : ∀ i, next (rd f i) = none) : Unshared next rd d f := by
  intro ix ix' k k' g h h'
  obtain ⟨rfl, -⟩ := tableAt_bare hbare h
  obtain ⟨rfl, -⟩ := tableAt_bare hbare h'
  exact ⟨rfl, fun l hl hd => absurd hl (by omega)⟩

/-! ### Where a walk ends -/

theorem descend_congr (h : ∀ l g, tableAt next rd ix l d f = some g → rd' g (ix' l) = rd g (ix l)) :
    descend next rd' ix' step d f s = descend next rd ix step d f s := by
  induction d generalizing f s with
  | zero => rw [descend, descend, h 0 f (tableAt_self _ _)]
  | succ d ih =>
    rw [descend, descend, h (d + 1) f (tableAt_self _ _)]
    cases hnext : next (rd f (ix (d + 1))) with
    | none => rfl
    | some f' => exact ih fun l g hg => h l g (tableAt_next hnext hg)

/-- A walk that comes by `g` goes on from there; the entries above it decide what it brings along. -/
theorem descend_from (h : tableAt next rd ix k d f = some g) (step : σ → ε → σ) (s : σ) :
    ∃ s', ∀ rd', (∀ l g, k < l → tableAt next rd ix l d f = some g → rd' g (ix l) = rd g (ix l)) →
      descend next rd' ix step d f s = descend next rd' ix step k g s' := by
  revert s
  refine tableAt_induction (P := fun d f => ∀ s, ∃ s', ∀ rd',
    (∀ l g, k < l → tableAt next rd ix l d f = some g → rd' g (ix l) = rd g (ix l)) →
      descend next rd' ix step d f s = descend next rd' ix step k g s') h (fun s => ⟨s, fun _ _ => rfl⟩) ?_
  intro d f f' hnext h' ih s
  have hle := tableAt_le h'
  obtain ⟨s', hs'⟩ := ih (step s (rd f (ix (d + 1))))
  refine ⟨s', fun rd' hsame => ?_⟩
  rw [descend, hsame (d + 1) f (by omega) (tableAt_self _ _), hnext]
  exact hs' rd' fun l g hl hg => hsame l g hl (tableAt_next hnext hg)

theorem descend_last (d f : ℕ) (s : σ) : ∃ g, tableAt next rd ix (descend next rd ix step d f s).2.1 d f = some g ∧
    (descend next rd ix step d f s).2.2 = rd g (ix (descend next rd ix step d f s).2.1) ∧
    ((descend next rd ix step d f s).2.1 = 0 ∨ next (descend next rd ix step d f s).2.2 = none) := by
  induction d generalizing f s with
  | zero => exact ⟨f, tableAt_self _ _, rfl, .inl rfl⟩
  | succ d ih =>
    rw [descend]
    cases hnext : next (rd f (ix (d + 1))) with
    | none => exact ⟨f, tableAt_self _ _, rfl, .inr hnext⟩
    | some f' =>
      obtain ⟨g, hg, hrest⟩ := ih f' (step s (rd f (ix (d + 1))))
      exact ⟨g, tableAt_next hnext hg, hrest⟩

theorem descend_stop (h : k = 0 ∨ next (rd g (ix k)) = none) : descend next rd ix step k g s = (s, k, rd g (ix k)) := by
  cases k with
  | zero => rfl
  | succ k => rw [descend, h.resolve_left (Nat.succ_ne_zero k)]

/-- A walk ends in the table that leads nowhere. -/
theorem descend_eq (h : tableAt next rd ix k d f = some g) (hend : k = 0 ∨ next (rd g (ix k)) = none) :
    (descend next rd ix step d f s).2 = (k, rd g (ix k)) := by
  obtain ⟨s', hs'⟩ := descend_from h step s
  rw [hs' rd fun _ _ _ _ => rfl, descend_stop hend]

/-! ### Stores -/

variable {i : Fin n} {e : ε}

theorem Unshared.above (hu : Unshared next rd d f) (h : tableAt next rd ix k d f = some g) {g' : ℕ}
    (h' : tableAt next rd ix' l d f = some g') (hl : k < l) : g' ≠ g := by
  rintro rfl
  exact absurd (hu ix ix' k l g' h h').1 (by omega)

theorem Unshared.mono (hu : Unshared next rd d f)
    (h : ∀ ix l g, tableAt next rd' ix l d f = some g → tableAt next rd ix l d f = some g) : Unshared next rd' d f :=
  fun ix ix' k k' g hk hk' => hu ix ix' k k' g (h ix k g hk) (h ix' k' g hk')

variable (next) in
/-- The entry `e` is stored in slot `i` of the table `g` at level `k`; other tables of the tree keep theirs. -/
structure SlotStore (rd rd' : ℕ → Fin n → ε) (d f k g : ℕ) (i : Fin n) (e : ε) : Prop where
  unshared : Unshared next rd d f
  reach : ∃ ix, tableAt next rd ix k d f = some g
  self : rd' g = update (rd g) i e
  other : ∀ h, IsTable next rd d f h → h ≠ g → rd' h = rd h

namespace SlotStore

variable (hst : SlotStore next rd rd' d f k g i e)

include hst

section

variable (hoff : ¬(tableAt next rd ix k d f = some g ∧ ix k = i))
include hoff

theorem slot_away {l h : ℕ} (hl : tableAt next rd ix l d f = some h) : rd' h (ix l) = rd h (ix l) := by
  by_cases hh : h = g
  · subst hh
    obtain ⟨ix₀, h₀⟩ := hst.reach
    obtain ⟨rfl, -⟩ := hst.unshared ix ix₀ l k h hl h₀
    rw [hst.self, update_of_ne fun hi => hoff ⟨hl, hi⟩]
  · rw [hst.other h ⟨ix, l, hl⟩ hh]

theorem tableAt_away (l : ℕ) : tableAt next rd' ix l d f = tableAt next rd ix l d f :=
  tableAt_congr fun _ _ _ h => hst.slot_away hoff h

theorem descend_away (step : σ → ε → σ) (s : σ) : descend next rd' ix step d f s = descend next rd ix step d f s :=
  descend_congr fun _ _ h => hst.slot_away hoff h

end

section

variable (hon : tableAt next rd ix k d f = some g)
include hon

theorem slot_above {l h : ℕ} (hkl : k < l) (hl : tableAt next rd ix l d f = some h) : rd' h (ix l) = rd h (ix l) := by
  rw [hst.other h ⟨ix, l, hl⟩ (hst.unshared.above hon hl hkl)]

theorem tableAt_above (hkl : k ≤ l) : tableAt next rd' ix l d f = tableAt next rd ix l d f :=
  tableAt_congr fun _ _ hl h => hst.slot_above hon (lt_of_le_of_lt hkl hl) h

theorem descend_on (step : σ → ε → σ) (s : σ) : ∃ s', descend next rd ix step d f s = descend next rd ix step k g s' ∧
      descend next rd' ix step d f s = descend next rd' ix step k g s' := by
  obtain ⟨s', hs'⟩ := descend_from hon step s
  exact ⟨s', hs' rd fun _ _ _ _ => rfl, hs' rd' fun _ _ hl h => hst.slot_above hon hl h⟩

end

theorem slot_on (hi : ix k = i) : rd' g (ix k) = e := by
  rw [hst.self, hi, update_self]

/-- Only the tables below the slot may change. -/
theorem tableAt_cases (ix : ℕ → Fin n) (l : ℕ) : tableAt next rd' ix l d f = tableAt next rd ix l d f ∨
    tableAt next rd ix k d f = some g ∧ ix k = i ∧ l < k := by
  by_cases hon : tableAt next rd ix k d f = some g ∧ ix k = i
  · by_cases hkl : k ≤ l
    · exact .inl (hst.tableAt_above hon.1 hkl)
    · exact .inr ⟨hon.1, hon.2, by omega⟩
  · exact .inl (hst.tableAt_away hon l)

/-! An entry that leads nowhere is stored. -/

theorem tableAt_dead (hdead : k = 0 ∨ next e = none) {l h : ℕ} (hl : tableAt next rd' ix l d f = some h) :
    tableAt next rd ix l d f = some h := by
  rcases hst.tableAt_cases ix l with heq | ⟨hon, hi, hlk⟩
  · rwa [heq] at hl
  · have hat : tableAt next rd' ix k d f = some g := (hst.tableAt_above hon le_rfl).trans hon
    rw [tableAt_below_none hat ((hst.slot_on hi).symm ▸ hdead.resolve_left (by omega)) hlk] at hl
    cases hl

theorem unshared_dead (hdead : k = 0 ∨ next e = none) : Unshared next rd' d f :=
  hst.unshared.mono fun _ _ _ h => hst.tableAt_dead hdead h

theorem descend_dead (hdead : k = 0 ∨ next e = none) (hon : tableAt next rd ix k d f = some g) (hi : ix k = i)
    (step : σ → ε → σ) (s : σ) :
    ∃ s', descend next rd ix step d f s = descend next rd ix step k g s' ∧ descend next rd' ix step d f s = (s', k, e) := by
  obtain ⟨s', hs, hs'⟩ := hst.descend_on hon step s
  have he := hst.slot_on hi
  refine ⟨s', hs, hs'.trans ?_⟩
  rw [descend_stop (he.symm ▸ hdead), he]

end SlotStore

/-- The store of a leaf leaves the tables where they are. -/
theorem SlotStore.tableAt_leaf (hst : SlotStore next rd rd' d f 0 g i e) (ix : ℕ → Fin n) (l : ℕ) :
    tableAt next rd' ix l d f = tableAt next rd ix l d f :=
  (hst.tableAt_cases ix l).resolve_right fun h => Nat.not_lt_zero l h.2.2

/-! A table in the frame `F` is hooked into a slot that led nowhere. -/

namespace SlotStore

variable {F : ℕ} (hst : SlotStore next rd rd' d f (k + 1) g i e)

include hst

theorem tableAt_kept (hold : next (rd g i) = none) {l h : ℕ} (hl : tableAt next rd ix l d f = some h) :
    tableAt next rd' ix l d f = some h := by
  rcases hst.tableAt_cases ix l with heq | ⟨hon, hi, hlk⟩
  · rwa [heq]
  · rw [tableAt_below_none hon (hi.symm ▸ hold) hlk] at hl
    cases hl

section

variable (hnext : next e = some F)
include hnext

theorem tableAt_hooked (hon : tableAt next rd ix (k + 1) d f = some g) (hi : ix (k + 1) = i) :
    tableAt next rd' ix k d f = some F := by
  rw [tableAt_down ((hst.tableAt_above hon le_rfl).trans hon), hst.slot_on hi, hnext]

theorem tableAt_graft (hbare : k ≠ 0 → ∀ j, next (rd' F j) = none) {l h : ℕ}
    (hl : tableAt next rd' ix l d f = some h) :
    tableAt next rd ix l d f = some h ∨ h = F ∧ l = k ∧ tableAt next rd ix (k + 1) d f = some g ∧ ix (k + 1) = i := by
  rcases hst.tableAt_cases ix l with heq | ⟨hon, hi, hlk⟩
  · exact .inl (heq ▸ hl)
  · have hhook := hst.tableAt_hooked hnext hon hi
    by_cases hlk : l = k
    · subst hlk
      rw [hhook] at hl
      exact .inr ⟨(Option.some.inj hl).symm, rfl, hon, hi⟩
    · rw [tableAt_below_none hhook (hbare (by omega) _) (by omega)] at hl
      cases hl

theorem unshared_graft (hF : ¬IsTable next rd d f F)
    (hbare : k ≠ 0 → ∀ j, next (rd' F j) = none) : Unshared next rd' d f := by
  intro ix ix' l l' h hl hl'
  rcases hst.tableAt_graft hnext hbare hl with hl | ⟨rfl, rfl, hon, hi⟩
  · rcases hst.tableAt_graft hnext hbare hl' with hl' | ⟨rfl, -, -, -⟩
    · exact hst.unshared ix ix' l l' h hl hl'
    · exact absurd ⟨ix, l, hl⟩ hF
  · rcases hst.tableAt_graft hnext hbare hl' with hl' | ⟨-, rfl, hon', hi'⟩
    · exact absurd ⟨ix', l', hl'⟩ hF
    · refine ⟨rfl, fun m hm hd => ?_⟩
      by_cases hm' : m = l' + 1
      · rw [hm', hi, hi']
      · exact (hst.unshared ix ix' (l' + 1) (l' + 1) g hon hon').2 m (by omega) hd

theorem isTable_graft (hbare : k ≠ 0 → ∀ j, next (rd' F j) = none) {h : ℕ}
    (hh : IsTable next rd' d f h) : IsTable next rd d f h ∨ h = F := by
  obtain ⟨ix, l, hl⟩ := hh
  exact (hst.tableAt_graft hnext hbare hl).imp (fun hl => ⟨ix, l, hl⟩) fun hl => hl.1

end

theorem descend_graft (hold : next (rd g i) = none) (hnext : next e = some F) (hbare : k ≠ 0 → ∀ j, next (rd' F j) = none)
    (hon : tableAt next rd ix (k + 1) d f = some g) (hi : ix (k + 1) = i) (step : σ → ε → σ) (s : σ) :
    ∃ s', descend next rd ix step d f s = (s', k + 1, rd g i) ∧
      descend next rd' ix step d f s = (step s' e, k, rd' F (ix k)) := by
  obtain ⟨s', hs, hs'⟩ := hst.descend_on hon step s
  refine ⟨s', hs.trans ?_, hs'.trans ?_⟩
  · rw [descend_stop (.inr (hi.symm ▸ hold)), hi]
  · rw [descend, hst.slot_on hi, hnext]
    exact descend_stop (or_iff_not_imp_left.mpr fun hk => hbare hk _)

end SlotStore

/-! A table that leads nowhere is unhooked. -/

namespace SlotStore

variable {F : ℕ} (hst : SlotStore next rd rd' d f (k + 1) g i e)

include hst

section

variable (hdead : next e = none) (hold : next (rd g i) = some F) (hbare : k ≠ 0 → ∀ j, next (rd F j) = none)
include hdead hold hbare

/-- The walks through the slot ended in the table, and end in the slot. -/
theorem descend_prune
    (hon : tableAt next rd ix (k + 1) d f = some g) (hi : ix (k + 1) = i) (step : σ → ε → σ) (s : σ) :
    ∃ s₁ s₂, descend next rd ix step d f s = (s₁, k, rd F (ix k)) ∧ descend next rd' ix step d f s = (s₂, k + 1, e) := by
  obtain ⟨s', hs, hs'⟩ := hst.descend_dead (.inr hdead) hon hi step s
  refine ⟨step s' (rd g i), s', hs.trans ?_, hs'⟩
  rw [descend, hi, hold]
  exact descend_stop (or_iff_not_imp_left.mpr fun hk => hbare hk _)

theorem isTable_prune {h : ℕ} : IsTable next rd' d f h ↔ IsTable next rd d f h ∧ h ≠ F := by
  constructor
  · rintro ⟨ix, l, hl'⟩
    have hl := hst.tableAt_dead (.inr hdead) hl'
    refine ⟨⟨ix, l, hl⟩, ?_⟩
    rintro rfl
    -- the only path to `h` goes through the slot
    obtain ⟨ix₀, h₀⟩ := hst.reach
    have hpath : ∀ m, k + 1 < m → m ≤ d → update ix₀ (k + 1) i m = ix₀ m := fun m hm _ =>
      update_of_ne (by omega) _ _
    have hg : tableAt next rd (update ix₀ (k + 1) i) (k + 1) d f = some g := (tableAt_path hpath).trans h₀
    have hF : tableAt next rd (update ix₀ (k + 1) i) k d f = some h := by
      rw [tableAt_down hg, update_self, hold]
    obtain ⟨rfl, hsame⟩ := hst.unshared _ ix k l h hF hl
    have hon : tableAt next rd ix (k + 1) d f = some g :=
      (tableAt_path fun m hm hd => hsame m (by omega) hd).trans hg
    have hi : ix (k + 1) = i := by
      rw [hsame (k + 1) (Nat.lt_succ_self k) (tableAt_le hg), update_self]
    rw [tableAt_down ((hst.tableAt_above hon le_rfl).trans hon), hst.slot_on hi, hdead] at hl'
    cases hl'
  · rintro ⟨⟨ix, l, hl⟩, hne⟩
    refine ⟨ix, l, ?_⟩
    rcases hst.tableAt_cases ix l with heq | ⟨hon, hi, hlk⟩
    · rwa [heq]
    · have hF : tableAt next rd ix k d f = some F := by rw [tableAt_down hon, hi, hold]
      by_cases hlk : l = k
      · subst hlk
        rw [hF] at hl
        exact absurd (Option.some.inj hl).symm hne
      · rw [tableAt_below_none hF (hbare (by omega) _) (by omega)] at hl
        cases hl

end

end SlotStore

/-! ### Entries that disappear -/

theorem tableAt_fewer (h : ∀ g j, rd' g j = rd g j ∨ next (rd' g j) = none) (hl : tableAt next rd' ix l d f = some g) :
    tableAt next rd ix l d f = some g := by
  refine tableAt_induction (P := fun d f => tableAt next rd ix l d f = some g) hl (tableAt_self _ _) fun {d f _} hnext _ ih => ?_
  rcases h f (ix (d + 1)) with heq | hnone
  · exact tableAt_next (heq ▸ hnext) ih
  · rw [hnone] at hnext
    cases hnext

/-- A walk that came by a slot that is now cleared ends in a cleared slot. -/
theorem descend_cut {e₀ : ε} (h₀ : next e₀ = none) (h : ∀ g j, rd' g j = rd g j ∨ rd' g j = e₀)
    (hl : tableAt next rd ix l d f = some g) (hcut : rd' g (ix l) = e₀) : (descend next rd' ix step d f s).2.2 = e₀ := by
  refine tableAt_induction (P := fun d f => ∀ s, (descend next rd' ix step d f s).2.2 = e₀) hl (fun s => ?_)
    (fun {d f _} hnext _ ih s => ?_) s
  · rw [descend_stop (.inr (hcut.symm ▸ h₀))]
    exact hcut
  · rw [descend]
    rcases h f (ix (d + 1)) with heq | hzero
    · rw [heq, hnext]
      exact ih _
    · rw [hzero, h₀]

/-! ### Trees that use every table once -/

section Own

open Radix

variable {cls : ε → Kind} {cap : ℕ → ℕ} (hcls : ∀ e g, next e = some g → cls e = .table g) (hcap : ∀ d, n ≤ cap d)

include hcls hcap

theorem own_below (hnext : next (rd f i) = some g) (q : ℕ) :
    own q (view cls cap rd d g) + (if f = q then 1 else 0) ≤ own q (view cls cap rd (d + 1) f) := by
  rw [← own_kidOf_table q (hcls _ _ hnext)]
  exact own_slot_le (i.isLt.trans_le (hcap _)) q

theorem own_of_tableAt (h : tableAt next rd ix k d f = some g) : 0 < own g (view cls cap rd d f) := by
  refine tableAt_induction (P := fun d f => 0 < own g (view cls cap rd d f)) h (own_view_self _ _ _) ?_
  intro d f f' hnext _ hpos
  have hle := own_below hcls hcap (d := d) hnext g
  omega

theorem unshared_of_own (h : ∀ g, own g (view cls cap rd d f) ≤ 1) : Unshared next rd d f := by
  intro ix ix' k k' g hk hk'
  induction d generalizing f with
  | zero =>
    obtain rfl := Nat.le_zero.mp (tableAt_le hk)
    obtain rfl := Nat.le_zero.mp (tableAt_le hk')
    exact ⟨rfl, fun l hl hd => absurd hl (by omega)⟩
  | succ d ih =>
    have hone := h g
    -- a table below the root is not the root
    have hbelow : ∀ {jx l f'}, next (rd f (jx (d + 1))) = some f' → tableAt next rd jx l d f' = some g → g ≠ f := by
      rintro jx l f' hnext ht rfl
      have hle := own_below hcls hcap (d := d) hnext g
      have hpos := own_of_tableAt hcls hcap ht
      rw [if_pos rfl] at hle
      omega
    rcases tableAt_some hk with ⟨rfl, hg⟩ | ⟨f₁, hn₁, h₁⟩
    · rcases tableAt_some hk' with ⟨rfl, -⟩ | ⟨f₂, hn₂, h₂⟩
      · exact ⟨rfl, fun l hl hle => absurd hl (by omega)⟩
      · exact absurd hg (hbelow hn₂ h₂)
    · rcases tableAt_some hk' with ⟨rfl, hg⟩ | ⟨f₂, hn₂, h₂⟩
      · exact absurd hg (hbelow hn₁ h₁)
      · by_cases hi : ix (d + 1) = ix' (d + 1)
        · rw [← hi, hn₁] at hn₂
          cases hn₂
          have hle := fun q => own_below hcls hcap (d := d) hn₁ q
          obtain ⟨rfl, hsame⟩ := ih (fun q => ((Nat.le_add_right _ _).trans (hle q)).trans (h q)) h₁ h₂
          refine ⟨rfl, fun l hl hd => ?_⟩
          by_cases hl' : l = d + 1
          · rw [hl', hi]
          · exact hsame l hl (by omega)
        · have hle := (own_slots_le hi ((ix _).isLt.trans_le (hcap _)) ((ix' _).isLt.trans_le (hcap _)) g).trans hone
          rw [own_kidOf_table g (hcls _ _ hn₁), own_kidOf_table g (hcls _ _ hn₂)] at hle
          have hpos₁ := own_of_tableAt hcls hcap h₁
          have hpos₂ := own_of_tableAt hcls hcap h₂
          omega

end Own

end Tori.RadixWalk
