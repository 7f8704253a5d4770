import Tori.Lib.Sum

/-! Radix trees whose tables are numbered frames. A tree is read off a table memory
`rd : frame → slot → entry` by `view`; `cls` says whether an entry is empty, a large leaf
or a pointer to a table one level down, and `cap` how many slots of a table count at each
level. What a client needs about such a memory is stated on the trees: which frames are
tables (`own`), how often leaves with a given weight occur (`cnt`), what lies at a path
(`leafAt`), and what a change of one table does (`modify`). -/

namespace Tori.Radix

open Function

inductive Kind where
  | empty
  | big
  | table (frame : ℕ)

/-- The slots of a `node` hold `nil`, `big` or `ptr`. -/
inductive Trie (ε : Type) (n : ℕ) where
  | nil
  | big (e : ε)
  | ptr (e : ε) (t : Trie ε n)
  | leaf (frame : ℕ) (slot : Fin n → ε)
  | node (frame : ℕ) (kid : Fin n → Trie ε n)

variable {ε : Type} {n : ℕ}

def Trie.frame : Trie ε n → ℕ
  | .leaf f _ => f
  | .node f _ => f
  | _ => 0

/-- Weigh every table frame with `g` and every leaf slot with `h`. -/
def tally (g : ℕ → ℕ) (h : ε → ℕ) : Trie ε n → ℕ
  | .nil => 0
  | .big _ => 0
  | .ptr _ t => tally g h t
  | .leaf f slot => g f + ∑ i, h (slot i)
  | .node f kid => g f + ∑ i, tally g h (kid i)

/-- How often frame `f` is a table of the tree. -/
def own (f : ℕ) (t : Trie ε n) : ℕ := tally (fun g => if g = f then 1 else 0) (fun _ => 0) t

/-- The total weight of the leaf slots. -/
def cnt (h : ε → ℕ) (t : Trie ε n) : ℕ := tally (fun _ => 0) h t

/-- The leaf slot at the path `ix` (level ↦ index). -/
def leafAt (ix : ℕ → Fin n) : ℕ → Trie ε n → Option ε
  | 0, .leaf _ slot => some (slot (ix 0))
  | d + 1, .node _ kid =>
    match kid (ix (d + 1)) with
    | .ptr _ t => leafAt ix d t
    | _ => none
  | _, _ => none

/-- No large leaves, and every pointer entry satisfies `ok` with the frame it leads to. -/
def Ok (ok : ε → ℕ → Prop) : Trie ε n → Prop
  | .nil => True
  | .big _ => False
  | .ptr e t => ok e t.frame ∧ Ok ok t
  | .leaf _ _ => True
  | .node _ kid => ∀ i, Ok ok (kid i)

@[simp] theorem tally_nil (g : ℕ → ℕ) (h : ε → ℕ) : tally g h (.nil : Trie ε n) = 0 := rfl

@[simp] theorem tally_ptr (g : ℕ → ℕ) (h : ε → ℕ) (e : ε) (t : Trie ε n) :
    tally g h (.ptr e t) = tally g h t := rfl

@[simp] theorem own_nil (f : ℕ) : own f (.nil : Trie ε n) = 0 := rfl

@[simp] theorem own_ptr (f : ℕ) (e : ε) (t : Trie ε n) : own f (.ptr e t) = own f t := rfl

@[simp] theorem cnt_nil (h : ε → ℕ) : cnt h (.nil : Trie ε n) = 0 := rfl

@[simp] theorem cnt_ptr (h : ε → ℕ) (e : ε) (t : Trie ε n) : cnt h (.ptr e t) = cnt h t := rfl

theorem own_leaf (f g : ℕ) (slot : Fin n → ε) :
    own f (.leaf g slot) = if g = f then 1 else 0 := by
  simp [own, tally]

theorem own_node (f g : ℕ) (kid : Fin n → Trie ε n) :
    own f (.node g kid) = (if g = f then 1 else 0) + ∑ i, own f (kid i) := rfl

theorem cnt_leaf (h : ε → ℕ) (g : ℕ) (slot : Fin n → ε) :
    cnt h (.leaf g slot) = ∑ i, h (slot i) := by
  simp [cnt, tally]

theorem cnt_node (h : ε → ℕ) (g : ℕ) (kid : Fin n → Trie ε n) :
    cnt h (.node g kid) = ∑ i, cnt h (kid i) := by
  simp [cnt, tally]

theorem own_add_cnt (f : ℕ) (h : ε → ℕ) (t : Trie ε n) :
    tally (fun g => if g = f then 1 else 0) h t = own f t + cnt h t := by
  induction t with
  | nil => rfl
  | big e => rfl
  | ptr e t ih => exact ih
  | leaf g slot => rw [own_leaf, cnt_leaf, tally]
  | node g kid ih => rw [own_node, cnt_node, tally, Nat.add_assoc, ← Finset.sum_add_distrib]; simp only [ih]

theorem own_kid_le (f g : ℕ) (kid : Fin n → Trie ε n) (i : Fin n) :
    own f (kid i) + (if g = f then 1 else 0) ≤ own f (.node g kid) := by
  have := Finset.single_le_sum (f := fun i => own f (kid i))
    (fun _ _ => Nat.zero_le _) (Finset.mem_univ i)
  rw [own_node]
  omega

variable {i : Fin n} {t' : Trie ε n} {ok : ε → ℕ → Prop} {φ : ε → ε} {h : ε → ℕ} {R : ε → ε → Prop}

theorem own_kids_le (f g : ℕ) (kid : Fin n → Trie ε n) {j : Fin n} (hij : i ≠ j) :
    own f (kid i) + own f (kid j) ≤ own f (.node g kid) := by
  have := Finset.sum_le_sum_of_subset (f := fun i => own f (kid i))
    (Finset.subset_univ ({i, j} : Finset (Fin n)))
  rw [Finset.sum_pair hij] at this
  rw [own_node]
  omega

theorem cnt_kid_le (h : ε → ℕ) (g : ℕ) (kid : Fin n → Trie ε n) (i : Fin n) :
    cnt h (kid i) ≤ cnt h (.node g kid) := by
  rw [cnt_node]
  exact Finset.single_le_sum (f := fun i => cnt h (kid i)) (fun _ _ => Nat.zero_le _)
    (Finset.mem_univ i)

/-! ### Reading a tree off a memory -/

section View

variable (cls : ε → Kind) (cap : ℕ → ℕ)

/-- What a slot with entry `e` stands for, given the trees one level down. -/
def kidOf (sub : ℕ → Trie ε n) (e : ε) : Trie ε n :=
  match cls e with
  | .empty => .nil
  | .big => .big e
  | .table g => .ptr e (sub g)

def view (rd : ℕ → Fin n → ε) : ℕ → ℕ → Trie ε n
  | 0, f => .leaf f (rd f)
  | d + 1, f =>
    .node f fun i => if i.val < cap (d + 1) then kidOf cls (view rd d) (rd f i) else .nil

variable {cls cap}

@[simp] theorem view_frame (rd : ℕ → Fin n → ε) (d f : ℕ) : (view cls cap rd d f).frame = f := by
  cases d <;> rfl

theorem own_view_self (rd : ℕ → Fin n → ε) (d f : ℕ) : 0 < own f (view cls cap rd d f) := by
  cases d with
  | zero => simp [view, own_leaf]
  | succ d => simp [view, own_node]

variable {e : ε} {sub : ℕ → Trie ε n} {rd : ℕ → Fin n → ε}

theorem kidOf_congr {sub' : ℕ → Trie ε n}
    (h : ∀ g, cls e = .table g → sub' g = sub g) : kidOf cls sub' e = kidOf cls sub e := by
  unfold kidOf
  split
  · rfl
  · rfl
  · rename_i g hg
    rw [h g hg]

theorem own_kidOf_table {g : ℕ} (f : ℕ) (h : cls e = .table g) :
    own f (kidOf cls sub e) = own f (sub g) := by
  simp [kidOf, h]

theorem own_view_bare {d f : ℕ} (h : d ≠ 0 → ∀ i g, cls (rd f i) ≠ .table g) (q : ℕ) :
    own q (view cls cap rd d f) = if f = q then 1 else 0 := by
  cases d with
  | zero => exact own_leaf q f _
  | succ d =>
    rw [view, own_node, Finset.sum_eq_zero, Nat.add_zero]
    intro i _
    split_ifs
    · unfold kidOf
      split
      · rfl
      · rfl
      · rename_i g hg
        exact absurd hg (h (Nat.succ_ne_zero d) i g)
    · rfl

/-- Locality: a tree only depends on the tables it owns. -/
theorem view_congr {rd' : ℕ → Fin n → ε} (d f : ℕ) (h : ∀ g, 0 < own g (view cls cap rd d f) → rd' g = rd g) :
    view cls cap rd' d f = view cls cap rd d f := by
  induction d generalizing f with
  | zero => rw [view, view, h f (own_view_self rd 0 f)]
  | succ d ih =>
    rw [view, view, h f (own_view_self rd (d + 1) f)]
    congr 1
    funext i
    split_ifs with hi
    · refine kidOf_congr fun g hg => ih g fun g' hg' => h g' (lt_of_lt_of_le hg' ?_)
      rw [view]
      refine le_trans ?_ (own_kid_le g' f _ i)
      rw [if_pos hi, own_kidOf_table g' hg]
      exact Nat.le_add_right _ _
    · rfl

end View

/-! ### Changing one table

`subAt ix k j t` is the tree at level `k` on the path `ix`, `j` levels below the root;
`modify ix k φ j t` replaces it by its image under `φ`. -/

def subAt (ix : ℕ → Fin n) (k : ℕ) : ℕ → Trie ε n → Option (Trie ε n)
  | 0, t => some t
  | j + 1, .node _ kid =>
    match kid (ix (k + j + 1)) with
    | .ptr _ t => subAt ix k j t
    | _ => none
  | _ + 1, _ => none

def onPtr (φ : Trie ε n → Trie ε n) : Trie ε n → Trie ε n
  | .ptr e t => .ptr e (φ t)
  | t => t

def modify (ix : ℕ → Fin n) (k : ℕ) (φ : Trie ε n → Trie ε n) : ℕ → Trie ε n → Trie ε n
  | 0, t => φ t
  | j + 1, .node f kid =>
    .node f (update kid (ix (k + j + 1)) (onPtr (modify ix k φ j) (kid (ix (k + j + 1)))))
  | _ + 1, t => t

variable {ix ix' : ℕ → Fin n} {k j : ℕ} {t s : Trie ε n}

theorem subAt_succ (h : subAt ix k (j + 1) t = some s) :
    ∃ f kid e t', t = .node f kid ∧ kid (ix (k + j + 1)) = .ptr e t' ∧ subAt ix k j t' = some s := by
  cases t with
  | node f kid =>
    simp only [subAt] at h
    split at h
    · rename_i e t' hk
      exact ⟨f, kid, e, t', rfl, hk, h⟩
    · exact absurd h (by simp)
  | nil => simp [subAt] at h
  | big e => simp [subAt] at h
  | ptr e t => simp [subAt] at h
  | leaf f slot => simp [subAt] at h

/-- The path down to the tree `s`. -/
inductive Path (ix : ℕ → Fin n) (k : ℕ) (s : Trie ε n) : ℕ → Trie ε n → Prop
  | zero : Path ix k s 0 s
  | succ {j f : ℕ} {kid : Fin n → Trie ε n} {e : ε} {t : Trie ε n} (hk : kid (ix (k + j + 1)) = .ptr e t)
      (h : Path ix k s j t) : Path ix k s (j + 1) (.node f kid)

theorem subAt_path (hs : subAt ix k j t = some s) : Path ix k s j t := by
  induction j generalizing t with
  | zero =>
    simp only [subAt, Option.some.injEq] at hs
    exact hs ▸ .zero
  | succ j ih =>
    obtain ⟨f, kid, e, t', rfl, hk, hs'⟩ := subAt_succ hs
    exact .succ hk (ih hs')

theorem subAt_down {e : ε} {f : ℕ} {kid : Fin n → Trie ε n} (hk : kid (ix (k + 1)) = .ptr e t')
    (hs : subAt ix (k + 1) j t = some (.node f kid)) : subAt ix k (j + 1) t = some t' := by
  replace hs := subAt_path hs
  induction hs with
  | zero => simp only [subAt, Nat.add_zero, hk]
  | @succ j f' kid' e' t hk' _ ih =>
    rw [subAt, show k + (j + 1) + 1 = k + 1 + j + 1 by omega, hk']
    exact ih

theorem subAt_modify (φ : Trie ε n → Trie ε n) (hs : subAt ix k j t = some s) :
    subAt ix k j (modify ix k φ j t) = some (φ s) := by
  replace hs := subAt_path hs
  induction hs with
  | zero => rfl
  | @succ j f kid e t hk _ ih =>
    rw [modify, subAt, update_self, hk, onPtr]
    exact ih

theorem tally_modify (g : ℕ → ℕ) (h : ε → ℕ) (φ : Trie ε n → Trie ε n) (hs : subAt ix k j t = some s) :
    tally g h (modify ix k φ j t) + tally g h s = tally g h t + tally g h (φ s) := by
  replace hs := subAt_path hs
  induction hs with
  | zero => exact Nat.add_comm _ _
  | @succ j f kid e t hk _ ih =>
    have hsum := sum_update (tally g h) kid (Finset.mem_univ (ix (k + j + 1))) (.ptr e (modify ix k φ j t))
    rw [hk, tally_ptr, tally_ptr] at hsum
    simp only [modify, hk, onPtr, tally]
    omega

theorem tally_subAt_le (g : ℕ → ℕ) (h : ε → ℕ) (hs : subAt ix k j t = some s) : tally g h s ≤ tally g h t := by
  have hmod := tally_modify g h (fun _ => .nil) hs
  rw [tally_nil] at hmod
  omega

theorem Ok.subAt (ht : Ok ok t) (hs : subAt ix k j t = some s) : Ok ok s := by
  replace hs := subAt_path hs
  induction hs with
  | zero => exact ht
  | @succ j f kid e t hk _ ih =>
    have hkid := ht (ix (k + j + 1))
    rw [hk] at hkid
    exact ih hkid.2

theorem Ok.modify {φ : Trie ε n → Trie ε n} (ht : Ok ok t) (hs : Radix.subAt ix k j t = some s)
    (hφ : Ok ok (φ s)) (hf : (φ s).frame = s.frame) :
    Ok ok (modify ix k φ j t) ∧ (modify ix k φ j t).frame = t.frame := by
  replace hs := subAt_path hs
  induction hs with
  | zero => exact ⟨hφ, hf⟩
  | @succ j f kid e t hk _ ih =>
    refine ⟨fun i => ?_, rfl⟩
    have hkid := ht (ix (k + j + 1))
    rw [hk] at hkid
    obtain ⟨h1, h2⟩ := ih hkid.2
    by_cases hi : i = ix (k + j + 1)
    · subst hi
      rw [update_self, hk]
      exact ⟨by rw [h2]; exact hkid.1, h1⟩
    · rw [update_of_ne hi]
      exact ht i

/-- Two paths agree on the levels above `k` up to `k + j`. -/
def SamePath (ix ix' : ℕ → Fin n) (k j : ℕ) : Prop := ∀ l, k < l → l ≤ k + j → ix' l = ix l

theorem SamePath.refl (ix : ℕ → Fin n) (k j : ℕ) : SamePath ix ix k j := fun _ _ _ => rfl

theorem leafAt_subAt (hs : subAt ix k j t = some s) (hp : SamePath ix ix' k j) :
    leafAt ix' (k + j) t = leafAt ix' k s := by
  replace hs := subAt_path hs
  induction hs with
  | zero => rfl
  | @succ j f kid e t hk _ ih =>
    rw [← Nat.add_assoc, leafAt, hp (k + j + 1) (by omega) (by omega), hk]
    exact ih fun l h1 h2 => hp l h1 (by omega)

theorem leafAt_modify_same (φ : Trie ε n → Trie ε n) (hs : subAt ix k j t = some s) (hp : SamePath ix ix' k j) :
    leafAt ix' (k + j) (modify ix k φ j t) = leafAt ix' k (φ s) := by
  replace hs := subAt_path hs
  induction hs with
  | zero => rfl
  | @succ j f kid e t hk _ ih =>
    rw [← Nat.add_assoc, modify, leafAt, hp (k + j + 1) (by omega) (by omega), update_self, hk]
    exact ih fun l h1 h2 => hp l h1 (by omega)

theorem leafAt_modify_other (φ : Trie ε n → Trie ε n) (hs : subAt ix k j t = some s) (hp : ¬ SamePath ix ix' k j) :
    leafAt ix' (k + j) (modify ix k φ j t) = leafAt ix' (k + j) t := by
  replace hs := subAt_path hs
  induction hs with
  | zero => exact absurd (fun l h1 h2 => absurd h1 (by omega)) hp
  | @succ j f kid e t hk _ ih =>
    rw [← Nat.add_assoc, modify, leafAt, leafAt]
    by_cases hi : ix' (k + j + 1) = ix (k + j + 1)
    · rw [hi, update_self, hk]
      refine ih fun hsame => hp fun l h1 h2 => ?_
      by_cases hl : l = k + j + 1
      · rw [hl, hi]
      · exact hsame l h1 (by omega)
    · rw [update_of_ne hi]

section View

variable {cls : ε → Kind} {cap : ℕ → ℕ}

variable {d f : ℕ} {e : ε} {i : Fin n} {rd r r' : ℕ → Fin n → ε}

theorem view_slot {t : Trie ε n}
    (h : (if i.val < cap (d + 1) then kidOf cls (view cls cap rd d) (rd f i) else .nil) = .ptr e t) :
    i.val < cap (d + 1) ∧ rd f i = e ∧ ∃ g, cls e = .table g ∧ t = view cls cap rd d g := by
  split_ifs at h with hi
  unfold kidOf at h
  split at h
  · exact absurd h (by simp)
  · exact absurd h (by simp)
  · rename_i g hg
    obtain ⟨rfl, rfl⟩ := h
    exact ⟨hi, rfl, g, hg, rfl⟩

theorem subAt_view (hs : subAt ix k j (view cls cap rd (k + j) f) = some s) : s = view cls cap rd k s.frame := by
  induction j generalizing f with
  | zero =>
    simp only [subAt, Nat.add_zero, Option.some.injEq] at hs
    rw [← hs, view_frame]
  | succ j ih =>
    rw [← Nat.add_assoc, view] at hs
    obtain ⟨f', kid, e, t', ht, hk, hs'⟩ := subAt_succ hs
    obtain ⟨rfl, rfl⟩ := Trie.node.inj ht
    obtain ⟨-, -, g, -, rfl⟩ := view_slot hk
    exact ih hs'

/-- The table in frame `f` with only its first `k` slots read. -/
def upTo (cls : ε → Kind) (cap : ℕ → ℕ) (k : ℕ) (rd : ℕ → Fin n → ε) (d f : ℕ) : Trie ε n :=
  .node f fun i => if i.val < k then kidOf cls (view cls cap rd d) (rd f i) else .nil

theorem view_succ (rd : ℕ → Fin n → ε) (d f : ℕ) :
    view cls cap rd (d + 1) f = upTo cls cap (cap (d + 1)) rd d f := rfl

theorem own_slot_le (hi : i.val < k) (q : ℕ) :
    own q (kidOf cls (view cls cap rd d) (rd f i)) + (if f = q then 1 else 0) ≤ own q (upTo cls cap k rd d f) := by
  have h := own_kid_le q f (fun i => if i.val < k then kidOf cls (view cls cap rd d) (rd f i) else .nil) i
  rwa [if_pos hi] at h

theorem own_slot_pos {q : ℕ} (hi : i.val < k) (hq : 0 < own q (kidOf cls (view cls cap rd d) (rd f i))) :
    0 < own q (upTo cls cap k rd d f) :=
  hq.trans_le ((Nat.le_add_right _ _).trans (own_slot_le hi q))

/-- A table that occurs once is not below itself. -/
theorem ne_of_own_slot {q : ℕ} (hi : i.val < k) (hu : own f (upTo cls cap k rd d f) ≤ 1)
    (hq : 0 < own q (kidOf cls (view cls cap rd d) (rd f i))) : q ≠ f := by
  rintro rfl
  have hle := (own_slot_le hi q).trans hu
  rw [if_pos rfl] at hle
  omega

theorem own_slots_le {j : Fin n} (hij : i ≠ j) (hi : i.val < k) (hj : j.val < k) (q : ℕ) :
    own q (kidOf cls (view cls cap rd d) (rd f i)) + own q (kidOf cls (view cls cap rd d) (rd f j)) ≤
      own q (upTo cls cap k rd d f) := by
  have h := own_kids_le q f (fun i => if i.val < k then kidOf cls (view cls cap rd d) (rd f i) else .nil) hij
  rwa [if_pos hi, if_pos hj] at h

theorem kidOf_view_congr (h : ∀ g, 0 < own g (kidOf cls (view cls cap r d) e) → r' g = r g) :
    kidOf cls (view cls cap r' d) e = kidOf cls (view cls cap r d) e :=
  kidOf_congr fun g hg => view_congr d g fun g' hg' => h g' (by rwa [own_kidOf_table g' hg])

/-- A change of one table of a tree whose tables are distinct. -/
theorem view_modify {φ : Trie ε n → Trie ε n} (hs : subAt ix k j (view cls cap r (k + j) f) = some s)
    (hu : ∀ g, own g (view cls cap r (k + j) f) ≤ 1)
    (hr : ∀ g, g ≠ s.frame → 0 < own g (view cls cap r (k + j) f) → r' g = r g)
    (hφ : view cls cap r' k s.frame = φ s) :
    view cls cap r' (k + j) f = modify ix k φ j (view cls cap r (k + j) f) := by
  induction j generalizing f with
  | zero =>
    simp only [subAt, Nat.add_zero, Option.some.injEq] at hs
    subst hs
    rw [view_frame] at hφ
    exact hφ
  | succ j ih =>
    have hsv := subAt_view hs
    rw [← Nat.add_assoc, view_succ] at hs hu hr ⊢
    obtain ⟨f', kid, e, t', ht, hk, hs'⟩ := subAt_succ hs
    obtain ⟨rfl, rfl⟩ := Trie.node.inj ht
    obtain ⟨hlt, hentry, g1, hcls, rfl⟩ := view_slot hk
    have hown : ∀ q, own q (kidOf cls (view cls cap r (k + j)) (r f (ix (k + j + 1)))) = own q (view cls cap r (k + j) g1) :=
      fun q => own_kidOf_table q (hentry ▸ hcls)
    have hself : 0 < own s.frame (kidOf cls (view cls cap r (k + j)) (r f (ix (k + j + 1)))) := by
      rw [hown]
      refine lt_of_lt_of_le ?_ (tally_subAt_le _ _ hs')
      have hpos : 0 < own s.frame (view cls cap r k s.frame) := own_view_self r k s.frame
      rwa [← hsv] at hpos
    rw [view_succ, upTo, upTo, modify, hr f (ne_of_own_slot hlt (hu f) hself).symm (own_view_self r (k + j + 1) f)]
    congr 1
    funext i
    by_cases hi : i = ix (k + j + 1)
    · subst hi
      rw [update_self, if_pos hlt, if_pos hlt, hentry]
      simp only [kidOf, hcls, onPtr]
      congr 1
      refine ih hs' (fun g => ?_) fun g hg hpos => hr g hg (own_slot_pos hlt (by rwa [hown]))
      have hle := (own_slot_le hlt g).trans (hu g)
      rw [hown] at hle
      omega
    · rw [update_of_ne hi]
      split_ifs with hc
      · refine kidOf_view_congr fun g hg => hr g ?_ (own_slot_pos hc hg)
        rintro rfl
        have hle := (own_slots_le hi hc hlt s.frame).trans (hu s.frame)
        omega
      · rfl

theorem sum_lt_succ (w : Fin n → ℕ) (hk : k < n) :
    (∑ i : Fin n, if i.val < k + 1 then w i else 0) =
      (∑ i : Fin n, if i.val < k then w i else 0) + w ⟨k, hk⟩ := by
  have h := sum_replace (fun i : Fin n => if i.val < k then w i else 0) (fun i => if i.val < k + 1 then w i else 0)
    (Finset.mem_univ ⟨k, hk⟩) fun i _ hi => by
      rw [ne_eq, Fin.ext_iff] at hi
      simp only [show i.val < k + 1 ↔ i.val < k by dsimp only at hi; omega]
  simpa using h

theorem tally_upTo (g : ℕ → ℕ) (h : ε → ℕ) (k : ℕ) (rd : ℕ → Fin n → ε) (d f : ℕ) :
    tally g h (upTo cls cap k rd d f) = g f + ∑ i : Fin n,
      if i.val < k then tally g h (kidOf cls (view cls cap rd d) (rd f i)) else 0 := by
  simp only [upTo, tally, apply_ite (tally g h)]

theorem tally_upTo_zero (g : ℕ → ℕ) (h : ε → ℕ) (rd : ℕ → Fin n → ε) (d f : ℕ) :
    tally g h (upTo cls cap 0 rd d f) = g f := by
  simp [tally_upTo]

theorem tally_upTo_succ (g : ℕ → ℕ) (h : ε → ℕ) (hk : k < n) (rd : ℕ → Fin n → ε) (d f : ℕ) :
    tally g h (upTo cls cap (k + 1) rd d f) =
      tally g h (upTo cls cap k rd d f) +
        tally g h (kidOf cls (view cls cap rd d) (rd f ⟨k, hk⟩)) := by
  rw [tally_upTo, tally_upTo, sum_lt_succ _ hk, Nat.add_assoc]

/-- Put `t` in slot `i`. -/
def setSlot (i : Fin n) (t : Trie ε n) : Trie ε n → Trie ε n
  | .node f kid => .node f (update kid i t)
  | s => s

/-- Reading one more slot, after a change that leaves the tables read so far alone. -/
theorem upTo_succ (hk : k < n)
    (hroot : ∀ i : Fin n, i.val < k → r' f i = r f i)
    (hu : own f (upTo cls cap k r d f) ≤ 1)
    (hsub : ∀ g, g ≠ f → 0 < own g (upTo cls cap k r d f) → r' g = r g) :
    upTo cls cap (k + 1) r' d f =
      setSlot ⟨k, hk⟩ (kidOf cls (view cls cap r' d) (r' f ⟨k, hk⟩)) (upTo cls cap k r d f) := by
  rw [upTo, upTo, setSlot]
  congr 1
  funext i
  rcases lt_trichotomy i.val k with hi | hi | hi
  · rw [update_of_ne (by rw [ne_eq, Fin.ext_iff]; dsimp only; omega), if_pos (by omega),
      if_pos hi, hroot i hi]
    exact kidOf_view_congr fun g hg => hsub g (ne_of_own_slot hi hu hg) (own_slot_pos hi hg)
  · obtain rfl : i = ⟨k, hk⟩ := Fin.ext hi
    rw [update_self, if_pos (by simp)]
  · rw [update_of_ne (by rw [ne_eq, Fin.ext_iff]; dsimp only; omega), if_neg (by omega),
      if_neg (by omega)]

theorem tally_setSlot (g : ℕ → ℕ) (h : ε → ℕ) (i : Fin n) (t : Trie ε n) (f : ℕ) (kid : Fin n → Trie ε n) :
    tally g h (setSlot i t (.node f kid)) + tally g h (kid i) = tally g h (.node f kid) + tally g h t := by
  have := sum_update (tally g h) kid (Finset.mem_univ i) t
  simp only [setSlot, tally]
  omega

/-- A new entry in one slot of a table that occurs once in its tree. -/
theorem view_setSlot (hi : i.val < cap (d + 1))
    (hroot : r' f = update (r f) i e) (hu : own f (view cls cap r (d + 1) f) ≤ 1)
    (hsub : ∀ g, g ≠ f → 0 < own g (view cls cap r (d + 1) f) → r' g = r g) :
    view cls cap r' (d + 1) f =
      setSlot i (kidOf cls (view cls cap r' d) e) (view cls cap r (d + 1) f) := by
  rw [view_succ, view_succ, upTo, upTo, setSlot]
  rw [view_succ] at hu hsub
  congr 1
  funext j
  by_cases hj : j = i
  · subst hj
    rw [update_self, if_pos hi, hroot, update_self]
  · rw [update_of_ne hj, hroot, update_of_ne hj]
    split_ifs with hc
    · exact kidOf_view_congr fun g hg => hsub g (ne_of_own_slot hc hu hg) (own_slot_pos hc hg)
    · rfl

theorem tally_setSlot_upTo (g : ℕ → ℕ) (h : ε → ℕ) (hk : k < n) (t : Trie ε n)
    (rd : ℕ → Fin n → ε) (d f : ℕ) :
    tally g h (setSlot ⟨k, hk⟩ t (upTo cls cap k rd d f)) =
      tally g h (upTo cls cap k rd d f) + tally g h t := by
  have := sum_update (tally g h)
    (fun i => if i.val < k then kidOf cls (view cls cap rd d) (rd f i) else .nil) (Finset.mem_univ ⟨k, hk⟩) t
  simp only [lt_irrefl, if_false, tally_nil, Nat.add_zero] at this
  simp only [upTo, setSlot, tally, this, Nat.add_assoc]

theorem tally_upTo_mono (g : ℕ → ℕ) (h : ε → ℕ) {l : ℕ} (hkl : k ≤ l) (rd : ℕ → Fin n → ε) (d f : ℕ) :
    tally g h (upTo cls cap k rd d f) ≤ tally g h (upTo cls cap l rd d f) := by
  rw [tally_upTo, tally_upTo]
  refine Nat.add_le_add_left (Finset.sum_le_sum fun i _ => ?_) _
  by_cases hi : i.val < k
  · rw [if_pos hi, if_pos (by omega)]
  · rw [if_neg hi]; exact Nat.zero_le _

theorem own_upTo_self (k : ℕ) (rd : ℕ → Fin n → ε) (d f : ℕ) :
    0 < own f (upTo cls cap k rd d f) := by
  simp [own, tally_upTo]

theorem upTo_zero (rd : ℕ → Fin n → ε) (d f : ℕ) :
    upTo cls cap 0 rd d f = .node f fun _ => .nil := by
  simp [upTo]

end View

/-! ### Trees of the same shape -/

def mapLeaf (φ : ε → ε) : Trie ε n → Trie ε n
  | .nil => .nil
  | .big e => .big e
  | .ptr e t => .ptr e (mapLeaf φ t)
  | .leaf f slot => .leaf f fun i => φ (slot i)
  | .node f kid => .node f fun i => mapLeaf φ (kid i)

/-- The second tree has the shape of the first, with other tables and leaves changed by `φ`. -/
def Copy (φ : ε → ε) : Trie ε n → Trie ε n → Prop
  | .nil, .nil => True
  | .ptr _ t, .ptr _ t' => Copy φ t t'
  | .leaf _ slot, .leaf _ slot' => ∀ i, slot' i = φ (slot i)
  | .node _ kid, .node _ kid' => ∀ i, Copy φ (kid i) (kid' i)
  | _, _ => False

@[simp] theorem frame_mapLeaf (φ : ε → ε) (t : Trie ε n) : (mapLeaf φ t).frame = t.frame := by
  cases t <;> rfl

theorem tally_mapLeaf (φ : ε → ε) (g : ℕ → ℕ) (h : ε → ℕ) (t : Trie ε n) :
    tally g h (mapLeaf φ t) = tally g (fun e => h (φ e)) t := by
  induction t with
  | nil => rfl
  | big e => rfl
  | ptr e t ih => exact ih
  | leaf g slot => rfl
  | node g kid ih => simp only [mapLeaf, tally, ih]

theorem own_mapLeaf (φ : ε → ε) (f : ℕ) (t : Trie ε n) : own f (mapLeaf φ t) = own f t := tally_mapLeaf φ _ _ t

theorem cnt_mapLeaf (φ : ε → ε) (h : ε → ℕ) (t : Trie ε n) : cnt h (mapLeaf φ t) = cnt (fun e => h (φ e)) t :=
  tally_mapLeaf φ _ h t

theorem leafAt_mapLeaf (φ : ε → ε) (ix : ℕ → Fin n) (d : ℕ) (t : Trie ε n) :
    leafAt ix d (mapLeaf φ t) = (leafAt ix d t).map φ := by
  induction d generalizing t with
  | zero => cases t <;> rfl
  | succ d ih =>
    cases t with
    | node f kid =>
      rw [mapLeaf, leafAt, leafAt]
      cases kid (ix (d + 1)) with
      | ptr e t => exact ih t
      | _ => rfl
    | _ => rfl

theorem Ok.mapLeaf (φ : ε → ε) (h : Ok ok t) :
    Ok ok (mapLeaf φ t) := by
  induction t with
  | nil => trivial
  | big e => exact h
  | ptr e t ih => exact ⟨by rw [frame_mapLeaf]; exact h.1, ih h.2⟩
  | leaf f slot => trivial
  | node f kid ih => exact fun i => ih i (h i)

theorem Copy.leafAt {d : ℕ} (h : Copy φ t t') : leafAt ix d t' = (leafAt ix d t).map φ := by
  induction d generalizing t t' with
  | zero => cases t <;> cases t' <;> simp_all [Copy, Radix.leafAt]
  | succ d ih =>
    cases t <;> cases t' <;> try simp_all [Copy, Radix.leafAt]; done
    rename_i f kid f' kid'
    have hk : Copy φ (kid (ix (d + 1))) (kid' (ix (d + 1))) := h _
    rw [Radix.leafAt, Radix.leafAt]
    revert hk
    cases kid (ix (d + 1)) <;> cases kid' (ix (d + 1)) <;> intro hk <;>
      try simp_all [Copy]; done
    exact ih hk

/-- A copy has other tables, so each table counts the same. -/
theorem Copy.tally {c : ℕ} : ∀ {t' : Trie ε n}, Copy φ t t' →
    tally (fun _ => c) h t' = tally (fun _ => c) (fun e => h (φ e)) t := by
  induction t with
  | nil => intro t' hc; cases t' <;> simp_all [Copy]
  | big e => intro t' hc; cases t' <;> simp_all [Copy]
  | ptr e t ih =>
    intro t' hc
    cases t' with
    | ptr e' t' => rw [tally_ptr, tally_ptr]; exact ih hc
    | _ => exact hc.elim
  | leaf f slot =>
    intro t' hc
    cases t' with
    | leaf f' slot' => exact congrArg (c + ·) (Finset.sum_congr rfl fun i _ => congrArg h (hc i))
    | _ => exact hc.elim
  | node f kid ih =>
    intro t' hc
    cases t' with
    | node f' kid' => exact congrArg (c + ·) (Finset.sum_congr rfl fun i _ => ih i (hc i))
    | _ => exact hc.elim

theorem Copy.cnt (hc : Copy φ t t') : cnt h t' = cnt (fun e => h (φ e)) t :=
  hc.tally

theorem leafAt_setSlot_self (ix : ℕ → Fin n) (d : ℕ) (e : ε) (t : Trie ε n) (f : ℕ)
    (kid : Fin n → Trie ε n) :
    leafAt ix (d + 1) (setSlot (ix (d + 1)) (.ptr e t) (.node f kid)) = leafAt ix d t := by
  rw [setSlot, leafAt, update_self]

theorem leafAt_setSlot_other {d : ℕ} (h : ix (d + 1) ≠ i) (t : Trie ε n) (f : ℕ)
    (kid : Fin n → Trie ε n) :
    leafAt ix (d + 1) (setSlot i t (.node f kid)) = leafAt ix (d + 1) (.node f kid) := by
  rw [setSlot, leafAt, leafAt, update_of_ne h]

/-- Put the entry `e` in slot `i` of a leaf table. -/
def setLeaf (i : Fin n) (e : ε) : Trie ε n → Trie ε n
  | .leaf f slot => .leaf f (update slot i e)
  | t => t

theorem cnt_setLeaf (h : ε → ℕ) (i : Fin n) (e : ε) (f : ℕ) (slot : Fin n → ε) :
    cnt h (setLeaf i e (.leaf f slot)) + h (slot i) = cnt h (.leaf f slot) + h e := by
  rw [setLeaf, cnt_leaf, cnt_leaf, ← Finset.add_sum_erase _ _ (Finset.mem_univ i),
    ← Finset.add_sum_erase _ (fun j => h (slot j)) (Finset.mem_univ i), update_self]
  have : ∑ j ∈ Finset.univ.erase i, h (update slot i e j) =
      ∑ j ∈ Finset.univ.erase i, h (slot j) :=
    Finset.sum_congr rfl fun j hj => by rw [update_of_ne (Finset.ne_of_mem_erase hj)]
  omega

theorem own_setLeaf (g : ℕ) (i : Fin n) (e : ε) (t : Trie ε n) : own g (setLeaf i e t) = own g t := by
  cases t <;> simp [setLeaf, own_leaf]

theorem mapLeaf_setSlot (φ : ε → ε) (i : Fin n) (t s : Trie ε n) :
    mapLeaf φ (setSlot i t s) = setSlot i (mapLeaf φ t) (mapLeaf φ s) := by
  cases s with
  | node f kid =>
    simp only [setSlot, mapLeaf]
    congr 1
    funext j
    by_cases hj : j = i
    · subst hj; simp
    · simp [hj]
  | _ => rfl

theorem Copy.setSlot {s' : Trie ε n} (hs : Copy φ s s') (ht : Copy φ t t') :
    Copy φ (setSlot i t s) (setSlot i t' s') := by
  cases s <;> cases s' <;> try exact hs
  intro j
  by_cases hj : j = i
  · subst hj; simpa using ht
  · simpa [hj] using hs j

theorem Ok.setSlot (hs : Ok ok s) (ht : Ok ok t) :
    Ok ok (setSlot i t s) := by
  cases s <;> try exact hs
  intro j
  by_cases hj : j = i
  · subst hj; simpa using ht
  · simpa [hj] using hs j

theorem leafAt_congr {d : ℕ} (h : ∀ l, l ≤ d → ix' l = ix l) : leafAt ix' d t = leafAt ix d t := by
  induction d generalizing t with
  | zero =>
    cases t with
    | leaf f slot => rw [leafAt, leafAt, h 0 le_rfl]
    | _ => rfl
  | succ d ih =>
    cases t with
    | node f kid =>
      rw [leafAt, leafAt, h (d + 1) le_rfl]
      cases kid (ix (d + 1)) with
      | ptr e t => exact ih fun l hl => h l (by omega)
      | _ => rfl
    | _ => rfl

variable {d : ℕ} {e e' : ε}

theorem leafAt_some (he : leafAt ix d t = some e) : ∃ f slot, subAt ix 0 d t = some (.leaf f slot) ∧ slot (ix 0) = e := by
  induction d generalizing t with
  | zero =>
    cases t with
    | leaf f slot => exact ⟨f, slot, rfl, Option.some.inj he⟩
    | _ => cases he
  | succ d ih =>
    cases t with
    | node f kid =>
      rw [leafAt] at he
      rw [subAt, Nat.zero_add]
      cases hk : kid (ix (d + 1)) with
      | ptr e t =>
        rw [hk] at he
        exact ih he
      | _ =>
        rw [hk] at he
        cases he
    | _ => cases he

theorem leafAt_le (h : ε → ℕ) (he : leafAt ix d t = some e) : h e ≤ cnt h t := by
  obtain ⟨f, slot, hs, rfl⟩ := leafAt_some he
  refine le_trans ?_ (tally_subAt_le (fun _ => 0) h hs)
  change h (slot (ix 0)) ≤ cnt h (.leaf f slot)
  rw [cnt_leaf]
  exact Finset.single_le_sum (f := fun i => h (slot i)) (fun _ _ => Nat.zero_le _) (Finset.mem_univ _)

/-- Leaves at different paths are counted separately. -/
theorem leafAt_pair_le (h : ε → ℕ) {e₀ : ε} (h0 : h e₀ = 0) (he : leafAt ix d t = some e)
    (he' : leafAt ix' d t = some e') (hne : ¬(SamePath ix ix' 0 d ∧ ix' 0 = ix 0)) : h e + h e' ≤ cnt h t := by
  obtain ⟨f, slot, hs, rfl⟩ := leafAt_some he
  -- without the first leaf the second is still there
  have hkept : leafAt ix' d (modify ix 0 (setLeaf (ix 0) e₀) d t) = some e' := by
    rw [← he']
    by_cases hp : SamePath ix ix' 0 d
    · have hold := leafAt_subAt hs hp
      have hnew := leafAt_modify_same (setLeaf (ix 0) e₀) hs hp
      rw [Nat.zero_add] at hold hnew
      rw [hold, hnew, setLeaf, leafAt, leafAt, update_of_ne fun hi => hne ⟨hp, hi⟩]
    · have hother := leafAt_modify_other (setLeaf (ix 0) e₀) hs hp
      rwa [Nat.zero_add] at hother
  have hle := leafAt_le h hkept
  have hcnt : cnt h (modify ix 0 _ d t) + cnt h _ = cnt h t + cnt h _ :=
    tally_modify (fun _ => 0) h (setLeaf (ix 0) e₀) hs
  have hset := cnt_setLeaf h (ix 0) e₀ f slot
  omega

/-! ### How many tables a tree has -/

def size (t : Trie ε n) : ℕ := tally (fun _ => 1) (fun _ => 0) t

@[simp] theorem size_nil : size (.nil : Trie ε n) = 0 := rfl

@[simp] theorem size_ptr (e : ε) (t : Trie ε n) : size (.ptr e t) = size t := rfl

theorem size_node (f : ℕ) (kid : Fin n → Trie ε n) : size (.node f kid) = 1 + ∑ i, size (kid i) := rfl

theorem sum_own {N : ℕ} (h : ∀ f, 0 < own f t → f < N) : ∑ f ∈ Finset.range N, own f t = size t := by
  have hone : ∀ g, g < N → (∑ f ∈ Finset.range N, if g = f then 1 else 0) = 1 := fun g hg => by
    rw [Finset.sum_ite_eq, if_pos (Finset.mem_range.mpr hg)]
  induction t with
  | nil => simp
  | big e => simp [own, size, tally]
  | ptr e t ih => exact ih h
  | leaf g slot =>
    simp only [own_leaf]
    rw [hone g (h g (by simp [own_leaf]))]
    simp [size, tally]
  | node g kid ih =>
    simp only [own_node]
    rw [Finset.sum_add_distrib, hone g (h g (by simp [own_node])), Finset.sum_comm, size_node]
    refine congrArg (1 + ·) (Finset.sum_congr rfl fun i _ => ih i fun f hf => h f ?_)
    exact lt_of_lt_of_le hf ((Nat.le_add_right _ _).trans (own_kid_le f g kid i))

theorem tally_of_size_eq_zero (g : ℕ → ℕ) (h : ε → ℕ) (ht : size t = 0) : tally g h t = 0 := by
  induction t with
  | nil => rfl
  | big e => rfl
  | ptr e t ih => exact ih ht
  | leaf f slot => simp [size, tally] at ht
  | node f kid ih => simp [size_node] at ht

theorem Copy.size (hc : Copy φ t t') : size t' = size t := hc.tally

/-! ### Trees that differ in their leaves -/

/-- The same tables with the same pointers, and related leaf slots. -/
def Leafwise (R : ε → ε → Prop) : Trie ε n → Trie ε n → Prop
  | .nil, .nil => True
  | .big e, .big e' => e = e'
  | .ptr e t, .ptr e' t' => e = e' ∧ Leafwise R t t'
  | .leaf f slot, .leaf f' slot' => f = f' ∧ ∀ i, R (slot i) (slot' i)
  | .node f kid, .node f' kid' => f = f' ∧ ∀ i, Leafwise R (kid i) (kid' i)
  | _, _ => False

theorem Leafwise.refl (hR : ∀ e, R e e) (t : Trie ε n) : Leafwise R t t := by
  induction t with
  | nil => trivial
  | big e => rfl
  | ptr e t ih => exact ⟨rfl, ih⟩
  | leaf f slot => exact ⟨rfl, fun i => hR _⟩
  | node f kid ih => exact ⟨rfl, ih⟩

theorem leafwise_mapLeaf (hR : ∀ e, R e (φ e)) (t : Trie ε n) :
    Leafwise R t (mapLeaf φ t) := by
  induction t with
  | nil => trivial
  | big e => rfl
  | ptr e t ih => exact ⟨rfl, ih⟩
  | leaf f slot => exact ⟨rfl, fun i => hR _⟩
  | node f kid ih => exact ⟨rfl, ih⟩

theorem Leafwise.frame (h : Leafwise R t t') : t'.frame = t.frame := by
  cases t <;> cases t' <;> first | exact h.elim | exact h.1.symm | rfl

theorem Leafwise.keeps_ok :
    ∀ {t' : Trie ε n}, Leafwise R t t' → Ok ok t → Ok ok t' := by
  induction t with
  | nil =>
    intro t' h hok
    cases t' with
    | nil => trivial
    | _ => exact h.elim
  | big e => exact fun _ hok => hok.elim
  | ptr e t ih =>
    intro t' h hok
    cases t' with
    | ptr e' t₁ =>
      obtain ⟨rfl, hsub⟩ := h
      exact ⟨hsub.frame ▸ hok.1, ih hsub hok.2⟩
    | _ => exact h.elim
  | leaf f slot =>
    intro t' h hok
    cases t' with
    | leaf f' slot' => trivial
    | _ => exact h.elim
  | node f kid ih =>
    intro t' h hok
    cases t' with
    | node f' kid' => exact fun i => ih i (h.2 i) (hok i)
    | _ => exact h.elim

theorem Leafwise.leafAt (h : Leafwise R t t') : Option.Rel R (leafAt ix d t) (leafAt ix d t') := by
  induction d generalizing t t' with
  | zero =>
    cases t with
    | leaf f slot =>
      cases t' with
      | leaf f' slot' => exact .some (h.2 _)
      | _ => exact h.elim
    | _ => cases t' <;> first | exact h.elim | exact .none
  | succ d ih =>
    cases t with
    | node f kid =>
      cases t' with
      | node f' kid' =>
        have hkid := h.2 (ix (d + 1))
        rw [Radix.leafAt, Radix.leafAt]
        cases hk : kid (ix (d + 1)) <;> cases hk' : kid' (ix (d + 1)) <;> rw [hk, hk'] at hkid <;>
          first | exact hkid.elim | exact ih hkid.2 | exact .none
      | _ => exact h.elim
    | _ => cases t' <;> first | exact h.elim | exact .none

section UpTo

variable {cls : ε → Kind} {cap : ℕ → ℕ} {rd : ℕ → Fin n → ε} {f : ℕ}

/-- What lies behind a slot, and what was read before it. -/
theorem tally_upTo_kid (g : ℕ → ℕ) (h : ε → ℕ) {K : ℕ} {i : Fin n} (hki : k ≤ i.val) (hi : i.val < K) :
    tally g h (upTo cls cap k rd d f) + tally g h (kidOf cls (view cls cap rd d) (rd f i)) ≤
      tally g h (upTo cls cap K rd d f) := by
  calc _ ≤ tally g h (upTo cls cap i rd d f) + tally g h (kidOf cls (view cls cap rd d) (rd f i)) :=
        Nat.add_le_add_right (tally_upTo_mono g h hki rd d f) _
    _ = tally g h (upTo cls cap (i + 1) rd d f) := (tally_upTo_succ g h i.isLt rd d f).symm
    _ ≤ _ := tally_upTo_mono g h hi rd d f

theorem size_upTo : size (upTo cls cap k rd d f) =
    1 + ∑ i : Fin n, if i.val < k then size (kidOf cls (view cls cap rd d) (rd f i)) else 0 :=
  tally_upTo _ _ k rd d f

theorem upTo_congr {rd' : ℕ → Fin n → ε} (h : ∀ g, 0 < own g (upTo cls cap k rd d f) → rd' g = rd g) :
    upTo cls cap k rd' d f = upTo cls cap k rd d f := by
  rw [upTo, upTo, h f (own_upTo_self k rd d f)]
  congr 1
  funext i
  split_ifs with hi
  · exact kidOf_view_congr fun g hg => h g (own_slot_pos hi hg)
  · rfl

/-- Only empty slots were read. -/
theorem size_upTo_eq_one :
    size (upTo cls cap k rd d f) = 1 ↔ ∀ i : Fin n, i.val < k → size (kidOf cls (view cls cap rd d) (rd f i)) = 0 := by
  rw [size_upTo, Nat.add_eq_left, Finset.sum_eq_zero_iff]
  simp

theorem tally_upTo_bare (g : ℕ → ℕ) (h : ε → ℕ) (hone : size (upTo cls cap k rd d f) = 1) :
    tally g h (upTo cls cap k rd d f) = g f := by
  rw [tally_upTo, Finset.sum_eq_zero, Nat.add_zero]
  intro i _
  split_ifs with hi
  · exact tally_of_size_eq_zero g h (size_upTo_eq_one.mp hone i hi)
  · rfl

end UpTo

end Tori.Radix
