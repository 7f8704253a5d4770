import Tori.Lib.ByteMem

/-! Singly linked lists threaded through a byte memory. A node is the address of the word
that holds the next node, and zero ends the list. A link is the place a node is read from:
the head word (`none`) or the word of the node before it. Walks take a step bound and
answer `none` when it is used up. -/

namespace Tori.Linked

structure Store where
  head : ℕ
  mem : Mem

def Store.get (s : Store) : Option ℕ → ℕ
  | none => s.head
  | some a => s.mem.load64 a

def Store.put (s : Store) (v : ℕ) : Option ℕ → Store
  | none => { s with head := v }
  | some a => { s with mem := s.mem.store64 a v }

/-- The first link, from `link` on, that holds zero or a node `stop` accepts. -/
def seek (s : Store) (stop : ℕ → Bool) : ℕ → Option ℕ → Option (Option ℕ)
  | 0, _ => none
  | fuel + 1, link =>
    if s.get link = 0 ∨ stop (s.get link) = true then some link
    else seek s stop fuel (some (s.get link))

def remove (fuel target : ℕ) (s : Store) : Option Store :=
  (seek s (fun x => x == target) fuel none).map fun link =>
    if s.get link = 0 then s else s.put (s.mem.load64 target) link

def insert (fuel node : ℕ) (s : Store) : Option Store :=
  (seek s (fun x => node ≤ x) fuel none).map fun link =>
    Store.put { s with mem := s.mem.store64 node (s.get link) } node link

/-- The links lead from `h` through the nodes to `e`. -/
def Seg (m : Mem) : ℕ → List ℕ → ℕ → Prop
  | h, [], e => h = e
  | h, x :: xs, e => h = x ∧ x ≠ 0 ∧ Seg m (m.load64 x) xs e

def IsList (s : Store) (l : List ℕ) : Prop := Seg s.mem s.head l 0

/-- Strictly ascending nodes whose words do not overlap. -/
def Ascending (l : List ℕ) : Prop := l.Pairwise fun a b => a + 8 ≤ b

/-- Byte `x` is in no word of a node of `l`. -/
def Outside (l : List ℕ) (x : ℕ) : Prop := ∀ y ∈ l, x < y ∨ y + 8 ≤ x

variable {e fuel v x t n : ℕ} {m : Mem} {ys xs l : List ℕ} {s : Store}

theorem seg_append {h : ℕ} : Seg m h (xs ++ ys) e ↔ ∃ k, Seg m h xs k ∧ Seg m k ys e := by
  induction xs generalizing h with
  | nil => simp [Seg]
  | cons x xs ih =>
    simp only [List.cons_append, Seg, ih]
    constructor
    · rintro ⟨h1, h2, k, h3, h4⟩
      exact ⟨k, ⟨h1, h2, h3⟩, h4⟩
    · rintro ⟨k, ⟨h1, h2, h3⟩, h4⟩
      exact ⟨h1, h2, k, h3, h4⟩

theorem seg_congr {m' : Mem} {h : ℕ} (hw : ∀ x ∈ xs, m'.load64 x = m.load64 x) (hs : Seg m h xs e) : Seg m' h xs e := by
  induction xs generalizing h with
  | nil => exact hs
  | cons x xs ih =>
    obtain ⟨h1, h2, h3⟩ := hs
    refine ⟨h1, h2, ih (fun y hy => hw y (List.mem_cons_of_mem _ hy)) ?_⟩
    rw [hw x List.mem_cons_self]
    exact h3

/-- Where a segment ends is what its last link holds. -/
theorem Seg.get_last (hs : Seg s.mem s.head xs e) :
    s.get xs.getLast? = e := by
  rcases List.eq_nil_or_concat' xs with rfl | ⟨ys, y, rfl⟩
  · exact hs
  · obtain ⟨k, -, -, -, h⟩ := seg_append.mp hs
    rw [List.getLast?_concat]
    exact h

theorem Seg.split (h : Seg s.mem s.head (xs ++ ys) e) :
    Seg s.mem s.head xs (s.get xs.getLast?) ∧ Seg s.mem (s.get xs.getLast?) ys e := by
  obtain ⟨k, h1, h2⟩ := seg_append.mp h
  rw [h1.get_last]
  exact ⟨h1, h2⟩

theorem seek_from (stop : ℕ → Bool) (pre : List ℕ) (hs : Seg s.mem (s.get pre.getLast?) l e) (hf : l.length < fuel)
    (he : e = 0 ∨ stop e = true ∨ ∃ x ∈ l, stop x = true) :
    ∃ A B, l = A ++ B ∧ (∀ x ∈ A, stop x = false) ∧ (∀ x ∈ B.head?, stop x = true) ∧
      seek s stop fuel pre.getLast? = some (pre ++ A).getLast? := by
  induction l generalizing pre fuel with
  | nil =>
    obtain ⟨fuel, rfl⟩ := Nat.exists_eq_succ_of_ne_zero (show fuel ≠ 0 by simp at hf; omega)
    refine ⟨[], [], rfl, by simp, by simp, ?_⟩
    rw [seek, if_pos (by rw [hs]; simpa using he), List.append_nil]
  | cons x l ih =>
    obtain ⟨h1, h2, h3⟩ := hs
    obtain ⟨fuel, rfl⟩ := Nat.exists_eq_succ_of_ne_zero (show fuel ≠ 0 by simp at hf; omega)
    cases hx : stop x with
    | true =>
      refine ⟨[], x :: l, rfl, by simp, by simpa using hx, ?_⟩
      rw [seek, if_pos (Or.inr (by rw [h1, hx])), List.append_nil]
    | false =>
      have hlast : (pre ++ [x]).getLast? = some x := List.getLast?_concat
      obtain ⟨A, B, rfl, hA, hB, hr⟩ := ih (pre ++ [x]) (by rw [hlast]; exact h3)
        (by simp at hf ⊢; omega) (by simpa [hx] using he)
      refine ⟨x :: A, B, rfl, ?_, hB, ?_⟩
      · intro y hy
        rcases List.mem_cons.mp hy with rfl | hy
        · exact hx
        · exact hA y hy
      · rw [seek, if_neg (by rw [h1, hx]; simp [h2]), h1, ← hlast, hr, List.append_assoc]
        rfl

/-- A walk along a segment ends at the first accepted node, if one is in the segment or right
after it, or if the segment ends the list. -/
theorem Seg.seek (stop : ℕ → Bool) (hs : Seg s.mem s.head l e)
    (hf : l.length < fuel) (he : e = 0 ∨ stop e = true ∨ ∃ x ∈ l, stop x = true) :
    ∃ A B, l = A ++ B ∧ (∀ x ∈ A, stop x = false) ∧ (∀ x ∈ B.head?, stop x = true) ∧
      Linked.seek s stop fuel none = some A.getLast? :=
  seek_from stop [] hs hf he

theorem put_outside (hx : Outside xs x) :
    (s.put v xs.getLast?).mem x = s.mem x := by
  cases h : xs.getLast? with
  | none => rfl
  | some a => exact Mem.store64_outside _ (hx a (List.mem_of_getLast? h))

/-- Writing through the last link of a segment moves its end. -/
theorem Seg.put (hs : Seg s.mem s.head xs e)
    (ha : Ascending xs) (hv : v < 2 ^ 64) :
    Seg (s.put v xs.getLast?).mem (s.put v xs.getLast?).head xs v := by
  rcases List.eq_nil_or_concat' xs with rfl | ⟨ys, y, rfl⟩
  · rfl
  · obtain ⟨k, h1, h2, h3, -⟩ := seg_append.mp hs
    rw [Ascending, List.pairwise_append] at ha
    rw [List.getLast?_concat]
    refine seg_append.mpr ⟨k, seg_congr (fun x hx => ?_) h1, h2, h3, ?_⟩
    · exact Mem.load64_store64_apart _ (Or.inl (ha.2.2 x hx y (by simp)))
    · exact Mem.load64_store64 _ _ hv

theorem Seg.put_apart {h : ℕ} (hs : Seg s.mem h ys e)
    (hap : ∀ x ∈ xs, ∀ y ∈ ys, x + 8 ≤ y) : Seg (s.put v xs.getLast?).mem h ys e := by
  refine seg_congr (fun y hy => Mem.load64_congr fun z h1 h2 => ?_) hs
  exact put_outside fun x hx => Or.inr (by have := hap x hx y hy; omega)

theorem Seg.remove {A B : List ℕ} (hs : Seg s.mem s.head (A ++ t :: B) e)
    (ha : Ascending (A ++ t :: B)) (hf : (A ++ t :: B).length < fuel) :
    ∃ s', Linked.remove fuel t s = some s' ∧ Seg s'.mem s'.head (A ++ B) e ∧
      ∀ x, Outside (A ++ t :: B) x → s'.mem x = s.mem x := by
  rw [Ascending, List.pairwise_append, List.pairwise_cons] at ha
  obtain ⟨hA, ⟨htB, hB⟩, hAB⟩ := ha
  obtain ⟨A', B', hl, hno, hyes, hr⟩ := hs.seek (fun x => x == t) hf (by simp)
  -- the walk stops at `t`, so the two splittings agree
  have hsplit : A' = A ∧ B' = t :: B := by
    have hA' : t ∉ A' := fun h => by simpa using hno t h
    have hAt : t ∉ A := fun h => by have := hAB t h t (by simp); omega
    rcases B' with _ | ⟨b, B'⟩
    · rw [List.append_nil] at hl
      exact absurd (hl ▸ (by simp : t ∈ A ++ t :: B)) hA'
    · obtain rfl : b = t := by simpa using hyes b (by simp)
      have hBt : b ∉ B := fun h => by have := htB b h; omega
      obtain ⟨rfl, -, rfl⟩ := (List.append_cons_inj_of_notMem hAt hBt).mp hl
      exact ⟨rfl, rfl⟩
  obtain ⟨rfl, rfl⟩ := hsplit
  obtain ⟨h1, h2, h3, h4⟩ := hs.split
  refine ⟨s.put (s.mem.load64 t) A'.getLast?, ?_, ?_, fun x hx => put_outside fun y hy => ?_⟩
  · rw [Linked.remove, hr, Option.map_some, if_neg (by rw [h2]; exact h3)]
  · refine seg_append.mpr ⟨_, h1.put hA (Mem.load64_lt _ _), h4.put_apart fun x hx y hy => ?_⟩
    exact hAB x hx y (List.mem_cons_of_mem _ hy)
  · exact hx y (List.mem_append_left _ hy)

theorem Seg.insert (hs : Seg s.mem s.head l e)
    (ha : Ascending l) (hf : l.length < fuel) (hl : ∀ x ∈ l, x < 2 ^ 64) (he : e = 0 ∨ n ≤ e)
    (he64 : e < 2 ^ 64) (hn : n ≠ 0) (hn64 : n < 2 ^ 64) (hap : ∀ x ∈ l, x + 8 ≤ n ∨ n + 8 ≤ x) :
    ∃ A B s', l = A ++ B ∧ Linked.insert fuel n s = some s' ∧ Seg s'.mem s'.head (A ++ n :: B) e ∧
      Ascending (A ++ n :: B) ∧ ∀ x, Outside (n :: l) x → s'.mem x = s.mem x := by
  obtain ⟨A, B, rfl, hno, hyes, hr⟩ := hs.seek (fun x => decide (n ≤ x)) hf
    (he.imp id fun h => Or.inl (by simpa using h))
  rw [Ascending, List.pairwise_append] at ha
  obtain ⟨hA, hB, hAB⟩ := ha
  have hAn : ∀ x ∈ A, x + 8 ≤ n := by
    intro x hx
    have h1 := hno x hx
    have h2 := hap x (List.mem_append_left _ hx)
    simp only [decide_eq_false_iff_not] at h1
    omega
  have hnB : ∀ x ∈ B, n + 8 ≤ x := by
    intro x hx
    have h2 := hap x (List.mem_append_right _ hx)
    rcases B with _ | ⟨b, B⟩
    · simp at hx
    · have h1 := hyes b (by simp)
      simp only [decide_eq_true_eq] at h1
      rcases List.mem_cons.mp hx with rfl | hx
      · omega
      · have := (List.pairwise_cons.mp hB).1 x hx
        omega
  obtain ⟨h1, h2⟩ := hs.split
  have hg : s.get A.getLast? < 2 ^ 64 := by
    rcases B with _ | ⟨b, B⟩
    · rw [show s.get A.getLast? = e from h2]
      exact he64
    · rw [h2.1]
      exact hl b (by simp)
  -- the new node is written first, the link before it second
  set s1 : Store := { s with mem := s.mem.store64 n (s.get A.getLast?) } with hs1
  have hA1 : Seg s1.mem s1.head A (s.get A.getLast?) :=
    seg_congr (fun x hx => Mem.load64_store64_apart _ (Or.inl (hAn x hx))) h1
  have hB1 : Seg s1.mem (s.get A.getLast?) B e :=
    seg_congr (fun x hx => Mem.load64_store64_apart _ (Or.inr (hnB x hx))) h2
  have hasc : Ascending (A ++ n :: B) := by
    rw [Ascending, List.pairwise_append, List.pairwise_cons]
    refine ⟨hA, ⟨hnB, hB⟩, fun x hx y hy => ?_⟩
    rcases List.mem_cons.mp hy with rfl | hy
    · exact hAn x hx
    · exact hAB x hx y hy
  refine ⟨A, B, s1.put n A.getLast?, rfl, ?_, ?_, hasc, fun x hx => ?_⟩
  · rw [Linked.insert, hr, Option.map_some]
  · refine seg_append.mpr ⟨n, hA1.put hA hn64, rfl, hn, ?_⟩
    have hw : (s1.put n A.getLast?).mem.load64 n = s.get A.getLast? := by
      rw [← Mem.load64_store64 s.mem n hg]
      refine Mem.load64_congr fun x hx1 _ => put_outside fun y hy => ?_
      have := hAn y hy
      omega
    rw [hw]
    exact hB1.put_apart hAB
  · rw [put_outside fun y hy => hx y (by simp [hy])]
    exact Mem.store64_outside _ (hx n (by simp))

theorem IsList.head_lt (hs : IsList s l) (hl : ∀ x ∈ l, x < 2 ^ 64) :
    s.head < 2 ^ 64 := by
  rcases l with _ | ⟨x, l⟩
  · rw [show s.head = 0 from hs]
    decide
  · rw [hs.1]
    exact hl x List.mem_cons_self

theorem IsList.push (hs : IsList s l) (hl : ∀ x ∈ l, x < 2 ^ 64)
    (hn : n ≠ 0) (hap : ∀ x ∈ l, x + 8 ≤ n ∨ n + 8 ≤ x) :
    IsList ⟨n, s.mem.store64 n s.head⟩ (n :: l) := by
  refine ⟨rfl, hn, ?_⟩
  rw [show (Mem.store64 s.mem n s.head).load64 n = s.head from
    Mem.load64_store64 _ _ (hs.head_lt hl)]
  exact seg_congr (fun x hx => Mem.load64_store64_apart _ (hap x hx)) hs

theorem IsList.congr {s' : Store} (hs : IsList s l) (hh : s'.head = s.head)
    (hm : ∀ x ∈ l, s'.mem.load64 x = s.mem.load64 x) : IsList s' l := by
  unfold IsList
  rw [hh]
  exact seg_congr hm hs

theorem Seg.unique {h : ℕ} (hx : Seg m h xs 0) (hy : Seg m h ys 0) : xs = ys := by
  induction xs generalizing h ys with
  | nil =>
    rcases ys with _ | ⟨y, ys⟩
    · rfl
    · exact absurd (hy.1.symm.trans hx) hy.2.1
  | cons x xs ih =>
    obtain ⟨rfl, hx0, hx⟩ := hx
    rcases ys with _ | ⟨y, ys⟩
    · exact absurd hy hx0
    · obtain ⟨rfl, -, hy⟩ := hy
      rw [ih hx hy]

theorem IsList.unique (hx : IsList s xs) (hy : IsList s ys) : xs = ys := Seg.unique hx hy

/-- Removing what is not in the list. -/
theorem IsList.remove_absent (hs : IsList s l) (hf : l.length < fuel)
    (ht : t ∉ l) : remove fuel t s = some s := by
  obtain ⟨A, B, rfl, -, hyes, hr⟩ := hs.seek (fun x => x == t) hf (Or.inl rfl)
  rcases B with _ | ⟨y, B⟩
  · rw [remove, hr, Option.map_some, if_pos]
    rw [List.append_nil] at hs
    exact hs.get_last
  · obtain rfl : y = t := by simpa using hyes y (by simp)
    exact absurd (by simp) ht

theorem Seg.mem_list {A : List ℕ} {h : ℕ} (hx : x ≠ 0) (hA : Seg m h A x) (hl : Seg m h l 0) : x ∈ l := by
  induction A generalizing l h with
  | nil =>
    rcases l with _ | ⟨y, l⟩
    · exact absurd (hA.symm.trans hl) hx
    · rw [← hA, hl.1]
      exact List.mem_cons_self
  | cons y A ih =>
    obtain ⟨h1, h2, h3⟩ := hA
    rcases l with _ | ⟨z, l⟩
    · exact absurd (h1.symm.trans hl) h2
    · have hyz : z = y := hl.1.symm.trans h1
      subst hyz
      exact List.mem_cons_of_mem _ (ih h3 hl.2.2)

end Tori.Linked
