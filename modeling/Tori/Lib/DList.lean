import Mathlib.Tactic

/-! Intrusive doubly linked lists. The links are functions on the nodes, wherever these are stored;
each lemma about an operation asks for the links after it, node by node. Walks along the list take a
step bound and answer `none` when it is used up. -/

namespace Tori.DList

variable {α : Type} {next prev next' prev' : α → Option α} {l ys zs : List α} {x y : α}

/-- The links of the nodes of `l` lead along `l` in both directions and end with it. -/
structure Linked (next prev : α → Option α) (l : List α) : Prop where
  nodup : l.Nodup
  next_eq : ∀ ys x zs, l = ys ++ x :: zs → next x = zs.head?
  prev_eq : ∀ ys x zs, l = ys ++ x :: zs → prev x = ys.getLast?

theorem Linked.nil : Linked next prev [] :=
  ⟨List.nodup_nil, fun ys x zs h => by simp at h, fun ys x zs h => by simp at h⟩

/-- Only the links of the list's own nodes matter. -/
theorem Linked.congr (h : Linked next prev l) (hn : ∀ x ∈ l, next' x = next x) (hp : ∀ x ∈ l, prev' x = prev x) :
    Linked next' prev' l := by
  refine ⟨h.nodup, fun ys x zs hl => ?_, fun ys x zs hl => ?_⟩
  · rw [hn x (by rw [hl]; simp)]
    exact h.next_eq ys x zs hl
  · rw [hp x (by rw [hl]; simp)]
    exact h.prev_eq ys x zs hl

theorem Linked.next_mem (h : Linked next prev l) (hx : x ∈ l) (hy : next x = some y) : y ∈ l := by
  obtain ⟨ys, zs, hl⟩ := List.append_of_mem hx
  rw [h.next_eq ys x zs hl] at hy
  rw [hl]
  exact List.mem_append_right _ (List.mem_cons_of_mem _ (List.mem_of_mem_head? hy))

theorem Linked.prev_mem (h : Linked next prev l) (hx : x ∈ l) (hy : prev x = some y) : y ∈ l := by
  obtain ⟨ys, zs, hl⟩ := List.append_of_mem hx
  rw [h.prev_eq ys x zs hl] at hy
  rw [hl]
  exact List.mem_append_left _ (List.mem_of_mem_getLast? hy)

theorem getLast?_ne {z : α} (hnd : (ys ++ y :: z :: zs).Nodup) : (ys ++ y :: z :: zs).getLast? ≠ some y := by
  intro hlast
  rw [List.getLast?_append, List.getLast?_cons_cons] at hlast
  cases hg : (z :: zs).getLast? with
  | none => simp at hg
  | some w =>
    rw [hg] at hlast
    injection hlast with hw
    have hmem : y ∈ z :: zs := hw ▸ List.mem_of_mem_getLast? hg
    exact (List.nodup_cons.mp (List.nodup_append.mp hnd).2.1).1 hmem

theorem ne_of_split (hnd : (ys ++ zs).Nodup) (hy : y ∈ ys) (hz : y ∈ zs) : False :=
  (List.nodup_append.mp hnd).2.2 y hy y hz rfl

theorem mem_split (hnd : (ys ++ x :: zs).Nodup) : y ∈ ys ++ zs ↔ y ∈ ys ++ x :: zs ∧ y ≠ x := by
  have hx1 : x ∉ ys := fun hx => ne_of_split hnd hx List.mem_cons_self
  have hx2 : x ∉ zs := (List.nodup_cons.mp (List.nodup_append.mp hnd).2.1).1
  simp only [List.mem_append, List.mem_cons]
  constructor
  · rintro (hy | hy)
    · exact ⟨Or.inl hy, fun he => hx1 (he ▸ hy)⟩
    · exact ⟨Or.inr (Or.inr hy), fun he => hx2 (he ▸ hy)⟩
  · rintro ⟨hy | hy | hy, hne⟩
    · exact Or.inl hy
    · exact absurd hy hne
    · exact Or.inr hy

theorem Linked.snoc (h : Linked next prev l) (hx : x ∉ l) (hlast : ∀ y, l.getLast? = some y → next' y = some x)
    (hn : ∀ y ∈ l, l.getLast? ≠ some y → next' y = next y) (hnx : next' x = none)
    (hp : ∀ y ∈ l, prev' y = prev y) (hpx : prev' x = l.getLast?) : Linked next' prev' (l ++ [x]) := by
  refine ⟨?_, fun ys y zs hl => ?_, fun ys y zs hl => ?_⟩
  · rw [List.nodup_append]
    refine ⟨h.nodup, List.nodup_singleton x, ?_⟩
    rintro a ha b hb rfl
    exact hx (List.mem_singleton.mp hb ▸ ha)
  · rcases List.eq_nil_or_concat' zs with rfl | ⟨ws, w, rfl⟩
    · obtain ⟨-, heq⟩ := List.append_inj' hl rfl
      injection heq with heq
      rw [← heq, hnx]
      rfl
    · have hl' : l ++ [x] = (ys ++ y :: ws) ++ [w] := by rw [hl]; simp
      obtain ⟨hl1, hw⟩ := List.append_inj' hl' rfl
      injection hw with hw
      have hy : y ∈ l := by rw [hl1]; simp
      cases ws with
      | nil =>
        rw [hlast y (by rw [hl1]; simp), hw]
        rfl
      | cons v ws =>
        have hne : l.getLast? ≠ some y := hl1 ▸ getLast?_ne (hl1 ▸ h.nodup)
        rw [hn y hy hne, h.next_eq ys y (v :: ws) hl1]
        rfl
  · rcases List.eq_nil_or_concat' zs with rfl | ⟨ws, w, rfl⟩
    · obtain ⟨hl1, heq⟩ := List.append_inj' hl rfl
      injection heq with heq
      rw [← heq, hpx, hl1]
    · have hl' : l ++ [x] = (ys ++ y :: ws) ++ [w] := by rw [hl]; simp
      obtain ⟨hl1, -⟩ := List.append_inj' hl' rfl
      rw [hp y (by rw [hl1]; simp), h.prev_eq ys y ws hl1]

/-- The list the other way round. -/
theorem Linked.reverse (h : Linked next prev l) : Linked prev next l.reverse := by
  have hsplit : ∀ {ys x zs}, l.reverse = ys ++ x :: zs → l = zs.reverse ++ x :: ys.reverse := fun hl => by
    rw [← List.reverse_reverse l, hl]
    simp
  refine ⟨List.nodup_reverse.mpr h.nodup, fun ys x zs hl => ?_, fun ys x zs hl => ?_⟩
  · rw [h.prev_eq _ x _ (hsplit hl), List.getLast?_reverse]
  · rw [h.next_eq _ x _ (hsplit hl), List.head?_reverse]

theorem Linked.cons (h : Linked next prev l) (hx : x ∉ l) (hn : ∀ y ∈ l, next' y = next y) (hnx : next' x = l.head?)
    (hhead : ∀ y, l.head? = some y → prev' y = some x) (hp : ∀ y ∈ l, l.head? ≠ some y → prev' y = prev y)
    (hpx : prev' x = none) : Linked next' prev' (x :: l) := by
  have hlast : l.reverse.getLast? = l.head? := List.getLast?_reverse
  have hsnoc : Linked prev' next' (l.reverse ++ [x]) := h.reverse.snoc (by simpa using hx)
    (fun y hy => hhead y (hlast ▸ hy)) (fun y hy hne => hp y (by simpa using hy) (hlast ▸ hne)) hpx
    (fun y hy => hn y (by simpa using hy)) (hnx.trans hlast.symm)
  simpa using hsnoc.reverse

section

variable (h : Linked next prev (ys ++ x :: zs)) (hlast : ∀ y, ys.getLast? = some y → next' y = zs.head?)
  (hn : ∀ y ∈ ys ++ zs, ys.getLast? ≠ some y → next' y = next y)
include h hlast hn

/-- The links in one direction when `x` is taken out. -/
theorem Linked.next_remove {as bs : List α} (hl : ys ++ zs = as ++ y :: bs) : next' y = bs.head? := by
  have hsub : (ys ++ zs).Nodup :=
    h.nodup.sublist (List.append_sublist_append_left ys |>.mpr (List.sublist_cons_self x zs))
  have hy : y ∈ ys ++ zs := by rw [hl]; simp
  rcases List.append_eq_append_iff.mp hl with ⟨cs, rfl, rfl⟩ | ⟨cs, hys, hbs⟩
  · -- `y` is behind the gap
    have hne : ys.getLast? ≠ some y := fun hy' => ne_of_split hsub (List.mem_of_mem_getLast? hy') (by simp)
    rw [hn y hy hne]
    exact h.next_eq (ys ++ x :: cs) y bs (by simp)
  · cases cs with
    | nil =>
      have hbs' : zs = y :: bs := by simpa using hbs.symm
      have hne : ys.getLast? ≠ some y := fun hy' =>
        ne_of_split hsub (List.mem_of_mem_getLast? hy') (by rw [hbs']; simp)
      rw [hn y hy hne]
      exact h.next_eq (ys ++ [x]) y bs (by rw [hbs']; simp)
    | cons c cs =>
      injection hbs with h1 h2
      subst h1
      cases cs with
      | nil =>
        rw [hlast y (by rw [hys]; simp), h2]
        rfl
      | cons d ds =>
        have hne : ys.getLast? ≠ some y := hys ▸ getLast?_ne (hys ▸ (List.nodup_append.mp hsub).1)
        rw [hn y hy hne, h2]
        exact h.next_eq as y (d :: ds ++ x :: zs) (by rw [hys]; simp)

theorem Linked.remove (hhead : ∀ y, zs.head? = some y → prev' y = ys.getLast?)
    (hp : ∀ y ∈ ys ++ zs, zs.head? ≠ some y → prev' y = prev y) : Linked next' prev' (ys ++ zs) := by
  refine ⟨h.nodup.sublist (List.append_sublist_append_left ys |>.mpr (List.sublist_cons_self x zs)),
    fun as y bs hl => h.next_remove hlast hn hl, fun as y bs hl => ?_⟩
  have hrev : Linked prev next (zs.reverse ++ x :: ys.reverse) := by simpa using h.reverse
  rw [← List.head?_reverse]
  refine @next_remove α prev next prev' zs.reverse ys.reverse x y hrev (fun y hy => ?_) (fun y hy hne => ?_) bs.reverse _ ?_
  · rw [List.head?_reverse]
    exact hhead y (List.getLast?_reverse ▸ hy)
  · exact hp y (by simpa [or_comm] using hy) (List.getLast?_reverse ▸ hne)
  · rw [← List.reverse_append, hl]
    simp

end

/-! ### Walks -/

theorem suffix_unique (ys ys' : List α) (h : Linked next prev (ys ++ l)) (h' : Linked next prev (ys' ++ l'))
    (hh : l.head? = l'.head?) : l = l' := by
  induction l generalizing l' ys ys' with
  | nil => exact (List.head?_eq_none_iff.mp hh.symm).symm
  | cons x l ih =>
    obtain ⟨l'', rfl⟩ := List.head?_eq_some_iff.mp hh.symm
    have hnext := (h.next_eq ys x l rfl).symm.trans (h'.next_eq ys' x l'' rfl)
    have hs : ys ++ x :: l = (ys ++ [x]) ++ l := by simp
    have hs' : ys' ++ x :: l'' = (ys' ++ [x]) ++ l'' := by simp
    rw [ih (ys ++ [x]) (ys' ++ [x]) (hs ▸ h) (hs' ▸ h') hnext]

/-- The head and the links determine the list. -/
theorem Linked.unique (h : Linked next prev l) (h' : Linked next prev l') (hh : l.head? = l'.head?) : l = l' :=
  suffix_unique [] [] h h' hh

/-- The first node from `cur` on that `p` accepts. -/
def find (next : α → Option α) (p : α → Bool) : ℕ → Option α → Option (Option α)
  | 0, _ => none
  | _ + 1, none => some none
  | fuel + 1, some x => if p x then some (some x) else find next p fuel (next x)

theorem find_suffix (p : α → Bool) (ys : List α) (h : Linked next prev (ys ++ zs)) {fuel : ℕ} (hf : zs.length < fuel) :
    find next p fuel zs.head? = some (zs.find? p) := by
  induction zs generalizing ys fuel with
  | nil =>
    cases fuel with
    | zero => simp at hf
    | succ fuel => rfl
  | cons z zs ih =>
    cases fuel with
    | zero => simp at hf
    | succ fuel =>
      have hlen : zs.length < fuel := by simpa using hf
      rw [List.head?_cons, find, List.find?_cons]
      cases hz : p z with
      | true => rfl
      | false =>
        rw [h.next_eq ys z zs rfl]
        exact ih (ys ++ [z]) (by simpa using h) hlen

theorem Linked.find_eq (p : α → Bool) (h : Linked next prev l) {fuel : ℕ} (hf : l.length < fuel) :
    find next p fuel l.head? = some (l.find? p) :=
  find_suffix p [] h hf

end Tori.DList
