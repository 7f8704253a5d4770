import Tori.Spec.Cow
import Tori.Sanity.Pmm

/-! Page-table entries by their bits, tables as frames, and the page tables of an address
space as a radix tree. Later files read memory only through `rd` and `tree`. -/

namespace Tori.Vmm

open Loop Pmm Radix Function

variable {i g f va : ℕ} {e : Entry} {sub : ℕ → PTree}

/-! ### Bits of an entry -/

theorem has_bit (e : Entry) {k : ℕ} (hk : k < 64) : has e (1#64 <<< k) = e.getLsbD k :=
  Word.and_shift_ne_zero e hk

theorem has_present (e : Entry) : has e ptePresent = e.getLsbD 0 := has_bit e (by decide)
theorem has_writable (e : Entry) : has e pteWritable = e.getLsbD 1 := has_bit e (by decide)
theorem has_user (e : Entry) : has e pteUser = e.getLsbD 2 := has_bit e (by decide)
theorem has_huge (e : Entry) : has e pteHuge = e.getLsbD 7 := has_bit e (by decide)
theorem has_cow (e : Entry) : has e pteCow = e.getLsbD 9 := has_bit e (by decide)

theorem absent_zero : has 0 ptePresent = false := by decide

theorem addrMask_bit (hi : i < 64) :
    pteAddrMask.getLsbD i = decide (12 ≤ i ∧ i < 52) := by
  have : ∀ i : Fin 64, pteAddrMask.getLsbD i = decide (12 ≤ i.val ∧ i.val < 52) := by decide
  exact this ⟨i, hi⟩

theorem addrOf_congr {e' : Entry} (h : ∀ i, 12 ≤ i → i < 52 → e'.getLsbD i = e.getLsbD i) :
    addrOf e' = addrOf e := by
  unfold addrOf
  congr 1
  refine BitVec.eq_of_getLsbD_eq fun i hi => ?_
  rw [BitVec.getLsbD_and, BitVec.getLsbD_and, addrMask_bit hi]
  by_cases hr : 12 ≤ i ∧ i < 52
  · rw [h i hr.1 hr.2]
  · simp [hr]

theorem addrOf_mod (e : Entry) : addrOf e % 4096 = 0 := by
  unfold addrOf
  have h : (e &&& pteAddrMask).toNat = (e.toNat &&& 0x000ffffffffff000) := by
    rw [BitVec.toNat_and]; rfl
  have hm : ∀ i, i < 12 → (e.toNat &&& 0x000ffffffffff000).testBit i = false := by
    intro i hi
    rw [← h, BitVec.testBit_toNat, BitVec.getLsbD_and, addrMask_bit (by omega)]
    simp [show ¬ 12 ≤ i by omega]
  rw [h, show 4096 = 2 ^ 12 by norm_num]
  refine Nat.eq_of_testBit_eq fun i => ?_
  rw [Nat.testBit_mod_two_pow, Nat.zero_testBit]
  by_cases hi : i < 12
  · rw [hm i hi, Bool.and_false]
  · simp [hi]

theorem addrOf_div_mul (e : Entry) : addrOf e / 4096 * 4096 = addrOf e := by
  have := addrOf_mod e
  omega

theorem frame_bit (hg : g < 2 ^ 40) (hi : i < 64) :
    (BitVec.ofNat 64 (g * 4096)).getLsbD i = (decide (12 ≤ i ∧ i < 52) && g.testBit (i - 12)) := by
  rw [BitVec.getLsbD_ofNat, show g * 4096 = g * 2 ^ 12 by norm_num, Nat.testBit_mul_two_pow]
  by_cases h1 : 12 ≤ i
  · by_cases h2 : i < 52
    · simp [hi, h1, h2]
    · have : g.testBit (i - 12) = false :=
        Nat.testBit_lt_two_pow (lt_of_lt_of_le hg (Nat.pow_le_pow_right (by decide) (by omega)))
      simp [this]
  · simp [h1]

theorem addrOf_frame (hg : g < 2 ^ 40) : addrOf (BitVec.ofNat 64 (g * 4096)) = g * 4096 := by
  unfold addrOf
  have h : BitVec.ofNat 64 (g * 4096) &&& pteAddrMask = BitVec.ofNat 64 (g * 4096) := by
    refine BitVec.eq_of_getLsbD_eq fun i hi => ?_
    rw [BitVec.getLsbD_and, frame_bit hg hi, addrMask_bit hi]
    by_cases hr : 12 ≤ i ∧ i < 52 <;> simp [hr]
  rw [h, BitVec.toNat_ofNat]
  exact Nat.mod_eq_of_lt (by omega)

theorem flag_bit {k : ℕ} (hk : k < 64) (i : ℕ) : (1#64 <<< k).getLsbD i = decide (i = k) := by
  rw [← BitVec.twoPow_eq, BitVec.getLsbD_twoPow]
  simp [hk, eq_comm]

theorem present_bit (i : ℕ) : ptePresent.getLsbD i = decide (i = 0) := flag_bit (by decide) i
theorem writable_bit (i : ℕ) : pteWritable.getLsbD i = decide (i = 1) := flag_bit (by decide) i
theorem user_bit (i : ℕ) : pteUser.getLsbD i = decide (i = 2) := flag_bit (by decide) i
theorem cow_bit (i : ℕ) : pteCow.getLsbD i = decide (i = 9) := flag_bit (by decide) i

theorem tableEntry_bits (hg : g < maxManagedPages) :
    has (tableEntry (g * 4096)) ptePresent = true ∧ has (tableEntry (g * 4096)) pteHuge = false ∧
      has (tableEntry (g * 4096)) pteWritable = true ∧ has (tableEntry (g * 4096)) pteUser = true ∧
      addrOf (tableEntry (g * 4096)) = g * 4096 := by
  have hg : g < 2 ^ 40 := lt_trans hg (by decide)
  simp only [has_present, has_huge, has_writable, has_user, tableEntry, BitVec.getLsbD_or, present_bit,
    writable_bit, user_bit]
  refine ⟨by simp, ?_, by simp, by simp, ?_⟩
  · rw [frame_bit hg (by decide)]; simp
  · rw [addrOf_congr fun i h1 h2 => ?_, addrOf_frame hg]
    simp only [BitVec.getLsbD_or, present_bit, writable_bit, user_bit]
    simp [show i ≠ 0 by omega, show i ≠ 1 by omega, show i ≠ 2 by omega]

/-- The copy-on-write mark that `clone_table` puts on a writable entry. -/
def markCow (e : Entry) : Entry :=
  if has e pteWritable then (e &&& ~~~pteWritable) ||| pteCow else e

theorem markCow_bits (e : Entry) :
    has (markCow e) ptePresent = has e ptePresent ∧ has (markCow e) pteUser = has e pteUser ∧
      has (markCow e) pteWritable = false ∧ addrOf (markCow e) = addrOf e ∧
      has (markCow e) pteCow = (has e pteCow || has e pteWritable) := by
  unfold markCow
  split_ifs with hw
  · simp only [has_present, has_user, has_writable, has_cow, BitVec.getLsbD_or, BitVec.getLsbD_and,
      BitVec.getLsbD_not, writable_bit, cow_bit] at hw ⊢
    refine ⟨by simp, by simp, by simp, addrOf_congr fun i h1 h2 => ?_, by simp [hw]⟩
    simp only [BitVec.getLsbD_or, BitVec.getLsbD_and, BitVec.getLsbD_not, writable_bit, cow_bit]
    simp [show i ≠ 1 by omega, show i ≠ 9 by omega, show i < 64 by omega]
  · simp [Bool.eq_false_iff.2 hw]

/-- The entry of a copy-on-write page that has no other user. -/
def makeOwned (e : Entry) : Entry := (e ||| pteWritable) &&& ~~~pteCow

theorem makeOwned_bits (e : Entry) :
    has (makeOwned e) ptePresent = has e ptePresent ∧ has (makeOwned e) pteUser = has e pteUser ∧
      has (makeOwned e) pteWritable = true ∧ addrOf (makeOwned e) = addrOf e := by
  simp only [makeOwned, has_present, has_user, has_writable, BitVec.getLsbD_or, BitVec.getLsbD_and,
    BitVec.getLsbD_not, writable_bit, cow_bit]
  refine ⟨by simp, by simp, by simp, addrOf_congr fun i h1 h2 => ?_⟩
  simp only [BitVec.getLsbD_or, BitVec.getLsbD_and, BitVec.getLsbD_not, writable_bit, cow_bit]
  simp [show i ≠ 1 by omega, show i ≠ 9 by omega, show i < 64 by omega]

/-- The entry of a private copy in frame `newPagePhys`. -/
def copiedEntry (e : Entry) (newPagePhys : ℕ) : Entry :=
  (BitVec.ofNat 64 newPagePhys &&& pteAddrMask) |||
    (e &&& ~~~(pteAddrMask ||| pteWritable ||| pteCow)) ||| pteWritable

theorem copiedEntry_bits (e : Entry) (hg : g < 2 ^ 40) :
    has (copiedEntry e (g * 4096)) ptePresent = has e ptePresent ∧
      has (copiedEntry e (g * 4096)) pteUser = has e pteUser ∧
      has (copiedEntry e (g * 4096)) pteWritable = true ∧
      addrOf (copiedEntry e (g * 4096)) = g * 4096 := by
  simp only [copiedEntry, has_present, has_user, has_writable, BitVec.getLsbD_or, BitVec.getLsbD_and,
    BitVec.getLsbD_not, writable_bit, cow_bit]
  rw [addrMask_bit (by decide), addrMask_bit (by decide)]
  refine ⟨by simp, by simp, by simp, ?_⟩
  rw [addrOf_congr fun i h1 h2 => ?_, addrOf_frame hg]
  simp only [BitVec.getLsbD_or, BitVec.getLsbD_and, BitVec.getLsbD_not, writable_bit, cow_bit]
  rw [addrMask_bit (by omega)]
  simp [show i ≠ 1 by omega, show i ≠ 9 by omega, h1, h2]

/-- The leaf entry that `map_page` writes. -/
def leafEntry (physicalAddress : ℕ) (flags : Flags) : Entry :=
  (BitVec.ofNat 64 physicalAddress &&& pteAddrMask) ||| flags.toEntry

theorem toEntry_bit (f : Flags) (h1 : 12 ≤ i) (h2 : i < 52) : f.toEntry.getLsbD i = false := by
  have hflag : ∀ (b : Bool) (k : ℕ), k < 64 → i ≠ k →
      (if b = true then 1#64 <<< k else (0 : Entry)).getLsbD i = false := by
    intro b k hk hne
    split_ifs
    · rw [flag_bit hk]; simp [hne]
    · simp
  unfold Flags.toEntry
  simp only [BitVec.getLsbD_or]
  rw [hflag _ 0 (by decide) (by omega), hflag _ 1 (by decide) (by omega),
    hflag _ 2 (by decide) (by omega), hflag _ 3 (by decide) (by omega),
    hflag _ 4 (by decide) (by omega), hflag _ 8 (by decide) (by omega),
    hflag _ 9 (by decide) (by omega), hflag _ 63 (by decide) (by omega)]
  rfl

theorem toEntry_flag (f : Flags) :
    f.toEntry.getLsbD 0 = f.present ∧ f.toEntry.getLsbD 1 = f.writable ∧
      f.toEntry.getLsbD 2 = f.user := by
  obtain ⟨p, w, u, t, c, g, k, x⟩ := f
  revert p w u t c g k x
  decide

theorem leafEntry_bits (f : Flags) (hg : g < 2 ^ 40) :
    has (leafEntry (g * 4096) f) ptePresent = f.present ∧
      has (leafEntry (g * 4096) f) pteWritable = f.writable ∧
      has (leafEntry (g * 4096) f) pteUser = f.user ∧ addrOf (leafEntry (g * 4096) f) = g * 4096 := by
  obtain ⟨h0, h1, h2⟩ := toEntry_flag f
  have hlow : ∀ i, i < 12 → (BitVec.ofNat 64 (g * 4096) &&& pteAddrMask).getLsbD i = false := by
    intro i hi
    rw [BitVec.getLsbD_and, addrMask_bit (by omega)]
    simp [show ¬ 12 ≤ i by omega]
  refine ⟨?_, ?_, ?_, ?_⟩
  · rw [has_present, leafEntry, BitVec.getLsbD_or, hlow 0 (by decide), h0, Bool.false_or]
  · rw [has_writable, leafEntry, BitVec.getLsbD_or, hlow 1 (by decide), h1, Bool.false_or]
  · rw [has_user, leafEntry, BitVec.getLsbD_or, hlow 2 (by decide), h2, Bool.false_or]
  · rw [addrOf_congr fun i h1 h2 => ?_, addrOf_frame hg]
    rw [leafEntry, BitVec.getLsbD_or, toEntry_bit f h1 h2, Bool.or_false, BitVec.getLsbD_and,
      addrMask_bit (by omega)]
    simp [h1, h2]

/-! ### Tables as frames -/

theorem rd_congr {m m' : Mem} (h : ∀ x, x / 4096 = f → m' x = m x) : rd m' f = rd m f := by
  funext i
  unfold rd entry
  rw [Mem.load64_congr fun x h1 h2 => h x (by omega)]

theorem setEntry_other (m : Mem) {x : ℕ} (e : Entry) (hi : i < 512) (hx : x / 4096 ≠ f) :
    setEntry m (f * 4096) i e x = m x :=
  Mem.store64_outside m (by omega)

theorem rd_setEntry_self (m : Mem) (f : ℕ) (i : Fin 512) (e : Entry) :
    rd (setEntry m (f * 4096) i e) f = update (rd m f) i e := by
  funext j
  by_cases hj : j = i
  · subst hj
    rw [update_self, rd, entry, setEntry, Mem.load64_store64 m _ e.isLt, BitVec.ofNat_toNat,
      BitVec.setWidth_eq]
  · rw [update_of_ne hj, rd, rd, entry, setEntry, Mem.load64_store64_apart]
    · rfl
    · omega

theorem rd_set_ne {m : Mem} {i : Fin 512} {e : Entry} (h : g ≠ f) : rd (setEntry m (f * 4096) i e) g = rd m g :=
  rd_congr fun x hx => setEntry_other m e i.isLt (by omega)

/-- A loop that fills slots `lo`, ..., `lo + n - 1` of one table. -/
theorem forUp_setEntry (v : ℕ → Mem → Entry) (n lo : ℕ) (m : Mem) (h : lo + n ≤ 512) :
    (∀ x, x / 4096 ≠ f →
      forUp (fun i m => setEntry m (f * 4096) i (v i m)) n lo m x = m x) ∧
    ∀ i : Fin 512, (i.val < lo ∨ lo + n ≤ i.val) →
      rd (forUp (fun i m => setEntry m (f * 4096) i (v i m)) n lo m) f i = rd m f i := by
  refine forUp_inv (P := fun k m' => (∀ x, x / 4096 ≠ f → m' x = m x) ∧
    ∀ i : Fin 512, (i.val < lo ∨ k ≤ i.val) → rd m' f i = rd m f i) n lo m ?_ ⟨fun _ _ => rfl, fun _ _ => rfl⟩
  intro k m' h1 h2 ⟨hout, hslot⟩
  refine ⟨fun x hx => ?_, fun i hi => ?_⟩
  · rw [setEntry_other m' _ (by omega) hx, hout x hx]
  · have := rd_setEntry_self m' f ⟨k, by omega⟩ (v k m')
    rw [this, update_of_ne (by rw [ne_eq, Fin.ext_iff]; dsimp only; omega)]
    exact hslot i (by omega)

/-- The loop that stores in slot `i` what `v i` reads outside the table. -/
theorem forUp_fill {v : ℕ → Mem → Entry} {e : ℕ → Entry} (n lo : ℕ) (m : Mem) (h : lo + n ≤ 512)
    (hv : ∀ k < 512, ∀ m', (∀ x, x / 4096 ≠ f → m' x = m x) → v k m' = e k) (i : Fin 512) (hlo : lo ≤ i.val)
    (hhi : i.val < lo + n) : rd (forUp (fun i m => setEntry m (f * 4096) i (v i m)) n lo m) f i = e i := by
  refine (forUp_inv (P := fun k m' => (∀ x, x / 4096 ≠ f → m' x = m x) ∧
    ∀ i : Fin 512, lo ≤ i.val → i.val < k → rd m' f i = e i) n lo m ?_
    ⟨fun _ _ => rfl, fun i h1 h2 => absurd h1 (by omega)⟩).2 i hlo hhi
  intro k m' _ hk ⟨hout, hslot⟩
  refine ⟨fun x hx => (setEntry_other m' _ (by omega) hx).trans (hout x hx), fun i h1 h2 => ?_⟩
  have hself := rd_setEntry_self m' f ⟨k, by omega⟩ (v k m')
  rw [hself]
  by_cases hik : i = ⟨k, by omega⟩
  · rw [hik, update_self]
    exact hv k (by omega) m' hout
  · rw [update_of_ne hik]
    exact hslot i h1 (by rw [Fin.ext_iff] at hik; dsimp only at hik; omega)

theorem zeroTable_spec (f : ℕ) (m : Mem) :
    (∀ x, x / 4096 ≠ f → zeroTable (f * 4096) m x = m x) ∧
      ∀ i : Fin 512, rd (zeroTable (f * 4096) m) f i = 0 :=
  ⟨(forUp_setEntry (fun _ _ => 0) 512 0 m le_rfl).1, fun i =>
    forUp_fill 512 0 m le_rfl (fun _ _ _ _ => rfl) i (Nat.zero_le _) (by omega)⟩

/-- The loop that copies slots of the table in frame `g`. -/
theorem forUp_copyEntry (hne : g ≠ f) (n lo : ℕ) (m : Mem) (h : lo + n ≤ 512) (i : Fin 512)
    (hlo : lo ≤ i.val) (hhi : i.val < lo + n) :
    rd (forUp (fun i m => setEntry m (f * 4096) i (entry m (g * 4096) i)) n lo m) f i = rd m g i :=
  forUp_fill n lo m h
    (fun k hk m' hout => congrFun (rd_congr fun x hx => hout x (by omega)) ⟨k, hk⟩) i hlo hhi

theorem copyPage_spec (old new : ℕ) (m : Mem) (x : ℕ) :
    copyPage (old * 4096) (new * 4096) m x =
      if x / 4096 = new then m (old * 4096 + x % 4096) else m x := by
  rw [copyPage, Mem.forUp_copy _ _ _ _ (by omega)]
  by_cases hx : x / 4096 = new
  · rw [if_pos hx, if_pos (by omega)]
    congr 2
    omega
  · rw [if_neg hx, if_neg (by omega)]

/-! ### Address spaces as trees -/

def okEntry (e : Entry) (g : ℕ) : Prop := g < maxManagedPages ∧ e = tableEntry (g * 4096)

/-- The index of `va` at each level: 3 is the PML4, 0 the page table. -/
def ix (va k : ℕ) : Fin 512 := ⟨va / 2 ^ (12 + 9 * k) % 512, Nat.mod_lt _ (by decide)⟩

theorem pml4Idx_eq (va : ℕ) : pml4Idx va = (ix va 3).val := by
  rw [pml4Idx, Nat.shiftRight_eq_div_pow, show (0x1FF : ℕ) = 2 ^ 9 - 1 by norm_num,
    Nat.and_two_pow_sub_one_eq_mod]
  rfl

theorem pdptIdx_eq (va : ℕ) : pdptIdx va = (ix va 2).val := by
  rw [pdptIdx, Nat.shiftRight_eq_div_pow, show (0x1FF : ℕ) = 2 ^ 9 - 1 by norm_num,
    Nat.and_two_pow_sub_one_eq_mod]
  rfl

theorem pdIdx_eq (va : ℕ) : pdIdx va = (ix va 1).val := by
  rw [pdIdx, Nat.shiftRight_eq_div_pow, show (0x1FF : ℕ) = 2 ^ 9 - 1 by norm_num,
    Nat.and_two_pow_sub_one_eq_mod]
  rfl

theorem ptIdx_eq (va : ℕ) : ptIdx va = (ix va 0).val := by
  rw [ptIdx, Nat.shiftRight_eq_div_pow, show (0x1FF : ℕ) = 2 ^ 9 - 1 by norm_num,
    Nat.and_two_pow_sub_one_eq_mod]
  rfl

theorem pml4Idx_user (h : va ≤ userLimit) : pml4Idx va < 256 := by
  rw [pml4Idx_eq]
  simp only [ix, userLimit] at h ⊢
  omega

theorem ix_cap (h : pml4Idx va < 256) {d : ℕ} : (ix va (d + 1)).val < cap (d + 1) := by
  unfold cap
  split_ifs with hd
  · obtain rfl : d = 2 := by omega
    rwa [pml4Idx_eq] at h
  · exact (ix va (d + 1)).isLt

theorem same_page_iff {va' : ℕ} (h : va ≤ userLimit) (h' : va' ≤ userLimit) :
    (SamePath (ix va) (ix va') 0 3 ∧ ix va' 0 = ix va 0) ↔ va' / 4096 = va / 4096 := by
  simp only [userLimit] at h h'
  constructor
  · rintro ⟨hs, h0⟩
    have h1 := Fin.ext_iff.1 (hs 1 (by omega) (by omega))
    have h2 := Fin.ext_iff.1 (hs 2 (by omega) (by omega))
    have h3 := Fin.ext_iff.1 (hs 3 (by omega) (by omega))
    rw [Fin.ext_iff] at h0
    simp only [ix] at h0 h1 h2 h3
    omega
  · intro heq
    have hix : ∀ k, ix va' k = ix va k := by
      intro k
      have hd : ∀ v : ℕ, v / 2 ^ (12 + 9 * k) = v / 4096 / 2 ^ (9 * k) := by
        intro v
        rw [Nat.div_div_eq_div_mul, Nat.pow_add]
      simp only [ix, hd, heq]
    exact ⟨fun l _ _ => hix l, hix 0⟩

theorem cls_tableEntry (hg : g < maxManagedPages) : cls (tableEntry (g * 4096)) = .table g := by
  obtain ⟨hP, hH, -, -, hA⟩ := tableEntry_bits hg
  simp [cls, hP, hH, hA]

theorem kidOf_absent (h : has e ptePresent = false) :
    kidOf cls sub e = .nil := by
  simp [kidOf, cls, h]

theorem kidOf_table (hg : g < maxManagedPages) :
    kidOf cls sub (tableEntry (g * 4096)) = .ptr (tableEntry (g * 4096)) (sub g) := by
  simp [kidOf, cls_tableEntry hg]

theorem slot_cases (hsub : ∀ g, (sub g).frame = g)
    (hok : Ok okEntry (kidOf cls sub e)) :
    has e ptePresent = false ∨
      ∃ g, g < maxManagedPages ∧ e = tableEntry (g * 4096) ∧ Ok okEntry (sub g) := by
  cases hP : has e ptePresent with
  | false => exact .inl rfl
  | true =>
    cases hH : has e pteHuge with
    | true => simp [kidOf, cls, hP, hH, Ok] at hok
    | false =>
      have hc : cls e = .table (addrOf e / 4096) := by simp [cls, hP, hH]
      simp only [kidOf, hc, Ok, hsub] at hok
      obtain ⟨⟨hlt, he⟩, hsub⟩ := hok
      exact .inr ⟨_, hlt, he, hsub⟩

theorem view_slot_cases {m : Mem} {d : ℕ} (hok : Ok okEntry (view cls cap (rd m) (d + 1) f))
    {i : Fin 512} (hi : i.val < cap (d + 1)) :
    has (rd m f i) ptePresent = false ∨
      ∃ g, g < maxManagedPages ∧ rd m f i = tableEntry (g * 4096) ∧
        Ok okEntry (view cls cap (rd m) d g) := by
  have h := hok i
  simp only [if_pos hi] at h
  exact slot_cases (fun g => view_frame (rd m) d g) h

/-- The present leaf entry for a user address. -/
def lookup (m : Mem) (pml4 va : ℕ) : Option Entry :=
  (leafAt (ix va) 3 (tree m pml4)).filter fun e => has e ptePresent

section Walk

variable {m : Mem} {va d f : ℕ}

theorem leafAt_absent (h : has (rd m f (ix va (d + 1))) ptePresent = false) :
    leafAt (ix va) (d + 1) (view cls cap (rd m) (d + 1) f) = none := by
  rw [view, leafAt, kidOf_absent h, ite_self]

theorem leafAt_down (hva : pml4Idx va < 256) (hg : g < maxManagedPages)
    (h : rd m f (ix va (d + 1)) = tableEntry (g * 4096)) :
    leafAt (ix va) (d + 1) (view cls cap (rd m) (d + 1) f) =
      leafAt (ix va) d (view cls cap (rd m) d g) := by
  rw [view, leafAt, if_pos (ix_cap hva), h, kidOf_table hg]

/-- The processor's walk of a user address ends at the leaf entry of the tree. -/
theorem walk_eq (hok : Ok okEntry (tree m (f * 4096))) (hva : pml4Idx va < 256) :
    walk m (f * 4096) va = (lookup m (f * 4096) va).map fun e =>
      ⟨addrOf e + va % 2 ^ 12, has e pteWritable, has e pteUser⟩ := by
  have hdiv : f * 4096 / 4096 = f := Nat.mul_div_cancel _ (by decide)
  rw [tree, hdiv] at hok
  rw [lookup, tree, hdiv, walk]
  simp only [pml4Idx_eq, pdptIdx_eq, pdIdx_eq, ptIdx_eq, ← rd.eq_def]
  rcases view_slot_cases hok (ix_cap hva) with hP | ⟨g3, hg3, he, hok3⟩
  · rw [leafAt_absent hP]; simp [hP]
  obtain ⟨hP, -, hW, hU, hA⟩ := tableEntry_bits hg3
  rw [leafAt_down hva hg3 he]
  simp only [he, hP, hW, hU, hA, Bool.not_true, Bool.false_eq_true, if_false, ← rd.eq_def]
  rcases view_slot_cases hok3 (ix_cap hva) with hP | ⟨g2, hg2, he, hok2⟩
  · rw [leafAt_absent hP]; simp [hP]
  obtain ⟨hP, hH, hW, hU, hA⟩ := tableEntry_bits hg2
  rw [leafAt_down hva hg2 he]
  simp only [he, hP, hH, hW, hU, hA, Bool.not_true, Bool.false_eq_true, if_false, perm, Bool.true_and,
    ← rd.eq_def]
  rcases view_slot_cases hok2 (ix_cap hva) with hP | ⟨g1, hg1, he, -⟩
  · rw [leafAt_absent hP]; simp [hP]
  obtain ⟨hP, hH, hW, hU, hA⟩ := tableEntry_bits hg1
  rw [leafAt_down hva hg1 he]
  simp only [he, hP, hH, hW, hU, hA, Bool.not_true, Bool.false_eq_true, if_false, Bool.true_and,
    ← rd.eq_def, view, leafAt]
  cases hP : has (rd m g1 (ix va 0)) ptePresent with
  | false => simp [hP]
  | true => simp [hP]

end Walk

end Tori.Vmm
