import Tori.Spec.Acpi

/-! `find_table` and `enumerate` side by side. Both look at the tables that the valid roots list; `enumerate` requires the
checksums of the RSDP and of each table and stops at the first root, `find_table` requires neither and goes on to the
RSDT when the XSDT does not list the signature. -/

namespace Tori.Acpi

open Loop

variable {mem : ℕ → UInt8} {hhdmOffset rsdp : ℕ} {sig : Signature} {r : Root}

/-- The tables a root lists, in order. -/
def Root.tables (mem : ℕ → UInt8) (hhdmOffset : ℕ) (r : Root) : List ℕ :=
  (((List.range (r.entryCount mem)).map (r.entry mem)).filter (· ≠ 0)).map (physToVirt · hhdmOffset)

/-- The roots that are walked, in order. -/
def roots (mem : ℕ → UInt8) (hhdmOffset rsdp : ℕ) : List Root :=
  (if useXsdt mem hhdmOffset rsdp then [xsdt mem hhdmOffset rsdp] else []) ++
    (if useRsdt mem hhdmOffset rsdp then [rsdt mem hhdmOffset rsdp] else [])

/-- The tables with a signature, over all roots. -/
def listed (mem : ℕ → UInt8) (hhdmOffset rsdp : ℕ) (sig : Signature) : List ℕ :=
  ((roots mem hhdmOffset rsdp).flatMap (Root.tables mem hhdmOffset)).filter fun t => signatureAt mem t = sig

theorem mem_tables {t : ℕ} : t ∈ r.tables mem hhdmOffset ↔
    ∃ i < r.entryCount mem, r.entry mem i ≠ 0 ∧ physToVirt (r.entry mem i) hhdmOffset = t := by
  simp only [Root.tables, List.mem_map, List.mem_filter, List.mem_range, decide_eq_true_eq]
  constructor
  · rintro ⟨-, ⟨⟨i, hi, rfl⟩, hne⟩, rfl⟩
    exact ⟨i, hi, hne, rfl⟩
  · rintro ⟨i, hi, hne, rfl⟩
    exact ⟨_, ⟨⟨i, hi, rfl⟩, hne⟩, rfl⟩

/-! ### `find_table` is the first table listed -/

theorem find_eq_head? : r.find mem hhdmOffset sig =
    ((r.tables mem hhdmOffset).filter fun t => signatureAt mem t = sig).head? := by
  unfold Root.find Root.tables
  rw [findUp_eq_find?, ← List.range_eq_range', List.filter_map, List.head?_map, List.filter_filter, List.filter_map,
    List.head?_map, Option.map_map, ← List.head?_filter]
  simp only [Function.comp_def, Bool.and_comm]

theorem findTable_eq : findTable mem hhdmOffset rsdp sig =
    if rsdp = 0 ∨ rsdpSigValid mem rsdp = false then none else (listed mem hhdmOffset rsdp sig).head? := by
  unfold findTable listed roots
  by_cases hbad : rsdp = 0 ∨ rsdpSigValid mem rsdp = false
  · rw [if_pos hbad, if_pos (by simpa using hbad)]
  · have hwalk : ∀ (use : Bool) (r : Root), (if use then r.find mem hhdmOffset sig else none) =
        (((if use then [r] else []).flatMap (Root.tables mem hhdmOffset)).filter fun t => signatureAt mem t = sig).head? := by
      intro use r
      cases use
      · rfl
      · simpa using find_eq_head?
    rw [if_neg hbad, if_neg (by simpa using hbad), hwalk, hwalk, List.flatMap_append, List.filter_append, List.head?_append]
    generalize List.head? _ = x
    cases x <;> rfl

/-! ### `enumerate` reports what the first root lists with a valid checksum -/

/-- A table counts for `enumerate`. -/
def Counts (mem : ℕ → UInt8) (k : Reported) (t : ℕ) : Prop :=
  validateSdtChecksum mem t = true ∧ signatureAt mem t = k.signature

theorem noteTable_found (physical : ℕ) (info : Info) (k : Reported) :
    (noteTable mem hhdmOffset physical info).found k = true ↔
      info.found k = true ∨ (physical ≠ 0 ∧ Counts mem k (physToVirt physical hhdmOffset)) := by
  unfold noteTable Counts
  by_cases hzero : physical = 0
  · simp [hzero]
  by_cases hsum : validateSdtChecksum mem (physToVirt physical hhdmOffset) = true
  · generalize hsig : signatureAt mem (physToVirt physical hhdmOffset) = s
    have hfa : facp ≠ apic := by decide
    have hha : hpet ≠ apic := by decide
    have hhf : hpet ≠ facp := by decide
    rw [if_neg hzero]
    simp only [hsum, hsig, Bool.not_true, Bool.false_eq_true, if_false, true_and, hzero, not_false_eq_true, ne_eq]
    split_ifs with ha hf hh
    · subst ha
      cases k <;> simp [Info.found, Reported.signature, hfa.symm, hha.symm]
    · subst hf
      cases k <;> simp [Info.found, Reported.signature, hfa, hhf.symm]
    · subst hh
      cases k <;> simp [Info.found, Reported.signature, hha, hhf]
    · cases k <;> simp [Info.found, Reported.signature, ha, hf, hh]
  · simp [hzero, hsum]

theorem note_found (r : Root) (info : Info) (k : Reported) :
    (r.note mem hhdmOffset info).found k = true ↔
      info.found k = true ∨ ∃ t ∈ r.tables mem hhdmOffset, Counts mem k t := by
  have hloop := forUp_inv (f := fun i => noteTable mem hhdmOffset (r.entry mem i))
    (P := fun n (x : Info) => x.found k = true ↔ info.found k = true ∨
      ∃ i < n, r.entry mem i ≠ 0 ∧ Counts mem k (physToVirt (r.entry mem i) hhdmOffset))
    (r.entryCount mem) 0 info ?_ (by simp)
  · rw [Nat.zero_add] at hloop
    rw [Root.note, hloop]
    refine or_congr_right ⟨?_, ?_⟩
    · rintro ⟨i, hi, hne, hcounts⟩
      exact ⟨_, mem_tables.mpr ⟨i, hi, hne, rfl⟩, hcounts⟩
    · rintro ⟨t, ht, hcounts⟩
      obtain ⟨i, hi, hne, rfl⟩ := mem_tables.mp ht
      exact ⟨i, hi, hne, hcounts⟩
  · intro i x _ _ hx
    rw [noteTable_found, hx, or_assoc]
    refine or_congr_right ⟨?_, ?_⟩
    · rintro (⟨j, hj, h⟩ | h)
      · exact ⟨j, by omega, h⟩
      · exact ⟨i, by omega, h⟩
    · rintro ⟨j, hj, h⟩
      rcases Nat.lt_succ_iff_lt_or_eq.mp hj with hlt | rfl
      · exact .inl ⟨j, hlt, h⟩
      · exact .inr h

theorem rsdpSigValid_of_valid (h : validateRsdpChecksum mem rsdp = true) : rsdpSigValid mem rsdp = true := by
  unfold validateRsdpChecksum at h
  by_contra hno
  rw [if_pos (by simp [hno])] at h
  cases h

theorem enumerate_found (k : Reported) : (enumerate mem hhdmOffset rsdp).found k = true ↔
    rsdp ≠ 0 ∧ validateRsdpChecksum mem rsdp = true ∧
      ∃ r, (roots mem hhdmOffset rsdp).head? = some r ∧ ∃ t ∈ r.tables mem hhdmOffset, Counts mem k t := by
  have hnone : ∀ (x y z : Bool) (n : ℕ), (⟨x, y, z, n, false, false, false⟩ : Info).found k = false := by
    intro x y z n
    cases k <;> rfl
  unfold enumerate roots
  by_cases hzero : rsdp = 0
  · simp [hzero, hnone]
  by_cases hvalid : validateRsdpChecksum mem rsdp = true
  · rw [if_neg hzero, if_neg (by simp [rsdpSigValid_of_valid hvalid]), if_neg (by simp [hvalid])]
    cases useXsdt mem hhdmOffset rsdp <;> cases useRsdt mem hhdmOffset rsdp <;>
      simp [note_found, hnone, hzero, hvalid]
  · rw [if_neg hzero]
    by_cases hsig : rsdpSigValid mem rsdp = true
    · rw [if_neg (by simp [hsig]), if_pos (by simp [hvalid])]
      simp [hvalid, hnone]
    · rw [if_pos (by simp [hsig])]
      simp [hvalid, hnone]

/-! ### Where they agree -/

/-- The two parts of the agreement for one signature: what `find_table` returns is checked, and it returns a table that
`enumerate` reports exactly when `enumerate` reports one. -/
structure Agree (mem : ℕ → UInt8) (hhdmOffset rsdp : ℕ) (sig : Signature) : Prop where
  checked : ∀ t, findTable mem hhdmOffset rsdp sig = some t →
    validateSdtChecksum mem t = true ∧ validateRsdpChecksum mem rsdp = true
  same : ∀ k : Reported, sig = k.signature →
    ((findTable mem hhdmOffset rsdp sig).isSome = true ↔ (enumerate mem hhdmOffset rsdp).found k = true)

/-- If any root lists the signature, the RSDP and the first table with it have valid checksums, and for the tables that
`enumerate` reports the first root lists it. -/
def Consistent (mem : ℕ → UInt8) (hhdmOffset rsdp : ℕ) (sig : Signature) : Prop :=
  rsdp ≠ 0 → rsdpSigValid mem rsdp = true → ∀ t, (listed mem hhdmOffset rsdp sig).head? = some t →
    validateRsdpChecksum mem rsdp = true ∧ validateSdtChecksum mem t = true ∧
    ∀ k : Reported, sig = k.signature → ∃ r, (roots mem hhdmOffset rsdp).head? = some r ∧
      ∃ u ∈ r.tables mem hhdmOffset, signatureAt mem u = sig

/-- Where the first root lists the signature, it lists the table that is found. -/
theorem head?_listed_mem {t u : ℕ} (hroot : (roots mem hhdmOffset rsdp).head? = some r) (hu : u ∈ r.tables mem hhdmOffset)
    (hsig : signatureAt mem u = sig) (ht : (listed mem hhdmOffset rsdp sig).head? = some t) :
    t ∈ r.tables mem hhdmOffset ∧ signatureAt mem t = sig := by
  obtain ⟨rest, hrest⟩ := List.head?_eq_some_iff.mp hroot
  rw [listed, hrest, List.flatMap_cons, List.filter_append, List.head?_append_of_ne_nil] at ht
  · have hmem := List.mem_filter.mp (List.mem_of_mem_head? ht)
    exact ⟨hmem.1, of_decide_eq_true hmem.2⟩
  · exact List.ne_nil_of_mem (List.mem_filter.mpr ⟨hu, decide_eq_true hsig⟩)

theorem agree_iff_consistent (mem : ℕ → UInt8) (hhdmOffset rsdp : ℕ) (sig : Signature) :
    Agree mem hhdmOffset rsdp sig ↔ Consistent mem hhdmOffset rsdp sig := by
  constructor
  · intro h hzero hsig t ht
    have hfind : findTable mem hhdmOffset rsdp sig = some t := by
      rw [findTable_eq, if_neg (by simp [hzero, hsig]), ht]
    obtain ⟨hsum, hrsdp⟩ := h.checked t hfind
    refine ⟨hrsdp, hsum, fun k hk => ?_⟩
    obtain ⟨-, -, r, hr, u, hu, hcounts⟩ := (enumerate_found k).mp ((h.same k hk).mp (by rw [hfind]; rfl))
    exact ⟨r, hr, u, hu, hcounts.2.trans hk.symm⟩
  · intro h
    have hfound : ∀ t, findTable mem hhdmOffset rsdp sig = some t →
        rsdp ≠ 0 ∧ rsdpSigValid mem rsdp = true ∧ (listed mem hhdmOffset rsdp sig).head? = some t := by
      intro t ht
      rw [findTable_eq] at ht
      split_ifs at ht with hbad
      obtain ⟨hzero, hsig⟩ := not_or.mp hbad
      exact ⟨hzero, by simpa using hsig, ht⟩
    refine ⟨fun t ht => ?_, fun k hk => ⟨fun hsome => ?_, fun hk' => ?_⟩⟩
    · obtain ⟨hzero, hsig, hlisted⟩ := hfound t ht
      obtain ⟨hrsdp, hsum, -⟩ := h hzero hsig t hlisted
      exact ⟨hsum, hrsdp⟩
    · obtain ⟨t, ht⟩ := Option.isSome_iff_exists.mp hsome
      obtain ⟨hzero, hsig, hlisted⟩ := hfound t ht
      obtain ⟨hrsdp, hsum, hfirst⟩ := h hzero hsig t hlisted
      obtain ⟨r, hr, u, hu, husig⟩ := hfirst k hk
      obtain ⟨htr, htsig⟩ := head?_listed_mem hr hu husig hlisted
      exact (enumerate_found k).mpr ⟨hzero, hrsdp, r, hr, t, htr, hsum, htsig.trans hk⟩
    · obtain ⟨hzero, hrsdp, r, hr, t, ht, hcounts⟩ := (enumerate_found k).mp hk'
      rw [findTable_eq, if_neg (by simp [hzero, rsdpSigValid_of_valid hrsdp])]
      have hmem : t ∈ listed mem hhdmOffset rsdp sig := List.mem_filter.mpr
        ⟨List.mem_flatMap.mpr ⟨r, List.mem_of_mem_head? hr, ht⟩, decide_eq_true (hcounts.2.trans hk.symm)⟩
      rw [List.isSome_head?]
      exact List.ne_nil_of_mem hmem

/-! ### Bad checksums -/

/-- Bytes at an address, zero elsewhere. -/
def place (blocks : List (ℕ × List UInt8)) (x : ℕ) : UInt8 :=
  match blocks.find? fun b => b.1 ≤ x && x < b.1 + b.2.length with
  | some b => b.2.getD (x - b.1) 0
  | none => 0

/-- An RSDP of version 1 at 0x100, an RSDT at 0x200 with one entry, and an MADT of 36 bytes at 0x300, with the given
checksum bytes in the RSDP and in the MADT. -/
def firmware (rsdpSum madtSum : UInt8) : ℕ → UInt8 :=
  place [(0x100, rsdpSignature ++ [rsdpSum, 0, 0, 0, 0, 0, 0, 0, 0, 2]),
    (0x200, [82, 83, 68, 84, 40, 0, 0, 0, 0, 152] ++ List.replicate 26 0 ++ [0, 3, 0, 0]),
    (0x300, [65, 80, 73, 67, 36, 0, 0, 0, 0, madtSum])]

/-- With the right checksums, 223 and 191, both walks find the MADT; with a wrong one in the MADT or in the RSDP
`find_table` still returns it and `enumerate` does not report it. -/
theorem bad_checksum_found :
    findTable (firmware 223 191) 0 0x100 apic = some 0x300 ∧ (enumerate (firmware 223 191) 0 0x100).madtFound = true ∧
    findTable (firmware 223 0) 0 0x100 apic = some 0x300 ∧ validateSdtChecksum (firmware 223 0) 0x300 = false ∧
    (enumerate (firmware 223 0) 0 0x100).madtFound = false ∧
    findTable (firmware 0 191) 0 0x100 apic = some 0x300 ∧ validateRsdpChecksum (firmware 0 191) 0x100 = false ∧
    (enumerate (firmware 0 191) 0 0x100).madtFound = false := by
  decide +kernel

end Tori.Acpi
