import Tori.Proofs.HeapFree
import Tori.Sanity.Pmm
import Tori.Spec.SliceRun

/-! States in which heap, slices and page allocator agree about who owns which page, and
the slice allocator on them. -/

namespace Tori.Kalloc

open Word Loop Linked Heap

variable {env : Env} {rs : List HeapRegion} {i : Fin 8} {n : ℕ}

/-- The heap's pages and the carved pages are in use and apart. -/
structure EnvOk (hhdmOffset : ℕ) (env : Env) (rs : List HeapRegion) : Prop where
  regionPages : ∀ r ∈ rs, ∀ x, r.Has x → hhdmOffset ≤ x ∧
    (x - hhdmOffset) / Pmm.pageSize < Pmm.maxManagedPages ∧
    Pmm.isPageUsed env.pmm ((x - hhdmOffset) / Pmm.pageSize) = true
  carvedPages : ∀ c ∈ env.carved, ∃ q, c.1 = hhdmOffset + q * Pmm.pageSize ∧
    q < Pmm.maxManagedPages ∧ Pmm.isPageUsed env.pmm q = true
  carvedHeap : ∀ c ∈ env.carved, ∀ r ∈ rs, ∀ x, r.Has x → ¬ (c.1 ≤ x ∧ x < c.1 + Pmm.pageSize)
  carvedOnce : ∀ c ∈ env.carved, ∀ d ∈ env.carved, c.1 = d.1 → c = d

structure Ok (hhdmOffset : ℕ) (s : State) : Prop where
  heap : ∃ bs, HeapAt s bs
  env : EnvOk hhdmOffset s.env s.regions
  table : ∀ i, (s.env.classes i).size = classSize i ∧ (s.env.classes i).alignment = 16
  lists : ∀ i, ∃ ns, IsList ⟨(s.env.classes i).freeList, s.mem⟩ ns ∧ ns.Nodup ∧
    ∀ n ∈ ns, Carved s.env i n

/-- The direct map starts at a page, leaves room above the managed pages, and maps no page
to the null pointer. -/
structure DirectMap (hhdmOffset : ℕ) : Prop where
  aligned : hhdmOffset % Pmm.pageSize = 0
  pos : 0 < hhdmOffset
  room : hhdmOffset + 2 ^ 33 ≤ 2 ^ 64

theorem classSize_spec (i : Fin 8) :
    16 ≤ classSize i ∧ classSize i ≤ 2048 ∧ Pmm.pageSize / classSize i * classSize i = Pmm.pageSize := by
  fin_cases i <;> decide

/-- The slots of a class do not reach beyond the page. -/
theorem slot_end {k : ℕ} (hk : k < Pmm.pageSize / classSize i) : k * classSize i + classSize i ≤ Pmm.pageSize := by
  rw [← Nat.succ_mul, ← (classSize_spec i).2.2]
  exact Nat.mul_le_mul_right _ hk

variable {hhdmOffset : ℕ}

theorem Carved.bounds (hd : DirectMap hhdmOffset)
    (h : EnvOk hhdmOffset env rs) (hn : Carved env i n) :
    ∃ page, (page, i) ∈ env.carved ∧ page ≤ n ∧ n + classSize i ≤ page + Pmm.pageSize ∧
      0 < page ∧ page + Pmm.pageSize ≤ 2 ^ 64 - 2 ^ 32 := by
  obtain ⟨page, k, hp, hk, rfl⟩ := hn
  obtain ⟨q, hq, hq1, -⟩ := h.carvedPages _ hp
  dsimp only at hq
  have hend := slot_end hk
  have hroom := hd.room
  have hpos := hd.pos
  simp only [Pmm.pageSize, Pmm.maxManagedPages] at *
  exact ⟨page, hp, by omega, by omega, by omega, by omega⟩

theorem Carved.apart (h : EnvOk hhdmOffset env rs)
    {j : Fin 8} {m : ℕ} (hm : Carved env i m) (hn : Carved env j n) (hne : m ≠ n) :
    m + classSize i ≤ n ∨ n + classSize j ≤ m := by
  obtain ⟨page, k, hp, hk, rfl⟩ := hm
  obtain ⟨page', k', hp', hk', rfl⟩ := hn
  obtain ⟨q, hq, -, -⟩ := h.carvedPages _ hp
  obtain ⟨q', hq', -, -⟩ := h.carvedPages _ hp'
  dsimp only at hq hq'
  by_cases hpp : page = page'
  · obtain ⟨rfl, rfl⟩ : page = page' ∧ i = j := by simpa using h.carvedOnce _ hp _ hp' hpp
    rcases Nat.lt_trichotomy k k' with hlt | rfl | hlt
    · have := Nat.mul_le_mul_right (classSize i) hlt
      rw [Nat.succ_mul] at this
      omega
    · exact absurd rfl hne
    · have := Nat.mul_le_mul_right (classSize i) hlt
      rw [Nat.succ_mul] at this
      omega
  · have h1 := slot_end hk
    have h2 := slot_end hk'
    simp only [Pmm.pageSize] at *
    omega

theorem Carved.not_heap (hd : DirectMap hhdmOffset)
    (h : EnvOk hhdmOffset env rs) {x : ℕ} (hn : Carved env i n) (h1 : n ≤ x)
    (h2 : x < n + classSize i) : ∀ r ∈ rs, ¬ r.Has x := by
  obtain ⟨page, hp, h3, h4, -, -⟩ := hn.bounds hd h
  exact fun r hr hx => h.carvedHeap _ hp r hr x hx ⟨by dsimp only; omega, by dsimp only; omega⟩

theorem list_congr {head : ℕ} {m m' : Mem} {ns : List ℕ} (h : IsList ⟨head, m⟩ ns)
    (hm : ∀ n ∈ ns, ∀ x, n ≤ x → x < n + 8 → m' x = m x) : IsList ⟨head, m'⟩ ns :=
  h.congr rfl fun n hn => Mem.load64_congr (hm n hn)

end Tori.Kalloc
