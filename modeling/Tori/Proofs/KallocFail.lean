import Tori.Proofs.HeapOdd
import Tori.Proofs.HeapWalk
import Tori.Proofs.KallocRoute
import Tori.Proofs.PmmPages
import Tori.Spec.KallocFail

/-! Failed allocations. `heap::alloc` keeps the regions it has added while it looked for a block, so a request that no
region can serve uses up all of them; and a pointer that wraps to null is not a failure to the heap. -/

namespace Tori.Heap

open Word Linked

variable {σ : Type} {backing : Backing σ} {s s' : State σ} {bs : Set Block} {b : Block} {size alignment fuel : ℕ}

theorem findBlock_regions {r : Option ℕ} {fuel : ℕ} {s s' : State σ}
    (h : findBlock backing size alignment fuel s = some (r, s')) : s.regions.length ≤ s'.regions.length := by
  induction fuel generalizing s with
  | zero => cases h
  | succ fuel ih =>
    rw [findBlock] at h
    cases hseek : seek s.list (fits s.mem size alignment) listFuel none with
    | none => rw [hseek] at h; cases h
    | some link =>
      rw [hseek] at h
      dsimp only at h
      split_ifs at h
      · cases h
        exact le_rfl
      · cases hg : growHeap backing s with
        | none => rw [hg] at h; cases h
        | some g =>
          obtain ⟨ok, s₁⟩ := g
          rw [hg] at h
          obtain ⟨phys, env, -, ⟨rfl, -, rfl⟩ | ⟨rfl, -, -, rfl⟩ | ⟨rfl, -, -, -, _, -, hr, hreg, -⟩⟩ := growHeap_cases hg
          · cases h
            exact le_rfl
          · cases h
            exact le_rfl
          · have hle := ih h
            rw [hreg, hr, List.length_append] at hle
            omega

/-- Where the walk over the free list ends. -/
theorem Wf.seek_serves (h : Wf s.regions s.list bs) (size alignment : ℕ) :
    ∃ link, seek s.list (fits s.mem size (atLeast8 alignment)) listFuel none = some link ∧
      (s.list.get link = 0 ↔ ¬Serves s size alignment) := by
  obtain ⟨ns, hlist, hasc, hns⟩ := h.list
  obtain ⟨A, B, rfl, hA, hB, hr⟩ := hlist.seek (fits s.mem size (atLeast8 alignment))
    (h.length_lt hasc fun n hn => (hns n).mp hn) (Or.inl rfl)
  refine ⟨_, hr, ?_⟩
  obtain ⟨-, hseg⟩ := hlist.split
  rcases B with _ | ⟨n, B⟩
  · rw [List.append_nil] at hlist
    refine ⟨fun _ ⟨nodes, hnodes, n, hn, hfits⟩ => ?_, fun _ => hseg⟩
    rw [hnodes.unique hlist] at hn
    rw [hA n hn] at hfits
    cases hfits
  · refine ⟨fun hzero => absurd (hseg.1.symm.trans hzero) hseg.2.1, fun hno => absurd ?_ hno⟩
    exact ⟨_, hlist, n, by simp, hB n (by simp)⟩

/-- The block that `alloc` takes is marked, also when the pointer it answers with has wrapped to null. -/
theorem Wf.takeBlock_marks (h : Wf s.regions s.list bs) (hb : b ∈ bs) (hfree : b.use = none)
    (hfit : totalUsed b.start size alignment ≤ b.size)
    (hcall : takeBlock size alignment b.node s = some (0, s')) : s'.mem.load64 b.start % 2 = 1 := by
  have hlt := (h.bounds hb).2
  have hmin := b.min_le
  have htotal : minBlockSize ≤ totalUsed b.start size alignment := le_max_right _ _
  unfold Block.stop at hlt
  -- the shift word of a null pointer is at the top of the address space
  have hshift : ∀ m v, (writeShift 0 v m).load64 b.start = m.load64 b.start := fun m v =>
    Mem.load64_store64_apart _ (Or.inl (by simp only [sub, u64]; omega))
  rcases Nat.lt_or_ge (b.size - totalUsed b.start size alignment) minBlockSize with hsmall | hlarge
  · obtain ⟨l₁, hremove, -, -⟩ := h.unlink hb hfree
    obtain ⟨hp, rfl⟩ := Prod.mk.inj (Option.some.inj ((takeBlock_whole h hb hremove hsmall).symm.trans hcall))
    have hmark := (setBlock_any l₁.mem b.start true b.size_min hlt).1 rfl
    rewrite [withList_mem, hp, hshift]
    exact hmark
  · obtain ⟨l₁, l₂, A, B, hremove, hinsert, -, -, -, hheader, -, -⟩ := h.cut hb hfree htotal hlarge
    obtain ⟨hp, rfl⟩ := Prod.mk.inj (Option.some.inj ((takeBlock_cut h hb hremove rfl hlarge hinsert).symm.trans hcall))
    have hmark := (setBlock_any l₁.mem b.start true htotal (by omega)).1 rfl
    rewrite [withList_mem, hp, hshift, hheader]
    exact hmark

/-- The first round of `alloc`. -/
theorem alloc_first {p : ℕ} (hsize : size ≠ 0) (hwf : Wf s.regions s.list bs)
    (hcall : alloc backing size alignment s = some (p, s')) :
    (Serves s size alignment ∧ ∃ b ∈ bs, b.use = none ∧ totalUsed b.start size (atLeast8 alignment) ≤ b.size ∧
      takeBlock size (atLeast8 alignment) b.node s = some (p, s')) ∨
    ¬Serves s size alignment ∧ ∃ ok s₁, growHeap backing s = some (ok, s₁) ∧
      (ok = false → p = 0 ∧ s' = { s₁ with failedAllocations := inc s₁.failedAllocations }) ∧
      (ok = true → s₁.regions.length ≤ s'.regions.length) := by
  obtain ⟨link, hseek, hzero⟩ := hwf.seek_serves size alignment
  obtain ⟨link', hseek', hnode⟩ := seek_fits hwf size (atLeast8 alignment)
  obtain rfl := Option.some.inj (hseek'.symm.trans hseek)
  rw [alloc, if_neg hsize, findBlock, hseek] at hcall
  dsimp only at hcall
  by_cases hlink : s.list.get link' = 0
  · refine Or.inr ⟨hzero.mp hlink, ?_⟩
    rw [if_neg (not_not.mpr hlink)] at hcall
    cases hgrow : growHeap backing s with
    | none => rw [hgrow] at hcall; cases hcall
    | some g =>
      obtain ⟨ok, s₁⟩ := g
      rw [hgrow] at hcall
      refine ⟨ok, s₁, rfl, ?_, ?_⟩
      · rintro rfl
        obtain ⟨hp, hs'⟩ := Prod.mk.inj (Option.some.inj hcall)
        exact ⟨hp.symm, hs'.symm⟩
      · rintro rfl
        dsimp only at hcall
        cases hfind : findBlock backing size (atLeast8 alignment) maxRegions s₁ with
        | none => rw [hfind] at hcall; cases hcall
        | some r =>
          obtain ⟨node, s₂⟩ := r
          rw [hfind] at hcall
          have hle := findBlock_regions hfind
          cases node with
          | none =>
            cases hcall
            exact hle
          | some node => rwa [(takeBlock_result hcall).2.1]
  · refine Or.inl ⟨not_not.mp fun hno => hlink (hzero.mpr hno), ?_⟩
    obtain ⟨b, hb, hfree, hbn, hfit⟩ := hnode.resolve_left hlink
    rw [if_pos hlink, ← hbn] at hcall
    exact ⟨b, hb, hfree, hfit, hcall⟩

/-! ### Requests that are served -/

theorem Wf.takeBlock_returns (h : Wf s.regions s.list bs) (hb : b ∈ bs) (hfree : b.use = none) {k : ℕ} (hk : k ≤ 63)
    (hsz : size + 2 ^ k + 24 ≤ 2 ^ 64) (hfit : totalUsed b.start size (2 ^ k) ≤ b.size) :
    ∃ p s', takeBlock size (2 ^ k) b.node s = some (p, s') ∧ p ≠ 0 := by
  have hlt := (h.bounds hb).2
  obtain ⟨hp, hno⟩ := noWrap_of_fits hk hsz b.min_le hlt hfit
  by_cases heven : totalUsed b.start size (2 ^ k) % 2 = 0 ∨ b.size - totalUsed b.start size (2 ^ k) < minBlockSize
  · obtain ⟨l', bs', htake, -⟩ := takeBlock_spec h hb hfree hk (dvd_refl _) hp hno hfit heven
    exact ⟨_, _, htake, hp⟩
  · rw [not_or, Nat.not_lt] at heven
    obtain ⟨s', A, B, htake, -⟩ := takeBlock_odd h hb hfree hk hp hno (by omega) hfit heven.2
    exact ⟨_, _, htake, hp⟩

/-- 24 bytes of a region are not for the request. -/
theorem totalUsed_region {start : ℕ} (haligned : start % Pmm.pageSize = 0) (hlt : start + regionSize < 2 ^ 64)
    (hsize : size + 24 ≤ regionSize) : totalUsed start size (2 ^ 3) ≤ regionSize := by
  have hregion : regionSize = 65536 := rfl
  unfold Pmm.pageSize at haligned
  have hstart : start + 16 < 2 ^ 64 := by omega
  rcases userPtr_cases (show 3 ≤ 63 by decide) hstart with ⟨-, hwrap⟩ | ⟨h1, h2, h3, haligned'⟩
  · omega
  · rw [totalUsed_eq (by omega) h3 (by omega)]
    omega

theorem size_lt_of_fits {start bsize : ℕ} (hmin : 32 ≤ bsize) (hlt : start + bsize < 2 ^ 64) (hsize : size ≤ 2 ^ 20)
    (hfit : totalUsed start size (2 ^ 3) ≤ bsize) : size + 24 ≤ bsize := by
  obtain ⟨h1, -, htotal⟩ := totalUsed_spec (show 3 ≤ 63 by decide) (by omega) hmin hlt hfit
  omega

variable {Fresh : σ → List HeapRegion → Prop}

theorem HeapAt.fits_node (h : HeapAt s bs) (hb : b ∈ bs) :
    fits s.mem size alignment b.node = decide (totalUsed b.start size alignment ≤ b.size) := by
  have hbsize : blockSize s.mem b.start = b.size := (h.wf.tagged b hb).blockSize
  rw [fits, blockHeader_node (h.wf.bounds hb).2, hbsize]

theorem HeapAt.serves_of_block (h : HeapAt s bs) (hb : b ∈ bs) (hfree : b.use = none)
    (hfit : totalUsed b.start size (atLeast8 alignment) ≤ b.size) : Serves s size alignment := by
  obtain ⟨ns, hlist, -, hns⟩ := h.wf.list
  refine ⟨ns, hlist, b.node, (hns _).mpr ⟨b, hb, hfree, rfl⟩, ?_⟩
  rw [h.fits_node hb]
  exact decide_eq_true hfit

theorem HeapAt.block_of_serves (h : HeapAt s bs) (hserves : Serves s size alignment) :
    ∃ b ∈ bs, b.use = none ∧ totalUsed b.start size (atLeast8 alignment) ≤ b.size := by
  obtain ⟨nodes, hnodes, n, hn, hfit⟩ := hserves
  obtain ⟨ns, hlist, -, hns⟩ := h.wf.list
  obtain rfl := hnodes.unique hlist
  obtain ⟨b, hb, hfree, rfl⟩ := (hns n).mp hn
  rw [h.fits_node hb] at hfit
  exact ⟨b, hb, hfree, of_decide_eq_true hfit⟩

/-- The list holds a block for the request: it is found without a new region. -/
theorem HeapAt.findBlock_serves (h : HeapAt s bs) (hserves : Serves s size alignment) (fuel : ℕ) :
    ∃ b ∈ bs, b.use = none ∧ totalUsed b.start size (atLeast8 alignment) ≤ b.size ∧
      findBlock backing size (atLeast8 alignment) (fuel + 1) s = some (some b.node, s) := by
  obtain ⟨link, hseek, hzero⟩ := h.wf.seek_serves size alignment
  obtain ⟨link', hseek', hnode⟩ := seek_fits h.wf size (atLeast8 alignment)
  obtain rfl := Option.some.inj (hseek'.symm.trans hseek)
  have hlink : s.list.get link' ≠ 0 := fun h0 => hzero.mp h0 hserves
  obtain ⟨b, hb, hfree, hbn, hfit⟩ := hnode.resolve_left hlink
  refine ⟨b, hb, hfree, hfit, ?_⟩
  rw [findBlock, hseek]
  dsimp only
  rw [if_pos hlink, ← hbn]

theorem HeapAt.alloc_from (h : HeapAt s' bs) (hsize : size ≠ 0) (hle : size ≤ 2 ^ 20) (hb : b ∈ bs) (hfree : b.use = none)
    (hfit : totalUsed b.start size (atLeast8 8) ≤ b.size)
    (hfind : findBlock backing size (atLeast8 8) (maxRegions + 1) s = some (some b.node, s')) :
    ∃ p s₁, alloc backing size 8 s = some (p, s₁) ∧ p ≠ 0 := by
  rewrite [alloc, if_neg hsize, hfind]
  rewrite [show atLeast8 8 = 2 ^ 3 from rfl] at hfit ⊢
  exact h.wf.takeBlock_returns hb hfree (by decide) (by omega) hfit

/-- A new region serves what is small enough for one. -/
theorem HeapAt.alloc_region (hs : Supply backing Fresh) (h : HeapAt s bs) (hf : Fresh s.env s.regions) (hsize : size ≠ 0)
    (hle : size + 24 ≤ regionSize) (hno : ¬Serves s size 8) (hgrows : ∀ s', growHeap backing s ≠ some (false, s')) :
    ∃ p s', alloc backing size 8 s = some (p, s') ∧ p ≠ 0 := by
  have hregion : regionSize = 65536 := rfl
  obtain ⟨link, hseek, hzero⟩ := h.wf.seek_serves size 8
  obtain ⟨ok, s₁, bs₁, hgrow, -, hgrown, hgrowth⟩ := growHeap_spec hs h hf
  cases hgrowth with
  | none => exact absurd hgrow (hgrows s₁)
  | @region g hnew hgu hgz =>
    have hg : g ∈ insert g bs := Set.mem_insert g bs
    have hend := (hgrown.heap.wf.bounds hg).2
    have hfit : totalUsed g.start size (atLeast8 8) ≤ g.size := by
      unfold Block.stop at hend
      rw [hgz] at hend ⊢
      exact totalUsed_region hnew.aligned hend hle
    obtain ⟨b, hb, hfree, hbfit, hfind⟩ :=
      hgrown.heap.findBlock_serves (hgrown.heap.serves_of_block hg hgu hfit) 15
    refine hgrown.heap.alloc_from hsize (by omega) hb hfree hbfit ?_
    rw [findBlock, hseek]
    dsimp only
    rw [if_neg (not_not.mpr (hzero.mpr hno)), hgrow]
    exact hfind

/-- New regions do not help a request that is too large for one. -/
theorem findBlock_too_large (hs : Supply backing Fresh) (hlarge : regionSize < size + 24) (hsize : size ≤ 2 ^ 20)
    {fuel : ℕ} {s s' : State σ} {bs : Set Block} {r : Option ℕ} (h : HeapAt s bs) (hf : Fresh s.env s.regions)
    (hno : ¬Serves s size 8) (hcall : findBlock backing size (atLeast8 8) fuel s = some (r, s')) : r = none := by
  induction fuel generalizing s bs with
  | zero => cases hcall
  | succ fuel ih =>
    obtain ⟨link, hseek, hzero⟩ := h.wf.seek_serves size 8
    rw [findBlock, hseek] at hcall
    dsimp only at hcall
    rw [if_neg (not_not.mpr (hzero.mpr hno))] at hcall
    obtain ⟨ok, s₁, bs₁, hgrow, hf₁, hgrown, hgrowth⟩ := growHeap_spec hs h hf
    rw [hgrow] at hcall
    cases hgrowth with
    | none => exact (Prod.mk.inj (Option.some.inj hcall)).1.symm
    | region _ hgu hgz =>
      refine ih hgrown.heap hf₁ (fun hserves => ?_) hcall
      obtain ⟨b, hb, hfree, hfit⟩ := hgrown.heap.block_of_serves hserves
      rcases hb with rfl | hb
      · have := size_lt_of_fits b.min_le (hgrown.heap.wf.bounds (Set.mem_insert b bs)).2 hsize hfit
        omega
      · exact hno (h.serves_of_block hb hfree hfit)

/-- Such a request fails after it has grown the heap. -/
theorem HeapAt.alloc_too_large (hs : Supply backing Fresh) (h : HeapAt s bs) (hf : Fresh s.env s.regions)
    (hlarge : regionSize < size + 24) (hle : size ≤ 2 ^ 20) (hno : ¬Serves s size 8)
    (hgrows : ∀ s', growHeap backing s ≠ some (false, s')) :
    ∃ s', alloc backing size 8 s = some (0, s') ∧ s.regions.length < s'.regions.length := by
  have hregion : regionSize = 65536 := rfl
  obtain ⟨r, s', bs', hfind, -⟩ := findBlock_spec hs size (atLeast8 8) (maxRegions + 1) s bs h hf (by omega)
  obtain rfl := findBlock_too_large hs hlarge hle h hf hno hfind
  refine ⟨{ s' with failedAllocations := inc s'.failedAllocations }, ?_, ?_⟩
  · rewrite [alloc, if_neg (by omega), hfind]
    rfl
  · obtain ⟨link, hseek, hzero⟩ := h.wf.seek_serves size 8
    obtain ⟨ok, s₁, bs₁, hgrow, -, -, hgrowth⟩ := growHeap_spec hs h hf
    rewrite [findBlock, hseek] at hfind
    dsimp only at hfind
    rewrite [if_neg (not_not.mpr (hzero.mpr hno)), hgrow] at hfind
    cases hgrowth with
    | none => exact absurd hgrow (hgrows s₁)
    | region _ _ _ _ hregions =>
      have hle : s₁.regions.length ≤ s'.regions.length := findBlock_regions hfind
      rw [hregions, List.length_append, List.length_singleton] at hle
      exact hle

end Tori.Heap

namespace Tori.Kalloc

open Word Linked Heap

variable {hhdmOffset size alignment p : ℕ} {s s' : State} {bs : Set Block}

theorem allocPages_invalid_iff {pmm : Pmm.State} {n : ℕ} (hn : n ≠ 0) :
    (Pmm.allocPages n pmm).1 = Pmm.invalidPhysicalAddress ↔ ∀ page, ¬Pmm.FreeRun pmm page n := by
  constructor
  · intro hinvalid page hrun
    obtain ⟨offset, -, haddr, ⟨hle, -⟩, -⟩ := Pmm.allocPages_first_run hn ⟨page, hrun⟩
    rw [haddr, Pmm.invalidPhysicalAddress, Pmm.pageSize] at hinvalid
    omega
  · intro hno
    rw [Pmm.allocPages_unmanaged (Or.inr hno)]

theorem freeRun_mono {pmm : Pmm.State} {page n k : ℕ} (h : Pmm.FreeRun pmm page n) (hk : k ≤ n) : Pmm.FreeRun pmm page k :=
  ⟨by have := h.1; omega, fun q h1 h2 => h.2 q h1 (by omega)⟩

theorem growHeap_ok (hroom : s.regions.length < maxRegions)
    (hrun : ∃ page, Pmm.FreeRun s.env.pmm page growPageCount) : growHeap (backing hhdmOffset) s ≠ some (false, s') := by
  intro hgrow
  obtain ⟨phys, env, hpages, ⟨-, hinvalid, -⟩ | ⟨-, -, hfull, -⟩ | ⟨hok, -⟩⟩ := growHeap_cases hgrow
  · cases hpages
    obtain ⟨page, hpage⟩ := hrun
    exact (allocPages_invalid_iff (by decide)).mp hinvalid page hpage
  · omega
  · exact Bool.noConfusion hok

/-- A failed allocation leaves everything as it was exactly if the heap did not grow before it gave up and took no block
for a pointer that wrapped to null. -/
theorem failed_alloc_unchanged_iff (h : BlockChain s)
    (hcall : Heap.alloc (backing hhdmOffset) size alignment s = some (0, s')) :
    Unchanged s s' ↔ size = 0 ∨ ¬Serves s size alignment ∧ CannotGrow s := by
  by_cases hsize : size = 0
  · rw [Heap.alloc, if_pos hsize] at hcall
    cases hcall
    exact ⟨fun _ => Or.inl hsize, fun _ => ⟨rfl, rfl, fun _ => Iff.rfl, fun _ _ => rfl, fun _ => rfl, Or.inl rfl⟩⟩
  rcases alloc_first hsize h.freeWf hcall with ⟨hserves, b, hb, hfree, hfit, htake⟩ | ⟨hno, ok, s₁, hgrow, hfail, hlen⟩
  · -- the header of the block was even and is odd now
    have hmark := h.freeWf.takeBlock_marks hb hfree hfit htake
    refine ⟨fun hsame => ?_, fun hcond => absurd hserves (hcond.resolve_left hsize).1⟩
    have hword := load64_of_free hb.2.2.2
    have heven := blockSize_even s.mem b.start
    rw [hsame.headers b.start hb.2.1, hword] at hmark
    omega
  obtain ⟨phys, env, hpages, hcases⟩ := growHeap_cases hgrow
  cases hpages
  rcases hcases with ⟨hok, hinvalid, rfl⟩ | ⟨hok, hvalid, hfull, rfl⟩ | ⟨hok, hvalid, hroom, -, s₁, -, hr₁, hr, -⟩
  · obtain ⟨-, rfl⟩ := hfail hok
    have hpmm : (Pmm.allocPages growPageCount s.env.pmm).2 = s.env.pmm := Pmm.allocPages_fail (Prod.ext hinvalid rfl)
    refine ⟨fun _ => Or.inr ⟨hno, Or.inr ((allocPages_invalid_iff (by decide)).mp hinvalid)⟩,
      fun _ => ⟨rfl, rfl, fun _ => Iff.rfl, fun _ _ => rfl, fun page => ?_, Or.inr rfl⟩⟩
    rw [hpmm]
  · obtain ⟨-, rfl⟩ := hfail hok
    obtain ⟨page, haddr, hpos, hrun⟩ := allocPages_run Prod.mk.eta.symm hvalid
    refine ⟨fun _ => Or.inr ⟨hno, Or.inl hfull⟩,
      fun _ => ⟨rfl, rfl, fun _ => Iff.rfl, fun _ _ => rfl, fun q => ?_, Or.inr rfl⟩⟩
    rw [haddr]
    exact hrun.give_back hpos q
  · refine ⟨fun hsame => ?_, fun hcond => ?_⟩
    · have hle := hlen hok
      rw [hsame.regions, hr, hr₁, List.length_append, List.length_singleton] at hle
      omega
    · rcases (hcond.resolve_left hsize).2 with hfull | hnone
      · omega
      · exact absurd ((allocPages_invalid_iff (by decide)).mpr hnone) hvalid

theorem alloc_no_pages (h : BlockChain s) (hsize : size ≠ 0) (hno : ¬Serves s size alignment)
    (hnone : ∀ page, ¬Pmm.FreeRun s.env.pmm page growPageCount) : Heap.alloc (backing hhdmOffset) size alignment s =
      some (0, { s with failedAllocations := inc s.failedAllocations }) := by
  have hpages : Pmm.allocPages growPageCount s.env.pmm = (Pmm.invalidPhysicalAddress, s.env.pmm) :=
    Pmm.allocPages_unmanaged (Or.inr hnone)
  have hgrow : growHeap (backing hhdmOffset) s = some (false, s) := by
    unfold growHeap
    simp only [backing, hpages, if_true]
  obtain ⟨link, hseek, hzero⟩ := h.freeWf.seek_serves size alignment
  rewrite [Heap.alloc, if_neg hsize, findBlock, hseek]
  dsimp only
  rewrite [if_neg (not_not.mpr (hzero.mpr hno)), hgrow]
  rfl

theorem init_env (mem : Mem) (env : Env) : (Heap.init mem env).env = env := rfl

theorem not_serves_init (mem : Mem) (env : Env) (size alignment : ℕ) : ¬Serves (Heap.init mem env) size alignment := by
  rintro ⟨nodes, hnodes, n, hn, -⟩
  obtain rfl : nodes = [] := hnodes.unique (rfl : IsList (Heap.init mem env).list [])
  cases hn

/-- A heap without pages. -/
def noPages : State := Heap.init (fun _ => 0) ⟨Pmm.reserveAllPages, initialClasses, ⟨0, 0, 0, 0⟩, []⟩

theorem noPages_chain : BlockChain noPages := chain_init _ _

theorem noPages_pmm : noPages.env.pmm = Pmm.reserveAllPages := by
  rw [noPages, init_env]

theorem noPages_run {page n : ℕ} (hn : 0 < n) : ¬Pmm.FreeRun noPages.env.pmm page n := by
  intro hrun
  have hfree := hrun.2 page le_rfl (by omega)
  rw [noPages_pmm, Pmm.isPageUsed_reserveAllPages] at hfree
  exact Bool.noConfusion hfree

theorem noPages_alloc : Heap.alloc (backing 0xFFFF800000000000) 64 8 noPages =
    some (0, { noPages with failedAllocations := inc noPages.failedAllocations }) :=
  alloc_no_pages noPages_chain (by decide) (not_serves_init _ _ _ _) fun _ => noPages_run (by decide)

/-- `heap::alloc(64)` without a page. -/
theorem failed_alloc_noPages : ∃ s', Heap.alloc (backing 0xFFFF800000000000) 64 8 noPages = some (0, s') ∧
    Unchanged noPages s' :=
  ⟨_, noPages_alloc, (failed_alloc_unchanged_iff noPages_chain noPages_alloc).mpr
    (Or.inr ⟨not_serves_init _ _ _ _, Or.inr fun _ => noPages_run (by decide)⟩)⟩

/-- The memory map of an ordinary machine. -/
def roomyState : State := Heap.init (fun _ => 0) ⟨Pmm.init Pmm.ordinaryMap, initialClasses, ⟨0, 0, 0, 0⟩, []⟩

theorem roomyState_pmm : roomyState.env.pmm = Pmm.init Pmm.ordinaryMap := by
  rw [roomyState, init_env]

theorem roomyState_ok : Ok hhdmOffset roomyState := ok_init _ _

theorem roomyState_serves (size : ℕ) : ¬Serves roomyState size 8 := not_serves_init _ _ size 8

theorem roomyState_run {n : ℕ} (hn : n ≤ 256) : Pmm.FreeRun roomyState.env.pmm 256 n := by
  have hmax := Pmm.max_eq
  rw [roomyState_pmm]
  refine ⟨by omega, fun q h1 h2 => (Pmm.free_init_iff Pmm.ordinaryMap_words (by omega)).mpr
    ⟨by omega, fun h => absurd h.1 ?_, .inr ?_⟩⟩
  · rw [Pmm.inKernel_iff]
    simp only [Pmm.ordinaryMap, Pmm.pageSize]
    omega
  · refine ⟨⟨0x100000, 0xF00000, .bootloaderReclaimable⟩, by simp [Pmm.ordinaryMap], ⟨by decide, by decide, by decide⟩, ?_⟩
    rw [Pmm.MemoryRegion.holds_iff]
    simp only [Pmm.pageSize]
    omega

/-- `heap::alloc(70000)` gives the heap regions that cannot serve it, and fails. -/
theorem failed_alloc_grows : ∃ s', Heap.alloc (backing 0xFFFF800000000000) 70000 8 roomyState = some (0, s') ∧
    ¬Unchanged roomyState s' := by
  have hok : Ok 0xFFFF800000000000 roomyState := roomyState_ok
  obtain ⟨bs, hheap⟩ := hok.heap
  obtain ⟨s', hcall, hlen⟩ := hheap.alloc_too_large (supply_backing directMap_kernelHalf roomyState)
    ⟨hok.env, rfl, rfl⟩ (by decide) (by decide) (roomyState_serves 70000)
    fun s' => growHeap_ok (by decide) ⟨256, roomyState_run (by decide)⟩
  refine ⟨s', hcall, fun hsame => ?_⟩
  rw [hsame.regions] at hlen
  exact lt_irrefl _ hlen

/-! ### `kalloc` -/

theorem growClass_fails {i : Fin 8} {s s' : State} (h : growClass hhdmOffset i s = (false, s')) :
    ∀ page, ¬Pmm.FreeRun s.env.pmm page 1 := by
  refine (allocPages_invalid_iff (by decide)).mp ?_
  by_contra hvalid
  unfold growClass Pmm.allocPage at h
  dsimp only at h
  rw [if_neg hvalid] at h
  exact Bool.noConfusion (congrArg Prod.fst h)

theorem slice_served (hd : DirectMap hhdmOffset) (h : Ok hhdmOffset s) (hpos : 1 ≤ size) (hle : size ≤ 2048)
    (hrun : ∃ page, Pmm.FreeRun s.env.pmm page 1) : (sliceAlloc hhdmOffset size 8 s).1 ≠ 0 := by
  obtain ⟨free, hslices⟩ := h.slices
  obtain ⟨i, hi⟩ := classFor_exists hpos hle
  have hclass : classFor s.env.classes size 8 = some i := by rw [classFor_table h.table, hi]
  unfold sliceAlloc
  rw [hclass]
  dsimp only
  split_ifs with hempty
  · rcases growClass_cases hd i s with hfail | ⟨page, pmm, q, hgrow, hf⟩
    · exact absurd hrun (not_exists.mpr (growClass_fails hfail))
    · rw [hgrow]
      obtain ⟨n, ns, hn⟩ := grownFree_cons i page free
      have hgrown := (hslices.grow (i := i) hd hf).2.1
      rw [(hgrown.pop hn).1]
      exact ((hgrown.carved i n (hn ▸ List.mem_cons_self)).word hd hgrown.pages).1
  · exact hempty

theorem heap_served_iff (hd : DirectMap hhdmOffset) (h : Ok hhdmOffset s) (hpos : 1 ≤ size) (hle : size ≤ heapThreshold)
    (hroom : s.regions.length < maxRegions) (hrun : ∃ page, Pmm.FreeRun s.env.pmm page growPageCount) :
    (∃ p s', Heap.alloc (backing hhdmOffset) size 8 s = some (p, s') ∧ p ≠ 0) ↔
      size + 24 ≤ regionSize ∨ Serves s size 8 := by
  have hth : heapThreshold = 2 ^ 20 := rfl
  have hsize : size ≠ 0 := by omega
  obtain ⟨bs, hheap⟩ := h.heap
  by_cases hserves : Serves s size 8
  · obtain ⟨b, hb, hfree, hfit, hfind⟩ := hheap.findBlock_serves hserves maxRegions
    exact ⟨fun _ => Or.inr hserves, fun _ => hheap.alloc_from hsize (by omega) hb hfree hfit hfind⟩
  constructor
  · rintro ⟨p, s', hcall, hp⟩
    by_contra hno
    rw [not_or, Nat.not_le] at hno
    rw [Heap.alloc, if_neg hsize] at hcall
    cases hfind : findBlock (backing hhdmOffset) size (atLeast8 8) (maxRegions + 1) s with
    | none => rw [hfind] at hcall; cases hcall
    | some found =>
      obtain ⟨r, s₁⟩ := found
      obtain rfl := findBlock_too_large (supply_backing hd s) hno.1 (by omega) hheap ⟨h.env, rfl, rfl⟩ hserves hfind
      rw [hfind] at hcall
      exact hp (congrArg Prod.fst (Option.some.inj hcall)).symm
  · intro hcond
    exact hheap.alloc_region (supply_backing hd s) ⟨h.env, rfl, rfl⟩ hsize (hcond.resolve_right hserves) hserves
      fun s' => growHeap_ok hroom hrun

theorem pages_served (hd : DirectMap hhdmOffset) (hlarge : heapThreshold < size) (hlt : size < 2 ^ 64 - Pmm.pageSize)
    (hrun : ∃ page, Pmm.FreeRun s.env.pmm page ((size + 4095) / 4096)) :
    ∃ p s', kalloc hhdmOffset size 8 s = some (p, s') ∧ p ≠ 0 := by
  have hth : heapThreshold = 1048576 := rfl
  have hcount : pageCountForSize size = (size + 4095) / 4096 := by
    unfold Pmm.pageSize at hlt
    unfold pageCountForSize Pmm.pageSize
    rw [u64_of_lt (by omega)]
    rfl
  rw [← hcount] at hrun
  rw [kalloc, if_neg (by omega), if_neg (by omega), if_neg (by omega), if_neg (by decide)]
  dsimp only
  split_ifs with hinvalid
  · have hnone := (allocPages_invalid_iff (by rw [hcount]; omega)).mp hinvalid
    exact absurd hrun (not_exists.mpr hnone)
  · obtain ⟨page, haddr, -, hfresh⟩ := allocPages_run Prod.mk.eta.symm hinvalid
    refine ⟨_, _, rfl, ?_⟩
    rw [haddr, (hd.addr hfresh.le).1]
    have := hd.pos
    omega

/-- With room for a region and free pages enough, `kalloc` fails exactly for what is too large for a region and goes to
the heap all the same, unless a block of that size is already there. -/
theorem kalloc_served_iff (hd : DirectMap hhdmOffset) (h : Ok hhdmOffset s) (hpos : 1 ≤ size)
    (hroom : s.regions.length < maxRegions)
    (hrun : ∃ page, Pmm.FreeRun s.env.pmm page ((size + 4095) / 4096 + 16)) :
    (∃ p s', kalloc hhdmOffset size 8 s = some (p, s') ∧ p ≠ 0) ↔
      size + 24 ≤ regionSize ∨ heapThreshold < size ∨ Serves s size 8 := by
  have hregion : regionSize = 65536 := rfl
  obtain ⟨page, hpage⟩ := hrun
  have hmax := hpage.1
  rcases Nat.lt_or_ge heapThreshold size with hlarge | hle
  · have hserved := pages_served hd hlarge (by unfold Pmm.maxManagedPages Pmm.pageSize at *; omega)
      ⟨page, freeRun_mono hpage (by omega)⟩
    exact ⟨fun _ => Or.inr (Or.inl hlarge), fun _ => hserved⟩
  rcases Nat.lt_or_ge 2048 size with hheap | hslice
  · have hiff := heap_served_iff hd h hpos hle hroom ⟨page, freeRun_mono hpage (by unfold growPageCount; omega)⟩
    rw [kalloc_heap hpos (by simp [servedBy, hheap, hle]), hiff, or_iff_right (Nat.not_lt.mpr hle)]
  · have hserved := slice_served hd h hpos hslice ⟨page, freeRun_mono hpage (by omega)⟩
    rw [kalloc, if_neg (by omega), if_pos ⟨hslice, by decide⟩]
    exact ⟨fun _ => Or.inl (by omega), fun _ => ⟨_, _, rfl, hserved⟩⟩

/-- `kalloc(4096)` with 1 MiB free. -/
theorem kalloc_served_page : ∃ p s', kalloc 0xFFFF800000000000 4096 8 roomyState = some (p, s') ∧ p ≠ 0 :=
  (kalloc_served_iff directMap_kernelHalf roomyState_ok (by decide) (by decide)
    ⟨256, roomyState_run (by decide)⟩).mpr (Or.inl (by decide))

/-- `kalloc(70000)` fails with 1 MiB free: it is too large for a region and too small for whole pages. -/
theorem kalloc_70000_fails : Ok 0xFFFF800000000000 roomyState ∧ roomyState.regions.length < maxRegions ∧
    Pmm.FreeRun roomyState.env.pmm 256 ((70000 + 4095) / 4096 + 16) ∧
    ¬∃ p s', kalloc 0xFFFF800000000000 70000 8 roomyState = some (p, s') ∧ p ≠ 0 := by
  refine ⟨roomyState_ok, by decide, roomyState_run (by decide), ?_⟩
  rw [kalloc_heap (by decide) (by decide), heap_served_iff directMap_kernelHalf roomyState_ok (by decide) (by decide)
    (by decide) ⟨256, roomyState_run (by decide)⟩]
  exact not_or.mpr ⟨by decide, roomyState_serves 70000⟩

end Tori.Kalloc
