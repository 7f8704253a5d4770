import Tori.Spec.KernelStore
import Tori.Proofs.CloneFail
import Tori.Sanity.VmmBlank

/-! Stores of the kernel into user memory. Error code 3 is not 7, so `handle_cow_fault` never resolves them: with CR0.WP
a store to a page marked copy-on-write ends in the panic, and without it the shared frame is written. -/

namespace Tori.Vmm

open Pmm Radix

section Store

variable {base : ℕ → Bool × ℕ} {w : World} {live : Finset ℕ} {p va off : ℕ} {e : Entry} {wp : Bool}

/-- The handler never resolves a fault of the kernel. -/
theorem handleException_supervisor (va p : ℕ) (w : World) : handleException 14 va 3 p w = none := by
  simp [handleException, handleCowFault]

theorem kernelStore_eq (h : Inv base w live) (hp : p ∈ live) (hva : pml4Idx va < 256) (hl : lookup w.mem p va = some e)
    (b : BitVec 8) : kernelStore wp p va b w =
      if has e pteWritable || !wp then some { w with mem := w.mem.store8 (addrOf e + va % 4096) b } else none := by
  have hwalk := h.walk_eq hp hva
  rw [hl, Option.map_some] at hwalk
  have htry : tryStore wp p va b w =
      if has e pteWritable || !wp then some { w with mem := w.mem.store8 (addrOf e + va % 4096) b } else none := by
    rw [tryStore, hwalk]
  rw [kernelStore, htry, hwalk, Option.isSome_some, if_pos rfl]
  dsimp only
  rw [handleException_supervisor]
  split_ifs <;> rfl

/-- Where the writable bit or a clear CR0.WP lets them through, the bytes end up in the frame of the page. -/
theorem copyOut_eq (hpermit : (has e pteWritable || !wp) = true) (bytes : List (BitVec 8)) (h : Inv base w live)
    (hp : p ∈ live) (hpage : ∀ i < bytes.length, va + i ≤ userLimit ∧ lookup w.mem p (va + i) = some e ∧
      (va + i) % 4096 = off + i) :
    ∃ w', copyOut wp p va bytes w = some w' ∧ w'.mem = w.mem.storeBytes (addrOf e + off) bytes ∧ Inv base w' live ∧
      ∀ p' ∈ live, tree w'.mem p' = tree w.mem p' := by
  induction bytes generalizing w va off with
  | nil => exact ⟨w, rfl, rfl, h, fun _ _ => rfl⟩
  | cons b bytes ih =>
    obtain ⟨hva, hl, hoff⟩ := hpage 0 (Nat.succ_pos _)
    rw [Nat.add_zero] at hva hl hoff
    have haligned := addrOf_mod e
    obtain ⟨hinv, htree⟩ := h.store (by
      rw [show (addrOf e + off) / 4096 = addrOf e / 4096 by omega]
      exact (h.mapped hp hl).2.2.1)
    have hpage' : ∀ i < bytes.length, va + 1 + i ≤ userLimit ∧
        lookup (w.mem.store8 (addrOf e + off) b) p (va + 1 + i) = some e ∧ (va + 1 + i) % 4096 = off + 1 + i := by
      intro i hi
      obtain ⟨h1, h2, h3⟩ := hpage (i + 1) (Nat.succ_lt_succ hi)
      rw [show va + 1 + i = va + (i + 1) by omega]
      refine ⟨h1, ?_, by omega⟩
      rw [lookup, htree p hp]
      exact h2
    obtain ⟨w', hrest, hmem, hinv', htree'⟩ := ih hinv hpage'
    refine ⟨w', ?_, hmem, hinv', fun p' hp' => (htree' p' hp').trans (htree p' hp')⟩
    rw [copyOut, kernelStore_eq h hp (pml4Idx_user hva) hl, if_pos hpermit, hoff]
    exact hrest

end Store

section Iff

variable {base : ℕ → Bool × ℕ} {s : Sys} {p va : ℕ} {e : Entry} {wp : Bool}

theorem sharedFrame_iff (h : Inv base s.world s.live) : SharedFrame s p e ↔
    ∃ p' ∈ s.live, p' ≠ p ∧ ∃ va' ≤ userLimit, ∃ e', lookup s.world.mem p' va' = some e' ∧ addrOf e' = addrOf e := by
  refine exists_congr fun p' => and_congr_right fun hp' => and_congr_right fun _ => exists_congr fun va' =>
    and_congr_right fun hva' => ?_
  have haligned := addrOf_mod e
  rw [h.walk_eq hp' (pml4Idx_user hva')]
  constructor
  · rintro ⟨t, ht, hphys⟩
    obtain ⟨e', hl, rfl⟩ := Option.map_eq_some_iff.mp ht
    have haligned' := addrOf_mod e'
    dsimp only at hphys
    exact ⟨e', hl, by omega⟩
  · rintro ⟨e', hl, haddr⟩
    refine ⟨_, by rw [hl]; rfl, ?_⟩
    dsimp only
    rw [haddr]
    omega

theorem page_bytes (hva : va ≤ userLimit) (hl : lookup s.world.mem p va = some e) {n : ℕ} (hn : va % 4096 + n ≤ 4096) :
    ∀ i < n, va + i ≤ userLimit ∧ lookup s.world.mem p (va + i) = some e ∧ (va + i) % 4096 = va % 4096 + i := by
  intro i hi
  have hlimit : userLimit = 34359738367 * 4096 + 4095 := rfl
  have hle : va + i ≤ userLimit := by omega
  exact ⟨hle, (lookup_same_page hva hle (by omega)).trans hl, by omega⟩

section

variable (h : Inv base s.world s.live) (hp : p ∈ s.live) (hva : va ≤ userLimit) (hl : lookup s.world.mem p va = some e)
include h hp hva hl

theorem stored_privately (hpermit : (has e pteWritable || !wp) = true) (halone : ¬SharedFrame s p e)
    (bytes : List (BitVec 8)) (hfit : va % 4096 + bytes.length ≤ 4096) :
    ∃ w', copyOut wp p va bytes s.world = some w' ∧ StoredPrivately s p va bytes w' := by
  have hpage := page_bytes hva hl hfit
  obtain ⟨w', hcall, hmem, hinv, htree⟩ := copyOut_eq hpermit bytes h hp hpage
  have hlookup : ∀ p' ∈ s.live, ∀ va', lookup w'.mem p' va' = lookup s.world.mem p' va' := fun p' hp' va' => by
    rw [lookup, htree p' hp', lookup]
  refine ⟨w', hcall, fun i hi => ?_, fun p' hp' hne va' hva' => ?_⟩
  · obtain ⟨hle, hl', hoff⟩ := hpage i hi
    rw [hinv.readByte_eq hp hle, hlookup p hp, hl', Option.map_some, hmem, hoff, ← Nat.add_assoc]
    exact congrArg some (Mem.storeBytes_at bytes _ _ hi)
  · rw [hinv.readByte_eq hp' hva', h.readByte_eq hp' hva', hlookup p' hp']
    refine Option.map_congr fun e' he' => ?_
    rw [hmem]
    -- the byte read lies in another frame
    have hother : addrOf e' ≠ addrOf e := fun haddr =>
      halone ((sharedFrame_iff h).mpr ⟨p', hp', hne, va', hva', e', he', haddr⟩)
    have haligned := addrOf_mod e
    have haligned' := addrOf_mod e'
    exact Mem.storeBytes_outside bytes _ (by omega)

theorem store_shows (hpermit : (has e pteWritable || !wp) = true) (hshared : SharedFrame s p e)
    {b : BitVec 8} (hb : s.world.mem (addrOf e + va % 4096) ≠ b) :
    ∃ w', copyOut wp p va [b] s.world = some w' ∧ ¬StoredPrivately s p va [b] w' := by
  obtain ⟨w', hcall, hmem, hinv, htree⟩ := copyOut_eq hpermit [b] h hp (page_bytes hva hl (by simp; omega))
  refine ⟨w', hcall, fun hprivate => hb ?_⟩
  obtain ⟨p', hp', hne, va', hva', e', hl', haddr⟩ := (sharedFrame_iff h).mp hshared
  -- the same offset in the page of the other space
  have hlimit : userLimit = 34359738367 * 4096 + 4095 := rfl
  have hle : va' / 4096 * 4096 + va % 4096 ≤ userLimit := by omega
  have hsame := lookup_same_page (m := s.world.mem) (p := p') hva' hle (by omega)
  have hread := hprivate.others p' hp' hne _ hle
  rw [hinv.readByte_eq hp' hle, h.readByte_eq hp' hle, lookup, htree p' hp', ← lookup, hsame, hl', Option.map_some,
    Option.map_some, Option.some.injEq, haddr, show (va' / 4096 * 4096 + va % 4096) % 4096 = va % 4096 by omega, hmem] at hread
  rw [← hread]
  exact Mem.storeBytes_at [b] _ _ (i := 0) (by simp)

/-- With CR0.WP a store to a page that is not writable ends in the panic. -/
theorem copyOut_panics (hdenied : (has e pteWritable || !wp) = false) (b : BitVec 8) :
    copyOut wp p va [b] s.world = none := by
  rw [copyOut, kernelStore_eq h hp (pml4Idx_user hva) hl, hdenied]
  rfl

end

theorem Inv.smallEntry_eq (h : Inv base s.world s.live) (hp : p ∈ s.live) (hva : va ≤ userLimit) :
    smallEntry s.world.mem p va = lookup s.world.mem p va := by
  have hentry := smallEntry_lookup (by rw [h.frame hp]; exact h.ok p hp)
    (pml4Idx_user hva)
  rwa [h.frame hp] at hentry

end Iff

/-- In every reachable state, for every mapped user page of a process, one marked copy-on-write in particular: the stores
of its system calls complete and stay private if and only if the processor lets the kernel write there and no
other address space maps the frame. -/
theorem copyOut_private_iff {s₀ s : Sys} (h₀ : Start s₀) (hrun : Run faultsInUserHalf s₀ s) {p va : ℕ} (hp : p ∈ s.live)
    (hva : va ≤ userLimit) {e : Entry} (he : smallEntry s.world.mem p va = some e) (wp : Bool) :
    (∀ bytes, va % 4096 + bytes.length ≤ 4096 →
      ∃ w', copyOut wp p va bytes s.world = some w' ∧ StoredPrivately s p va bytes w') ↔
      (wp = false ∨ has e pteWritable = true) ∧ ¬SharedFrame s p e := by
  have h := inv_of_run h₀ (fun _ _ ha => ha) hrun
  rw [h.smallEntry_eq hp hva] at he
  have hpermit : (wp = false ∨ has e pteWritable = true) ↔ (has e pteWritable || !wp) = true := by
    rw [Bool.or_eq_true, Bool.not_eq_true', or_comm]
  rw [hpermit]
  constructor
  · intro hall
    have hgo : (has e pteWritable || !wp) = true := by
      by_contra hdenied
      obtain ⟨w', hcall, -⟩ := hall [0] (by simp; omega)
      rw [copyOut_panics h hp hva he (Bool.eq_false_iff.mpr hdenied)] at hcall
      exact nomatch hcall
    refine ⟨hgo, fun hshared => ?_⟩
    obtain ⟨b, hb⟩ : ∃ b, s.world.mem (addrOf e + va % 4096) ≠ b := ⟨s.world.mem (addrOf e + va % 4096) + 1#8, by bv_omega⟩
    obtain ⟨w', hcall, hnot⟩ := store_shows h hp hva he hgo hshared hb
    obtain ⟨w'', hcall', hprivate⟩ := hall [b] (by simp; omega)
    rw [hcall] at hcall'
    cases hcall'
    exact hnot hprivate
  · rintro ⟨hgo, halone⟩ bytes hfit
    exact stored_privately h hp hva he hgo halone bytes hfit

/-! ### A fork on the small machine -/

section Fork

variable {base : ℕ → Bool × ℕ} {w : World} {live : Finset ℕ} {p f : ℕ}

/-- With a page for each of its tables the source is cloned. -/
theorem clone_enough (h : Source f w) (hkernel : w.kernelPml4Phys ≠ 0)
    (henough : size (upTo cls cap 256 (rd w.mem) 2 f) ≤ freePages w.pmm) : (cloneAddressSpace (f * 4096) w).1 ≠ 0 := by
  intro hzero
  rcases cloneAddressSpace_fails h (Prod.ext hzero rfl) with ⟨-, hno | hnone⟩ | ⟨i, f', w₁, w₂, -, hi, hloop, hF, -⟩
  · exact hkernel hno
  · have hone : 1 ≤ size (upTo cls cap 256 (rd w.mem) 2 f) := by
      rw [size_upTo]
      omega
    omega
  · have hpages := hloop.cloned.freePages
    have hshort := hF.short
    have hle : size _ + size (behind w.mem 2 f i) ≤ size (upTo cls cap 256 (rd w.mem) 2 f) :=
      tally_behind_le _ _ le_rfl hi
    omega

theorem Inv.source (h : Inv base w live) (hb : IsBase base) (hp : f * 4096 ∈ live)
    (hbound : ∀ q, leaves w.mem live q ≤ uint16Max) : Source f w := by
  have htree := tree_upTo w.mem f
  refine ⟨⟨fun q hq => ?_, (h.used_iff 0).mpr (.inr hb.zero)⟩, fun q hq => ?_, htree ▸ h.ok _ hp,
    htree ▸ h.own_le_one hp, htree ▸ h.inUse hb hp⟩
  · obtain ⟨htables, hleaves, hwas⟩ := h.free_of_unused hq
    rw [h.pages q, if_neg (by omega)]
    exact hb.free q hwas
  · rw [← htree] at hq
    have hle : cnt (refs q) (tree w.mem (f * 4096)) ≤ leaves w.mem live q := cnt_le_leaves hp
    have hapart := h.apart q
    have hcount : w.pmm.pageRefcounts q = tables w.mem live q + leaves w.mem live q := by
      have hstate := congrArg Prod.snd (h.pages q)
      rwa [if_pos (by omega)] at hstate
    have hmax := hbound q
    omega

/-- The tables of a live space are pages that were free before the run. -/
theorem Inv.size_le {s₀ : State} (h : Inv (pageState s₀) w live) (hb : IsBase (pageState s₀)) (hp : p ∈ live) :
    size (tree w.mem p) + freePages w.pmm ≤ freePages s₀ := by
  rw [← sum_own fun g hg => (h.inUse hb hp g (by omega)).1, freePages_eq, freePages_eq, ← Finset.sum_add_distrib]
  refine Finset.sum_le_sum fun q _ => ?_
  have hone := h.own_le_one hp q
  have hle : own q (tree w.mem p) ≤ tables w.mem live q := own_le_tables hp
  by_cases hfree : isPageUsed w.pmm q = false
  · obtain ⟨htables, -, hwas⟩ := h.free_of_unused hfree
    rw [if_pos hfree, if_pos (show isPageUsed s₀ q = false from hwas)]
    omega
  · rw [if_neg hfree]
    split_ifs with hwas
    · omega
    · by_contra hpos
      exact hwas (h.taken q (by omega))

end Fork

def userFlags : Flags := ⟨true, true, true, false, false, false, false, false⟩

def emptyWorld : World := ⟨pagesTaken 1, fun _ => 0, 0x100 * 4096⟩

/-- A process with one writable page at `0x400000`, in frame 2. -/
def parentWorld : World := ⟨pagesTaken 5, onePage 1 3 4 5 0x400000 (leafEntry (2 * 4096) userFlags), 0x100 * 4096⟩

theorem parent_byte : parentWorld.mem 0x2000 = 0 := by
  have hother : ∀ {m : Mem} {g : ℕ} (i : Fin 512) (e : Entry), g ≠ 2 → setEntry m (g * 4096) i e 0x2000 = m 0x2000 :=
    fun i e hg => setEntry_other _ e i.isLt (by omega)
  change onePage 1 3 4 5 0x400000 (leafEntry (2 * 4096) userFlags) 0x2000 = 0
  rw [onePage, hother _ _ (by decide), hother _ _ (by decide), hother _ _ (by decide), hother _ _ (by decide)]

theorem run_parent : ∃ ref, Run faultsInUserHalf smallStart ⟨parentWorld, insert (1 * 4096) ∅, ref⟩ ∧
    lookup parentWorld.mem (1 * 4096) 0x400000 = some (leafEntry (2 * 4096) userFlags) ∧
    ∀ q, leaves parentWorld.mem (insert (1 * 4096) ∅) q ≤ 1 := by
  have hblank : fillPage (2 * 4096) (fun _ => 0) emptyWorld.mem = fun _ => 0 := by
    funext x
    exact ite_self _
  have hcreate : createUserPml4 smallStart.world = (1 * 4096, emptyWorld) := by
    rw [smallStart_blank]
    exact createUserPml4_blank (by decide) (by decide) (pagesTaken_next (by decide))
  have halloc : allocPage emptyWorld.pmm = (2 * 4096, pagesTaken 2) := by
    simp only [emptyWorld]
    exact pagesTaken_next (by decide)
  have hmap : mapPage 0x400000 (2 * 4096) userFlags (1 * 4096)
      { emptyWorld with pmm := pagesTaken 2, mem := fillPage (2 * 4096) (fun _ => 0) emptyWorld.mem } =
        some parentWorld := by
    rw [hblank]
    exact mapPage_blank rfl (by decide) (by decide) (by decide) (pagesTaken_next (by decide)) (pagesTaken_next (by decide))
      (pagesTaken_next (by decide))
  have hrun := run_create start_small faultsInUserHalf trivial (congrArg Prod.fst hcreate) (by decide)
  rw [hcreate] at hrun
  obtain ⟨-, -, hinv, -, hleaves, hnone⟩ := (inv_of_start start_small).create hcreate (by decide)
  have hmem : 1 * 4096 ∈ insert (1 * 4096) smallStart.live := Finset.mem_insert_self _ _
  have hva : (0x400000 : ℕ) ≤ userLimit := by decide
  have hvalid : (2 * 4096 : ℕ) ≠ invalidPhysicalAddress := by norm_num [invalidPhysicalAddress]
  have hun : walk emptyWorld.mem (1 * 4096) 0x400000 = none := by
    rw [hinv.walk_eq hmem (pml4Idx_user hva), hnone]
    rfl
  obtain ⟨F, hF, ha, -⟩ := filled halloc hvalid fun _ => 0
  obtain rfl : F = 2 := by omega
  have hpresent : userFlags.present = true := rfl
  obtain ⟨-, hpoint, -, hcount⟩ := hinv.mapFresh (isBase_of_start start_small) hmem hva (hnone _) ha hpresent hmap
  have hone : ∀ q, leaves parentWorld.mem (insert (1 * 4096) ∅) q ≤ 1 := fun q => by
    have hzero : leaves smallStart.world.mem smallStart.live q = 0 := rfl
    have hq := hcount q
    rw [hleaves q, hzero] at hq
    change leaves _ (insert (1 * 4096) smallStart.live) q ≤ 1
    rw [hq]
    split_ifs <;> omega
  exact ⟨_, hrun.step (a := .map _ _ _ _) trivial (.map hmem hva hun hpresent halloc hvalid hmap) fun q =>
    (hone q).trans (by decide), hpoint.lookup_self, hone⟩

theorem run_fork : ∃ child s, Run faultsInUserHalf smallStart s ∧ s.live = insert child (insert (1 * 4096) ∅) ∧
    CloneEffect parentWorld s.world (insert (1 * 4096) ∅) (1 * 4096) child ∧
    ∀ q, leaves s.world.mem s.live q ≤ uint16Max := by
  obtain ⟨ref, hrun, -, hone⟩ := run_parent
  have h := inv_of_run start_small (fun _ _ ha => ha) hrun
  dsimp only at h
  have hb := isBase_of_start start_small
  have hmem : 1 * 4096 ∈ insert (1 * 4096) (∅ : Finset ℕ) := Finset.mem_insert_self _ _
  have hleft : freePages parentWorld.pmm = 10 := by
    simp only [parentWorld]
    exact (freePages_stats (wf_pagesTaken 5)).trans (by decide +kernel)
  have hfirst : freePages smallStart.world.pmm = 15 := (freePages_stats (wf_pagesTaken 0)).trans (by decide +kernel)
  have hsize := h.size_le hb hmem
  rw [hfirst, hleft, tree_upTo] at hsize
  have hok := clone_enough (h.source hb hmem fun q => (hone q).trans (by decide)) (by decide) (by rw [hleft]; omega)
  cases hcall : cloneAddressSpace (1 * 4096) parentWorld with
  | mk child w' =>
    rw [hcall] at hok
    have he := (h.cloneEffect hb hmem hcall hok).2
    have hbound : ∀ q, leaves w'.mem (insert child (insert (1 * 4096) ∅)) q ≤ uint16Max := fun q => by
      have hle : cnt (refs q) (tree parentWorld.mem (1 * 4096)) ≤ leaves parentWorld.mem (insert (1 * 4096) ∅) q :=
        cnt_le_leaves hmem
      have hmax : 2 ≤ uint16Max := by decide
      have hq := hone q
      rw [(Inv.clone_counts he q).2]
      omega
    exact ⟨child, _, hrun.step (a := .clone _) trivial (.clone hmem hcall hok) hbound, rfl, he, hbound⟩

theorem fork_entries {child : ℕ} {w : World} (he : CloneEffect parentWorld w (insert (1 * 4096) ∅) (1 * 4096) child) :
    ∃ e, lookup w.mem (1 * 4096) 0x400000 = some e ∧ lookup w.mem child 0x400000 = some e ∧ has e pteWritable = false ∧
      has e pteCow = true ∧ addrOf e = 2 * 4096 ∧ w.mem (2 * 4096) = 0 := by
  obtain ⟨ref, hrun, hl, -⟩ := run_parent
  obtain ⟨-, hW, -, hA⟩ := leafEntry_bits userFlags (show 2 < 2 ^ 40 by decide)
  obtain ⟨-, -, hdenied, haddr, hcow⟩ := markCow_bits (leafEntry (2 * 4096) userFlags)
  have hmem : 1 * 4096 ∈ insert (1 * 4096) (∅ : Finset ℕ) := Finset.mem_insert_self _ _
  obtain ⟨-, -, htables, hused⟩ := (inv_of_run start_small (fun _ _ ha => ha) hrun).mapped hmem hl
  rw [hA] at htables hused
  refine ⟨markCow (leafEntry (2 * 4096) userFlags), ?_, ?_, hdenied, ?_, haddr.trans hA,
    (he.bytes hmem htables hused).trans parent_byte⟩
  · rw [he.lookup_source, hl]
    rfl
  · rw [he.lookup_copy, hl]
    rfl
  · rw [hcow, hW]
    exact Bool.or_true _

/-- After a fork, the kernel stores to the untouched page of the parent. -/
theorem copyOut_after_fork : ∃ s, Run faultsInUserHalf smallStart s ∧ 1 * 4096 ∈ s.live ∧
    (∃ e, smallEntry s.world.mem (1 * 4096) 0x400000 = some e ∧ has e pteCow = true) ∧
    copyOut true (1 * 4096) 0x400000 [1#8] s.world = none ∧
    ∃ w', copyOut false (1 * 4096) 0x400000 [1#8] s.world = some w' ∧
      ¬StoredPrivately s (1 * 4096) 0x400000 [1#8] w' := by
  obtain ⟨child, s, hrun, hlive, he, -⟩ := run_fork
  obtain ⟨e, hl, hl', hdenied, hcow, haddr, hbyte⟩ := fork_entries he
  have h := inv_of_run start_small (fun _ _ ha => ha) hrun
  have hva : (0x400000 : ℕ) ≤ userLimit := by decide
  have hmem : 1 * 4096 ∈ insert (1 * 4096) (∅ : Finset ℕ) := Finset.mem_insert_self _ _
  have hp : 1 * 4096 ∈ s.live := hlive ▸ Finset.mem_insert_of_mem hmem
  have hne : child ≠ 1 * 4096 := fun heq => he.new (heq ▸ hmem)
  refine ⟨s, hrun, hp, ⟨e, (h.smallEntry_eq hp hva).trans hl, hcow⟩, copyOut_panics h hp hva hl (by rw [hdenied]; rfl) _, ?_⟩
  refine store_shows h hp hva hl (by rw [hdenied]; rfl) ((sharedFrame_iff h).mpr
    ⟨child, hlive ▸ Finset.mem_insert_self _ _, hne, 0x400000, hva, e, hl', rfl⟩) ?_
  rw [haddr, show 2 * 4096 + 0x400000 % 4096 = 2 * 4096 from rfl, hbyte]
  decide

/-- Once the child is gone the parent has the page for itself, still marked. Without CR0.WP a store is then private. -/
theorem copyOut_after_exit : ∃ s, Run faultsInUserHalf smallStart s ∧
    (∃ e, smallEntry s.world.mem (1 * 4096) 0x400000 = some e ∧ has e pteCow = true) ∧
    ∀ bytes, 0x400000 % 4096 + bytes.length ≤ 4096 →
      ∃ w', copyOut false (1 * 4096) 0x400000 bytes s.world = some w' ∧ StoredPrivately s (1 * 4096) 0x400000 bytes w' := by
  obtain ⟨child, ⟨w, live, ref⟩, hrun, hlive, he, hbound⟩ := run_fork
  obtain ⟨e, hl, -, -, hcow, -⟩ := fork_entries he
  dsimp only at hlive he hbound hl
  have hchild : child ∈ live := hlive ▸ Finset.mem_insert_self _ _
  have hva : (0x400000 : ℕ) ≤ userLimit := by decide
  obtain ⟨hmem, -⟩ := (inv_of_run start_small (fun _ _ ha => ha) hrun).free (isBase_of_start start_small) hchild
  have hfreed := hrun.step (a := .free child) trivial (.free hchild) fun q => by
    rw [hmem]
    exact (Finset.sum_le_sum_of_subset (Finset.erase_subset child live)).trans (hbound q)
  have herase : live.erase child = insert (1 * 4096) ∅ := by
    rw [hlive]
    exact Finset.erase_insert he.new
  rw [herase] at hfreed
  have hp : 1 * 4096 ∈ insert (1 * 4096) (∅ : Finset ℕ) := Finset.mem_insert_self _ _
  have hentry := (inv_of_run start_small (fun _ _ ha => ha) hfreed).smallEntry_eq hp hva
  rw [hmem, hl] at hentry
  rw [← hmem] at hentry
  refine ⟨_, hfreed, ⟨e, hentry, hcow⟩, (copyOut_private_iff start_small hfreed hp hva hentry false).mpr ⟨.inl rfl, ?_⟩⟩
  rintro ⟨p', hp', hne, -⟩
  exact hne (Finset.mem_singleton.mp hp')

end Tori.Vmm
