import Tori.Spec.Machine
import Tori.Sanity.Pmm
import Tori.Sanity.Process

/-! Words pushed on a kernel stack, and what making a thread changes. -/

namespace Tori.Kernel

open Loop Vmm Proc

variable {vs : List ℕ} {sp : ℕ} {m : Mem}

variable {x a : ℕ}

theorem pushAll_cons (v : ℕ) (vs : List ℕ) (st : ℕ × Mem) : pushAll (v :: vs) st = pushAll vs (push v st) := rfl

theorem pushAll_sp (vs : List ℕ) (sp : ℕ) (m : Mem) : (pushAll vs (sp, m)).1 = sp - 8 * vs.length := by
  induction vs generalizing sp m with
  | nil => simp [pushAll]
  | cons v vs ih =>
    rw [pushAll_cons, push, ih, List.length_cons]
    omega

theorem pushAll_outside (h : 8 * vs.length ≤ sp) (hx : x < sp - 8 * vs.length ∨ sp ≤ x) :
    (pushAll vs (sp, m)).2 x = m x := by
  induction vs generalizing sp m with
  | nil => rfl
  | cons v vs ih =>
    rw [List.length_cons] at h hx
    rw [pushAll_cons, push, ih (by omega) (by omega)]
    exact Mem.store64_outside m (by omega)

/-- The `i`-th pushed word is where the stack pointer was after its push. -/
theorem pushAll_load (hv : ∀ v ∈ vs, v < 2 ^ 64) (h : 8 * vs.length ≤ sp) {i : ℕ} (hi : i < vs.length) :
    (pushAll vs (sp, m)).2.load64 (sp - 8 * (i + 1)) = vs[i] := by
  induction vs generalizing sp m i with
  | nil => cases hi
  | cons v vs ih =>
    rw [List.length_cons] at h hi
    rw [pushAll_cons, push]
    cases i with
    | zero =>
      rw [Mem.load64_congr fun x h1 h2 => pushAll_outside (by omega) (by omega), List.getElem_cons_zero]
      exact Mem.load64_store64 m _ (hv v List.mem_cons_self)
    | succ i =>
      have hsp : sp - 8 * (i + 1 + 1) = sp - 8 - 8 * (i + 1) := by omega
      rw [List.getElem_cons_succ, hsp]
      exact ih (fun u hu => hv u (List.mem_cons_of_mem _ hu)) (by omega) (by omega)

theorem loadFrame_words (m : Mem) (a : ℕ) : (loadFrame m a).words = (List.range 16).map fun i => m.load64 (a + 8 * i) := rfl

theorem words_length (f : SyscallFrame) : f.words.length = 16 := rfl

theorem SyscallFrame.ext_words {f g : SyscallFrame} (h : f.words = g.words) : f = g := by
  obtain ⟨⟩ := f
  simp only [SyscallFrame.words, List.cons.injEq, and_true] at h
  simp [h]

theorem loadFrame_lt (m : Mem) (a : ℕ) : ∀ v ∈ (loadFrame m a).words, v < 2 ^ 64 := by
  intro v hv
  rw [loadFrame_words, List.mem_map] at hv
  obtain ⟨i, -, rfl⟩ := hv
  exact Mem.load64_lt m _

theorem loadFrame_congr {m' : Mem} (h : ∀ x, a ≤ x → x < a + frameSize → m' x = m x) :
    loadFrame m' a = loadFrame m a := by
  refine SyscallFrame.ext_words ?_
  rw [loadFrame_words, loadFrame_words]
  refine List.map_congr_left fun i hi => Mem.load64_congr fun x h1 h2 => h x (by omega) ?_
  have := List.mem_range.mp hi
  unfold frameSize
  omega

theorem storeFrame_outside (m : Mem) (f : SyscallFrame) (hx : x < a ∨ a + frameSize ≤ x) :
    storeFrame m a f x = m x := by
  have hlen : f.words.reverse.length = 16 := by rw [List.length_reverse, words_length]
  unfold frameSize at hx
  refine pushAll_outside ?_ ?_
  · rw [hlen, frameSize]
    omega
  · rw [hlen, frameSize]
    omega

theorem loadFrame_storeFrame (m : Mem) (a : ℕ) {f : SyscallFrame} (hf : ∀ v ∈ f.words, v < 2 ^ 64) :
    loadFrame (storeFrame m a f) a = f := by
  refine SyscallFrame.ext_words (List.ext_getElem ((words_length _).trans (words_length f).symm) fun i hi hi' => ?_)
  have hlen : f.words.reverse.length = 16 := by rw [List.length_reverse, words_length]
  rw [words_length] at hi
  have hload : (storeFrame m a f).load64 (a + frameSize - 8 * (15 - i + 1)) = f.words.reverse[15 - i] :=
    pushAll_load (fun v hv => hf v (List.mem_reverse.mp hv)) (by rw [hlen, frameSize]; omega) (by rw [hlen]; omega)
  have haddr : a + frameSize - 8 * (15 - i + 1) = a + 8 * i := by
    unfold frameSize
    omega
  have hidx : f.words.length - 1 - (15 - i) = i := by
    rw [words_length]
    omega
  rw [haddr, List.getElem_reverse] at hload
  simp only [loadFrame_words, List.getElem_map, List.getElem_range, hload, hidx]

/-! ### Threads -/

/-- What `thread_create` does when it succeeds, with the kernel stack in the pages from `page` on. -/
structure ThreadMade (t proc : Addr) (entry stackTop page : ℕ) (s s' : Machine) : Prop where
  bound : page + stackPages ≤ Pmm.maxManagedPages
  fresh : ∀ q, page ≤ q → q < page + stackPages → Pmm.isPageUsed s.world.pmm q = false
  pages : ∀ q, Pmm.pageState s'.world.pmm q =
    if page ≤ q ∧ q < page + stackPages then (true, 1) else Pmm.pageState s.world.pmm q
  mem : ∀ x, x < page * 4096 ∨ page * 4096 + stackSize ≤ x → s'.world.mem x = s.world.mem x
  kernel : s'.world.kernelPml4Phys = s.world.kernelPml4Phys
  procs : s'.procs = s.procs
  other : ∀ u, u ≠ t → s'.thread u = s.thread u
  top : (s'.thread t).stackTop = page * 4096 + stackSize
  process : (s'.thread t).process = proc
  userRip : (s'.thread t).userRip = entry
  userRsp : (s'.thread t).userRsp = stackTop
  cr3 : (s'.thread t).cr3 = (s.procs.proc proc).pml4Phys
  code : s'.forkReturn = s.forkReturn

theorem forUp_store64_outside (f : ℕ → ℕ) {n i : ℕ} (h : ∀ j, i ≤ j → j < i + n → x < f j ∨ f j + 8 ≤ x) :
    forUp (fun i m => Mem.store64 m (f i) 0) n i m x = m x := by
  induction n generalizing i m with
  | zero => rfl
  | succ n ih =>
    rw [forUp_succ, ih fun j h1 h2 => h j (by omega) (by omega)]
    exact Mem.store64_outside m (h i le_rfl (by omega))

theorem newStack_outside (v : ℕ) (m : Mem) (hx : x < a ∨ a + stackSize ≤ x) :
    (pushAll [v, 0, 0, 0, 0, 0, 0]
      (a + stackSize, forUp (fun i m => m.store64 (a + 8 * i) 0) (stackSize / 8) 0 m)).2 x = m x := by
  have hsize : stackSize = 16384 := rfl
  have hlen : [v, 0, 0, 0, 0, 0, 0].length = 7 := rfl
  rw [hsize] at hx ⊢
  rw [pushAll_outside (by rw [hlen]; omega) (by rw [hlen]; omega)]
  exact forUp_store64_outside (fun i => a + 8 * i) fun j _ hj => by omega

theorem threadCreate_some {mem : Option Addr} {process t : Addr} {entry stackTop : ℕ} {s s' : Machine}
    (h : threadCreate mem process entry stackTop s = (some t, s')) :
    mem = some t ∧ ∃ page, ThreadMade t process entry stackTop page s s' := by
  unfold threadCreate at h
  cases mem with
  | none => cases h
  | some u =>
    rcases ha : Pmm.allocPages stackPages s.world.pmm with ⟨a, pmm⟩
    dsimp only at h
    rw [ha] at h
    dsimp only at h
    split_ifs at h with hinv
    · cases h
    · obtain ⟨page, rfl, -, hbound, hfresh, hpages, -⟩ := Pmm.allocPages_spec ha hinv
      injection h with h1 h2
      cases h1
      subst h2
      refine ⟨rfl, page, hbound, hfresh, hpages, fun x hx => ?_, rfl, rfl, fun v hv => Function.update_of_ne hv _ _,
        ?_, ?_, ?_, ?_, ?_, rfl⟩
      · exact newStack_outside _ _ hx
      all_goals
        dsimp only
        rw [Function.update_self]
      rfl

end Tori.Kernel
