import Tori.Proofs.FsPaths

/-! Creating a node by path. `open` with `O_CREAT` and `mkdir` cut the path at its last slash and
resolve the part before it; this agrees with resolving the whole path except for the paths and
directories named in the conditions below. -/

namespace Tori.Fs

open Vfs State

variable {s s' s₁ s₂ : State} {A : Allocator} {g : Layers} {t : Table Addr}

variable {p name : Str} {k : ℕ} {base : Option Addr} {start v d vn dir : Addr}

/-! ### Cutting a path at its last slash -/

theorem walkFrom_start (hi : t.initialized = true)
    (hs : startOf t base p = some start) (cs : List Str) (s : State) :
    walkFrom (fsOps A g) t base (p.head? = some slash) cs s = walk (fsOps A g) t cs (some start) s := by
  rcases walkFrom_cases t base p cs s with ⟨e, hnone, -⟩ | ⟨-, h⟩
  · rw [hnone hi] at hs
    cases hs
  · rw [h, hs]

theorem resolve_start (hi : t.initialized = true)
    (hs : startOf t base p = some start) (s : State) :
    resolve (fsOps A g) t base p s = walk (fsOps A g) t (components p) (some start) s := by
  rw [resolve_eq_walkFrom, walkFrom_start hi hs]

/-! ### The two sides of the agreement -/

variable {cs init : List Str} {w a x : Addr} {parent : Option Addr} {c : Str} {e : Err} {f f' : FdTable Addr} {fd : Fin maxFds} {flags : BitVec 32}

theorem Leads.live (h : Leads t s v cs w) (hc : Closed s) (ht : TableOk t s)
    (hv : s.live v = true) : s.live w = true := by
  induction h with
  | nil v => exact hv
  | cons hl hty hes hf hlen _ ih => exact ih (ht.resolveMount (hc.entry _ _ _ hl hes (List.mem_of_find?_eq_some hf)))

end Tori.Fs
