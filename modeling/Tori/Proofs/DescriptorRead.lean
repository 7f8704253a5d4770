import Tori.Proofs.UserPointers
import Tori.Proofs.VfsResolve

/-! A descriptor from `sys_open` and the `sys_read` calls on it. `sys_read` takes descriptor 0 for the keyboard, but
`vfs::open` hands out 0 like any other free number. -/

namespace Tori.Syscall

open Vfs Proc Kernel Fs Function

variable {A : Allocator} {g : Layers} {sv : Services Fs.State Fs.Addr} {s s' s₂ : Sys Fs.State Fs.Addr} {i : Fin maxFds}
  {f : SyscallFrame}

/-! ### The descriptor stays -/

/-- The entry of an open descriptor keeps its vnode. -/
def SameEntry {V : Type} (i : Fin maxFds) (fds fds' : FdTable V) : Prop :=
  (fds i).used = true → (fds' i).used = true ∧ (fds' i).vnode = (fds i).vnode

variable {V σ : Type} {fds : FdTable V} {j : Fin maxFds} {fd : ℤ} {file : RamfsFile} {v : Fs.Addr} {buf : ℕ → UInt8} {n : ℕ} {q : Proc.Addr}

theorem SameEntry.update {d : FileDescriptor V}
    (h : (fds j).used = true → j = i → d.used = true ∧ d.vnode = (fds j).vnode) : SameEntry i fds (update fds j d) := by
  intro hused
  by_cases hj : j = i
  · subst hj
    rw [update_self]
    exact h hused rfl
  · rw [update_of_ne (Ne.symm hj)]
    exact ⟨hused, rfl⟩

theorem SameEntry.refl (fds : FdTable V) : SameEntry i fds fds := fun h => ⟨h, rfl⟩

theorem OnFd.sameEntry {op : V → Fin maxFds → σ} {s : σ} {x : FdTable V × σ} (h : OnFd op fd fds s x) :
    SameEntry i fds x.1 := by
  rcases h.fds with hx | ⟨j, k, -, hx⟩
  · rw [hx]
    exact .refl fds
  · rw [hx]
    exact .update fun hu _ => ⟨hu, rfl⟩

theorem descriptor_val (h : descriptor fds fd = some j) :
    fd = j.val := by
  unfold descriptor at h
  split_ifs at h with hfd
  dsimp only at h
  split_ifs at h
  rw [← Option.some.inj h]
  exact (Int.toNat_of_nonneg hfd.1).symm

theorem close_sameEntry (ops : VnodeOps σ V) (h : fd ≠ i.val) (fds : FdTable V) (fs : σ) :
    SameEntry i fds (close ops fd fds fs).2.1 := by
  unfold close
  split
  · exact .refl fds
  · next j hj =>
    exact .update fun _ hji => absurd ((descriptor_val hj).trans (congrArg (fun j : Fin maxFds => (j.val : ℤ)) hji)) h

theorem installFd_sameEntry (ops : VnodeOps σ V) (v : Option V) (flags : BitVec 32) (fds : FdTable V) (fs : σ) :
    SameEntry i fds (installFd ops v flags fds fs).2.1 := by
  unfold installFd
  split
  · exact .refl fds
  · next j hj =>
    refine .update fun hu _ => ?_
    have hfree := List.find?_some hj
    rw [hu] at hfree
    cases hfree

theorem openPath_sameEntry [DecidableEq V] (ops : VnodeOps σ V) (t : Table V) (base : Option V) (path : Str)
    (flags : BitVec 32) (fds : FdTable V) (fs : σ) : SameEntry i fds (openPath ops t base path flags fds fs).2.1 := by
  unfold openPath
  split_ifs
  · exact .refl fds
  · split
    · exact installFd_sameEntry ops _ flags fds _
    · split_ifs
      · split
        · exact .refl fds
        · exact installFd_sameEntry ops _ flags fds _
      · exact .refl fds

/-- The services leave the descriptors of the caller alone. -/
structure KeepsFds {σ V : Type} (sv : Services σ V) : Prop where
  fork : ∀ s, (sv.fork s).2.fds = s.fds
  exec : ∀ path s, (sv.exec path s).2.fds = s.fds
  spawn : ∀ path s, (sv.spawn path s).2.fds = s.fds
  brk : ∀ addr s, (sv.brk addr s).2.fds = s.fds

section Steps

variable {σ V : Type} {ops : FileOps σ V} {sw : Services σ V} {t : Sys σ V}

theorem withPath_sameEntry (src : ℕ) (k : Str → Option ℤ × Sys σ V) (h : ∀ path, SameEntry i t.fds (k path).2.fds) :
    SameEntry i t.fds (withPath src t k).sys.fds := by
  unfold withPath
  split
  · exact .refl _
  · exact h _

theorem sysWrite_sameEntry : SameEntry i t.fds (sysWrite ops f t).sys.fds := by
  unfold sysWrite
  dsimp only
  split_ifs
  · exact .refl _
  · have h := OnFd.sameEntry (i := i) (@write_onFd _ _ ops.toVnodeOps (toInt f.rdi) t.fds t.fs (buffer t.user f.rsi) f.rdx)
    split
    all_goals
      next hw =>
        rw [hw] at h
        exact h

theorem sysRead_sameEntry : SameEntry i t.fds (sysRead ops f t).sys.fds := by
  unfold sysRead
  dsimp only
  split
  · exact .refl _
  · split_ifs
    · exact .refl _
    · split <;> exact .refl _
    · have h := OnFd.sameEntry (i := i) (@read_onFd _ _ ops.toVnodeOps (toInt f.rdi) t.fds t.fs (buffer t.user f.rsi) f.rdx)
      split
      all_goals
        next hw =>
          rw [hw] at h
          exact h

theorem sysClose_sameEntry (hclose : toInt f.rdi ≠ i.val) : SameEntry i t.fds (sysClose ops f t).sys.fds := by
  have h := close_sameEntry ops.toVnodeOps hclose t.fds t.fs
  unfold sysClose
  split
  all_goals
    next hw =>
      rw [hw] at h
      exact h

theorem sysLseek_sameEntry : SameEntry i t.fds (sysLseek ops f t).sys.fds := by
  have h := OnFd.sameEntry (i := i)
    (@seek_onFd _ _ ops.toVnodeOps (toInt f.rdi) t.fds t.fs (BitVec.ofNat 64 f.rsi).toInt (toInt f.rdx))
  unfold sysLseek
  split
  all_goals
    next hw =>
      rw [hw] at h
      exact h

theorem sysWaitpid_fds : (sysWaitpid f t).sys.fds = t.fds := by
  unfold sysWaitpid
  dsimp only
  split
  · rfl
  · split
    · rfl
    · split_ifs <;> rfl
    all_goals rfl

theorem sysExit_fds : (sysExit f t).sys.fds = t.fds := by
  unfold sysExit
  split
  · rfl
  · split <;> rfl

variable [DecidableEq V]

theorem sysOpen_sameEntry : SameEntry i t.fds (sysOpen ops f t).sys.fds := by
  refine withPath_sameEntry _ _ fun path => ?_
  have h := openPath_sameEntry (i := i) ops.toVnodeOps t.table none path (BitVec.ofNat 32 f.rsi) t.fds t.fs
  split
  all_goals
    next hw =>
      rw [hw] at h
      exact h

/-- No system call but `close` of the descriptor itself takes its vnode away. -/
theorem handleSyscall_sameEntry (hsw : KeepsFds sw) {number : ℕ} (hclose : number = 10 → toInt f.rdi ≠ i.val) :
    SameEntry i t.fds (handleSyscall ops sw number f t).sys.fds := by
  have hsame : ∀ {fds : FdTable V}, fds = t.fds → SameEntry i t.fds fds := fun h => h ▸ .refl _
  unfold handleSyscall
  split_ifs
  · exact .refl _
  · split
    · exact sysWrite_sameEntry
    · exact hsame sysExit_fds
    · exact hsame (hsw.fork t)
    · unfold sysExec
      split
      · exact .refl _
      · exact withPath_sameEntry _ _ fun path => hsame (hsw.exec path t)
    · exact withPath_sameEntry _ _ fun path => hsame (hsw.spawn path t)
    · exact .refl _
    · exact hsame sysWaitpid_fds
    · exact .refl _
    · exact sysRead_sameEntry
    · exact sysOpen_sameEntry
    · exact sysClose_sameEntry (hclose rfl)
    · exact sysLseek_sameEntry
    · unfold sysBrk
      split
      · exact .refl _
      · exact hsame (hsw.brk f.rdi t)
    · exact .refl _

/-- The states after `t₀` while the process keeps descriptor `i` open: its own system calls, and whatever else happens to
the state around its descriptor table. -/
inductive Steps (ops : FileOps σ V) (sw : Services σ V) (i : Fin maxFds) (t₀ : Sys σ V) : Sys σ V → Prop
  | start : Steps ops sw i t₀ t₀
  | call {t : Sys σ V} (number : ℕ) (f : SyscallFrame) (hrun : Steps ops sw i t₀ t)
      (hclose : number = 10 → toInt f.rdi ≠ i.val) : Steps ops sw i t₀ (handleSyscall ops sw number f t).sys
  | other {t t' : Sys σ V} (hrun : Steps ops sw i t₀ t) (hfds : t'.fds = t.fds) : Steps ops sw i t₀ t'

theorem Steps.sameEntry {t₀ : Sys σ V} (hsw : KeepsFds sw) (h : Steps ops sw i t₀ t) : SameEntry i t₀.fds t.fds := by
  induction h with
  | start => exact .refl _
  | call number f _ hclose ih =>
    intro hu
    obtain ⟨hu₁, hv₁⟩ := ih hu
    obtain ⟨hu₂, hv₂⟩ := handleSyscall_sameEntry hsw hclose hu₁
    exact ⟨hu₂, hv₂.trans hv₁⟩
  | other _ hfds ih => rwa [hfds]

/-! ### Open -/

variable {r : ℤ}

theorem errCode_neg {e : Err} (h : errCode e = some r) : r < 0 := by
  cases e <;> cases h <;> decide

theorem openPath_ok {t : Table V} {base : Option V} {path : Str} {flags : BitVec 32} {fds fds' : FdTable V} {fs fs' : σ}
    {j : Fin maxFds} (h : openPath ops.toVnodeOps t base path flags fds fs = (.ok j, fds', fs')) :
    (fds' j).used = true ∧ (fds' j).offset = 0 := by
  have hinstall : ∀ {v : Option V} {fs : σ}, installFd ops.toVnodeOps v flags fds fs = (.ok j, fds', fs') →
      (fds' j).used = true ∧ (fds' j).offset = 0 := by
    intro v fs h
    unfold installFd at h
    split at h
    · cases h
    · obtain ⟨h1, h2⟩ := Prod.mk.inj h
      obtain ⟨h2, -⟩ := Prod.mk.inj h2
      cases h1
      rw [← h2, update_self]
      exact ⟨rfl, rfl⟩
  unfold openPath at h
  split_ifs at h
  · cases h
  · split at h
    · exact hinstall h
    · split_ifs at h
      · split at h
        · cases h
        · exact hinstall h
      · cases h

/-- The descriptor that `sys_open` returns. -/
theorem sysOpen_ok (h : (sysOpen ops f t).ret = some r) (hr : 0 ≤ r) :
    ∃ j : Fin maxFds, r = j.val ∧ ((sysOpen ops f t).sys.fds j).used = true ∧ ((sysOpen ops f t).sys.fds j).offset = 0 := by
  unfold sysOpen withPath at h ⊢
  rcases hs : copyStringFromUser t.user f.rdi 256 with ⟨e | path, touched⟩
  · rw [hs] at h
    have he : e < 0 := by
      unfold copyStringFromUser at hs
      split_ifs at hs
      · cases hs
        decide
      · cases hs
    exact absurd (Option.some.inj h ▸ hr) (not_le.mpr he)
  · rw [hs] at h
    dsimp only at h ⊢
    rcases ho : openPath ops.toVnodeOps t.table none path (BitVec.ofNat 32 f.rsi) t.fds t.fs with ⟨e | j, fds, fs⟩
    · rw [ho] at h
      exact absurd hr (not_le.mpr (errCode_neg h))
    · rw [ho] at h
      exact ⟨j, (Option.some.inj h).symm, openPath_ok ho⟩

end Steps

/-! ### Read -/

/-- The contents behind a vnode: its own, or those of the first layer. -/
def fileAt (g : Layers) (v : Fs.Addr) (s : Fs.State) : Option RamfsFile :=
  (realNode g v s).bind fun real => ((realState v s).touch real).file? real

theorem fsRead_file {fs : Fs.State} (h : fileAt g v fs = some file) (off n : ℕ)
    (buf : ℕ → UInt8) : ∃ fs', (fsOps A g).read v off buf n fs = (.ok (min n (file.size - off), fun j =>
      if j < min n (file.size - off) then (fileByte file (off + j)).getD (buf j) else buf j), fs') := by
  obtain ⟨real, hreal, hfile⟩ := Option.bind_eq_some_iff.mp h
  rw [fsOps_read, hreal]
  unfold ramfsRead
  dsimp only
  rw [hfile]
  dsimp only
  by_cases hoff : off ≥ file.size
  · rw [if_pos hoff, Nat.sub_eq_zero_of_le hoff, Nat.min_zero]
    exact ⟨_, rfl⟩
  · rw [if_neg hoff]
    refine ⟨_, Prod.ext (congrArg (fun d => Except.ok (min n (file.size - off), d)) ?_) rfl⟩
    funext j
    rw [readLoop_eq (by omega)]
    simp only [Nat.zero_le, true_and]

theorem storeBuffer_at {user : ℕ → UInt8} {p j : ℕ} (hp : p < 2 ^ 64) (hn : n < 2 ^ 64) (hj : j < n) :
    storeBuffer user p n buf (addrAt p j) = buf j := by
  have hlt : addrAt p j < 2 ^ 64 := Nat.mod_lt _ (by decide)
  have hidx : (addrAt p j + 2 ^ 64 - p) % 2 ^ 64 = j := by
    unfold addrAt
    omega
  unfold storeBuffer
  rw [hidx, if_pos ⟨hlt, hj⟩]

/-- The read returned the bytes of the file at the descriptor's offset and advanced it, and took nothing from the
keyboard. -/
structure ReadsFile (file : RamfsFile) (i : Fin maxFds) (buf n : ℕ) (s : Sys Fs.State Fs.Addr)
    (a : Answer Fs.State Fs.Addr) : Prop where
  count : a.ret = some ((min n (file.size - (s.fds i).offset) : ℕ) : ℤ)
  bytes : ∀ j < min n (file.size - (s.fds i).offset),
    fileByte file ((s.fds i).offset + j) = some (a.sys.user (addrAt buf j))
  offset : (a.sys.fds i).offset = ((s.fds i).offset + min n (file.size - (s.fds i).offset)) % 2 ^ 64
  keyboard : a.sys.keys = s.keys ∧ a.sys.line = s.line

theorem readLine_shorter {keys keys' line line' : Str} (h : readLine keys line = some (line', keys')) :
    keys'.length < keys.length := by
  induction keys generalizing line with
  | nil => cases h
  | cons c keys ih =>
    rw [readLine] at h
    split at h
    · cases h
      exact Nat.lt_succ_self _
    · exact Nat.lt_succ_of_lt (ih h)

theorem sysRead_keyboard {ops : FileOps Fs.State Fs.Addr} (hproc : s.proc = some q)
    (hn : f.rdx ≠ 0) (hfd : toInt f.rdi = 0) : ¬ReadsFile file i f.rsi f.rdx s (sysRead ops f s) := by
  intro h
  have hcount := h.count
  have hkeys := h.keyboard.1
  unfold sysRead at hcount hkeys
  simp only [hproc, if_neg hn, if_pos hfd] at hcount hkeys
  cases hline : readLine s.keys s.line with
  | none =>
    rw [hline] at hcount
    cases hcount
  | some r =>
    rw [hline] at hkeys
    have hshort := readLine_shorter hline
    rw [show r.2 = s.keys from hkeys] at hshort
    exact absurd hshort (lt_irrefl _)

theorem descriptor_of_used (h : (fds i).used = true) : descriptor fds (i.val : ℤ) = some i := by
  unfold descriptor
  rw [dif_pos ⟨Int.natCast_nonneg _, by exact_mod_cast i.isLt⟩]
  exact if_pos h

theorem vfsRead_ok (ops : VnodeOps σ V) {fs fs' : σ} {v : V} {data : ℕ → UInt8} {k : ℕ}
    (hused : (fds i).used = true) (hv : (fds i).vnode = some v) (htype : ops.type v fs = .file)
    (hread : ops.read v (fds i).offset buf n fs = (.ok (k, data), fs')) :
    Vfs.read ops (i.val : ℤ) buf n fds fs = (.ok (k, data),
      update fds i { fds i with offset := ((fds i).offset + k) % 2 ^ 64 }, fs') := by
  unfold Vfs.read
  rw [descriptor_of_used hused]
  dsimp only
  rw [hv]
  dsimp only
  rw [if_neg (not_not.mpr htype), hread]

/-- A read through `vfs::read` delivers the file where it has bytes. -/
theorem sysRead_file (hproc : s.proc = some q) (hn : f.rdx ≠ 0)
    (hrsi : f.rsi < 2 ^ 64) (hrdx : f.rdx < 2 ^ 64) (hfd : toInt f.rdi = i.val) (hi : i.val ≠ 0)
    (hused : (s.fds i).used = true) (hv : (s.fds i).vnode = some v) (htype : (s.fs.vnodes v).type = .file)
    (hfile : fileAt g v s.fs = some file) :
    ReadsFile file i f.rsi f.rdx s (sysRead (fileOps A g) f s) ↔
      ∀ j < min f.rdx (file.size - (s.fds i).offset), fileByte file ((s.fds i).offset + j) ≠ none := by
  obtain ⟨fs', hread⟩ := fsRead_file hfile (s.fds i).offset f.rdx (buffer s.user f.rsi)
  have hvfs := vfsRead_ok (fileOps A g).toVnodeOps hused hv htype hread
  have hzero : toInt f.rdi ≠ 0 := by
    rw [hfd]
    exact_mod_cast hi
  have hlt : ∀ {j}, j < min f.rdx (file.size - (s.fds i).offset) → j < f.rdx := fun hj =>
    lt_of_lt_of_le hj (Nat.min_le_left _ _)
  have hanswer : sysRead (fileOps A g) f s = ⟨some ((min f.rdx (file.size - (s.fds i).offset) : ℕ) : ℤ),
      (vfsReadTouched (fileOps A g) (toInt f.rdi) f.rdx s.fds s.fs).map (addrAt f.rsi), { s with
        user := storeBuffer s.user f.rsi f.rdx fun j => if j < min f.rdx (file.size - (s.fds i).offset) then
          (fileByte file ((s.fds i).offset + j)).getD (buffer s.user f.rsi j) else buffer s.user f.rsi j
        fds := update s.fds i { s.fds i with
          offset := ((s.fds i).offset + min f.rdx (file.size - (s.fds i).offset)) % 2 ^ 64 }
        fs := fs' }⟩ := by
    unfold sysRead
    simp only [hproc, if_neg hn, if_neg hzero]
    rw [← hfd] at hvfs
    rw [hvfs]
  rw [hanswer]
  constructor
  · intro h j hj hnone
    have hbyte := h.bytes j hj
    rw [hnone] at hbyte
    cases hbyte
  · intro h
    refine ⟨rfl, fun j hj => ?_, ?_, rfl, rfl⟩
    · dsimp only
      rw [storeBuffer_at hrsi hrdx (hlt hj), if_pos hj]
      obtain ⟨b, hb⟩ := Option.ne_none_iff_exists'.mp (h j hj)
      rw [hb, Option.getD_some]
    · dsimp only
      rw [update_self]

/-- A descriptor from `sys_open` reads its file exactly when it is not 0 and the bytes to read were written: after any
system calls that leave it open, whatever happens to the rest of the state meanwhile. -/
theorem open_reads_file (hsv : KeepsFds sv) (fo fr : SyscallFrame) {r : ℤ}
    (hopen : (handleSyscall (fileOps A g) sv 9 fo s).ret = some r) (hr : 0 ≤ r) :
    ∃ i : Fin maxFds, r = i.val ∧ ((handleSyscall (fileOps A g) sv 9 fo s).sys.fds i).offset = 0 ∧
      ∀ v, ((handleSyscall (fileOps A g) sv 9 fo s).sys.fds i).vnode = some v →
        ∀ s₂ q, Steps (fileOps A g) sv i (handleSyscall (fileOps A g) sv 9 fo s).sys s₂ →
          s₂.hasThread = true → s₂.proc = some q → (s₂.fs.vnodes v).type = .file →
          (∀ x ∈ fr.words, x < 2 ^ 64) → toInt fr.rdi = r → fr.rdx ≠ 0 →
          ((∃ file, fileAt g v s₂.fs = some file ∧
              ReadsFile file i fr.rsi fr.rdx s₂ (handleSyscall (fileOps A g) sv 8 fr s₂)) ↔
            i.val ≠ 0 ∧ ∃ file, fileAt g v s₂.fs = some file ∧
              ∀ j < min fr.rdx (file.size - (s₂.fds i).offset), fileByte file ((s₂.fds i).offset + j) ≠ none) := by
  have hthread : s.hasThread = true := by
    by_contra hno
    rw [handleSyscall, if_pos (by simp [hno])] at hopen
    exact absurd (Option.some.inj hopen ▸ hr) (by decide)
  have heq : handleSyscall (fileOps A g) sv 9 fo s = sysOpen (fileOps A g) fo s := by
    rw [handleSyscall, if_neg (by simp [hthread])]
  rw [heq] at hopen ⊢
  obtain ⟨i, hri, hused, hoff⟩ := sysOpen_ok hopen hr
  refine ⟨i, hri, hoff, fun v hv s₂ q hrun hthread₂ hproc htype hwords hfd hn => ?_⟩
  have hrsi : fr.rsi < 2 ^ 64 := hwords _ (by simp [SyscallFrame.words])
  have hrdx : fr.rdx < 2 ^ 64 := hwords _ (by simp [SyscallFrame.words])
  have heq₂ : handleSyscall (fileOps A g) sv 8 fr s₂ = sysRead (fileOps A g) fr s₂ := by
    rw [handleSyscall, if_neg (by simp [hthread₂])]
  obtain ⟨hused₂, hv₂⟩ := hrun.sameEntry hsv hused
  rw [heq₂]
  by_cases hi : i.val = 0
  · have hzero : toInt fr.rdi = 0 := by
      rw [hfd, hri, hi]
      rfl
    constructor
    · rintro ⟨file, -, h⟩
      exact absurd h (sysRead_keyboard hproc hn hzero)
    · exact fun h => absurd hi h.1
  · rw [and_iff_right hi]
    refine exists_congr fun file => and_congr_right fun hfile => ?_
    exact sysRead_file hproc hn hrsi hrdx (hfd.trans hri) hi hused₂ (hv₂.trans hv) htype hfile

/-! ### A process with a file -/

/-- A process with nothing open, the path `/f` at 0x400000 and a line typed; `/f` is an empty file. -/
def withF : Sys Fs.State Fs.Addr := { freshProcess with
  user := fun x => if x = 0x400000 then 47 else if x = 0x400001 then 102 else if x = 0x400010 then 104 else 0
  fs := (ramfsCreate bump 1 [102] rootOnly.state).2
  keys := [120, 10] }

/-- `open("/f")`, then `write` of two bytes to the descriptor, which is 0. -/
def writtenF : Sys Fs.State Fs.Addr :=
  (handleSyscall (fileOps bump noLayers) noServices 0 (registers 0 0x400010 2)
    (handleSyscall (fileOps bump noLayers) noServices 9 (registers 0x400000 0 0) withF).sys).sys

/-- A second `open("/f")`. -/
def reopenedF : Answer Fs.State Fs.Addr :=
  handleSyscall (fileOps bump noLayers) noServices 9 (registers 0x400000 0 0) writtenF

theorem noServices_keepsFds : KeepsFds noServices := ⟨fun _ => rfl, fun _ _ => rfl, fun _ _ => rfl, fun _ _ => rfl⟩

/-- Page contents are functions, so the file is compared by its size and by which bytes it has. -/
theorem reopenedF_file : ∃ file, fileAt noLayers 2 reopenedF.sys.fs = some file ∧ file.size = 2 ∧
    ∀ j < 2, fileByte file j ≠ none := by
  have h : (fileAt noLayers 2 reopenedF.sys.fs).map (fun file => (file.size, (List.range 2).all fun j => (fileByte file j).isSome)) =
      some (2, true) := by decide +kernel
  obtain ⟨file, hfile, h⟩ := Option.map_eq_some_iff.mp h
  obtain ⟨hsize, hall⟩ := Prod.mk.inj h
  refine ⟨file, hfile, hsize, fun j hj => ?_⟩
  exact Option.isSome_iff_ne_none.mp (List.all_eq_true.mp hall j (List.mem_range.mpr hj))

/-- The second descriptor, 1, reads the two bytes. -/
theorem second_open_reads_file :
    ∃ file, fileAt noLayers 2 reopenedF.sys.fs = some file ∧
      ReadsFile file 1 0x400020 4 reopenedF.sys
        (handleSyscall (fileOps bump noLayers) noServices 8 (registers 1 0x400020 4) reopenedF.sys) := by
  obtain ⟨i, hi, hoff, h⟩ := open_reads_file (A := bump) (g := noLayers) (s := writtenF) noServices_keepsFds
    (registers 0x400000 0 0) (registers 1 0x400020 4) (r := 1) (by decide +kernel) (by decide)
  obtain rfl : i = 1 := Fin.ext (by exact_mod_cast hi.symm)
  have hiff := h 2 (by decide +kernel) _ 1 .start (by decide +kernel) (by decide +kernel) (by decide +kernel)
    (by decide) (by decide) (by decide)
  refine hiff.mpr ⟨by decide, ?_⟩
  obtain ⟨file, hfile, hsize, hbytes⟩ := reopenedF_file
  refine ⟨file, hfile, fun j hj => ?_⟩
  rw [hoff, hsize] at hj
  rw [hoff, Nat.zero_add]
  exact hbytes j (lt_of_lt_of_le hj (Nat.min_le_right _ _))

/-- The first descriptor is 0: a read on it takes the typed line and leaves the offset. -/
theorem first_open_reads_keyboard :
    (handleSyscall (fileOps bump noLayers) noServices 9 (registers 0x400000 0 0) withF).ret = some 0 ∧
    (writtenF.fds 0).vnode = some 2 ∧ (writtenF.fds 0).offset = 2 ∧
    (handleSyscall (fileOps bump noLayers) noServices 8 (registers 0 0x400020 4) writtenF).ret = some 1 ∧
    (handleSyscall (fileOps bump noLayers) noServices 8 (registers 0 0x400020 4) writtenF).sys.user 0x400020 = 120 ∧
    (handleSyscall (fileOps bump noLayers) noServices 8 (registers 0 0x400020 4) writtenF).sys.keys = [] ∧
    ∀ file, ¬ReadsFile file 0 0x400020 4 writtenF
      (handleSyscall (fileOps bump noLayers) noServices 8 (registers 0 0x400020 4) writtenF) := by
  have hkeys : (handleSyscall (fileOps bump noLayers) noServices 8 (registers 0 0x400020 4) writtenF).sys.keys = [] := by
    decide +kernel
  refine ⟨by decide +kernel, by decide +kernel, by decide +kernel, by decide +kernel, by decide +kernel, hkeys, ?_⟩
  intro file h
  have hkept := hkeys.symm.trans h.keyboard.1
  exact absurd hkept (by decide +kernel)

end Tori.Syscall
