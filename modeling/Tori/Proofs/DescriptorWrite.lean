import Tori.Proofs.DescriptorRead
import Tori.Proofs.FileContents

/-! `sys_write` on a regular file. A successful write of the file system stores every byte; a failed one is taken for a
descriptor that is not open, so the bytes go to the serial port and are reported as written. -/

namespace Tori.Fs

open Vfs

variable {A : Allocator} {offset size : ℕ} {buf : ℕ → UInt8} {s s' : State}

theorem ramfsWrite_stores {node : Addr} {k : ℕ} (hsize : size < 2 ^ 64) (h : ramfsWrite A node offset buf size s = (.ok k, s')) :
    k = size ∧ ∃ f f' c, s.file? node = some f ∧ s' = { s.touch node with clock := c }.setData node (.file f') ∧
      Stored offset size 0 buf f.pages f'.pages ∧ (offset + size) % 2 ^ 64 ≤ f'.size := by
  cases hf : s.file? node with
  | none =>
    have hf' : (s.touch node).file? node = none := hf
    rw [ramfsWrite, hf'] at h
    cases h
  | some f =>
    obtain ⟨f', upto, c, hends, rfl⟩ := ramfsWrite_ends hsize hf h
    rcases hends.result with ⟨hk, rfl, hend⟩ | ⟨-, ⟨hk, -⟩ | ⟨hk, -⟩⟩
    · exact ⟨Except.ok.inj hk, f, f', c, rfl, rfl, hends.stored, hend ▸ Nat.le_max_right _ _⟩
    · cases hk
    · cases hk

end Tori.Fs

namespace Tori.Syscall

open Vfs Kernel Fs

variable {A : Allocator} {g : Layers} {s : Sys Fs.State Fs.Addr} {i : Fin maxFds} {f : SyscallFrame} {v : Fs.Addr}

theorem fileAt_setData {real : Fs.Addr} {fs : Fs.State} {file file' : RamfsFile} {c : ℕ} (hreal : realNode g v fs = some real)
    (hfile : (realState v fs).file? real = some file) :
    fileAt g v ({ (realState v fs).touch real with clock := c }.setData real (.file file')) = some file' := by
  set t := { (realState v fs).touch real with clock := c }.setData real (.file file') with ht
  have hvnodes : (realState v fs).vnodes = fs.vnodes := by
    unfold realState
    split_ifs <;> rfl
  have hdata : ∀ b, (t.vnodes b).privateData = if b = real then .file file' else (fs.vnodes b).privateData := by
    intro b
    rw [ht, privateData_setData, ← hvnodes]
    rfl
  -- the data of an overlay vnode is not that of a file
  have hoverlay : t.overlay? v = fs.overlay? v := by
    rw [State.overlay?, State.overlay?, hdata]
    split_ifs with hv
    · rw [State.file?, hvnodes, ← hv] at hfile
      cases hold : (fs.vnodes v).privateData with
      | file _ => rfl
      | dir _ => rfl
      | overlay _ =>
        rw [hold] at hfile
        cases hfile
    · rfl
  have hnode : realNode g v t = some real := by
    rw [← hreal]
    simp only [realNode, isOverlay, State.overlay?_touch, hoverlay]
    rfl
  rw [fileAt, hnode, Option.bind_some]
  have hsame : (realState v t).vnodes = t.vnodes := by
    unfold realState
    split_ifs <;> rfl
  rw [State.file?_touch, State.file?, hsame, hdata, if_pos rfl]

/-- A successful write of the file system stores the whole buffer. -/
theorem fsWrite_stores {fs fs' : Fs.State} {off n k : ℕ} {buf : ℕ → UInt8} (hn : n < 2 ^ 64)
    (h : (fsOps A g).write v off buf n fs = (.ok k, fs')) :
    k = n ∧ ∃ file file', fileAt g v fs = some file ∧ fileAt g v fs' = some file' ∧
      Stored off n 0 buf file.pages file'.pages ∧ (off + n) % 2 ^ 64 ≤ file'.size := by
  rw [fsOps_write] at h
  cases hreal : realNode g v fs with
  | none =>
    rw [hreal] at h
    cases h
  | some real =>
    simp only [hreal] at h
    obtain ⟨hk, file, file', c, hfile, rfl, hstored, hsize⟩ := ramfsWrite_stores hn h
    refine ⟨hk, file, file', ?_, fileAt_setData hreal hfile, hstored, hsize⟩
    rw [fileAt, hreal]
    exact hfile

/-- `n` bytes of the buffer stand in the file at the descriptor's old offset, the other bytes are as before, and the offset
is past them. -/
structure WritesFile (g : Layers) (v : Fs.Addr) (i : Fin maxFds) (buf n : ℕ) (s s' : Sys Fs.State Fs.Addr) : Prop where
  bytes : ∃ file file', fileAt g v s.fs = some file ∧ fileAt g v s'.fs = some file' ∧
    (∀ j < n, fileByte file' ((s.fds i).offset + j) = some (s.user (addrAt buf j))) ∧
    (∀ pos b, (∀ j < n, ((s.fds i).offset + j) % 2 ^ 64 ≠ pos % 2 ^ 64) → fileByte file pos = some b →
      fileByte file' pos = some b) ∧ ((s.fds i).offset + n) % 2 ^ 64 ≤ file'.size
  offset : (s'.fds i).offset = ((s.fds i).offset + n) % 2 ^ 64

/-- The result of `sys_write` on the file `v` is to be trusted. A fault is no result. -/
structure ReportsWrite (A : Allocator) (g : Layers) (v : Fs.Addr) (i : Fin maxFds) (f : SyscallFrame)
    (s : Sys Fs.State Fs.Addr) : Prop where
  stored : ∀ n : ℕ, 0 < n → (sysWrite (fileOps A g) f s).ret = some (n : ℤ) →
    WritesFile g v i f.rsi n s (sysWrite (fileOps A g) f s).sys
  failed : ∀ e, e ≠ .fault →
    ((fsOps A g).write v (s.fds i).offset (buffer s.user f.rsi) f.rdx s.fs).1 = .error e →
      ∃ r < 0, (sysWrite (fileOps A g) f s).ret = some r

theorem vfsWrite_eq {σ V : Type} (ops : VnodeOps σ V) (buf : ℕ → UInt8) (n : ℕ) {fds : FdTable V} {fs : σ} {v : V}
    (hused : (fds i).used = true) (hv : (fds i).vnode = some v) (htype : ops.type v fs = .file) :
    write ops (i.val : ℤ) buf n fds fs = match ops.write v (fds i).offset buf n fs with
      | (.error e, fs') => (.error e, fds, fs')
      | (.ok k, fs') => (.ok k, Function.update fds i { fds i with offset := ((fds i).offset + k) % 2 ^ 64 }, fs') := by
  unfold write
  rw [descriptor_of_used hused]
  dsimp only
  rw [hv]
  dsimp only
  rcases hw : ops.write v (fds i).offset buf n fs with ⟨e | k, fs'⟩ <;> rw [if_neg (not_not.mpr htype)]

/-- The bytes that the file system could not store are reported as written. -/
theorem sysWrite_error {ops : FileOps Fs.State Fs.Addr} {fs' : Fs.State} {e : Err} (hargs : ¬ ((f.rsi + f.rdx) % 2 ^ 64 < f.rsi ∨ f.rdx = 0))
    (he : e ≠ .fault)
    (hvfs : write ops.toVnodeOps (toInt f.rdi) (buffer s.user f.rsi) f.rdx s.fds s.fs = (.error e, s.fds, fs')) :
    (sysWrite ops f s).ret = some (f.rdx : ℤ) ∧ (sysWrite ops f s).sys = { s with fs := fs' } := by
  unfold sysWrite
  rw [if_neg hargs, hvfs]
  cases e <;> first | exact absurd rfl he | exact ⟨rfl, rfl⟩

/-- On an open regular file the result of `sys_write` is to be trusted exactly if the arguments are refused, or the write of
the file system returns no error. -/
theorem sys_write_reports_iff (hrdx : f.rdx < 2 ^ 64) (hfd : toInt f.rdi = i.val) (hused : (s.fds i).used = true)
    (hv : (s.fds i).vnode = some v) (htype : (s.fs.vnodes v).type = .file) :
    ReportsWrite A g v i f s ↔ (f.rsi + f.rdx) % 2 ^ 64 < f.rsi ∨ f.rdx = 0 ∨
      ∀ e, ((fsOps A g).write v (s.fds i).offset (buffer s.user f.rsi) f.rdx s.fs).1 = .error e → e = .fault := by
  by_cases hargs : (f.rsi + f.rdx) % 2 ^ 64 < f.rsi ∨ f.rdx = 0
  · have hanswer : sysWrite (fileOps A g) f s = ⟨some (-eInvalid), [], s⟩ := by
      rw [sysWrite, if_pos hargs]
    refine ⟨fun _ => by rwa [← or_assoc, or_iff_left_of_imp fun _ => hargs], fun _ => ⟨fun n _ hret => ?_, fun _ _ _ => ?_⟩⟩
    · rw [hanswer] at hret
      have hneg : -eInvalid = (n : ℤ) := Option.some.inj hret
      exact absurd hneg (by unfold eInvalid; omega)
    · rw [hanswer]
      exact ⟨-eInvalid, by decide, rfl⟩
  · rw [← or_assoc, or_iff_right hargs]
    cases hwrite : (fsOps A g).write v (s.fds i).offset (buffer s.user f.rsi) f.rdx s.fs with
    | mk r fs' =>
      cases r with
      | ok k =>
        have hvfs := vfsWrite_eq (fileOps A g).toVnodeOps (buffer s.user f.rsi) f.rdx hused hv htype
        rw [show (fileOps A g).write = (fsOps A g).write from rfl, hwrite] at hvfs
        have hanswer : sysWrite (fileOps A g) f s = ⟨some (k : ℤ),
            (vfsWriteTouched (fileOps A g) (toInt f.rdi) f.rdx s.fds s.fs).map (addrAt f.rsi), { s with
              fds := Function.update s.fds i { s.fds i with offset := ((s.fds i).offset + k) % 2 ^ 64 }
              fs := fs' }⟩ := by
          unfold sysWrite
          rw [if_neg hargs, hfd, hvfs]
        refine ⟨fun _ e he => (by cases he), fun _ => ⟨fun n _ hret => ?_, fun e _ he => ?_⟩⟩
        · rw [hanswer] at hret ⊢
          obtain rfl : k = n := by exact_mod_cast Option.some.inj hret
          obtain ⟨rfl, file, file', hfile, hfile', hstored, hsize⟩ := fsWrite_stores hrdx hwrite
          refine ⟨⟨file, file', hfile, hfile', fun j hj => hstored.bytes j (Nat.zero_le j) hj, fun pos b hpos hb => ?_,
            hsize⟩, ?_⟩
          · exact hstored.others pos b (fun j _ hj => hpos j hj) hb
          · dsimp only
            rw [Function.update_self]
        · rw [hwrite] at he
          cases he
      | error e =>
        have hvfs := vfsWrite_eq (fileOps A g).toVnodeOps (buffer s.user f.rsi) f.rdx hused hv htype
        rw [show (fileOps A g).write = (fsOps A g).write from rfl, hwrite, ← hfd] at hvfs
        constructor
        · intro hreports e' he'
          obtain rfl : e = e' := Except.error.inj he'
          by_contra hne
          obtain ⟨r, hr, hret⟩ := hreports.failed e hne (by rw [hwrite])
          rw [(sysWrite_error hargs hne hvfs).1] at hret
          cases hret
          omega
        · intro hfault
          obtain rfl := hfault e rfl
          refine ⟨fun n _ hret => ?_, fun e' hne he' => ?_⟩
          · unfold sysWrite at hret
            rw [if_neg hargs, hvfs] at hret
            cases hret
          · rw [hwrite] at he'
            exact absurd (Except.error.inj he').symm hne

/-- The process has opened `/f` and got descriptor 0. -/
def openedF : Sys Fs.State Fs.Addr :=
  (handleSyscall (fileOps bump noLayers) noServices 9 (registers 0x400000 0 0) withF).sys

theorem openedF_entry : (openedF.fds 0).used = true ∧ (openedF.fds 0).vnode = some 2 ∧ (openedF.fds 0).offset = 0 ∧
    (openedF.fs.vnodes 2).type = .file := by decide +kernel

theorem first_write_reported : (sysWrite (fileOps bump noLayers) (registers 0 0x400010 2) openedF).ret = some 2 ∧
    ReportsWrite bump noLayers 2 0 (registers 0 0x400010 2) openedF := by
  obtain ⟨hused, hv, -, htype⟩ := openedF_entry
  refine ⟨by decide +kernel, (sys_write_reports_iff (by decide) (by decide) hused hv htype).2 (.inr (.inr fun e he => ?_))⟩
  have hok : ((fsOps bump noLayers).write 2 (openedF.fds 0).offset
      (buffer openedF.user (registers 0 0x400010 2).rsi) (registers 0 0x400010 2).rdx openedF.fs).1.toOption = some 2 := by
    decide +kernel
  rw [he] at hok
  cases hok

/-- No page is left for file contents. -/
def noFilePages : Allocator := { bump with page := fun _ => none }

/-- Two bytes are reported as written; none is stored, and the offset stays. -/
theorem lost_write_reported :
    ((fsOps noFilePages noLayers).write 2 0 (buffer openedF.user 0x400010) 2 openedF.fs).1.toOption = none ∧
    (sysWrite (fileOps noFilePages noLayers) (registers 0 0x400010 2) openedF).ret = some 2 ∧
    ((sysWrite (fileOps noFilePages noLayers) (registers 0 0x400010 2) openedF).sys.fds 0).offset = 0 ∧
    ¬ ReportsWrite noFilePages noLayers 2 0 (registers 0 0x400010 2) openedF := by
  have hret : (sysWrite (fileOps noFilePages noLayers) (registers 0 0x400010 2) openedF).ret = some 2 := by decide +kernel
  have hoffset : ((sysWrite (fileOps noFilePages noLayers) (registers 0 0x400010 2) openedF).sys.fds 0).offset = 0 := by
    decide +kernel
  refine ⟨by decide +kernel, hret, hoffset, fun hreports => ?_⟩
  have hmoved := (hreports.stored 2 (by decide) hret).offset
  rw [hoffset, openedF_entry.2.2.1] at hmoved
  exact absurd hmoved (by decide)

end Tori.Syscall

namespace Tori.Fs

open Vfs Syscall

variable {A : Allocator} {g : Layers} {i : Fin maxFds} {v : Addr} {y y₀ : FdTable Addr × State}

/-! ### Seeking and writing -/

theorem isOverlay_of_file {s : State} {f : RamfsFile} (hf : s.file? v = some f) : isOverlay v s = false := by
  unfold State.file? at hf
  unfold isOverlay State.overlay?
  split at hf
  · rename_i hdata
    rw [hdata]
    rfl
  · cases hf

section

variable (h : OpenFile i v y)
include h

theorem OpenFile.keep {fds : FdTable Addr} {s : State} (hfds : ∃ off, fds i = { y.1 i with offset := off })
    (htype : (s.vnodes v).type = (y.2.vnodes v).type) (hfile : ∃ f, s.file? v = some f) : OpenFile i v (fds, s) := by
  obtain ⟨off, hoff⟩ := hfds
  exact ⟨(congrArg FileDescriptor.used hoff).trans h.used, (congrArg FileDescriptor.vnode hoff).trans h.vnode,
    htype.trans h.type, hfile⟩

/-- `seek` computes modulo 2^64 and never fails. -/
theorem seek_open (offset whence : ℤ) :
    ∃ s, (s = y.2 ∨ s = y.2.touch v) ∧ seek (fsOps A g) i.val offset whence y.1 y.2 =
      (.ok (seekTarget i offset whence y % 2 ^ 64).toNat,
        Function.update y.1 i { y.1 i with offset := (seekTarget i offset whence y % 2 ^ 64).toNat }, s) := by
  obtain ⟨f, hf⟩ := h.file
  have hstat : (fsOps A g).stat v y.2 = (.ok ⟨.file, f.size⟩, y.2.touch v) := by
    have hf' : (y.2.touch v).file? v = some f := hf
    rw [stat_ramfs (isOverlay_of_file hf), ramfsStat]
    simp only [State.vnodes_touch, h.type, hf']
  unfold seek seekTarget
  rw [descriptor_of_used h.used]
  dsimp only
  by_cases h0 : whence = 0
  · rw [if_pos h0, if_pos h0]
    exact ⟨y.2, .inl rfl, rfl⟩
  · by_cases h1 : whence = 1
    · rw [if_neg h0, if_neg h0, if_pos h1, if_pos h1]
      exact ⟨y.2, .inl rfl, rfl⟩
    · rw [if_neg h0, if_neg h0, if_neg h1, if_neg h1, h.vnode]
      dsimp only
      rw [hstat, Option.bind_some, hf]
      exact ⟨y.2.touch v, .inr rfl, rfl⟩

theorem fsWrite_open (buf : ℕ → UInt8) (size : ℕ) :
    write (fsOps A g) i.val buf size y.1 y.2 = match ramfsWrite A v (y.1 i).offset buf size y.2 with
      | (.error e, s) => (.error e, y.1, s)
      | (.ok k, s) => (.ok k, Function.update y.1 i { y.1 i with offset := ((y.1 i).offset + k) % 2 ^ 64 }, s) := by
  obtain ⟨f, hf⟩ := h.file
  rw [vfsWrite_eq (fsOps A g) buf size h.used h.vnode h.type, write_ramfs (isOverlay_of_file hf)]
  rcases ramfsWrite A v (y.1 i).offset buf size y.2 with ⟨e | k, s⟩ <;> rfl

theorem OpenFile.read (buf : ℕ → UInt8) (size : ℕ) : OpenFile i v (fileExec A g i (.read buf size) y) := by
  obtain ⟨f, hf⟩ := h.file
  have hcall : ramfsRead v (y.1 i).offset buf size y.2 = (_, y.2.touch v) := Prod.ext (ramfsRead_eq hf) (ramfsRead_snd ..)
  rw [fileExec, vfsRead_ok (fsOps A g) h.used h.vnode h.type ((read_ramfs (isOverlay_of_file hf) ..).trans hcall)]
  exact h.keep ⟨_, Function.update_self ..⟩ rfl ⟨f, hf⟩

theorem OpenFile.write {buf : ℕ → UInt8} {size : ℕ} (hsize : size < 2 ^ 64) :
    OpenFile i v (fileExec A g i (.write buf size) y) := by
  obtain ⟨f, hf⟩ := h.file
  rcases hcall : ramfsWrite A v (y.1 i).offset buf size y.2 with ⟨r, s'⟩
  obtain ⟨f', upto, c, -, rfl⟩ := ramfsWrite_ends hsize hf hcall
  rw [fileExec, fsWrite_open h, hcall]
  have htype := type_setData { y.2.touch v with clock := c } v v (.file f')
  have hfile := file?_setData { y.2.touch v with clock := c } v f'
  cases r with
  | error e => exact h.keep ⟨(y.1 i).offset, rfl⟩ htype ⟨f', hfile⟩
  | ok k => exact h.keep ⟨_, Function.update_self ..⟩ htype ⟨f', hfile⟩

theorem OpenFile.step {op : FileOp} (hop : InRange i op y) : OpenFile i v (fileExec A g i op y) := by
  cases op with
  | seek offset whence =>
    obtain ⟨s, hs, hseek⟩ := seek_open h offset whence
    rw [fileExec, hseek]
    rcases hs with rfl | rfl
    · exact h.keep ⟨_, Function.update_self ..⟩ rfl h.file
    · exact h.keep ⟨_, Function.update_self ..⟩ rfl h.file
  | read buf size => exact h.read buf size
  | write buf size =>
    refine h.write ?_
    unfold InRange pageSize at hop
    omega

theorem OpenFile.staysInside {op : FileOp} (hop : InRange i op y) : StaysInside A g i op y := by
  cases op with
  | seek offset whence =>
    obtain ⟨s, -, hseek⟩ := seek_open h offset whence
    rw [InRange] at hop
    have hmod : seekTarget i offset whence y % 2 ^ 64 = seekTarget i offset whence y := Int.emod_eq_of_lt hop.1 hop.2
    rw [StaysInside, hseek]
    dsimp only
    rw [hmod, Function.update_self]
    exact ⟨fun _ => ⟨rfl, rfl⟩, fun hout => by omega⟩
  | read buf size => trivial
  | write buf size =>
    obtain ⟨f, hf⟩ := h.file
    rw [InRange] at hop
    rcases hcall : ramfsWrite A v (y.1 i).offset buf size y.2 with ⟨r, s'⟩
    obtain ⟨f', upto, c, hends, -⟩ := ramfsWrite_ends (by unfold pageSize at hop; omega) hf hcall
    have hfault := hends.no_fault hop
    rw [StaysInside, fsWrite_open h, hcall]
    cases r with
    | error e => exact fun he => hfault (by rw [Except.error.inj he])
    | ok k => exact fun he => (by cases he)

end

/-- As long as each position exists and the pages of each write can be counted, seeks are exact and writes find their pages. -/
theorem seek_write_inside (h : OpenFile i v y₀) (hrun : FileRun A g i (InRange i) y₀ y) :
    ∀ op, InRange i op y → StaysInside A g i op y := by
  have hopen : OpenFile i v y := by
    induction hrun with
    | start => exact h
    | step _ hop ih => exact ih.step hop
  exact fun op hop => hopen.staysInside hop

/-- Descriptor 0 is open on an empty file. -/
def openEmpty : FdTable Addr × State := (Function.update noFds 0 ⟨some 0, 0, 0, true⟩, emptyFile)

theorem openEmpty_open : OpenFile 0 0 openEmpty := ⟨rfl, rfl, rfl, _, rfl⟩

theorem seek_write_inside_five :
    StaysInside bump noLayers 0 (.write (fun _ => 7) 1) (fileExec bump noLayers 0 (.seek 5 0) openEmpty) := by
  have hseek : InRange 0 (.seek 5 0) openEmpty := ⟨by decide, by decide⟩
  exact seek_write_inside openEmpty_open (.step .start hseek) _ (.inr (by decide))

/-- `seek(fd, -1, SEEK_SET)` succeeds, and the next write indexes an empty page array. -/
theorem seek_before_start : OpenFile 0 0 openEmpty ∧ ¬ StaysInside bump noLayers 0 (.seek (-1) 0) openEmpty ∧
    ¬ StaysInside bump noLayers 0 (.write (fun _ => 7) 1) (fileExec bump noLayers 0 (.seek (-1) 0) openEmpty) := by
  refine ⟨openEmpty_open, fun h => ?_, fun h => h rfl⟩
  obtain ⟨⟨e, he⟩, -⟩ := h.2 (.inl (by decide))
  cases he

end Tori.Fs
