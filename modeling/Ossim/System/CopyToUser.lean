import Ossim.System.Copies

set_option autoImplicit false

/-! # Copying to the user

`libkmem_copy_to_user` writes a region of the process byte by byte, and any byte may page: a page of the
process goes to swap and its frame to the page of the byte, while the loop goes on reading frames of the
kernel. As long as frames have one owner this moves the bytes it is to move and no others, wherever the
regions of the process are. -/

namespace Ossim

open Pager

namespace System

/-- The byte an access to an offset of a region of a process goes to. -/
def accessed (host : Host) (s : System) (pid rgid offset : ℕ) : Option ByteKey :=
  (s.caller pid).bind fun c => (c.mm.resolve rgid offset).map (accessByte host pid)

/-- What `__read_user_mem` delivers to a process. -/
def readUser (host : Host) (s : System) (pid rgid offset : ℕ) : Option Byte :=
  (s.caller pid).bind fun c => (readUserMem host c rgid offset).1

/-- What `__read_kernel_mem` delivers to a process. -/
def readKernel (host : Host) (s : System) (pid rgid offset : ℕ) : Option Byte :=
  (s.caller pid).bind fun c => (readKernelMem host c rgid offset).1

end System

/-- The copy of `size` bytes from kernel region `source` to region `destination` of process `pid`: the
    bytes are there, and every other byte of a page that has been mapped is as it was, whosever it is, in
    memory and as it is read. -/
structure CopiesToUser (host : Host) (s s' : System) (pid source destination offset size : ℕ) : Prop where
  copied : ∀ i < size, ∃ k b, s.accessed host pid destination (uint32 (offset + i)) = some k ∧
    s.readKernel host pid source (uint32 (offset + i)) = some b ∧ s'.pager.content k.1 k.2 = some b
  read_copied : ∀ i < size, ∀ b b', s.readKernel host pid source (uint32 (offset + i)) = some b →
    s'.readUser host pid destination (uint32 (offset + i)) = some b' → b' = b
  kept : ∀ k : ByteKey, s.pager.res k.1 ≠ .none →
    (∀ i < size, s.accessed host pid destination (uint32 (offset + i)) ≠ some k) →
    s'.pager.content k.1 k.2 = s.pager.content k.1 k.2
  read_kept : ∀ q rgid off k b b', s.accessed host q rgid off = some k → s.pager.res k.1 ≠ .none →
    (∀ i < size, s.accessed host pid destination (uint32 (offset + i)) ≠ some k) →
    s.readUser host q rgid off = some b → s'.readUser host q rgid off = some b' → b' = b
  kernel : ∀ q rgid off, s'.readKernel host q rgid off = s.readKernel host q rgid off

section Copying

variable {host : Host} {R S : Set ℕ} {s : System} {pid : ℕ} {c c' : Caller}

/-! ## The system and its callers -/

theorem System.FramesOwned.put (h : s.FramesOwned host R S)
    (hinv : FrameInv host True R S pid s.others c') : (s.put pid c').FramesOwned host R S where
  wf := System.pager_put s pid c' ▸ hinv.wf
  within := System.pager_put s pid c' ▸ hinv.within
  ram_nodup := hinv.devices.ram_nodup
  swap_nodup := hinv.devices.swap_nodup
  ram_holds := hinv.devices.ram_holds trivial
  swap_holds := hinv.devices.swap_holds trivial
  fifo := System.forall_put hinv.fifo fun q _ => h.fifo q
  registered := System.forall_put (hinv.devices.registered trivial) fun q _ => h.registered q

/-- What a process reads of a page that has been mapped is the content of its byte. -/
theorem System.FramesOwned.content_of_readUser (h : s.FramesOwned host R S)
    (hc : ∀ n, host.calloc n = true) (hp : PoolsOk R S) {rgid off : ℕ} {k : ByteKey} {b : Byte}
    (hk : s.accessed host pid rgid off = some k) (hmapped : s.pager.res k.1 ≠ .none)
    (hr : s.readUser host pid rgid off = some b) : s.pager.content k.1 k.2 = some b := by
  obtain ⟨c, hcall, hread⟩ := Option.bind_eq_some_iff.1 hr
  simp only [accessed, hcall, Option.bind_some] at hk
  obtain ⟨a, ha, rfl⟩ := Option.map_eq_some_iff.1 hk
  rw [← System.pager_caller hcall] at hmapped ⊢
  exact (h.frameInv hcall).content_of_read hc hp ha hmapped hread

/-- Paging moves no byte of a region to another address. -/
theorem accessed_put (hc : s.caller pid = some c) (honly : PagingOnly c c') (q rgid off : ℕ) :
    (s.put pid c').accessed host q rgid off = s.accessed host q rgid off := by
  by_cases hq : q = pid
  · subst hq
    simp only [System.accessed, System.caller_put_self, hc, Option.bind_some, honly.resolve]
  · simp only [System.accessed, System.caller, System.procs_put_of_ne s c' hq, Option.bind_map]
    rfl

/-- What is read of the kernel does not depend on who reads. -/
theorem readKernelMem_congr (host : Host) {c d : Caller} (h : d.krnl = c.krnl) (rgid off : ℕ) :
    (readKernelMem host d rgid off).1 = (readKernelMem host c rgid off).1 := by
  rw [readKernelMem, readKernelMem, h]
  cases c.krnl.mm.resolve rgid off with
  | none => rfl
  | some vaddr =>
      simp only
      rcases kernelFrame host c.krnl vaddr with ⟨_ | fpn, krnl⟩ <;> rfl

theorem readKernel_put (hc : s.caller pid = some c)
    (hsame : ∀ rgid off, (readKernelMem host c' rgid off).1 = (readKernelMem host c rgid off).1)
    (q rgid off : ℕ) : (s.put pid c').readKernel host q rgid off = s.readKernel host q rgid off := by
  obtain ⟨-, hk⟩ := System.caller_eq_some hc
  by_cases hq : q = pid
  · subst hq
    simp only [System.readKernel, System.caller_put_self, hc, Option.bind_some, hsame]
  · simp only [System.readKernel, System.caller, System.procs_put_of_ne s c' hq, Option.bind_map]
    congr 1
    funext proc
    change (readKernelMem host ⟨proc, c'.krnl⟩ rgid off).1 = (readKernelMem host ⟨proc, s.krnl⟩ rgid off).1
    have hafter := readKernelMem_congr host (c := c') (d := ⟨proc, c'.krnl⟩) rfl rgid off
    have hbefore := readKernelMem_congr host (c := c) (d := ⟨proc, s.krnl⟩) hk rgid off
    exact hafter.trans ((hsame rgid off).trans hbefore.symm)

/-! ## The copy -/

/-- **COPY_TO_USER is exact.** As long as frames have one owner, a copy that returns 0 moves the bytes of
    the kernel region to the user region and changes no other byte of anybody. -/
theorem copyToUser_exact (hc : ∀ n, host.calloc n = true) (hp : PoolsOk R S)
    (h : s.FramesOwned host R S) (hcall : s.caller pid = some c) {source destination offset size : ℕ}
    (hok : (libkmemCopyToUser host c source destination offset size).1 = 0) :
    CopiesToUser host s (s.put pid (libkmemCopyToUser host c source destination offset size).2) pid
      source destination offset size := by
  rw [libkmemCopyToUser, libkmemCopy_of_ok hok]
  rw [libkmemCopyToUser, libkmemCopy_of_ok hok] at hok
  have hinv := h.frameInv hcall
  have hpaged := hinv.copy hc hp source destination offset size 0
  have hcopies := hinv.copied hc hp hok
  generalize hc' : (copyLoop host source destination offset size 0 c).2 = c' at *
  have h' := h.put hpaged.inv
  have hrun := hpaged.run
  rw [System.pager_caller hcall, ← System.pager_put] at hrun
  simp only [← System.pager_put] at hcopies
  -- what is copied, and what is kept, byte by byte as the pager sees them
  have hcopied : ∀ i < size, ∃ k b,
      s.accessed host pid destination (uint32 (offset + i)) = some k ∧
      s.readKernel host pid source (uint32 (offset + i)) = some b ∧
      (s.put pid c').pager.content k.1 k.2 = some b := by
    intro i hi
    obtain ⟨a, b, ha, hb, hcont⟩ := hcopies i hi
    rw [Nat.zero_add] at ha hb
    refine ⟨accessByte host pid a, b, ?_, ?_, hcont⟩
    · simp only [System.accessed, hcall, Option.bind_some, ha, Option.map_some]
    · simp only [System.readKernel, hcall, Option.bind_some, hb]
  have hkept : ∀ k : ByteKey, s.pager.res k.1 ≠ .none →
      (∀ i < size, s.accessed host pid destination (uint32 (offset + i)) ≠ some k) →
      (s.put pid c').pager.content k.1 k.2 = s.pager.content k.1 k.2 := by
    intro k hmapped hnot
    refine hrun.content_eq trivial h.wf hmapped ?_
    rintro ⟨a, ⟨i, hi, -, ha⟩, heq⟩
    rw [Nat.zero_add] at ha
    refine hnot i hi ?_
    simp only [System.accessed, hcall, Option.bind_some, ha, Option.map_some, ← heq]
  -- what is read is what the pager says the byte is
  refine ⟨hcopied, fun i hi b b' hb hb' => ?_, hkept, fun q rgid off k b b' hk hmapped hnot hr hr' => ?_,
    ?_⟩
  · obtain ⟨k, d, hk, hd, hcont⟩ := hcopied i hi
    rw [← accessed_put hcall hpaged.only] at hk
    have hread := h'.content_of_readUser hc hp hk (State.mapped_of_content hcont) hb'
    have hbd : b = d := Option.some.inj (hb.symm.trans hd)
    rw [hbd]
    exact Option.some.inj (hread.symm.trans hcont)
  · have hcont := hkept k hmapped hnot
    rw [h.content_of_readUser hc hp hk hmapped hr] at hcont
    rw [← accessed_put hcall hpaged.only] at hk
    have hread := h'.content_of_readUser hc hp hk (State.mapped_of_content hcont) hr'
    exact Option.some.inj (hread.symm.trans hcont)
  · have hinv' := hpaged.inv
    exact readKernel_put hcall
      (readKernelMem_kept hinv hinv' hpaged.only owner_of_mem_accessBytes hpaged.run)

/-- RAM with other bytes in every frame: the process of `copySystem` copies three bytes of its kernel
    region over three others. -/
theorem copyToUser_exact_threeBytes :
    let s := copyReady.fill fun a => BitVec.ofNat 8 (a / 4096 * 16 + a % 4096 + 1)
    ∃ c, s.caller 1 = some c ∧
      (List.range 3).map (fun i => s.readUser generousHost 1 1 (1 + i)) = [some 2, some 3, some 4] ∧
      (List.range 3).map (fun i => s.readKernel generousHost 1 1 (1 + i)) = [some 18, some 19, some 20] ∧
      CopiesToUser generousHost s (s.put 1 (libkmemCopyToUser generousHost c 1 1 1 3).2) 1 1 1 1 3 := by
  intro s
  have hrun : (s.caller 1).map (fun c => ((libkmemCopyToUser generousHost c 1 1 1 3).1,
      (List.range 3).map (fun i => s.readUser generousHost 1 1 (1 + i)),
      (List.range 3).map (fun i => s.readKernel generousHost 1 1 (1 + i)))) =
      some (0, [some 2, some 3, some 4], [some 18, some 19, some 20]) := by
    decide +kernel
  obtain ⟨c, hc, hrun⟩ := Option.map_eq_some_iff.1 hrun
  obtain ⟨hok, huser, hkernel⟩ := Prod.mk.inj hrun |>.imp_right Prod.mk.inj
  have hsys := copyReady_run.sysInv generousHost_generous copySystem_booted.1 copySystem_booted.2
  exact ⟨c, hc, huser, hkernel, copyToUser_exact generousHost_generous.1
    copySystem_booted.1.poolsOk (hsys.framesOwned.fill _) hc hok⟩

end Copying

end Ossim
