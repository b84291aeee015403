import Ossim.Paging.Copies
import Ossim.System.Isolation

set_option autoImplicit false

/-! # Copying from the user

`libkmem_copy_from_user` is to move bytes of a user region to a kernel region (`CopiesFromUser`). Its body
is that of `libkmem_copy_to_user`: it reads the kernel region that has the number of the source and
overwrites the user region that has the number of the destination. -/

namespace Ossim

open Pager

/-- The copy from user region `source` to kernel region `destination`: the bytes are there, and those of
    the user are what they were, wherever their pages are now, also as `__read_user_mem` delivers them. -/
structure CopiesFromUser (host : Host) (c c' : Caller) (source destination offset size : ℕ) : Prop where
  copied : ∀ i < size, ∃ b, c.userData host source (uint32 (offset + i)) = some b ∧
    (readKernelMem host c' destination (uint32 (offset + i))).1 = some b
  unchanged : ∀ rgid off b, c.userData host rgid off = some b → c'.userData host rgid off = some b
  read : ∀ rgid off b b', (c.userData host rgid off).isSome = true →
    (readUserMem host c rgid off).1 = some b → (readUserMem host c' rgid off).1 = some b' → b' = b

/-- There is nothing to copy, in the direction asked for and in the one taken: the kernel region
    `destination` holds the bytes of the user region `source`, and the user region `destination` those of
    the kernel region `source`, as far as its pages have been mapped. -/
structure Caller.AlreadyCopied (host : Host) (c : Caller) (source destination offset size : ℕ) : Prop where
  kernel : ∀ i < size, ∃ b, c.userData host source (uint32 (offset + i)) = some b ∧
    (readKernelMem host c destination (uint32 (offset + i))).1 = some b
  user : ∀ i < size, ∀ b b', c.userData host destination (uint32 (offset + i)) = some b →
    (readKernelMem host c source (uint32 (offset + i))).1 = some b' → b = b'

section Copying

variable {host : Host} {R S : Set ℕ} {pid : ℕ} {others : ℕ → PageIx → Residence} {c : Caller}
variable {source destination offset size : ℕ}

/-- A user byte after the copy: a byte of kernel region `source` if it was written, and as before if
    not. -/
theorem userData_after_copy (hc : ∀ n, host.calloc n = true) (hp : PoolsOk R S)
    (h : FrameInv host True R S pid others c)
    (hok : (copyLoop host source destination offset size 0 c).1 = 0) {rgid off : ℕ} {b : Byte}
    (hb : c.userData host rgid off = some b) :
    let c' := (copyLoop host source destination offset size 0 c).2
    (∃ i < size, ∃ b', c.userData host destination (uint32 (offset + i)) = some b ∧
      (readKernelMem host c source (uint32 (offset + i))).1 = some b' ∧
      c'.userData host rgid off = some b') ∨
    c'.userData host rgid off = some b := by
  have hpaged := h.copy hc hp source destination offset size 0
  have hcopied := h.copied hc hp hok
  intro c'
  obtain ⟨a, ha, -⟩ := Option.bind_eq_some_iff.1 hb
  have ha' : c'.mm.resolve rgid off = some a := by
    rw [hpaged.only.resolve]
    exact ha
  rw [userData_of_resolve pid others ha] at hb
  rw [userData_of_resolve pid others ha']
  -- the byte may be reached through the destination at another offset
  by_cases hwritten : accessByte host pid a ∈
      accessBytes host pid (copiedAddrs host source destination offset size 0 c)
  · left
    obtain ⟨d, ⟨i, hi, -, hd⟩, hbyte⟩ := hwritten
    obtain ⟨d', b', hd', hb', hcont⟩ := hcopied i hi
    obtain rfl : d = d' := Option.some.inj (hd.symm.trans hd')
    rw [Nat.zero_add] at hd' hb'
    refine ⟨i, hi, b', ?_, hb', ?_⟩
    · rw [userData_of_resolve pid others hd', ← hbyte]
      exact hb
    · rw [hbyte]
      exact hcont
  · exact Or.inr ((hpaged.run.content_eq trivial h.wf (State.mapped_of_content hb) hwritten).trans hb)

/-- A copy that returns 0 does what it is to do if and only if there was nothing to copy. -/
theorem FrameInv.copies_iff (hc : ∀ n, host.calloc n = true) (hp : PoolsOk R S)
    (h : FrameInv host True R S pid others c)
    (hok : (libkmemCopyFromUser host c source destination offset size).1 = 0) :
    CopiesFromUser host c (libkmemCopyFromUser host c source destination offset size).2 source
      destination offset size ↔ c.AlreadyCopied host source destination offset size := by
  have hloop := libkmemCopy_of_ok hok
  rw [libkmemCopyFromUser, hloop] at hok ⊢
  have hpaged := h.copy hc hp source destination offset size 0
  have hkept := readKernelMem_kept h hpaged.inv hpaged.only owner_of_mem_accessBytes hpaged.run destination
  constructor
  · intro hcopies
    -- the kernel region is only read: what it is to hold it must have held
    refine ⟨fun i hi => ?_, fun i hi b b' hb hb' => ?_⟩
    · rw [← hkept]
      exact hcopies.copied i hi
    · -- the byte written is that of the kernel, and it is the one that was there
      obtain ⟨a, b'', ha, hb'', hcont⟩ := h.copied hc hp hok i hi
      rw [Nat.zero_add] at ha hb''
      rw [← hpaged.only.resolve] at ha
      have hafter := hcopies.unchanged destination _ b hb
      rw [userData_of_resolve pid others ha, hcont] at hafter
      exact (Option.some.inj hafter).symm.trans (Option.some.inj (hb''.symm.trans hb'))
  · intro hdone
    have hunchanged : ∀ rgid off b, c.userData host rgid off = some b →
        (copyLoop host source destination offset size 0 c).2.userData host rgid off = some b := by
      intro rgid off b hb
      rcases userData_after_copy hc hp h hok hb with ⟨i, hi, b', hold, hb', hafter⟩ | hsame
      · rw [hdone.user i hi b b' hold hb']
        exact hafter
      · exact hsame
    refine ⟨fun i hi => ?_, hunchanged, fun rgid off b b' hmapped hr hr' => ?_⟩
    · rw [hkept]
      exact hdone.kernel i hi
    · have hafter := hunchanged rgid off b (userData_of_readUserMem hc hp h hmapped hr)
      have hmapped' := Option.isSome_iff_exists.2 ⟨b, hafter⟩
      have hread := userData_of_readUserMem hc hp hpaged.inv hmapped' hr'
      exact Option.some.inj (hread.symm.trans hafter)

end Copying

/-! ## Frames with one owner -/

section Owned

variable {host : Host} {R S : Set ℕ} {s : System} {pid : ℕ} {c : Caller}

/-- Frames have one owner: an entry or a place in a free list. Those in use come from the pools `R` of
    RAM and `S` of swap, which the devices hold, and the FIFO list of every process has only resident
    pages of it, each once. The loader has registered the processes. -/
structure System.FramesOwned (host : Host) (R S : Set ℕ) (s : System) : Prop where
  wf : s.pager.Wf
  ram_nodup : s.krnl.mram.freeFpList.Nodup
  swap_nodup : s.krnl.activeMswp.freeFpList.Nodup
  within : s.pager.Within R S
  ram_holds : ∀ f ∈ R, s.krnl.mram.Holds f
  swap_holds : ∀ t ∈ S, s.krnl.activeMswp.Holds t
  fifo : ∀ pid proc, s.procs pid = some proc → FifoOk host proc.mm
  registered : ∀ pid proc, s.procs pid = some proc → proc.registered = true

theorem SysInv.framesOwned (h : SysInv host True R S s) : s.FramesOwned host R S where
  wf := h.wf
  ram_nodup := h.ram_nodup
  swap_nodup := h.swap_nodup
  within := h.within
  ram_holds := h.ram_holds trivial
  swap_holds := h.swap_holds trivial
  fifo := fun pid proc hproc => (h.procs pid proc hproc).pages.fifoOk
  registered := fun pid proc hproc => (h.procs pid proc hproc).registered trivial

theorem System.FramesOwned.frameInv (h : s.FramesOwned host R S) (hc : s.caller pid = some c) :
    FrameInv host True R S pid s.others c := by
  obtain ⟨hproc, hk⟩ := System.caller_eq_some hc
  have hpager := System.pager_caller hc
  exact ⟨hpager ▸ h.wf, hpager ▸ h.within,
    ⟨hk ▸ h.ram_nodup, hk ▸ h.swap_nodup, fun _ => h.registered pid c.proc hproc,
      fun _ => hk ▸ h.ram_holds, fun _ => hk ▸ h.swap_holds⟩, h.fifo pid c.proc hproc⟩

/-- The system with other bytes in its RAM. -/
def System.fill (s : System) (storage : ℕ → Byte) : System :=
  { s with krnl := { s.krnl with mram := { s.krnl.mram with storage := storage } } }

/-- What the bytes are makes no difference to who owns them. -/
theorem System.FramesOwned.fill (h : s.FramesOwned host R S) (storage : ℕ → Byte) :
    (s.fill storage).FramesOwned host R S where
  wf := ⟨h.wf.ram_inj, h.wf.swap_inj, h.wf.ram_used, h.wf.swap_used⟩
  ram_nodup := h.ram_nodup
  swap_nodup := h.swap_nodup
  within := ⟨h.within.ram_free, h.within.swap_free, h.within.ram_mem, h.within.swap_mem⟩
  ram_holds := fun f hf => ⟨(h.ram_holds f hf).rdm, (h.ram_holds f hf).fits⟩
  swap_holds := h.swap_holds
  fifo := h.fifo
  registered := h.registered

/-- **COPY_FROM_USER copies the other way.** As long as frames have one owner, a copy that returns 0 has
    moved the bytes of the user region to the kernel region and left the user's regions alone if and only
    if there was nothing to copy, in either direction. -/
theorem copiesFromUser_iff (hc : ∀ n, host.calloc n = true) (hp : PoolsOk R S)
    (h : s.FramesOwned host R S) (hcall : s.caller pid = some c) {source destination offset size : ℕ}
    (hok : (libkmemCopyFromUser host c source destination offset size).1 = 0) :
    CopiesFromUser host c (libkmemCopyFromUser host c source destination offset size).2 source
      destination offset size ↔ c.AlreadyCopied host source destination offset size :=
  (h.frameInv hcall).copies_iff hc hp hok

end Owned

/-! ## A run -/

/-- A process that allocates region 1 for itself and region 1 for the kernel, and then writes 7 to the
    first byte of its own. -/
def copySystem : System := twoProcs 2 1 fun _ =>
  [⟨.alloc, 300, 1, 0, 0⟩, ⟨.kmemCacheCreate, 300, 100, 0, 0⟩, ⟨.kmemCacheAlloc, 0, 1, 0, 0⟩,
    ⟨.write, 7, 1, 0, 0⟩]

/-- Its state when both regions are there. -/
def copyReady : System :=
  ((copySystem.next generousHost 1).next generousHost 1).next generousHost 1

theorem copySystem_booted : Booted copySystem ∧ FramesHeld copySystem :=
  ⟨twoProcs_booted (by decide) (by decide) _, twoProcs_framesHeld 2 1 _⟩

theorem copyReady_run : TameRun generousHost copySystem copyReady := by
  have hfetch₁ : copySystem.fetch 1 = some ⟨.alloc, 300, 1, 0, 0⟩ := rfl
  have hrun₁ : copySystem.run generousHost 1 = some (0, copySystem.next generousHost 1) :=
    System.run_next (by decide +kernel)
  have h₁ : TameStep generousHost copySystem 1 (copySystem.next generousHost 1) := by
    refine .of_fetch hfetch₁ hrun₁ ⟨fun _ => by decide, by simp⟩ fun c hc => ?_
    obtain rfl := Option.some.inj hc
    exact ⟨fun _ => by decide, by simp⟩
  generalize hs₁ : copySystem.next generousHost 1 = s₁ at h₁
  have hfetch₂ : s₁.fetch 1 = some ⟨.kmemCacheCreate, 300, 100, 0, 0⟩ := by
    rw [← hs₁]
    decide +kernel
  have hrun₂ : s₁.run generousHost 1 = some (0, s₁.next generousHost 1) := by
    rw [← hs₁]
    exact System.run_next (by decide +kernel)
  have h₂ : TameStep generousHost s₁ 1 (s₁.next generousHost 1) :=
    .of_fetch hfetch₂ hrun₂ ⟨by simp, by simp⟩ fun c _ => ⟨by simp, by simp⟩
  generalize hs₂ : s₁.next generousHost 1 = s₂ at h₂
  have hfetch₃ : s₂.fetch 1 = some ⟨.kmemCacheAlloc, 0, 1, 0, 0⟩ := by
    rw [← hs₂, ← hs₁]
    decide +kernel
  have hrun₃ : s₂.run generousHost 1 = some (-1, s₂.next generousHost 1) := by
    rw [← hs₂, ← hs₁]
    exact System.run_next (by decide +kernel)
  have h₃ : TameStep generousHost s₂ 1 (s₂.next generousHost 1) :=
    .of_fetch hfetch₃ hrun₃ ⟨by simp, by simp⟩ fun c _ => ⟨by simp, by simp⟩
  have hready : s₂.next generousHost 1 = copyReady := by rw [← hs₂, ← hs₁, copyReady]
  rw [hready] at h₃
  exact .step (.step (.step (.refl _) h₁) h₂) h₃

/-- RAM with the same bytes in every frame, none of those at the start zero: the copy of three bytes in
    one direction is as good as that in the other. -/
theorem copiesFromUser_iff_threeBytes :
    ∃ c, (copyReady.fill fun a => BitVec.ofNat 8 (a % 4096 + 1)).caller 1 = some c ∧
      (List.range 3).map (fun i => c.userData generousHost 1 (uint32 (1 + i))) =
        [some 2, some 3, some 4] ∧
      CopiesFromUser generousHost c (libkmemCopyFromUser generousHost c 1 1 1 3).2 1 1 1 3 := by
  have hbytes : ((copyReady.fill fun a => BitVec.ofNat 8 (a % 4096 + 1)).caller 1).map (fun c =>
      ((libkmemCopyFromUser generousHost c 1 1 1 3).1,
        (List.range 3).map (fun i => c.userData generousHost 1 (uint32 (1 + i))),
        (List.range 3).map (fun i => (readKernelMem generousHost c 1 (uint32 (1 + i))).1))) =
      some (0, (List.range 3).map (fun i => some (BitVec.ofNat 8 (2 + i))),
        (List.range 3).map (fun i => some (BitVec.ofNat 8 (2 + i)))) := by
    decide +kernel
  obtain ⟨c, hc, hbytes⟩ := Option.map_eq_some_iff.1 hbytes
  obtain ⟨hok, huser, hkernel⟩ := Prod.mk.inj hbytes |>.imp_right Prod.mk.inj
  have hsys := copyReady_run.sysInv generousHost_generous copySystem_booted.1 copySystem_booted.2
  have huser' : ∀ i < 3, c.userData generousHost 1 (uint32 (1 + i)) = some (BitVec.ofNat 8 (2 + i)) :=
    fun i hi => List.map_inj_left.1 huser i (List.mem_range.2 hi)
  have hkernel' : ∀ i < 3, (readKernelMem generousHost c 1 (uint32 (1 + i))).1 =
      some (BitVec.ofNat 8 (2 + i)) :=
    fun i hi => List.map_inj_left.1 hkernel i (List.mem_range.2 hi)
  refine ⟨c, hc, huser, (copiesFromUser_iff generousHost_generous.1 copySystem_booted.1.poolsOk
    (hsys.framesOwned.fill _) hc hok).2 ⟨fun i hi => ⟨_, huser' i hi, hkernel' i hi⟩,
      fun i hi b b' hb hb' => ?_⟩⟩
  exact Option.some.inj (hb.symm.trans ((huser' i hi).trans ((hkernel' i hi).symm.trans hb')))

/-- The process writes 7 and copies the byte: the copy returns 0, its own byte is 0 now, and the kernel's
    still is. -/
theorem not_copiesFromUser_seven :
    ∃ c, TameRun generousHost copySystem (copyReady.next generousHost 1) ∧
      (copyReady.next generousHost 1).caller 1 = some c ∧
      (libkmemCopyFromUser generousHost c 1 1 0 1).1 = 0 ∧
      ¬ CopiesFromUser generousHost c (libkmemCopyFromUser generousHost c 1 1 0 1).2 1 1 0 1 := by
  have hfetch : copyReady.fetch 1 = some ⟨.write, 7, 1, 0, 0⟩ := by decide +kernel
  have hrun : copyReady.run generousHost 1 = some (0, copyReady.next generousHost 1) :=
    System.run_next (by decide +kernel)
  have hstep : TameStep generousHost copyReady 1 (copyReady.next generousHost 1) :=
    .of_fetch hfetch hrun ⟨by simp, by simp⟩ fun c _ => ⟨by simp, by simp⟩
  have hbytes : ((copyReady.next generousHost 1).caller 1).map (fun c =>
      ((libkmemCopyFromUser generousHost c 1 1 0 1).1, c.userData generousHost 1 0,
        (libkmemCopyFromUser generousHost c 1 1 0 1).2.userData generousHost 1 0)) =
      some (0, some 7, some 0) := by
    decide +kernel
  obtain ⟨c, hc, hbytes⟩ := Option.map_eq_some_iff.1 hbytes
  obtain ⟨hok, hbefore, hafter⟩ := Prod.mk.inj hbytes |>.imp_right Prod.mk.inj
  refine ⟨c, .step copyReady_run hstep, hc, hok, fun h => ?_⟩
  have hsame := h.unchanged 1 0 7 hbefore
  rw [hafter] at hsame
  exact absurd hsame (by decide)

end Ossim
