import Ossim.Paging.Kernel

set_option autoImplicit false

/-! # What a copy moves

Both copies of the library read a region of the kernel and write a region of the process, byte by byte,
and any byte may page. Kernel pages stay in their frames, so a copy that ends has written the bytes the
kernel region held when it began. -/

namespace Ossim

open Pager

/-! ## Bytes of regions -/

/-- The byte at an offset of a region of the process, in the frame its page is in, of RAM or of swap;
    the page is the one an access asks for. A page that has not been mapped has no bytes. -/
def Caller.userData (host : Host) (c : Caller) (rgid offset : ℕ) : Option Byte :=
  (c.mm.resolve rgid offset).bind fun vaddr =>
    let pte := (c.mm.entry (pageIx host (addrOfInt (vaddr >>> 12)))).setWidth 32
    if pagingPagePresent pte then
      some (c.krnl.mram.storage (phyaddr (pagingFpn pte) (vaddr % 4096)))
    else if pagingPageSwapped pte then
      some (c.krnl.activeMswp.storage (phyaddr (pagingSwp pte) (vaddr % 4096)))
    else none

/-- Two offsets of a region that fit 32 bits are different bytes to an access. -/
theorem resolve_accessByte_inj (host : Host) (pid : ℕ) {mm : Mm} {rgid o o' a a' : ℕ} (ho : o < 2 ^ 32)
    (ho' : o' < 2 ^ 32) (h : mm.resolve rgid o = some a) (h' : mm.resolve rgid o' = some a')
    (hbyte : accessByte host pid a = accessByte host pid a') : o = o' := by
  simp only [accessByte, Prod.mk.injEq] at hbyte
  obtain ⟨⟨-, hpage⟩, hoff⟩ := hbyte
  have hpgn := pageIx_addrOfInt_inj host hpage
  have hmod : a % 4096 = a' % 4096 := congrArg Fin.val hoff
  rw [Nat.shiftRight_eq_div_pow, Nat.shiftRight_eq_div_pow] at hpgn
  unfold Mm.resolve VmRg.resolve at h h'
  split_ifs at h h'
  have haddr := Option.some.inj h
  have haddr' := Option.some.inj h'
  unfold addrT at haddr haddr'
  omega

section Bytes

variable {host : Host} {R S : Set ℕ} {pid : ℕ} {others : ℕ → PageIx → Residence} {c c' : Caller}

theorem userData_of_resolve (pid : ℕ) (others : ℕ → PageIx → Residence) {rgid off a : ℕ}
    (hres : c.mm.resolve rgid off = some a) :
    c.userData host rgid off =
      (c.pager pid others).content (accessByte host pid a).1 (accessByte host pid a).2 := by
  simp only [Caller.userData, hres, Option.bind_some, phyaddr_eq, State.content, accessByte,
    pager_res_self, residence]
  split_ifs <;> rfl

/-- What `__read_user_mem` delivers of a page that has been mapped is the byte of the region. -/
theorem userData_of_readUserMem (hc : ∀ n, host.calloc n = true) (hp : PoolsOk R S)
    (h : FrameInv host True R S pid others c) {rgid off : ℕ} {b : Byte}
    (hmapped : (c.userData host rgid off).isSome = true)
    (hr : (readUserMem host c rgid off).1 = some b) : c.userData host rgid off = some b := by
  obtain ⟨d, hd⟩ := Option.isSome_iff_exists.1 hmapped
  obtain ⟨a, ha, -⟩ := Option.bind_eq_some_iff.1 hd
  rw [userData_of_resolve pid others ha] at hd ⊢
  exact h.content_of_read hc hp ha (State.mapped_of_content hd) hr

/-- A byte of the kernel is read if its page is in RAM, and is the content of the page then. -/
theorem FrameInv.readKernel_content (h : FrameInv host True R S pid others c) (rgid off : ℕ) :
    (readKernelMem host c rgid off).1 = (c.krnl.mm.resolve rgid off).bind fun vaddr =>
      if pagingPagePresent ((c.krnl.mm.entry (pageIx host (vaddr >>> 12))).setWidth 32) then
        (c.pager pid others).content (.krnl, pageIx host (vaddr >>> 12)) (Fin.ofNat 4096 vaddr)
      else none := by
  rw [readKernelMem]
  cases hres : c.krnl.mm.resolve rgid off with
  | none => rfl
  | some vaddr =>
      simp only [kernelFrame, pteGetEntry_fst, Option.bind_some, State.content, pager_res_krnl]
      cases hpres : pagingPagePresent ((c.krnl.mm.entry (pageIx host (vaddr >>> 12))).setWidth 32) with
      | false => simp
      | true =>
          have hram := residence_eq_ram hpres
          have hmem : (c.pager pid others).res (.krnl, pageIx host (vaddr >>> 12)) = _ := hram
          have hrdm := (h.devices.ram_holds trivial _ (h.within.ram_mem hmem)).rdm
          rw [hram]
          simp only [if_true, memphyRead, hrdm, phyaddr_eq]
          rfl

/-- Paging and writes to user memory leave the bytes of the kernel alone. -/
theorem readKernelMem_kept (h : FrameInv host True R S pid others c)
    (h' : FrameInv host True R S pid others c') (honly : PagingOnly c c') {B : Set ByteKey}
    (hB : ∀ b ∈ B, b.1.1 = .proc pid) (hrun : Run True B (c.pager pid others) (c'.pager pid others))
    (rgid off : ℕ) : (readKernelMem host c' rgid off).1 = (readKernelMem host c rgid off).1 := by
  have hresolve : c'.krnl.mm.resolve rgid off = c.krnl.mm.resolve rgid off := by
    rw [honly.same.krnl_mm]
    rfl
  rw [h.readKernel_content, h'.readKernel_content, hresolve, honly.same.krnl_entry]
  congr 1
  funext vaddr
  split
  · next hpres =>
      have hmapped : (c.pager pid others).res (.krnl, pageIx host (vaddr >>> 12)) ≠ .none := by
        rw [pager_res_krnl, residence_eq_ram hpres]
        exact Residence.noConfusion
      exact hrun.content_eq trivial h.wf hmapped fun hmem => Owner.noConfusion (hB _ hmem)
  · rfl

theorem owner_of_mem_accessBytes {A : Set ℕ} : ∀ b ∈ accessBytes host pid A, b.1.1 = .proc pid := by
  rintro _ ⟨a, -, rfl⟩
  rfl

end Bytes

/-! ## The loop -/

section Loop

variable {host : Host} {R S : Set ℕ} {pid : ℕ} {others : ℕ → PageIx → Residence} {c : Caller}
variable {source destination offset : ℕ}

/-- A copy that ends has read its first byte, written it, and gone on with the next. -/
theorem copyLoop_succ_ok {n i : ℕ}
    (hok : (copyLoop host source destination offset (n + 1) i c).1 = 0) :
    ∃ b c₁ c₂, readKernelMem host c source (uint32 (offset + i)) = (some b, c₁) ∧
      writeUserMem host c₁ destination (uint32 (offset + i)) b = (0, c₂) ∧
      copyLoop host source destination offset (n + 1) i c =
        copyLoop host source destination offset n (i + 1) c₂ := by
  cases hread : readKernelMem host c source (uint32 (offset + i)) with
  | mk byte c₁ =>
      cases byte with
      | none =>
          rw [copyLoop, hread] at hok
          exact absurd hok (by simp)
      | some b =>
          cases hwrite : writeUserMem host c₁ destination (uint32 (offset + i)) b with
          | mk st c₂ =>
              by_cases hst : st = 0
              · subst hst
                exact ⟨b, c₁, c₂, rfl, hwrite, copyLoop_succ hread hwrite⟩
              · rw [copyLoop, hread] at hok
                simp only [hwrite] at hok
                exact absurd hok (by simp)

/-- A copy that returns 0 has gone through its loop. -/
theorem libkmemCopy_of_ok {size : ℕ} (hok : (libkmemCopy host c source destination offset size).1 = 0) :
    libkmemCopy host c source destination offset size =
      copyLoop host source destination offset size 0 c := by
  rw [libkmemCopy] at hok ⊢
  split at hok
  · exact absurd hok (by simp)
  · next hsize => rw [if_neg hsize]

/-- A write that succeeds has an address. -/
theorem resolve_of_writeUserMem {rgid off : ℕ} {v : Byte} {c' : Caller}
    (h : writeUserMem host c rgid off v = (0, c')) : ∃ a, c.mm.resolve rgid off = some a := by
  rw [writeUserMem] at h
  cases hres : c.mm.resolve rgid off with
  | none =>
      rw [hres] at h
      exact absurd (congrArg Prod.fst h) (by simp)
  | some a => exact ⟨a, rfl⟩

/-- **Loop.** When the copy ends, the bytes from number `i` on are those the kernel region held when it
    began. -/
theorem FrameInv.copied (hc : ∀ n, host.calloc n = true) (hp : PoolsOk R S)
    (h : FrameInv host True R S pid others c) {n i : ℕ}
    (hok : (copyLoop host source destination offset n i c).1 = 0) :
    let c' := (copyLoop host source destination offset n i c).2
    ∀ k < n, ∃ a b, c.mm.resolve destination (uint32 (offset + (i + k))) = some a ∧
      (readKernelMem host c source (uint32 (offset + (i + k)))).1 = some b ∧
      (c'.pager pid others).content (accessByte host pid a).1 (accessByte host pid a).2 = some b := by
  induction n generalizing c i with
  | zero => exact fun k hk => absurd hk (Nat.not_lt_zero k)
  | succ n ih =>
      obtain ⟨b, c₁, c₂, hread, hwrite, heq⟩ := copyLoop_succ_ok hok
      -- byte `i`: the read moves nothing, and the write may move pages of the user only
      obtain ⟨hpaged₁, -, hpager₁⟩ := h.readKernel source (uint32 (offset + i))
      rw [hread] at hpaged₁ hpager₁
      obtain ⟨a, ha⟩ := resolve_of_writeUserMem hwrite
      obtain ⟨hpaged₂, hcont⟩ :=
        hpaged₁.inv.writeUser hc hp destination (uint32 (offset + i)) b
      rw [hwrite] at hpaged₂ hcont
      have hstart := hcont a rfl ha trivial
      have honly := hpaged₁.only.trans hpaged₂.only
      have hrun₂ := hpaged₂.run
      rw [hpager₁] at hrun₂
      have hkept : ∀ off, (readKernelMem host c₂ source off).1 = (readKernelMem host c source off).1 :=
        readKernelMem_kept h hpaged₂.inv honly owner_of_mem_accessBytes hrun₂ source
      rw [heq] at hok ⊢
      have hrest := ih hpaged₂.inv hok
      have hpaged₃ := hpaged₂.inv.copy hc hp source destination offset n (i + 1)
      intro c' k hk
      cases k with
      | zero =>
          rw [hpaged₁.only.resolve] at ha
          refine ⟨a, b, ha, congrArg Prod.fst hread, ?_⟩
          by_cases hagain : accessByte host pid a ∈
              accessBytes host pid (copiedAddrs host source destination offset n (i + 1) c₂)
          · -- the offsets have wrapped around to this one, and it is written with the same byte
            obtain ⟨a', ⟨k', hk', -, ha'⟩, hbyte⟩ := hagain
            obtain ⟨a'', b'', ha'', hb'', hcont''⟩ := hrest k' hk'
            obtain rfl : a' = a'' := Option.some.inj (ha'.symm.trans ha'')
            rw [honly.resolve] at ha'
            have hoff := resolve_accessByte_inj host pid (uint32_lt _) (uint32_lt _) ha ha' hbyte
            rw [hkept, ← hoff] at hb''
            obtain rfl : b = b'' := Option.some.inj ((congrArg Prod.fst hread).symm.trans hb'')
            rw [hbyte]
            exact hcont''
          · have hmapped := State.mapped_of_content hstart
            exact (hpaged₃.run.content_eq trivial hpaged₂.inv.wf hmapped hagain).trans hstart
      | succ k =>
          obtain ⟨a', b', ha', hb', hcont'⟩ := hrest k (by omega)
          have hix : i + (k + 1) = i + 1 + k := by omega
          rw [hix]
          refine ⟨a', b', ?_, ?_, hcont'⟩
          · rw [← honly.resolve]
            exact ha'
          · rw [← hkept]
            exact hb'

end Loop

end Ossim
