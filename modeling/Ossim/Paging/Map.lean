import Ossim.Paging.Fault
import Ossim.Vm.Frames

set_option autoImplicit false

/-! # Growing an area refines the pager

`alloc_pages_range` takes frames off the free list or gives all of them back, and `vmap_page_range`
puts the new pages of the area in them, one after the other. The new pages lie beyond the old end of
the area, so nothing is mapped there yet. -/

namespace Ossim

open Pager

section Map

variable {host : Host} {exact : Prop} {R S : Set ℕ} {pid : ℕ} {others : ℕ → PageIx → Residence}
variable {c : Caller}

/-! ## Mapping pages -/

theorem vmapPagesLoop_succ (hc : ∀ n, host.calloc n = true) {addr n pgit fpn pgn : ℕ}
    {fpit : List ℕ} (hpgn : addrT (addr + addrOfInt (pgit * paging64Pagesz)) >>> 12 = pgn) :
    vmapPagesLoop host addr (n + 1) pgit (fpn :: fpit) c.mm =
      vmapPagesLoop host addr n (pgit + 1) fpit (installPage host c pgn fpn).mm := by
  rw [vmapPagesLoop, hpgn]
  have hst : (pteSetFpn host c.mm pgn fpn).1 = 0 := pteSetFpn_fst _ _ _ hc _
  change _ = vmapPagesLoop host addr n (pgit + 1) fpit
    (enlistPgnNode (pteSetFpn host c.mm pgn fpn).2 pgn)
  generalize pteSetFpn host c.mm pgn fpn = r at hst
  obtain ⟨st, mm⟩ := r
  simp only at hst
  subst hst
  rfl

theorem vmapPagesLoop_spec (hc : ∀ n, host.calloc n = true) (hp : PoolsOk R S)
    (h : MemInv host exact R S pid others c) {a n pgit : ℕ} {fpit : List ℕ} {c₁ : Caller}
    (hlen : fpit.length = n) (hf : HoldsFrames host exact R S pid others c c₁ fpit)
    (hlt : a + pgit + n < 2 ^ 19)
    (hend : c.proc.registered = true → a + pgit + n ≤ c.mm.mmap.vmEnd / 4096)
    (hnone : ∀ k < n, residence (c₁.mm.entry (pageIx host (a + pgit + k))) = .none) :
    HoldsFrames host exact R S pid others c
      (c₁.setMm (vmapPagesLoop host (a * 4096) n pgit fpit c₁.mm).2) [] := by
  induction n generalizing pgit fpit c₁ with
  | zero =>
      obtain rfl := List.length_eq_zero_iff.1 hlen
      exact hf
  | succ n ih =>
      obtain ⟨f, rest, rfl⟩ := List.exists_cons_of_length_eq_add_one hlen
      have hpage : addrT (a * 4096 + addrOfInt (pgit * paging64Pagesz)) >>> 12 = a + pgit := by
        rw [paging64Pagesz, addrOfInt_of_lt (by omega), addrT_of_lt (by omega),
          Nat.shiftRight_eq_div_pow]
        omega
      have hres := hnone 0 (by omega)
      rw [Nat.add_zero] at hres
      have hpgnend : c.proc.registered = true → a + pgit < c.mm.mmap.vmEnd / 4096 := fun hreg => by
        have hle := hend hreg
        omega
      have hnext : ∀ k, a + (pgit + 1) + k = a + pgit + (k + 1) := fun k => by omega
      have hnext' : a + (pgit + 1) + n = a + pgit + (n + 1) := hnext n
      -- the pages still to be mapped are other pages
      have hne : ∀ k < n, pageIx host (a + pgit + (k + 1)) ≠ pageIx host (a + pgit) := by
        intro k hk he
        have hinj := pageIx_inj host (by omega) (by omega) he
        omega
      have hpgnlt : a + pgit < 2 ^ 45 := by omega
      rw [vmapPagesLoop_succ hc hpage]
      generalize a + pgit = pgn at *
      obtain ⟨habs, hsw⟩ := absent_of_residence hres
      obtain ⟨hf', -, hkeep⟩ := hf.install hc hp h hpgnlt
        (fun hreg => by have hlt := hpgnend hreg; omega) habs
      have hnoswap : swapIn host c₁ ((c₁.mm.entry (pageIx host pgn)).setWidth 32) f = c₁ := by
        simp [swapIn, hsw]
      rw [hnoswap] at hf' hkeep
      refine @ih _ _ (installPage host c₁ pgn f) (by simpa using hlen) hf' (by omega)
        (fun hreg => hnext' ▸ hend hreg) (fun k hk => ?_)
      rw [hnext k, hkeep _ (hne k hk)]
      exact hnone (k + 1) (by omega)

/-- `vm_map_ram` on `n` pages from page `a` on, of which none is mapped. -/
theorem vmMapRam_spec (hg : host.Generous) (hp : PoolsOk R S)
    (h : MemInv host exact R S pid others c) {a n : ℕ} (hlt : a + n < 2 ^ 19)
    (hend : c.proc.registered = true → a + n ≤ c.mm.mmap.vmEnd / 4096)
    (hnone : ∀ k < n, residence (c.mm.entry (pageIx host (a + k))) = .none) :
    let c' := (vmMapRam host c (a * 4096) n).2
    MemInv host exact R S pid others c' ∧
    Run exact ∅ (c.pager pid others) (c'.pager pid others) := by
  have hfree : ∀ f ∈ c.krnl.mram.freeFpList, f < 2 ^ 31 := by
    intro f hf
    have hf' := hp.ram_lt f (h.within.ram_free (f := f) hf)
    omega
  rw [vmMapRam_snd]
  by_cases hgranted : FramesGranted host c.krnl.mram n
  · simp only [allocPagesRange_of_granted hgranted, if_true, vmapPageRange_snd]
    have hlen := List.length_take_of_le hgranted.1
    have hheld₀ : HoldsFrames host exact R S pid others c
        (c.setMram { c.krnl.mram with
          freeFpList := c.krnl.mram.freeFpList.drop n
          usedFpList := (c.krnl.mram.freeFpList.take n).reverse ++ c.krnl.mram.usedFpList })
        (c.krnl.mram.freeFpList.take n) :=
      .of_free h (List.take_append_drop ..).symm
    have hheld := @vmapPagesLoop_spec _ _ _ _ _ _ _ hg.1 hp h a n 0 _ _ hlen hheld₀ hlt hend hnone
    exact ⟨hheld.memInv h, hheld.run⟩
  · obtain ⟨free, hperm, heq⟩ := allocPagesRange_of_not_granted hfree hgranted
    have hne : ¬ (-3000 : ℤ) = 0 := by omega
    simp only [heq, if_neg hne]
    have hpager : (c.setMram { c.krnl.mram with freeFpList := free }).pager pid others =
        c.pager pid others := by
      refine State.ext rfl ?_ rfl rfl rfl
      ext f
      simp [Caller.pager, hperm.mem_iff]
    have honly : PagingOnly c (c.setMram { c.krnl.mram with freeFpList := free }) :=
      .setMram c rfl rfl
    refine ⟨⟨hpager ▸ h.wf, hpager ▸ h.within, ?_, h.pages, h.regions, h.pinned⟩, hpager ▸ .refl _⟩
    exact honly.devicesOk h.devices (hperm.nodup_iff.2 h.devices.ram_nodup) h.devices.swap_nodup

/-- The arithmetic of `inc_vma_limit`: where the end of the area moves up, nothing wrapped. -/
theorem incVmaLimit_arith {vmEnd sbrk incSz : ℕ} (hbrk : sbrk ≤ vmEnd)
    (hgrow : vmEnd < addrT (vmEnd + paging64PageAlignsz incSz))
    (hlt : addrT (vmEnd + paging64PageAlignsz incSz) < 2 ^ 31) :
    addrT (vmEnd + paging64PageAlignsz incSz) = vmEnd + paging64PageAlignsz incSz ∧
    4096 ∣ paging64PageAlignsz incSz ∧
    sbrk ≤ addrT (sbrk + incSz) ∧
    addrT (sbrk + incSz) ≤ vmEnd + paging64PageAlignsz incSz := by
  simp only [addrT, paging64PageAlignsz, paging64Pagesz] at *
  omega

theorem MemInv.setArea (h : MemInv host exact R S pid others c) (hreg : c.proc.registered = true)
    {vmEnd sbrk : ℕ} (hend : c.mm.mmap.vmEnd ≤ vmEnd) (hdvd : 4096 ∣ vmEnd) (hlt : vmEnd < 2 ^ 31)
    (hbrk : c.mm.mmap.sbrk ≤ sbrk) (hle : sbrk ≤ vmEnd) :
    MemInv host exact R S pid others (c.setMm (c.mm.setArea vmEnd sbrk)) ∧
    (c.setMm (c.mm.setArea vmEnd sbrk)).pager pid others = c.pager pid others := by
  have hpager : (c.setMm (c.mm.setArea vmEnd sbrk)).pager pid others = c.pager pid others :=
    State.ext (pager_res_congr rfl rfl) rfl rfl rfl rfl
  refine ⟨⟨hpager ▸ h.wf, hpager ▸ h.within, ?_, ?_, ?_, h.pinned⟩, hpager⟩
  · exact ⟨h.devices.ram_nodup, h.devices.swap_nodup, h.devices.registered, h.devices.ram_holds,
      h.devices.swap_holds⟩
  · refine ⟨h.pages.marks, h.pages.fifo_nodup, h.pages.fifo_lt, h.pages.fifo_ram, fun hr pgn hpgn hle' => ?_⟩
    exact h.pages.fresh hr pgn hpgn (Nat.le_trans hend hle')
  · have hraise : heapEnd c.proc.registered c.mm ≤
        heapEnd c.proc.registered (c.mm.setArea vmEnd sbrk) := by
      rw [heapEnd, heapEnd, if_pos hreg, if_pos hreg]
      exact hbrk
    refine ⟨fun r hr => ?_, fun _ => ⟨hle, hdvd, hlt⟩, fun hr => ?_⟩
    · obtain ⟨h1, h2⟩ := h.regions.mem r hr
      exact ⟨h1, Nat.le_trans h2 hraise⟩
    · rw [Caller.setMm_registered, hreg] at hr
      exact absurd hr (by simp)

/-- The pages a growing area gets: they follow the old end, and nothing is mapped there. -/
theorem MemInv.grow_pages (h : MemInv host exact R S pid others c) (hreg : c.proc.registered = true)
    {incSz : ℕ} (hgrow : c.mm.mmap.vmEnd < addrT (c.mm.mmap.vmEnd + paging64PageAlignsz incSz))
    (hlt : addrT (c.mm.mmap.vmEnd + paging64PageAlignsz incSz) < 2 ^ 31) :
    ∃ a n, c.mm.mmap.vmEnd = a * 4096 ∧
      (cInt (paging64PageAlignsz incSz / paging64Pagesz)).toNat = n ∧
      addrT (c.mm.mmap.vmEnd + paging64PageAlignsz incSz) = (a + n) * 4096 ∧ a + n < 2 ^ 19 ∧
      ∀ k < n, residence (c.mm.entry (pageIx host (a + k))) = .none := by
  obtain ⟨hbrk, ⟨a, ha⟩, -⟩ := h.regions.brk hreg
  obtain ⟨hend, ⟨n, hn⟩, -, -⟩ := incVmaLimit_arith hbrk hgrow hlt
  refine ⟨a, n, by omega, ?_, by omega, by omega, fun k hk => ?_⟩
  · rw [paging64Pagesz, cInt_of_lt (by omega)]
    omega
  · exact h.pages.fresh hreg (a + k) (by omega) (by omega)

/-- **Growing an area** keeps the invariant and the content of every page. -/
theorem incVmaLimit_spec (hg : host.Generous) (hp : PoolsOk R S)
    (h : MemInv host exact R S pid others c) (hreg : c.proc.registered = true) {vmaid : ℤ}
    {incSz : ℕ} (hlt : (incVmaLimit host c vmaid incSz).2.mm.mmap.vmEnd < 2 ^ 31) :
    let c' := (incVmaLimit host c vmaid incSz).2
    MemInv host exact R S pid others c' ∧
    Run exact ∅ (c.pager pid others) (c'.pager pid others) := by
  rcases incVmaLimit_cases host c vmaid incSz with heq | ⟨-, -, hgrow, heq⟩
  · rw [heq]
    exact ⟨h, .refl _⟩
  · rw [heq] at hlt ⊢
    obtain ⟨-, -, hmmap, -⟩ := vmMapRam_same host
      (c.setMm (c.mm.setArea (addrT (c.mm.mmap.vmEnd + paging64PageAlignsz incSz))
        (addrT (c.mm.mmap.sbrk + incSz))))
      c.mm.mmap.vmEnd (cInt (paging64PageAlignsz incSz / paging64Pagesz)).toNat
    rw [hmmap] at hlt
    change addrT (c.mm.mmap.vmEnd + paging64PageAlignsz incSz) < 2 ^ 31 at hlt
    obtain ⟨hsum, -, hsb, hle⟩ := incVmaLimit_arith (h.regions.brk hreg).1 hgrow hlt
    obtain ⟨a, n, haddr, hn, hend, hpages, hnone⟩ := h.grow_pages hreg hgrow hlt
    rw [← hsum, hend] at hle
    rw [hend] at hlt
    rw [hn, hend]
    obtain ⟨h₀, hpager₀⟩ := h.setArea hreg (by omega) (Dvd.intro_left _ rfl) hlt hsb hle
    have hspec := vmMapRam_spec hg hp h₀ (a := a) (n := n) hpages
      (fun _ => by
        change _ ≤ (a + n) * 4096 / 4096
        omega)
      hnone
    rw [← haddr, hpager₀] at hspec
    exact hspec

/-! ## Allocating and freeing -/

theorem MemInv.setMm_regions (h : MemInv host exact R S pid others c) {mm : Mm}
    (hregions : RegionsOk c.proc.registered mm) (hentry : mm.entry = c.mm.entry)
    (hfifo : mm.fifoPgn = c.mm.fifoPgn) (hend : mm.mmap.vmEnd = c.mm.mmap.vmEnd) :
    MemInv host exact R S pid others (c.setMm mm) ∧
    (c.setMm mm).pager pid others = c.pager pid others := by
  have hpager : (c.setMm mm).pager pid others = c.pager pid others :=
    State.ext (pager_res_congr hentry rfl) rfl rfl rfl rfl
  refine ⟨⟨hpager ▸ h.wf, hpager ▸ h.within, ?_, ?_, hregions, h.pinned⟩, hpager⟩
  · exact ⟨h.devices.ram_nodup, h.devices.swap_nodup, h.devices.registered, h.devices.ram_holds,
      h.devices.swap_holds⟩
  · refine ⟨?_, ?_, ?_, ?_, ?_⟩ <;> simp only [Caller.setMm_mm, hentry, hfifo, hend]
    · exact h.pages.marks
    · exact h.pages.fifo_nodup
    · exact h.pages.fifo_lt
    · exact h.pages.fifo_ram
    · exact h.pages.fresh

theorem MemInv.allocAtBrk (h : MemInv host exact R S pid others c) {rgid size brk alignedSize : ℕ}
    (hid : rgid < pagingMaxSymtblSz) (hsz : size ≤ alignedSize)
    (hle : brk + alignedSize ≤ heapEnd c.proc.registered c.mm) :
    MemInv host exact R S pid others (c.setMm (Ossim.allocAtBrk c.mm rgid size brk alignedSize)) ∧
    (c.setMm (Ossim.allocAtBrk c.mm rgid size brk alignedSize)).pager pid others =
      c.pager pid others := by
  have hheap := h.regions.heapEnd_le
  obtain ⟨hmem, -⟩ := @allocAtBrk_regions c.mm rgid size brk alignedSize hid hsz (by omega)
  obtain ⟨hsbrk, hvmEnd⟩ := allocAtBrk_area c.mm rgid size brk alignedSize
  obtain ⟨hentry, hfifo⟩ := allocAtBrk_rest c.mm rgid size brk alignedSize
  refine h.setMm_regions ⟨fun r hr => ?_, ?_, ?_⟩ hentry hfifo hvmEnd
  · rw [heapEnd, hsbrk]
    rcases hmem r hr with hr | ⟨-, h1, h2⟩
    · exact h.regions.mem r hr
    · exact ⟨h1, Nat.le_trans h2 hle⟩
  · rw [hsbrk, hvmEnd]
    exact h.regions.brk
  · rw [hsbrk]
    exact h.regions.brk_zero

theorem allocBreak_spec (hg : host.Generous) (hp : PoolsOk R S) (h : MemInv host exact R S pid others c)
    {rgid size : ℕ} (hid : rgid < pagingMaxSymtblSz) (hsize : size < 2 ^ 31) :
    let brk := addrOfInt c.mm.mmap.sbrk
    let c₁ := if c.proc.registered then (incVmaLimit host c 0 (paging64PageAlignsz size)).2 else c
    (c.proc.registered = true → c₁.mm.mmap.vmEnd < 2 ^ 31) →
    let c' := c₁.setMm (Ossim.allocAtBrk c₁.mm rgid size brk (paging64PageAlignsz size))
    MemInv host exact R S pid others c' ∧
    Run exact ∅ (c.pager pid others) (c'.pager pid others) := by
  have halign := @paging64PageAlignsz_eq size (by omega)
  have hsz : size ≤ paging64PageAlignsz size := by omega
  -- a process that is not registered does not get the area it records a region in
  cases hreg : c.proc.registered with
  | false =>
      intro brk c₁ _ c'
      have hbrk : brk = 0 := by
        simp only [brk, h.regions.brk_zero hreg]
        decide
      have hle : brk + paging64PageAlignsz size ≤ heapEnd c.proc.registered c.mm := by
        rw [heapEnd, hreg, if_neg Bool.false_ne_true, hbrk]
        omega
      obtain ⟨hinv, hpager⟩ := h.allocAtBrk hid hsz hle
      exact ⟨hinv, hpager ▸ .refl _⟩
  | true =>
      intro brk c₁ hlt c'
      obtain ⟨hle, -, hvm⟩ := h.regions.brk hreg
      have hbrk : brk = c.mm.mmap.sbrk := addrOfInt_of_lt (by omega)
      obtain ⟨hmmap, -⟩ := incVmaLimit_limits host c (by omega) hvm hsize
      obtain ⟨h₁, hrun⟩ := incVmaLimit_spec hg hp h hreg (hlt rfl)
      have hreg₁ : c₁.proc.registered = true := (incVmaLimit_same host c _ _).registered.trans hreg
      have hle₁ : brk + paging64PageAlignsz size ≤ heapEnd c₁.proc.registered c₁.mm := by
        rw [heapEnd, hreg₁, if_pos rfl, hbrk]
        exact Nat.le_of_eq (congrArg VmArea.sbrk hmmap).symm
      obtain ⟨hinv, hpager⟩ := MemInv.allocAtBrk h₁ hid hsz hle₁
      exact ⟨hinv, hpager ▸ hrun⟩

/-- **Allocating** keeps the invariant and the content of every page. -/
theorem alloc_spec (hg : host.Generous) (hp : PoolsOk R S) (h : MemInv host exact R S pid others c)
    {rgid size : ℕ} (hsize : size < 2 ^ 31)
    (hlt : c.proc.registered = true → (alloc host c rgid size).2.2.mm.mmap.vmEnd < 2 ^ 31) :
    let c' := (alloc host c rgid size).2.2
    MemInv host exact R S pid others c' ∧
    Run exact ∅ (c.pager pid others) (c'.pager pid others) := by
  by_cases hid : pagingMaxSymtblSz ≤ rgid
  · rw [alloc, if_pos hid]
    exact ⟨h, .refl _⟩
  have hid : rgid < pagingMaxSymtblSz := Nat.lt_of_not_le hid
  have hheap := h.regions.heapEnd_le
  obtain ⟨hwf, hcases⟩ := freergFirstFit_spec hsize hheap c.mm.mmap.vmFreergList
    (fun r hr => h.regions.mem r (List.mem_append_right _ hr))
  have hserved := alloc_cases host c rgid hid hsize
  rcases hcases with ⟨hno, hsame⟩ | ⟨hlen, hend, -⟩
  · simp only [hno, hsame, if_true] at hserved
    have hmm : c.setMm { c.mm with mmap := { c.mm.mmap with
        vmFreergList := c.mm.mmap.vmFreergList } } = c := rfl
    rw [hmm] at hserved
    rw [hserved] at hlt ⊢
    refine allocBreak_spec hg hp h hid hsize fun hreg => ?_
    have hlt' := hlt hreg
    rwa [Caller.setMm_mm, (allocAtBrk_area ..).2] at hlt'
  · have hne : (freergFirstFit size c.mm.mmap.vmFreergList).1.rgStart ≠ noRg.rgStart := by
      change _ ≠ 2 ^ 64 - 1
      omega
    simp only [if_neg hne] at hserved
    rw [hserved]
    have hregions : RegionsOk c.proc.registered
        (({ c.mm with mmap := { c.mm.mmap with
          vmFreergList := (freergFirstFit size c.mm.mmap.vmFreergList).2 } } : Mm).setSymrg rgid
          (freergFirstFit size c.mm.mmap.vmFreergList).1) := by
      refine ⟨fun r hr => ?_, h.regions.brk, h.regions.brk_zero⟩
      rcases mem_regions_takeFree hr with rfl | hr | hr
      · exact ⟨by omega, hend⟩
      · exact h.regions.mem r hr
      · exact hwf r hr
    obtain ⟨hinv, hpager⟩ := h.setMm_regions hregions rfl rfl rfl
    exact ⟨hinv, hpager ▸ .refl _⟩

/-- **Freeing** keeps the invariant and touches no page. -/
theorem free_spec (h : MemInv host exact R S pid others c) (rgid : ℕ) :
    let c' := (free c rgid).2
    MemInv host exact R S pid others c' ∧ c'.pager pid others = c.pager pid others := by
  rw [free]
  split
  · exact ⟨h, rfl⟩
  · next hid =>
      simp only
      split
      · exact ⟨h, rfl⟩
      · obtain ⟨hsbrk, hend⟩ := enlistVmFreergList_area (c.mm.setSymrg rgid ⟨0, 0⟩)
          (c.mm.symrgtbl rgid)
        have hrest : (enlistVmFreergList (c.mm.setSymrg rgid ⟨0, 0⟩) (c.mm.symrgtbl rgid)).2.entry =
            c.mm.entry ∧
            (enlistVmFreergList (c.mm.setSymrg rgid ⟨0, 0⟩) (c.mm.symrgtbl rgid)).2.fifoPgn =
            c.mm.fifoPgn := by
          rw [enlistVmFreergList]
          split <;> exact ⟨rfl, rfl⟩
        refine h.setMm_regions ⟨fun r hr => ?_, ?_, ?_⟩ hrest.1 hrest.2 hend
        · rw [heapEnd, hsbrk]
          rcases mem_regions_release (Nat.lt_of_not_le hid) hr with rfl | hr
          · exact ⟨Nat.le_refl _, Nat.zero_le _⟩
          · exact h.regions.mem r hr
        · rw [hsbrk, hend]
          exact h.regions.brk
        · rw [hsbrk]
          exact h.regions.brk_zero

end Map

end Ossim
