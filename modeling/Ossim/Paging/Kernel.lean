import Ossim.Paging.Access

set_option autoImplicit false

/-! # Kernel memory refines the pager

`__kmalloc` maps pages of the kernel to free frames of RAM. It does not look whether a page is mapped
already: a second request under the same number moves the page to a new frame, and the old frame is
never used again. The pages a request names are therefore touched. The other operations on kernel
memory are bookkeeping, and the copies write user memory. -/

namespace Ossim

open Pager

/-- The bytes of the kernel pages a request for `n` pages under the number `rgid` names. -/
def kernelBytes (host : Host) (rgid n : ℕ) : Set ByteKey :=
  {b | ∃ i < n, b.1 = (.krnl, pageIx host (kmallocPgn rgid i))}

/-- The pages after one entry of the kernel changed. -/
theorem pager_res_updateKrnl {c c' : Caller} {pid : ℕ} {others : ℕ → PageIx → Residence} {p : PageIx}
    {w : BitVec 64} (hmm : c'.mm.entry = c.mm.entry)
    (hk : c'.krnl.mm.entry = Function.update c.krnl.mm.entry p w) :
    (c'.pager pid others).res = Function.update (c.pager pid others).res (.krnl, p) (residence w) := by
  funext ⟨o, q⟩
  cases o with
  | krnl =>
      rw [pager_res_krnl, hk]
      by_cases hq : q = p
      · rw [hq, Function.update_self, Function.update_self]
      · rw [Function.update_of_ne hq, Function.update_of_ne (by simpa using hq), pager_res_krnl]
  | proc n =>
      rw [Function.update_of_ne (by simp)]
      simp only [Caller.pager]
      rw [hmm]

section Kernel

variable {host : Host} {exact : Prop} {R S : Set ℕ} {pid : ℕ} {others : ℕ → PageIx → Residence}
variable {c : Caller}

/-- A kernel page is put in a free frame. If it was in another one, its content is lost. -/
theorem MemInv.mapKernel (hp : PoolsOk R S) (h : MemInv host exact R S pid others c) {f : ℕ}
    {rest : List ℕ} (used : List ℕ) (hcons : c.krnl.mram.freeFpList = f :: rest) {p : PageIx} {v : BitVec 64}
    {mm : Mm} (hentry : mm.entry = Function.update c.krnl.mm.entry p (pteFpnWord v f)) :
    let c' : Caller := { c with krnl := { c.krnl with
      mram := { c.krnl.mram with freeFpList := rest, usedFpList := used }, mm := mm } }
    MemInv host exact R S pid others c' ∧
    Run exact {b | b.1 = (.krnl, p)} (c.pager pid others) (c'.pager pid others) := by
  intro c'
  have hmem : f ∈ (c.pager pid others).ramFree := by simp [Caller.pager, hcons]
  have hlt := hp.ram_lt f (h.within.ram_free hmem)
  obtain ⟨hnot, hnodup⟩ := List.nodup_cons.1 (hcons ▸ h.devices.ram_nodup)
  have hres : (c'.pager pid others).res =
      Function.update (c.pager pid others).res (.krnl, p) (.ram f) := by
    rw [← residence_pteFpnWord v hlt]
    exact pager_res_updateKrnl rfl hentry
  have hfree : (c'.pager pid others).ramFree = (c.pager pid others).ramFree \ {f} := by
    ext g
    simp only [Caller.pager, c', hcons, Set.mem_sdiff, Set.mem_ofPred_eq, List.mem_cons,
      Set.mem_singleton_iff]
    exact mem_tail_iff hnot
  have hrun : Run exact {b | b.1 = (.krnl, p)} (c.pager pid others) (c'.pager pid others) := by
    have hstate : c'.pager pid others = { c.pager pid others with
        res := Function.update (c.pager pid others).res (.krnl, p) (.ram f)
        ramFree := (c.pager pid others).ramFree \ {f} } := State.ext hres hfree rfl rfl rfl
    rw [hstate]
    cases hold : (c.pager pid others).res (.krnl, p) with
    | none => exact .single (.map hold hmem) (Set.empty_subset _)
    | ram g => exact .single (.remap hold hmem) (Set.Subset.refl _)
    -- pages of the kernel are never on the swap device
    | swap t =>
        rw [pager_res_krnl] at hold
        exact absurd (h.pinned p) (by simp [swapped_of_residence hold])
  refine ⟨⟨hrun.wf h.wf, hrun.within h.within, ?_, h.pages, h.regions, fun q => ?_⟩, hrun⟩
  · exact ⟨hnodup, h.devices.swap_nodup, h.devices.registered,
      fun he g hg => ⟨(h.devices.ram_holds he g hg).rdm, (h.devices.ram_holds he g hg).fits⟩,
      h.devices.swap_holds⟩
  · change pagingPageSwapped ((mm.entry q).setWidth 32) = false
    rw [hentry, Function.update_apply]
    split
    · exact swapped_pteFpnWord ..
    · exact h.pinned q

/-- One iteration of `__kmalloc`, its allocations granted. -/
theorem kmallocLoop_succ (hc : ∀ n, host.calloc n = true) {rgid n i f : ℕ} {krnl : Krnl}
    {mram : Memphy} (hget : memphyGetFreefp krnl.mram = some (f, mram)) :
    ∃ mm, kmallocLoop host rgid (n + 1) i krnl =
        kmallocLoop host rgid n (i + 1) { krnl with mram := mram, mm := mm } ∧
      mm.symrgtbl = krnl.mm.symrgtbl ∧ mm.kcpooltbl = krnl.mm.kcpooltbl ∧
      mm.entry = Function.update krnl.mm.entry (pageIx host (kmallocPgn rgid i))
        (pteFpnWord (krnl.mm.entry (pageIx host (kmallocPgn rgid i))) f) := by
  obtain ⟨mm, hsym, hpool, ⟨hdenied, -⟩ | ⟨hentry, heq⟩⟩ :=
    @kmallocLoop_some host rgid n i _ _ _ hget
  · exact absurd hc hdenied
  · exact ⟨mm, heq, hsym, hpool, hentry⟩

/-- What `__kmalloc` leaves alone in the kernel: the symbol table, and the entries of the pages the
    request does not name. -/
structure KmallocOnly (host : Host) (rgid n : ℕ) (krnl krnl' : Krnl) : Prop where
  symrgtbl : krnl'.mm.symrgtbl = krnl.mm.symrgtbl
  entry : ∀ p, (∀ i < n, p ≠ pageIx host (kmallocPgn rgid i)) →
    krnl'.mm.entry p = krnl.mm.entry p

theorem KmallocOnly.refl (host : Host) (rgid n : ℕ) (krnl : Krnl) : KmallocOnly host rgid n krnl krnl :=
  ⟨rfl, fun _ _ => rfl⟩

/-- The loop of `__kmalloc`, at page `i` of a request for `N`. -/
theorem kmallocLoop_spec (hc : ∀ n, host.calloc n = true) (hp : PoolsOk R S)
    (h : MemInv host exact R S pid others c) {rgid n i N : ℕ} (hN : i + n ≤ N) :
    let c' : Caller := { c with krnl := (kmallocLoop host rgid n i c.krnl).2 }
    MemInv host exact R S pid others c' ∧ KmallocOnly host rgid N c.krnl c'.krnl ∧
    Run exact (kernelBytes host rgid N) (c.pager pid others) (c'.pager pid others) := by
  induction n generalizing c i with
  | zero => exact ⟨h, .refl .., .refl _⟩
  | succ n ih =>
      cases hget : memphyGetFreefp c.krnl.mram with
      | none =>
          rw [kmallocLoop, hget]
          exact ⟨h, .refl .., .refl _⟩
      | some r =>
          obtain ⟨f, mram⟩ := r
          obtain ⟨mm, heq, hsym, -, hentry⟩ := @kmallocLoop_succ _ hc rgid n i _ _ _ hget
          obtain ⟨rest, hcons, rfl⟩ := memphyGetFreefp_eq_some hget
          obtain ⟨h₁, hrun₁⟩ := h.mapKernel hp (f :: c.krnl.mram.usedFpList) hcons hentry
          rw [heq]
          obtain ⟨h₂, honly₂, hrun₂⟩ := ih h₁ (by omega : i + 1 + n ≤ N)
          refine ⟨h₂, ⟨honly₂.symrgtbl.trans hsym, fun p hp => ?_⟩, (hrun₁.mono ?_).trans hrun₂⟩
          · rw [honly₂.entry p hp]
            change mm.entry p = _
            rw [hentry, Function.update_of_ne (hp i (by omega))]
          · intro b hb
            exact ⟨i, by omega, hb⟩

theorem kmalloc_spec (hc : ∀ n, host.calloc n = true) (hp : PoolsOk R S)
    (h : MemInv host exact R S pid others c) (rgid size : ℕ) :
    let c' := (kmalloc host c rgid size).2
    MemInv host exact R S pid others c' ∧ c'.proc = c.proc ∧
    KmallocOnly host rgid (kmallocNumPages size) c.krnl c'.krnl ∧
    Run exact (kernelBytes host rgid (kmallocNumPages size)) (c.pager pid others)
      (c'.pager pid others) := by
  rw [kmalloc]
  split
  · exact ⟨h, rfl, .refl .., .refl _⟩
  · obtain ⟨h', honly, hrun⟩ := kmallocLoop_spec hc hp h
      (Nat.le_of_eq (Nat.zero_add (kmallocNumPages size)))
    exact ⟨h', rfl, honly, hrun⟩

/-! ## Cache pools -/

/-- Bookkeeping of the kernel that leaves its page table alone. -/
theorem MemInv.setKrnlMm (h : MemInv host exact R S pid others c) (mm : Mm)
    (hentry : mm.entry = c.krnl.mm.entry) :
    let c' : Caller := { c with krnl := { c.krnl with mm := mm } }
    MemInv host exact R S pid others c' ∧ c'.pager pid others = c.pager pid others := by
  intro c'
  have hpager : c'.pager pid others = c.pager pid others :=
    State.ext (pager_res_congr rfl hentry) rfl rfl rfl rfl
  refine ⟨⟨hpager ▸ h.wf, hpager ▸ h.within, ?_, h.pages, h.regions, ?_⟩, hpager⟩
  · exact ⟨h.devices.ram_nodup, h.devices.swap_nodup, h.devices.registered, h.devices.ram_holds,
      h.devices.swap_holds⟩
  · intro p
    rw [show c'.krnl.mm.entry = _ from hentry]
    exact h.pinned p

theorem libkmemCachePoolCreate_spec (hc : ∀ n, host.calloc n = true) (hp : PoolsOk R S)
    (h : MemInv host exact R S pid others c) (size align cachePoolId : ℕ) :
    let c' := (libkmemCachePoolCreate host c size align cachePoolId).2
    MemInv host exact R S pid others c' ∧ c'.proc = c.proc ∧
    KmallocOnly host cachePoolId (kmallocNumPages size) c.krnl c'.krnl ∧
    Run exact (kernelBytes host cachePoolId (kmallocNumPages size)) (c.pager pid others)
      (c'.pager pid others) := by
  rw [libkmemCachePoolCreate]
  split
  · exact ⟨h, rfl, .refl .., .refl _⟩
  · obtain ⟨h₁, hpager₁⟩ := h.setKrnlMm c.krnl.withKcpooltbl.mm rfl
    simp only
    split
    · exact ⟨h₁, rfl, ⟨rfl, fun _ _ => rfl⟩, by rw [← hpager₁]; exact .refl _⟩
    · -- the table is made first, then the pages of the pool, and the pool is entered at last
      obtain ⟨h₂, hproc₂, honly₂, hrun₂⟩ := kmalloc_spec hc hp h₁ cachePoolId size
      rw [hpager₁] at hrun₂
      change KmallocOnly host cachePoolId (kmallocNumPages size) c.krnl.withKcpooltbl _ at honly₂
      have honly : KmallocOnly host cachePoolId (kmallocNumPages size) c.krnl
          (kmalloc host { c with krnl := c.krnl.withKcpooltbl } cachePoolId size).2.krnl :=
        ⟨honly₂.symrgtbl, honly₂.entry⟩
      split
      · next c₂ heq =>
          change MemInv host exact R S pid others
            (kmalloc host { c with krnl := c.krnl.withKcpooltbl } cachePoolId size).2 at h₂
          rw [heq] at h₂
          obtain ⟨h₃, hpager₃⟩ := h₂.setKrnlMm (c₂.krnl.mm.setPool cachePoolId
            { size := cInt size, align := cInt align, storage := kmallocVaddr cachePoolId
              storage_lt := Nat.mod_lt _ (by decide) }) rfl
          rw [heq] at honly
          refine ⟨h₃, ?_, ⟨honly.symrgtbl, honly.entry⟩, ?_⟩
          · exact (congrArg (fun r => r.2.proc) heq).symm.trans hproc₂
          · rw [hpager₃]
            convert hrun₂ using 2
            exact (congrArg Prod.snd heq).symm
      · next c₂ _ heq =>
          have hsnd : c₂ = (kmalloc host { c with krnl := c.krnl.withKcpooltbl } cachePoolId size).2 :=
            (congrArg Prod.snd heq).symm
          rw [hsnd]
          exact ⟨h₂, hproc₂, honly, hrun₂⟩

/-- `__kmem_cache_alloc` hands out a slot: one entry of the kernel's symbol table changes. -/
theorem kmemCacheAlloc_spec (h : MemInv host exact R S pid others c) {rgid cachePoolId : ℕ} {st : ℤ}
    {c' : Caller} (hstep : kmemCacheAlloc c rgid cachePoolId = some (st, c')) :
    MemInv host exact R S pid others c' ∧ c'.proc = c.proc ∧
    c'.krnl.mm.entry = c.krnl.mm.entry ∧ c'.pager pid others = c.pager pid others ∧
    ∀ i ≠ rgid, c'.krnl.mm.symrgtbl i = c.krnl.mm.symrgtbl i := by
  rw [kmemCacheAlloc] at hstep
  split at hstep
  · cases hstep
    exact ⟨h, rfl, rfl, rfl, fun _ _ => rfl⟩
  · split at hstep
    · exact absurd hstep (by simp)
    · simp only at hstep
      split_ifs at hstep
      · cases hstep
        exact ⟨h, rfl, rfl, rfl, fun _ _ => rfl⟩
      · cases hstep
        obtain ⟨h', hpager⟩ := h.setKrnlMm ((c.krnl.mm.setPool _ _).setSymrg rgid _) rfl
        exact ⟨h', rfl, rfl, hpager, fun i hi => Function.update_of_ne hi ..⟩
      · -- the slot taken back
        cases hstep
        obtain ⟨h', hpager⟩ := h.setKrnlMm (c.krnl.mm.setPool _ _) rfl
        exact ⟨h', rfl, rfl, hpager, fun _ _ => rfl⟩

/-! ## Copies -/

/-- Reading a byte of kernel memory only counts. -/
theorem FrameInv.readKernel (h : FrameInv host exact R S pid others c) (rgid off : ℕ) :
    let c' := (readKernelMem host c rgid off).2
    Paged host exact R S pid others ∅ c c' ∧ c'.mm = c.mm ∧
    c'.pager pid others = c.pager pid others := by
  rw [readKernelMem]
  cases hres : c.krnl.mm.resolve rgid off with
  | none => exact ⟨.refl h _, rfl, rfl⟩
  | some vaddr =>
      have hsnd := pteGetEntry_snd host c.krnl.mm (vaddr >>> 12)
      have hentry := pteGetEntry_entry host c.krnl.mm (vaddr >>> 12)
      -- the walk through the tables is counted, and the frame is read in place
      generalize hc' : ({ c with krnl := { c.krnl with
          mm := (pteGetEntry host c.krnl.mm (vaddr >>> 12)).2 } } : Caller) = c'
      have hpager : c'.pager pid others = c.pager pid others := by
        rw [← hc']
        exact State.ext (pager_res_congr rfl hentry) rfl rfl rfl rfl
      have hpaged : Paged host exact R S pid others ∅ c c' := by
        have hdev := h.devices
        refine ⟨⟨hpager ▸ h.wf, hpager ▸ h.within, ?_, ?_⟩, ?_, ?_, hpager ▸ .refl _⟩ <;> rw [← hc']
        · exact ⟨hdev.ram_nodup, hdev.swap_nodup, hdev.registered, hdev.ram_holds, hdev.swap_holds⟩
        · exact h.fifo
        · exact ⟨⟨rfl, hsnd⟩, rfl, rfl, fun _ hf => hf, fun _ ht => ht⟩
        · exact .refl
      have hmm : c'.mm = c.mm := by rw [← hc']; rfl
      simp only [kernelFrame]
      split
      · next heq =>
          obtain ⟨-, rfl⟩ := Prod.mk.inj heq
          simp only [hc']
          exact ⟨hpaged, hmm, hpager⟩
      · next heq =>
          obtain ⟨-, rfl⟩ := Prod.mk.inj heq
          simp only [memphyRead_snd, hc']
          exact ⟨hpaged, hmm, hpager⟩

theorem readKernelMem_spec (h : MemInv host exact R S pid others c) (rgid off : ℕ) :
    let c' := (readKernelMem host c rgid off).2
    MemInv host exact R S pid others c' ∧ PagingOnly c c' ∧
    c'.pager pid others = c.pager pid others := by
  obtain ⟨hpaged, -, hpager⟩ := h.frameInv.readKernel rgid off
  exact ⟨hpaged.memInv h, hpaged.only, hpager⟩

/-- One byte copied. -/
theorem copyLoop_succ {source destination offset n i : ℕ} {b : Byte} {c₁ c₂ : Caller}
    (hread : readKernelMem host c source (uint32 (offset + i)) = (some b, c₁))
    (hwrite : writeUserMem host c₁ destination (uint32 (offset + i)) b = (0, c₂)) :
    copyLoop host source destination offset (n + 1) i c =
      copyLoop host source destination offset n (i + 1) c₂ := by
  rw [copyLoop, hread]
  simp only [hwrite]

/-- The addresses the copy of `n` bytes from byte `i` on writes: those of the bytes it gets to. -/
def copiedAddrs (host : Host) (source destination offset n i : ℕ) (c : Caller) : Set ℕ :=
  {a | ∃ k < n, (copyLoop host source destination offset (k + 1) i c).1 = 0 ∧
    c.mm.resolve destination (uint32 (offset + (i + k))) = some a}

/-- The copies touch the bytes they get to. -/
theorem FrameInv.copy (hc : ∀ n, host.calloc n = true) (hp : PoolsOk R S)
    (h : FrameInv host exact R S pid others c) (source destination offset n i : ℕ) :
    Paged host exact R S pid others
      (accessBytes host pid (copiedAddrs host source destination offset n i c)) c
      (copyLoop host source destination offset n i c).2 := by
  induction n generalizing c i with
  | zero => exact .refl h _
  | succ n ih =>
      obtain ⟨hpaged₁, -, hpager₁⟩ := h.readKernel source (uint32 (offset + i))
      cases hread : readKernelMem host c source (uint32 (offset + i)) with
      | mk byte c₁ =>
          rw [hread] at hpaged₁ hpager₁
          cases byte with
          | none =>
              -- an unreadable source byte ends the copy
              rw [copyLoop, hread]
              exact hpaged₁.mono (Set.empty_subset _)
          | some b =>
              obtain ⟨hpaged₂, -⟩ :=
                hpaged₁.inv.writeUser hc hp destination (uint32 (offset + i)) b
              cases hwrite : writeUserMem host c₁ destination (uint32 (offset + i)) b with
              | mk st c₂ =>
                  rw [hwrite] at hpaged₂
                  refine (hpaged₁.mono (Set.empty_subset _)).trans ?_
                  by_cases hst : st = 0
                  · subst hst
                    have hpaged₃ := ih hpaged₂.inv (i + 1)
                    rw [copyLoop_succ hread hwrite]
                    refine (hpaged₂.mono ?_).trans (hpaged₃.mono ?_)
                    -- the first byte is number 0 of this call, those of the rest move up by one
                    · rintro _ ⟨a, ⟨-, ha⟩, rfl⟩
                      refine ⟨a, ⟨0, by omega, ?_, ?_⟩, rfl⟩
                      · rw [copyLoop_succ hread hwrite]
                        rfl
                      · rw [hpaged₁.only.resolve] at ha
                        exact ha
                    · rintro _ ⟨a, ⟨k, hk, hok, ha⟩, rfl⟩
                      refine ⟨a, ⟨k + 1, by omega, ?_, ?_⟩, rfl⟩
                      · rw [copyLoop_succ hread hwrite]
                        exact hok
                      · rw [(hpaged₁.only.trans hpaged₂.only).resolve] at ha
                        rw [← ha]
                        congr 2
                        omega
                  · -- a write that fails ends the copy; it may have paged
                    have hstop : (copyLoop host source destination offset (n + 1) i c).2 = c₂ := by
                      rw [copyLoop, hread]
                      simp only [hwrite]
                    rw [hstop]
                    refine hpaged₂.mono ?_
                    rintro _ ⟨a, ⟨hz, -⟩, rfl⟩
                    exact absurd hz hst

theorem copyLoop_spec (hc : ∀ n, host.calloc n = true) (hp : PoolsOk R S)
    (h : MemInv host exact R S pid others c) (source destination offset n i : ℕ) :
    let c' := (copyLoop host source destination offset n i c).2
    MemInv host exact R S pid others c' ∧ PagingOnly c c' ∧
    Run exact (userBytes host pid (copiedAddrs host source destination offset n i c))
      (c.pager pid others) (c'.pager pid others) := by
  have hpaged := h.frameInv.copy hc hp source destination offset n i
  refine ⟨hpaged.memInv h, hpaged.only, hpaged.run.mono (accessBytes_subset host pid ?_)⟩
  rintro a ⟨k, -, -, ha⟩
  exact resolve_lt_int h ha

theorem libkmemCopy_spec (hc : ∀ n, host.calloc n = true) (hp : PoolsOk R S)
    (h : MemInv host exact R S pid others c) (source destination offset size : ℕ) :
    let c' := (libkmemCopy host c source destination offset size).2
    MemInv host exact R S pid others c' ∧ PagingOnly c c' ∧
    Run exact (userBytes host pid (copiedAddrs host source destination offset size 0 c))
      (c.pager pid others) (c'.pager pid others) := by
  rw [libkmemCopy]
  split
  · exact ⟨h, .refl c, .refl _⟩
  · exact copyLoop_spec hc hp h source destination offset size 0

end Kernel

end Ossim
