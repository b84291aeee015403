import Ossim.Paging.LedgerMap
import Ossim.System.KernelRequests
import Ossim.System.Transparency

set_option autoImplicit false

/-! # The books of the system

The books of a system are those of the kernel and of the processes that have not been dropped: the
frames of a dropped process are nobody's. An instruction keeps them if it maps unmapped pages only
(`Caller.Tidy`), as the frames in use are then as many as the entries that name one (`NoLeak`). -/

namespace Ossim

open Pager

/-! ## Instructions -/

/-- The pages an instruction maps without being asked for one of them are unmapped, and it does not
    overwrite entries with the pattern of the map operation. A request for growth is cut to 32 bits. -/
def Caller.Tidy (host : Host) (c : Caller) (ins : Inst) : Prop :=
  match ins.opcode with
  | .alloc => c.AllocsUnmapped host (uint32 ins.arg1) ins.arg0
  | .syscall => uint32 ins.arg0 = 17 → c.proc.registered = true →
      (cInt ins.arg1 = sysmemMapOp → cInt ins.arg3 ≤ 0) ∧
      (cInt ins.arg1 = sysmemIncOp → c.GrowsUnmapped host (cInt ins.arg2) (uint32 ins.arg3))
  | .kmalloc | .kmemCacheCreate => ∀ r ∈ ins.request,
      Unmapped c.krnl.mm ((List.range (r.reach c.krnl)).map (r.page host))
  | _ => True

section Instructions

variable {host : Host} {pid : ℕ} {others : ℕ → PageIx → Residence} {c c' : Caller}

theorem kmalloc_booked (hc : ∀ n, host.calloc n = true) (h : c.Booked host pid others 0)
    {rgid size : ℕ}
    (hnone : Unmapped c.krnl.mm ((List.range (KRequest.reach ⟨rgid, size⟩ c.krnl)).map
      (KRequest.page host ⟨rgid, size⟩))) :
    (kmalloc host c rgid size).2.Booked host pid others 0 := by
  rw [kmalloc]
  split
  · exact h
  · rw [List.range_eq_range'] at hnone
    exact kmallocLoop_booked hc h hnone

theorem libkmemCachePoolCreate_booked (hc : ∀ n, host.calloc n = true)
    (h : c.Booked host pid others 0) {size align cachePoolId : ℕ}
    (hnone : ¬ (size = 0 ∨ align = 0 ∨ size < align) → cachePoolId < pagingMaxKcachePools →
      Unmapped c.krnl.mm ((List.range (KRequest.reach ⟨cachePoolId, size⟩ c.krnl)).map
        (KRequest.page host ⟨cachePoolId, size⟩))) :
    (libkmemCachePoolCreate host c size align cachePoolId).2.Booked host pid others 0 := by
  have h₁ : Caller.Booked host pid others 0 { c with krnl := c.krnl.withKcpooltbl } :=
    h.congr (.setKrnlMm c rfl)
  by_cases hargs : size = 0 ∨ align = 0 ∨ size < align
  · rw [libkmemCachePoolCreate, if_pos hargs]
    exact h
  · by_cases hid : cachePoolId < pagingMaxKcachePools
    · have h₂ : (kmalloc host { c with krnl := c.krnl.withKcpooltbl } cachePoolId size).2.Booked
          host pid others 0 := kmalloc_booked hc h₁ ((hnone hargs hid).congr rfl)
      exact h₂.congr (libkmemCachePoolCreate_books host c hargs hid)
    · rw [libkmemCachePoolCreate, if_neg hargs]
      simp only [if_pos (Nat.le_of_not_lt hid)]
      exact h₁

/-- Handing out a slot of a pool is bookkeeping of another kind. -/
theorem kmemCacheAlloc_books {rgid cachePoolId : ℕ} {st : ℤ}
    (h : kmemCacheAlloc c rgid cachePoolId = some (st, c')) : SameBooks c c' := by
  rw [kmemCacheAlloc] at h
  split at h
  · cases h
    exact .refl c
  · split at h
    · exact absurd h (by simp)
    · simp only at h
      split_ifs at h
      · cases h
        exact .refl c
      · cases h
        exact .setKrnlMm c rfl
      · cases h
        exact .setKrnlMm c rfl

/-- The memory system call with any operation and any operands. -/
theorem syscall_booked (hc : ∀ n, host.calloc n = true) (h : c.Booked host pid others 0) {nr : ℕ}
    {regs : ScRegs} (htidy : nr = 17 → c.proc.registered = true →
      (cInt regs.a1 = sysmemMapOp → cInt regs.a3 ≤ 0) ∧
      (cInt regs.a1 = sysmemIncOp → c.GrowsUnmapped host (cInt regs.a2) (uint32 regs.a3))) :
    (syscall host c nr regs).2.2.Booked host pid others 0 := by
  rw [syscall]
  split
  · next hnr =>
      rw [sysMemmap]
      split
      · exact h
      · next hreg =>
          obtain ⟨hmap, hinc⟩ := htidy hnr (by simpa using hreg)
          simp only
          split_ifs with h1 h2 h3 h4 h5
          · -- no page to overwrite
            have hzero : (cInt regs.a3).toNat = 0 := Int.toNat_of_nonpos (hmap h1)
            rw [vmapPgdMemset, hzero]
            exact h
          · exact incVmaLimit_booked hc h (hinc h2)
          · exact h.congr (.setMswp c (swapCpPage_usedFpList ..) (swapCpPage_freeFpList ..))
          · rw [memphyRead_snd]
            exact h
          · exact h.congr (.setMram c (memphyWrite_usedFpList ..) (memphyWrite_freeFpList ..))
          · exact h
  · exact h

/-- **Step.** A tidy instruction keeps the books. -/
theorem execInst_booked (hc : ∀ n, host.calloc n = true) (h : c.Booked host pid others 0) {ins : Inst}
    (htidy : c.Tidy host ins) {st : ℤ} (hstep : execInst host c ins = some (st, c')) :
    c'.Booked host pid others 0 := by
  have hres : ∀ {r : ℤ × Caller}, some r = some (st, c') → c' = r.2 :=
    fun heq => (congrArg Prod.snd (Option.some.inj heq)).symm
  rw [execInst] at hstep
  -- pages are mapped by ALLOC, KMALLOC, KMEM_CACHE_CREATE and SYSCALL, and `Tidy` says which
  rw [Caller.Tidy] at htidy
  cases hins : ins.opcode with
  | alloc =>
      simp only [hins] at hstep htidy
      obtain ⟨regs, rfl⟩ := liballoc_eq_some _ _ hstep
      exact (alloc_booked hc h htidy).congr (.setRegs _ regs)
  | free =>
      simp only [hins] at hstep
      obtain ⟨regs, rfl⟩ := libfree_eq_some _ hstep
      exact (h.congr (free_books c _)).congr (.setRegs _ regs)
  | read =>
      simp only [hins] at hstep
      obtain rfl := hres hstep
      exact read_booked hc h _ _
  | write =>
      simp only [hins] at hstep
      obtain rfl := hres hstep
      exact write_booked hc h _ _ _
  | kmalloc =>
      simp only [hins] at hstep htidy
      obtain rfl := hres hstep
      rw [libkmemMalloc_snd]
      exact kmalloc_booked hc h (htidy _ (by simp [Inst.request, hins]))
  | kmemCacheCreate =>
      simp only [hins] at hstep htidy
      obtain rfl := hres hstep
      refine libkmemCachePoolCreate_booked hc h fun hargs hid => htidy _ ?_
      simp only [Inst.request, hins, if_neg hargs, if_neg (Nat.not_le.2 hid)]
      rfl
  | kmemCacheAlloc =>
      simp only [hins] at hstep
      obtain ⟨⟨st', c₁⟩, halloc, heq⟩ := Option.map_eq_some_iff.1 hstep
      obtain ⟨-, rfl⟩ := Prod.mk.inj heq
      exact h.congr (kmemCacheAlloc_books halloc)
  | copyFromUser | copyToUser =>
      simp only [hins] at hstep
      obtain rfl := hres hstep
      exact libkmemCopy_booked hc h _ _ _ _
  | syscall =>
      simp only [hins] at hstep htidy
      obtain rfl := hres hstep
      exact syscall_booked hc h htidy
  | _ =>
      simp only [hins] at hstep
      obtain rfl := hres hstep
      exact h

end Instructions

/-! ## The system without the processes dropped -/

/-- The kernel, and the processes that have not been dropped. -/
def Owner.Live (dropped : List ℕ) : Owner → Prop
  | .krnl => True
  | .proc pid => pid ∉ dropped

/-- No frame is in use for a process that has been dropped: the frames on the used lists are as many
    as the entries of the others and of the kernel that name one. -/
structure NoLeak (dropped : List ℕ) (s : System) : Prop where
  ram : (s.krnl.mram.usedFpList.length : ℕ∞) =
    {k : PageKey | k.1.Live dropped ∧ pagingPagePresent (s.pte k) = true}.encard
  swap : (s.krnl.activeMswp.usedFpList.length : ℕ∞) =
    {k : PageKey | k.1.Live dropped ∧ pagingPageSwapped (s.pte k) = true}.encard

namespace System

/-- Where a page of a process is, nowhere if the process has been dropped. -/
def liveOthers (dropped : List ℕ) (s : System) (pid : ℕ) (p : PageIx) : Residence :=
  if pid ∈ dropped then .none else s.others pid p

def liveRes (dropped : List ℕ) (s : System) (k : PageKey) : Residence :=
  match k.1 with
  | .krnl => residence (s.krnl.mm.entry k.2)
  | .proc pid => s.liveOthers dropped pid k.2

end System

/-- The books of the system are in order. -/
structure SysBooked (host : Host) (dropped : List ℕ) (s : System) : Prop where
  books : Books (s.liveRes dropped) s.krnl.mram.usedFpList.length s.krnl.activeMswp.freeFpList
    s.krnl.activeMswp.usedFpList 0
  krnl : KrnlBooked s.krnl
  procs : ∀ pid proc, s.procs pid = some proc → PagesBooked host proc.mm

section Live

variable {host : Host} {dropped : List ℕ} {s : System} {pid : ℕ} {c c' : Caller}

theorem System.liveRes_of_live {k : PageKey} (h : k.1.Live dropped) :
    s.liveRes dropped k = residence (s.slot k) := by
  rw [← s.pager_res]
  obtain ⟨o, p⟩ := k
  cases o with
  | krnl => rfl
  | proc pid => exact if_neg h

theorem System.liveRes_of_not_live {k : PageKey} (h : ¬ k.1.Live dropped) :
    s.liveRes dropped k = .none := by
  obtain ⟨o, p⟩ := k
  cases o with
  | krnl => exact absurd trivial h
  | proc pid => exact if_pos (not_not.1 h)

/-- A process sees the live pages of the system. -/
theorem System.liveRes_caller (hc : s.caller pid = some c) (hlive : pid ∉ dropped) :
    (c.pager pid (s.liveOthers dropped)).res = s.liveRes dropped := by
  obtain ⟨hproc, hk⟩ := System.caller_eq_some hc
  funext ⟨o, p⟩
  cases o with
  | krnl =>
      rw [pager_res_krnl, ← hk]
      rfl
  | proc q =>
      by_cases hq : q = pid
      · subst hq
        rw [pager_res_self]
        simp only [System.liveRes, System.liveOthers, if_neg hlive, System.others, hproc]
        rfl
      · rw [pager_res_other _ _ _ hq]
        rfl

theorem System.liveRes_put (s : System) (c : Caller) (hlive : pid ∉ dropped) :
    (s.put pid c).liveRes dropped = (c.pager pid (s.liveOthers dropped)).res := by
  funext ⟨o, p⟩
  cases o with
  | krnl => rfl
  | proc q =>
      by_cases hq : q = pid
      · subst hq
        rw [pager_res_self]
        simp only [System.liveRes, System.liveOthers, if_neg hlive, System.others, System.put,
          Function.update_self]
        rfl
      · rw [pager_res_other _ _ _ hq]
        simp only [System.liveRes, System.liveOthers, System.others, System.put,
          Function.update_of_ne hq]

theorem SysBooked.caller (h : SysBooked host dropped s) (hc : s.caller pid = some c)
    (hlive : pid ∉ dropped) : c.Booked host pid (s.liveOthers dropped) 0 := by
  obtain ⟨hproc, hk⟩ := System.caller_eq_some hc
  refine ⟨?_, hk ▸ h.krnl, h.procs pid c.proc hproc⟩
  rw [System.liveRes_caller hc hlive, ← hk]
  exact h.books

theorem SysBooked.put (h : SysBooked host dropped s) (hlive : pid ∉ dropped)
    (hb : c'.Booked host pid (s.liveOthers dropped) 0) : SysBooked host dropped (s.put pid c') := by
  refine ⟨?_, hb.krnl, System.forall_put hb.pages fun q _ => h.procs q⟩
  rw [System.liveRes_put s c' hlive]
  exact hb.books

/-- Live entries have one mark at most. -/
theorem SysBooked.unambiguous (h : SysBooked host dropped s) (k : PageKey) :
    Unambiguous (s.slot k) := by
  obtain ⟨o, p⟩ := k
  cases o with
  | krnl => exact h.krnl.marks p
  | proc pid =>
      simp only [System.slot]
      split
      · exact unambiguous_zero
      · next proc hproc => exact (h.procs pid proc hproc).marks p

theorem System.inRam_liveRes (s : System) (dropped : List ℕ) : inRam (s.liveRes dropped) =
    {k | k.1.Live dropped ∧ pagingPagePresent (s.pte k) = true} := by
  ext k
  by_cases hlive : k.1.Live dropped
  · simp only [inRam, Set.mem_ofPred_eq, System.liveRes_of_live hlive]
    constructor
    · rintro ⟨f, hf⟩
      exact ⟨hlive, (present_of_residence hf).1⟩
    · intro hk
      exact ⟨_, residence_eq_ram hk.2⟩
  · simp [inRam, System.liveRes_of_not_live hlive, hlive]

theorem System.inSwap_liveRes (hmarks : ∀ k, Unambiguous (s.slot k)) : inSwap (s.liveRes dropped) =
    {k | k.1.Live dropped ∧ pagingPageSwapped (s.pte k) = true} := by
  ext k
  by_cases hlive : k.1.Live dropped
  · simp only [inSwap, Set.mem_ofPred_eq, System.liveRes_of_live hlive]
    constructor
    · rintro ⟨t, ht⟩
      exact ⟨hlive, swapped_of_residence ht⟩
    · intro hk
      exact ⟨_, residence_eq_swap (hmarks k hk.2) hk.2⟩
  · simp [inSwap, System.liveRes_of_not_live hlive, hlive]

theorem SysBooked.noLeak (h : SysBooked host dropped s) : NoLeak dropped s := by
  obtain ⟨hram, hswap⟩ := h.books.counts
  exact ⟨by rw [hram, System.inRam_liveRes], by rw [hswap, System.inSwap_liveRes h.unambiguous]⟩

end Live

end Ossim
