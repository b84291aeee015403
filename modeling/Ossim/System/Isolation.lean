import Ossim.System

set_option autoImplicit false

/-! # Isolation of processes

An instruction of one process must not change what another process reads, nor kernel memory it does
not name (`Isolated`). The raw memory system calls break this: they act on frames and page numbers
the program chooses. Without them, and with requests in the range of an `int`, isolation holds in
every run (`isolated_of_tame`), for regions whose pages have been mapped. -/

namespace Ossim

open Pager

/-- A kernel page the next instruction of a process does not name. -/
def System.Unnamed (host : Host) (s : System) (pid : ℕ) (p : PageIx) : Prop :=
  ∀ ins, s.fetch pid = some ins → ∀ j, ((.krnl, p), j) ∉ ins.kernelBytes host

/-- The next instruction of process `pid`, which takes the system from `s` to `s'`, leaves the memory
    of the others alone. -/
structure Isolated (host : Host) (s : System) (pid : ℕ) (s' : System) : Prop where
  /-- the bytes another process reads -/
  user : ∀ q ≠ pid, ∀ c c', s.caller q = some c → s'.caller q = some c' → ∀ rgid offset b b',
    (readUserMem host c rgid offset).1 = some b → (readUserMem host c' rgid offset).1 = some b' →
    b' = b
  /-- the mappings of kernel pages -/
  krnl_entry : ∀ p, s.Unnamed host pid p → s'.krnl.mm.entry p = s.krnl.mm.entry p
  /-- the bytes of kernel pages -/
  krnl_byte : ∀ p, s.Unnamed host pid p →
    pagingPagePresent ((s.krnl.mm.entry p).setWidth 32) = true → ∀ j < 4096,
    s'.krnl.mram.storage (phyaddr (pagingFpn ((s.krnl.mm.entry p).setWidth 32)) j) =
      s.krnl.mram.storage (phyaddr (pagingFpn ((s.krnl.mm.entry p).setWidth 32)) j)
  /-- the kernel regions -/
  krnl_region : ∀ i, (∀ ins, s.fetch pid = some ins → ins.opcode = .kmemCacheAlloc →
    i ≠ uint32 ins.arg1) → s'.krnl.mm.symrgtbl i = s.krnl.mm.symrgtbl i

/-! ## Tame runs -/

/-- The growth an instruction asks for keeps the area below the range of an `int`; that of a system call
    is the operand cut to 32 bits. -/
structure Caller.Fits (c : Caller) (ins : Inst) : Prop where
  alloc : ins.opcode = .alloc → c.mm.mmap.vmEnd + paging64PageAlignsz ins.arg0 < 2 ^ 31
  inc : ins.opcode = .syscall → uint32 ins.arg0 = 17 → cInt ins.arg1 = sysmemIncOp →
    c.mm.mmap.vmEnd + paging64PageAlignsz (uint32 ins.arg3) < 2 ^ 31

/-- A step whose instruction is tame and fits. -/
structure TameStep (host : Host) (s : System) (pid : ℕ) (s' : System) : Prop where
  run : ∃ st, s.run host pid = some (st, s')
  tame : ∀ ins, s.fetch pid = some ins → ins.Tame
  fits : ∀ c ins, s.caller pid = some c → s.fetch pid = some ins → c.Fits ins

theorem TameStep.of_fetch {host : Host} {s s' : System} {pid : ℕ} {ins : Inst} {st : ℤ}
    (hfetch : s.fetch pid = some ins) (hrun : s.run host pid = some (st, s')) (htame : ins.Tame)
    (hfits : ∀ c, s.caller pid = some c → c.Fits ins) : TameStep host s pid s' where
  run := ⟨st, hrun⟩
  tame := fun i hi => by
    obtain rfl := Option.some.inj (hfetch.symm.trans hi)
    exact htame
  fits := fun c i hc hi => by
    obtain rfl := Option.some.inj (hfetch.symm.trans hi)
    exact hfits c hc

/-- A run of such steps. -/
inductive TameRun (host : Host) : System → System → Prop where
  | refl (s : System) : TameRun host s s
  | step {s s' s'' : System} (h : TameRun host s s') {pid : ℕ} (hstep : TameStep host s' pid s'') :
      TameRun host s s''

/-- The pages of the live regions of the other processes have been mapped. -/
def System.OthersMapped (host : Host) (s : System) (pid : ℕ) : Prop :=
  ∀ q ≠ pid, ∀ c, s.caller q = some c → ∀ rgid offset a, c.mm.resolve rgid offset = some a →
    residence (c.mm.entry (pageIx host (a / 4096))) ≠ .none

section Growth

variable {host : Host} {exact : Prop} {R S : Set ℕ} {pid : ℕ} {others : ℕ → PageIx → Residence}
variable {c c' : Caller}

theorem alloc_vmEnd (h : MemInv host exact R S pid others c) (hreg : c.proc.registered = true)
    {rgid size : ℕ} (hsize : size < 2 ^ 31) :
    (alloc host c rgid size).2.2.mm.mmap.vmEnd ≤ c.mm.mmap.vmEnd + paging64PageAlignsz size := by
  obtain ⟨hbrk, -, hlt⟩ := h.regions.brk hreg
  by_cases hid : pagingMaxSymtblSz ≤ rgid
  · rw [alloc, if_pos hid]
    exact Nat.le_add_right ..
  · have hcases := alloc_cases host c rgid (Nat.lt_of_not_le hid) hsize
    simp only [hreg, if_true] at hcases
    split at hcases
    · rw [hcases]
      simp only [Caller.setMm_mm, (allocAtBrk_area ..).2]
      generalize hc₁ : c.setMm _ = c₁
      have hmmap : c₁.mm.mmap.sbrk = c.mm.mmap.sbrk ∧ c₁.mm.mmap.vmEnd = c.mm.mmap.vmEnd := by
        rw [← hc₁]
        exact ⟨rfl, rfl⟩
      rw [(incVmaLimit_limits host c₁ (by omega) (by omega) hsize).1, hmmap.2]
    · rw [hcases]
      exact Nat.le_add_right ..

theorem execInst_vmEnd (h : MemInv host exact R S pid others c) {ins : Inst} (htame : ins.Tame)
    (hfits : c.Fits ins) {st : ℤ} (hstep : execInst host c ins = some (st, c')) (hheap : ins.OnHeap)
    (hreg : c.proc.registered = true) : c'.mm.mmap.vmEnd < 2 ^ 31 := by
  have hlt := (h.regions.brk hreg).2.2
  rcases hheap with halloc | hfree | hsys
  · simp only [execInst, halloc] at hstep
    obtain ⟨regs, rfl⟩ := liballoc_eq_some _ _ hstep
    exact Nat.lt_of_le_of_lt (alloc_vmEnd h hreg (htame.alloc_size halloc)) (hfits.alloc halloc)
  · simp only [execInst, hfree] at hstep
    obtain ⟨regs, rfl⟩ := libfree_eq_some _ hstep
    change (free c (uint32 ins.arg0)).2.mm.mmap.vmEnd < 2 ^ 31
    rw [free]
    split
    · exact hlt
    · simp only
      split
      · exact hlt
      · rw [Caller.setMm_mm, (enlistVmFreergList_area ..).2]
        exact hlt
  · simp only [execInst, hsys, libsyscall] at hstep
    obtain rfl : (syscall host c (uint32 ins.arg0) ⟨ins.arg1, ins.arg2, ins.arg3⟩).2.2 = c' :=
      congrArg Prod.snd (Option.some.inj hstep)
    rw [syscall]
    split
    · next hnr =>
        have hop := htame.memop hsys hnr
        simp only [rawMemops, List.mem_cons, List.not_mem_nil, or_false, not_or] at hop
        simp only [sysMemmap, hreg, Bool.not_true, Bool.false_eq_true, if_false, if_neg hop.1,
          if_neg hop.2.1, if_neg hop.2.2]
        split_ifs with hinc
        · -- the grow operation; the other ones that are tame leave the area alone
          have hfit := hfits.inc hsys hnr hinc
          rcases incVmaLimit_cases host c (cInt ins.arg2) (uint32 ins.arg3) with heq | ⟨-, -, -, heq⟩
          · rw [heq]
            exact hlt
          · rw [heq, (vmMapRam_same ..).2.2.1]
            change addrT (c.mm.mmap.vmEnd + paging64PageAlignsz (uint32 ins.arg3)) < 2 ^ 31
            rw [addrT_of_lt (by omega)]
            exact hfit
        · exact hlt
        · exact hlt
    · exact hlt

end Growth

/-! ## What a tame step changes -/

/-- A step of `pid` as seen by the others. -/
structure StepEffect (host : Host) (exact : Prop) (R S : Set ℕ) (s : System) (pid : ℕ) (s' : System) :
    Prop where
  inv : SysInv host exact R S s'
  procs : ∀ q ≠ pid, s'.procs q = s.procs q
  run : Run exact {b | b.1.1 = .proc pid ∨ ∃ p, b.1 = (.krnl, p) ∧ ¬ s.Unnamed host pid p} s.pager
    s'.pager
  krnl_entry : ∀ p, s.Unnamed host pid p → s'.krnl.mm.entry p = s.krnl.mm.entry p
  krnl_region : ∀ i, (∀ ins, s.fetch pid = some ins → ins.opcode = .kmemCacheAlloc →
    i ≠ uint32 ins.arg1) → s'.krnl.mm.symrgtbl i = s.krnl.mm.symrgtbl i

theorem Inst.owner_of_mem_kernelBytes {host : Host} {ins : Inst} {b : ByteKey}
    (h : b ∈ ins.kernelBytes host) : ∃ p, b.1 = (.krnl, p) := by
  rw [Inst.kernelBytes] at h
  split at h
  · obtain ⟨i, -, hi⟩ := h
    exact ⟨_, hi⟩
  · obtain ⟨i, -, hi⟩ := h
    exact ⟨_, hi⟩
  · exact absurd h (Set.notMem_empty b)

section Effects

variable {host : Host} {exact : Prop} {R S : Set ℕ} {s s' : System} {pid : ℕ}

/-- **Step.** -/
theorem TameStep.effect (hg : host.Generous) (hp : PoolsOk R S) (hs : SysInv host exact R S s)
    (hstep : TameStep host s pid s') : StepEffect host exact R S s pid s' := by
  obtain ⟨st, hsys⟩ := hstep.run
  obtain ⟨c, c', hc, hrun, rfl⟩ := System.run_eq_some hsys
  have hfetch := System.fetch_of_caller hc
  have hk := (System.caller_eq_some hc).2
  have hm := hs.memInv hc
  have hothers : ∀ q ≠ pid, (s.put pid c').procs q = s.procs q :=
    fun q hq => System.procs_put_of_ne s c' hq
  rw [Ossim.run] at hrun
  cases hins : c.proc.code[c.proc.pc]? with
  | none =>
      -- past the end of the code nothing happens
      rw [hins] at hrun
      obtain rfl : c = c' := congrArg Prod.snd (Option.some.inj hrun)
      refine ⟨hs.put hm, hothers, ?_, fun p _ => ?_, fun i _ => ?_⟩
      · rw [System.pager_put, System.pager_caller hc]
        exact .refl _
      · rw [hk]
        rfl
      · rw [hk]
        rfl
  | some ins =>
      rw [hins] at hrun hfetch
      obtain ⟨hm₁, hpager₁⟩ := hm.congr c.incPc rfl rfl rfl
      have hfits : c.incPc.Fits ins := ⟨(hstep.fits c ins hc hfetch).alloc,
        (hstep.fits c ins hc hfetch).inc⟩
      have htame := hstep.tame ins hfetch
      have heff := execInst_effect hg hp hm₁ htame hrun (execInst_vmEnd hm₁ htame hfits hrun)
      refine ⟨hs.put heff.inv, hothers, ?_, fun p hp => ?_, fun i hi => ?_⟩
      · have hrun' := heff.run
        rw [hpager₁, System.pager_caller hc] at hrun'
        rw [System.pager_put]
        refine hrun'.mono ?_
        rintro b (⟨a, -, rfl⟩ | hb)
        · exact Or.inl rfl
        · obtain ⟨p, hbp⟩ := Inst.owner_of_mem_kernelBytes hb
          refine Or.inr ⟨p, hbp, fun hun => hun ins hfetch b.2 ?_⟩
          rw [← hbp]
          exact hb
      · rw [hk]
        exact heff.krnl_entry p fun j => hp ins hfetch j
      · rw [hk]
        exact heff.krnl_symrgtbl i fun ⟨hop, he⟩ => hi ins hfetch hop he

/-- **Run.** The invariant holds in every state a tame run reaches. -/
theorem TameRun.inv (h : TameRun host s s') (hg : host.Generous) (hp : PoolsOk R S)
    (hs : SysInv host exact R S s) : SysInv host exact R S s' := by
  induction h with
  | refl => exact hs
  | step _ hstep ih => exact (hstep.effect hg hp ih).inv

/-- From boot on, with devices that hold their frames, the copies between them are exact. -/
theorem TameRun.sysInv {s₀ : System} (h : TameRun host s₀ s) (hg : host.Generous) (hb : Booted s₀)
    (hf : FramesHeld s₀) : SysInv host True s₀.ramPool s₀.swapPool s := by
  have hs₀ : SysInv host True s₀.ramPool s₀.swapPool s₀ := hb.sysInv host fun _ => hf
  exact h.inv hg hb.poolsOk hs₀

/-- A byte a process reads is the byte of its address. -/
theorem SysInv.content_of_read (hs : SysInv host True R S s) (hg : host.Generous) (hp : PoolsOk R S)
    {c : Caller} (hc : s.caller pid = some c) {rgid offset a : ℕ} {b : Byte}
    (ha : c.mm.resolve rgid offset = some a)
    (hmapped : s.pager.res (userByte host pid a).1 ≠ .none)
    (hr : (readUserMem host c rgid offset).1 = some b) :
    s.pager.content (userByte host pid a).1 (userByte host pid a).2 = some b := by
  rw [← System.pager_caller hc] at hmapped ⊢
  exact content_of_readUserMem hg.1 hp (hs.memInv hc) ha hmapped hr

end Effects

/-! ## Isolation -/

/-- **Isolation.** In a tame run, no instruction changes what another process reads from a region
    whose pages have been mapped, or what the kernel holds in pages and regions the instruction does
    not name. -/
theorem isolated_of_tame {host : Host} (hg : host.Generous) {s₀ s s' : System} {pid : ℕ}
    (hb : Booted s₀) (hf : FramesHeld s₀) (h : TameRun host s₀ s) (hstep : TameStep host s pid s')
    (hmapped : s.OthersMapped host pid) : Isolated host s pid s' := by
  have hp := hb.poolsOk
  have hs := h.sysInv hg hb hf
  have heff := hstep.effect hg hp hs
  refine ⟨?_, heff.krnl_entry, ?_, heff.krnl_region⟩
  · -- what `q` reads is the content of its page in the pager, before and after
    intro q hq c c' hc hc' rgid offset b b' hr hr'
    obtain ⟨hproc, -⟩ := System.caller_eq_some hc
    obtain ⟨hproc', -⟩ := System.caller_eq_some hc'
    have hsame : c'.proc = c.proc := by
      rw [heff.procs q hq, hproc] at hproc'
      exact (Option.some.inj hproc').symm
    cases ha : c.mm.resolve rgid offset with
    | none => simp [readUserMem, ha] at hr
    | some a =>
        have ha' : c'.mm.resolve rgid offset = some a := by
          rw [Caller.mm, hsame]
          exact ha
        have hmap : s.pager.res (userByte host q a).1 ≠ .none := by
          rw [← System.pager_caller hc]
          change (c.pager q s.others).res (.proc q, pageIx host (a / 4096)) ≠ .none
          rw [pager_res_self]
          exact hmapped q hq c hc rgid offset a ha
        have hcont := hs.content_of_read hg hp hc ha hmap hr
        have hcont' := heff.inv.content_of_read hg hp hc' ha' (heff.run.mapped hmap) hr'
        have hnot : userByte host q a ∉ {b : ByteKey | b.1.1 = .proc pid ∨
            ∃ p, b.1 = (.krnl, p) ∧ ¬ s.Unnamed host pid p} := by
          rintro (ho | ⟨p, ho, -⟩)
          · exact hq (Owner.proc.inj ho)
          · exact Owner.noConfusion (congrArg Prod.fst ho)
        have heq := heff.run.content_eq trivial hs.wf hmap hnot
        exact Option.some.inj (hcont'.symm.trans (heq.trans hcont))
  · -- a page of the kernel stays in its frame, so its content is a byte of RAM
    intro p hun hpres j hj
    have hres : residence (s.krnl.mm.entry p) =
        .ram (pagingFpn ((s.krnl.mm.entry p).setWidth 32)) := residence_eq_ram hpres
    have hres' : residence (s'.krnl.mm.entry p) =
        .ram (pagingFpn ((s.krnl.mm.entry p).setWidth 32)) := by
      rw [heff.krnl_entry p hun, hres]
    have hmap : s.pager.res (.krnl, p) ≠ .none := by
      change residence (s.krnl.mm.entry p) ≠ .none
      rw [hres]
      simp
    have hnot : (((.krnl, p), ⟨j, hj⟩) : ByteKey) ∉ {b : ByteKey | b.1.1 = .proc pid ∨
        ∃ p, b.1 = (.krnl, p) ∧ ¬ s.Unnamed host pid p} := by
      rintro (ho | ⟨p', ho, hnamed⟩)
      · exact Owner.noConfusion ho
      · cases ho
        exact hnamed hun
    have heq := heff.run.content_eq trivial hs.wf hmap hnot
    simp only [State.content] at heq
    rw [show s'.pager.res (.krnl, p) = _ from hres', show s.pager.res (.krnl, p) = _ from hres] at heq
    have hbyte := Option.some.inj heq
    rw [phyaddr, Nat.shiftLeft_eq]
    exact hbyte

/-- Process 2 has a region; process 1 takes a frame for the kernel. -/
theorem isolated_of_tame_kmalloc :
    let s₀ := twoProcs 2 1 fun pid =>
      if pid = 1 then [⟨.kmalloc, 300, 3, 0, 0⟩] else [⟨.alloc, 300, 0, 0, 0⟩]
    let s := s₀.next generousHost 2
    Isolated generousHost s 1 (s.next generousHost 1) := by
  intro s₀ s
  have hb : Booted s₀ := twoProcs_booted (by decide) (by decide) _
  have hf : FramesHeld s₀ := twoProcs_framesHeld 2 1 _
  have hrun₁ : s₀.run generousHost 2 = some (0, s) := System.run_next (by decide +kernel)
  have hrun₂ : s.run generousHost 1 = some (0, s.next generousHost 1) :=
    System.run_next (by decide +kernel)
  have h₁ : TameStep generousHost s₀ 2 s := by
    have hfetch : s₀.fetch 2 = some ⟨.alloc, 300, 0, 0, 0⟩ := rfl
    refine .of_fetch hfetch hrun₁ ⟨fun _ => by decide, by simp⟩ fun c hc => ?_
    obtain rfl := Option.some.inj hc
    exact ⟨fun _ => by decide, by simp⟩
  have h₂ : TameStep generousHost s 1 (s.next generousHost 1) := by
    have hfetch : s.fetch 1 = some ⟨.kmalloc, 300, 3, 0, 0⟩ := rfl
    exact .of_fetch hfetch hrun₂ ⟨by simp, by simp⟩ fun c _ => ⟨by simp, by simp⟩
  have h : TameRun generousHost s₀ s := .step (.refl s₀) h₁
  refine isolated_of_tame generousHost_generous hb hf h h₂ ?_
  -- the region of process 2 lies in the page that was mapped for it
  intro q hq c hc rgid offset a ha
  have hinv := (h.sysInv generousHost_generous hb hf).memInv hc
  by_cases hq2 : q = 2
  · subst hq2
    have hpage : (s.caller 2).map (fun c => (heapEnd c.proc.registered c.mm,
        residence (c.mm.entry (pageIx generousHost 0)))) = some (4096, .ram 0) := by decide +kernel
    rw [hc, Option.map_some, Option.some.injEq, Prod.mk.injEq] at hpage
    have hlt := resolve_lt hinv.regions ha
    rw [hpage.1] at hlt
    rw [Nat.div_eq_of_lt hlt, hpage.2]
    simp
  · obtain ⟨_, c₂, -, -, hput⟩ := System.run_eq_some hrun₁
    have hproc := (System.caller_eq_some hc).1
    rw [hput, System.procs_put_of_ne _ _ hq2] at hproc
    have hnone : s₀.procs q = none := if_neg (by omega)
    rw [hnone] at hproc
    exact absurd hproc (by simp)

/-- **Isolation fails.** A program writes RAM behind the back of the page tables. -/
theorem not_isolated_ioWrite :
    ¬ ∀ (s₀ s s' : System) (pid : ℕ) (st : ℤ), Booted s₀ → FramesHeld s₀ →
      SysRun generousHost s₀ s → s.run generousHost pid = some (st, s') →
      Isolated generousHost s pid s' := by
  intro h
  let s₀ := twoProcs 2 1 fun pid =>
    if pid = 1 then [⟨.syscall, 17, 5, 5, 9⟩] else [⟨.alloc, 300, 0, 0, 0⟩]
  let s := s₀.next generousHost 2
  have hrun₁ : s₀.run generousHost 2 = some (0, s) := System.run_next (by decide +kernel)
  have hrun₂ : s.run generousHost 1 = some (0, s.next generousHost 1) :=
    System.run_next (by decide +kernel)
  have hiso := h s₀ s (s.next generousHost 1) 1 0 (twoProcs_booted (by decide) (by decide) _)
    (twoProcs_framesHeld 2 1 _) (.step (.refl s₀) hrun₁) hrun₂
  have hbyte : (9 : Byte) = 0 := hiso.user 2 (by decide) _ _ rfl rfl 0 5 0 9 (by decide +kernel)
    (by decide +kernel)
  exact absurd hbyte (by decide)

end Ossim
