import Ossim.System

set_option autoImplicit false

/-! # Swapping is transparent, and frames have one owner

A run of the memory is any sequence of instructions, system calls excepted, and of accesses to user
memory, by any of the processes. Two facts about every run: no frame is ever named by two entries
(`frames_exclusive`), and a byte that was written is read back until its address is written again
(`swapping_transparent`), whatever the pager did in between. -/

namespace Ossim

open Pager

/-! ## Operations -/

/-- An operation of a process on memory. -/
inductive MemOp where
  | inst (ins : Inst)
  | readUserMem (rgid offset : ℕ)
  | writeUserMem (rgid offset : ℕ) (value : Byte)

namespace MemOp

def exec (host : Host) (c : Caller) : MemOp → Option Caller
  | inst ins => (execInst host c ins).map Prod.snd
  | readUserMem rgid offset => some (Ossim.readUserMem host c rgid offset).2
  | writeUserMem rgid offset value => some (Ossim.writeUserMem host c rgid offset value).2

/-- The addresses of its process an operation writes. -/
def written (host : Host) (c : Caller) : MemOp → Set ℕ
  | inst ins => c.written host ins
  | readUserMem _ _ => ∅
  | writeUserMem rgid offset value =>
    {a | (Ossim.writeUserMem host c rgid offset value).1 = 0 ∧ c.mm.resolve rgid offset = some a}

/-- No system call, and no request beyond the range of an `int`. -/
def InRange : MemOp → Prop
  | inst ins => ins.opcode ≠ .syscall ∧ (ins.opcode = .alloc → ins.arg0 < 2 ^ 31)
  | _ => True

end MemOp

/-- A run of operations, with the addresses that were written, by process. -/
inductive MemRun (host : Host) : System → Set (ℕ × ℕ) → System → Prop where
  | refl (s : System) : MemRun host s ∅ s
  | step {s s' : System} {W : Set (ℕ × ℕ)} (h : MemRun host s W s') {pid : ℕ} {c c' : Caller}
      {op : MemOp} (hc : s'.caller pid = some c) (hop : op.InRange) (hexec : op.exec host c = some c')
      (hbrk : c'.mm.mmap.sbrk < 2 ^ 31) :
      MemRun host s (W ∪ {x | x.1 = pid ∧ x.2 ∈ op.written host c}) (s'.put pid c')

/-! ## The break is the end of the area -/

section Level

variable {host : Host} {c c' : Caller}

theorem incVmaLimit_level (hlt : c.mm.mmap.vmEnd < 2 ^ 31) (hlev : c.mm.mmap.sbrk = c.mm.mmap.vmEnd)
    {size : ℕ} (hsize : size < 2 ^ 31) :
    let c' := (incVmaLimit host c 0 (paging64PageAlignsz size)).2
    c'.mm.mmap.sbrk = c'.mm.mmap.vmEnd := by
  obtain ⟨hmmap, -⟩ := incVmaLimit_limits host c (hlev ▸ hlt) hlt hsize
  simp only [hmmap, hlev]

theorem alloc_level (hlt : c.mm.mmap.vmEnd < 2 ^ 31) (hlev : c.mm.mmap.sbrk = c.mm.mmap.vmEnd)
    {rgid size : ℕ} (hsize : size < 2 ^ 31) :
    (alloc host c rgid size).2.2.mm.mmap.sbrk = (alloc host c rgid size).2.2.mm.mmap.vmEnd := by
  by_cases hid : pagingMaxSymtblSz ≤ rgid
  · rw [alloc, if_pos hid]
    exact hlev
  · have hcases := alloc_cases host c rgid (Nat.lt_of_not_le hid) hsize
    simp only at hcases
    split at hcases
    · rw [hcases]
      simp only [Caller.setMm_mm, (allocAtBrk_area ..).1, (allocAtBrk_area ..).2]
      split
      · refine incVmaLimit_level ?_ ?_ hsize
        · exact hlt
        · exact hlev
      · exact hlev
    · rw [hcases]
      exact hlev

theorem free_level (hlev : c.mm.mmap.sbrk = c.mm.mmap.vmEnd) (rgid : ℕ) :
    (free c rgid).2.mm.mmap.sbrk = (free c rgid).2.mm.mmap.vmEnd := by
  rw [free]
  split
  · exact hlev
  · simp only
    split
    · exact hlev
    · obtain ⟨hsbrk, hend⟩ := enlistVmFreergList_area (c.mm.setSymrg rgid ⟨0, 0⟩) (c.mm.symrgtbl rgid)
      rw [Caller.setMm_mm, hsbrk, hend]
      exact hlev

/-- Allocating and freeing keep the break at the end of the area. -/
theorem execInst_level (hlt : c.mm.mmap.vmEnd < 2 ^ 31) (hlev : c.mm.mmap.sbrk = c.mm.mmap.vmEnd)
    {ins : Inst} (hop : ins.opcode ≠ .syscall) (hsize : ins.opcode = .alloc → ins.arg0 < 2 ^ 31)
    (hheap : ins.OnHeap) {st : ℤ} (hstep : execInst host c ins = some (st, c')) :
    c'.mm.mmap.sbrk = c'.mm.mmap.vmEnd := by
  rcases hheap with halloc | hfree | hsys
  · simp only [execInst, halloc] at hstep
    obtain ⟨regs, rfl⟩ := liballoc_eq_some _ _ hstep
    exact alloc_level hlt hlev (hsize halloc)
  · simp only [execInst, hfree] at hstep
    obtain ⟨regs, rfl⟩ := libfree_eq_some _ hstep
    exact free_level hlev _
  · exact absurd hsys hop

end Level

/-! ## One operation -/

section Operations

variable {host : Host} {exact : Prop} {R S : Set ℕ} {pid : ℕ} {others : ℕ → PageIx → Residence}
variable {c c' : Caller}

theorem written_lt (h : MemInv host exact R S pid others c) {op : MemOp} {a : ℕ}
    (ha : a ∈ op.written host c) : a < 2 ^ 31 := by
  cases op with
  | inst ins =>
      simp only [MemOp.written, Caller.written] at ha
      split at ha
      · exact resolve_lt_int h ha.2
      · obtain ⟨k, -, -, hres⟩ := ha
        exact resolve_lt_int h hres
      · obtain ⟨k, -, -, hres⟩ := ha
        exact resolve_lt_int h hres
      · exact absurd ha (Set.notMem_empty a)
  | readUserMem rgid off => exact absurd ha (Set.notMem_empty a)
  | writeUserMem rgid off v => exact resolve_lt_int h ha.2

/-- Bytes of the kernel, and those behind a set of addresses of processes. -/
def writtenBytes (host : Host) (W : Set (ℕ × ℕ)) : Set ByteKey :=
  {b | b.1.1 = .krnl ∨ ∃ x ∈ W, b = userByte host x.1 x.2}

theorem writtenBytes_mono {W W' : Set (ℕ × ℕ)} (h : W ⊆ W') :
    writtenBytes host W ⊆ writtenBytes host W' := by
  rintro b (hk | ⟨x, hx, rfl⟩)
  · exact Or.inl hk
  · exact Or.inr ⟨x, h hx, rfl⟩

theorem kernelBytes_subset (ins : Inst) (W : Set (ℕ × ℕ)) :
    ins.kernelBytes host ⊆ writtenBytes host W := by
  intro b hb
  rw [Inst.kernelBytes] at hb
  split at hb
  · obtain ⟨i, -, hi⟩ := hb
    exact Or.inl (congrArg Prod.fst hi)
  · obtain ⟨i, -, hi⟩ := hb
    exact Or.inl (congrArg Prod.fst hi)
  · exact absurd hb (Set.notMem_empty b)

/-- **Step.** An operation keeps the invariant of memory and the break at the end of the area, and
    touches what it writes. -/
theorem MemOp.exec_spec (hg : host.Generous) (hp : PoolsOk R S)
    (h : MemInv host exact R S pid others c) (hlev : c.mm.mmap.sbrk = c.mm.mmap.vmEnd) {op : MemOp}
    (hop : op.InRange) (hexec : op.exec host c = some c') (hbrk : c'.mm.mmap.sbrk < 2 ^ 31) :
    MemInv host exact R S pid others c' ∧ c'.mm.mmap.sbrk = c'.mm.mmap.vmEnd ∧
    Run exact (writtenBytes host {x | x.1 = pid ∧ x.2 ∈ op.written host c}) (c.pager pid others)
      (c'.pager pid others) := by
  have hbytes : userBytes host pid (op.written host c) ⊆
      writtenBytes host {x | x.1 = pid ∧ x.2 ∈ op.written host c} := by
    rintro b ⟨a, ha, rfl⟩
    exact Or.inr ⟨(pid, a), ⟨rfl, ha⟩, rfl⟩
  cases op with
  | inst ins =>
      obtain ⟨⟨st, c₁⟩, hstep, rfl⟩ := Option.map_eq_some_iff.1 hexec
      have hlt : c.mm.mmap.vmEnd < 2 ^ 31 := by
        cases hreg : c.proc.registered with
        | true => exact (h.regions.brk hreg).2.2
        | false =>
            have hzero := h.regions.brk_zero hreg
            omega
      have hheap : ins.OnHeap → c₁.mm.mmap.sbrk = c₁.mm.mmap.vmEnd := fun hh =>
        execInst_level hlt hlev hop.1 hop.2 hh hstep
      have heff := execInst_effect hg hp h ⟨hop.2, fun hs => absurd hs hop.1⟩ hstep
        fun hh _ => hheap hh ▸ hbrk
      refine ⟨heff.inv, ?_, heff.run.mono (Set.union_subset hbytes (kernelBytes_subset ins _))⟩
      -- only an instruction on the heap moves the break or the end of the area
      by_cases hh : ins.OnHeap
      · exact hheap hh
      · simp only [(heff.regions hh).1]
        exact hlev
  | readUserMem rgid off =>
      obtain rfl := Option.some.inj hexec
      obtain ⟨h₁, honly, hrun, -⟩ := readUserMem_spec hg.1 hp h rgid off
      exact ⟨h₁, by rw [honly.mmap]; exact hlev, hrun.mono (Set.empty_subset _)⟩
  | writeUserMem rgid off v =>
      obtain rfl := Option.some.inj hexec
      obtain ⟨h₁, honly, hrun, -⟩ := writeUserMem_spec hg.1 hp h rgid off v
      exact ⟨h₁, by rw [honly.mmap]; exact hlev, hrun.mono hbytes⟩

end Operations

/-! ## Runs -/

/-- Every process has its break at the end of its area. -/
def System.Level (s : System) : Prop :=
  ∀ pid proc, s.procs pid = some proc → proc.mm.mmap.sbrk = proc.mm.mmap.vmEnd

theorem Booted.level {s : System} (h : Booted s) : s.Level := by
  intro pid proc hproc
  rw [h.proc_mm pid proc hproc]
  rfl

theorem System.Level.put {s : System} (h : s.Level) {pid : ℕ} {c : Caller}
    (hc : c.mm.mmap.sbrk = c.mm.mmap.vmEnd) : (s.put pid c).Level :=
  System.forall_put hc fun q _ => h q

section Runs

variable {host : Host} {exact : Prop} {R S : Set ℕ} {s s' : System} {W : Set (ℕ × ℕ)}

/-- **Run.** The steps of a run add up. -/
theorem MemRun.inv (h : MemRun host s W s') (hg : host.Generous) (hp : PoolsOk R S)
    (hs : SysInv host exact R S s) (hlev : s.Level) :
    SysInv host exact R S s' ∧ s'.Level ∧ (∀ x ∈ W, x.2 < 2 ^ 31) ∧
    Run exact (writtenBytes host W) s.pager s'.pager := by
  induction h with
  | refl => exact ⟨hs, hlev, fun x hx => absurd hx (Set.notMem_empty x), .refl _⟩
  | @step s' W _ pid c c' op hc hop hexec hbrk ih =>
      obtain ⟨hs', hlev', hW, hrun⟩ := ih
      have hm := hs'.memInv hc
      obtain ⟨hm', hlevc', hrun'⟩ :=
        MemOp.exec_spec hg hp hm (hlev' pid c.proc (System.caller_eq_some hc).1) hop hexec hbrk
      refine ⟨hs'.put hm', hlev'.put hlevc', ?_, ?_⟩
      · rintro x (hx | ⟨-, hx⟩)
        · exact hW x hx
        · exact written_lt hm hx
      · rw [System.pager_caller hc] at hrun'
        rw [System.pager_put]
        exact (hrun.mono (writtenBytes_mono Set.subset_union_left)).trans
          (hrun'.mono (writtenBytes_mono Set.subset_union_right))

end Runs

/-! ## Frames have one owner -/

/-- The slot of a page in the page table of its owner. -/
def System.slot (s : System) (k : PageKey) : BitVec 64 :=
  match k.1 with
  | .krnl => s.krnl.mm.entry k.2
  | .proc pid => match s.procs pid with
    | none => 0
    | some proc => proc.mm.entry k.2

/-- The entry in a slot, as `pte_get_entry` returns it. -/
def System.pte (s : System) (k : PageKey) : BitVec 32 := (s.slot k).setWidth 32

theorem System.pager_res (s : System) (k : PageKey) : s.pager.res k = residence (s.slot k) := by
  obtain ⟨o, p⟩ := k
  cases o with
  | krnl => rfl
  | proc pid =>
      simp only [pager, others, slot]
      cases s.procs pid with
      | none => exact residence_zero.symm
      | some proc => rfl

theorem SysInv.unambiguous {host : Host} {exact : Prop} {R S : Set ℕ} {s : System}
    (h : SysInv host exact R S s) (k : PageKey) : Unambiguous (s.slot k) := by
  obtain ⟨o, p⟩ := k
  cases o with
  | krnl =>
      intro hsw
      exact absurd hsw (by simp [System.slot, h.pinned p])
  | proc pid =>
      simp only [System.slot]
      split
      · exact unambiguous_zero
      · next proc hproc => exact (h.procs pid proc hproc).pages.marks p

/-- **Exclusive frame ownership.** In every state a run reaches, no frame of RAM is named by two
    present entries, no frame of swap by two swapped entries, and none that is named is free. -/
theorem frames_exclusive {host : Host} (hg : host.Generous) {s₀ s : System} {W : Set (ℕ × ℕ)}
    (hb : Booted s₀) (h : MemRun host s₀ W s) :
    (∀ k l, pagingPagePresent (s.pte k) = true → pagingPagePresent (s.pte l) = true →
      pagingFpn (s.pte k) = pagingFpn (s.pte l) → k = l) ∧
    (∀ k l, pagingPageSwapped (s.pte k) = true → pagingPageSwapped (s.pte l) = true →
      pagingSwp (s.pte k) = pagingSwp (s.pte l) → k = l) ∧
    (∀ k, pagingPagePresent (s.pte k) = true → pagingFpn (s.pte k) ∉ s.krnl.mram.freeFpList) ∧
    (∀ k, pagingPageSwapped (s.pte k) = true →
      pagingSwp (s.pte k) ∉ s.krnl.activeMswp.freeFpList) := by
  have hs₀ : SysInv host False s₀.ramPool s₀.swapPool s₀ := hb.sysInv host False.elim
  obtain ⟨hs, -, -, -⟩ := h.inv hg hb.poolsOk hs₀ hb.level
  -- what the bits of an entry say is where the pager has the page
  have hram : ∀ k, pagingPagePresent (s.pte k) = true →
      s.pager.res k = .ram (pagingFpn (s.pte k)) := by
    intro k hk
    rw [s.pager_res, residence_eq_ram hk]
    rfl
  have hswap : ∀ k, pagingPageSwapped (s.pte k) = true →
      s.pager.res k = .swap (pagingSwp (s.pte k)) := by
    intro k hk
    rw [s.pager_res, residence_eq_swap (hs.unambiguous k hk) hk]
    rfl
  refine ⟨?_, ?_, ?_, ?_⟩
  · intro k l hk hl heq
    exact hs.wf.ram_inj (hram k hk) (heq ▸ hram l hl)
  · intro k l hk hl heq
    exact hs.wf.swap_inj (hswap k hk) (heq ▸ hswap l hl)
  · exact fun k hk => hs.wf.ram_used (hram k hk)
  · exact fun k hk => hs.wf.swap_used (hswap k hk)

/-- A process allocates a page: its frame is not free any more. -/
theorem frames_exclusive_alloc :
    let alloc : Inst := ⟨.alloc, 300, 0, 0, 0⟩
    let s₀ := twoProcs 2 1 fun _ => []
    let c₀ : Caller := ⟨freshProc [] 0, s₀.krnl⟩
    let s := s₀.put 1 (((MemOp.inst alloc).exec generousHost c₀).getD c₀)
    let k : PageKey := (.proc 1, pageIx generousHost 0)
    pagingPagePresent (s.pte k) = true ∧ pagingFpn (s.pte k) ∉ s.krnl.mram.freeFpList := by
  intro alloc s₀ c₀ s k
  have hexec : (MemOp.inst alloc).exec generousHost c₀ =
      some (((MemOp.inst alloc).exec generousHost c₀).getD c₀) := rfl
  have hrange : (MemOp.inst alloc).InRange := ⟨by decide, by decide⟩
  have h : MemRun generousHost s₀ _ s := .step (.refl s₀) rfl hrange hexec (by decide)
  have hpres : pagingPagePresent (s.pte k) = true := by decide +kernel
  exact ⟨hpres, (frames_exclusive generousHost_generous (twoProcs_booted (by decide) (by decide) _)
    h).2.2.1 k hpres⟩

/-! ## Swapping is transparent -/

/-- **Transparency.** A byte that `__write_user_mem` stored is what `__read_user_mem` delivers at its
    address, in any state a run reaches that has not written the address again. -/
theorem swapping_transparent {host : Host} (hg : host.Generous) {s₀ s s' : System}
    {W₀ W : Set (ℕ × ℕ)} (hb : Booted s₀) (hf : FramesHeld s₀) (h₀ : MemRun host s₀ W₀ s)
    {pid rgid offset a : ℕ} {value : Byte} {c c' : Caller} (hc : s.caller pid = some c)
    (ha : c.mm.resolve rgid offset = some a) (hw : (writeUserMem host c rgid offset value).1 = 0)
    (h : MemRun host (s.put pid (writeUserMem host c rgid offset value).2) W s') (hW : (pid, a) ∉ W)
    (hc' : s'.caller pid = some c') {rgid' offset' : ℕ} {data : Byte}
    (ha' : c'.mm.resolve rgid' offset' = some a)
    (hr : (readUserMem host c' rgid' offset').1 = some data) : data = value := by
  have hp := hb.poolsOk
  have hs₀ : SysInv host True s₀.ramPool s₀.swapPool s₀ := hb.sysInv host fun _ => hf
  obtain ⟨hs, hlev, -, -⟩ := h₀.inv hg hp hs₀ hb.level
  have hm := hs.memInv hc
  have halt := resolve_lt_int hm ha
  -- the write
  obtain ⟨hm₁, honly₁, -, hcont₁⟩ := writeUserMem_spec hg.1 hp hm rgid offset value
  have hcont := hcont₁ a hw ha trivial
  rw [← System.pager_put] at hcont
  have hs₁ := hs.put hm₁
  have hlev₁ : (s.put pid (writeUserMem host c rgid offset value).2).Level := by
    refine hlev.put ?_
    rw [honly₁.mmap]
    exact hlev pid c.proc (System.caller_eq_some hc).1
  -- the run
  obtain ⟨hs', -, hWlt, hrun⟩ := h.inv hg hp hs₁ hlev₁
  have hnot : userByte host pid a ∉ writtenBytes host W := by
    rintro (hk | ⟨x, hx, heq⟩)
    · exact Owner.noConfusion hk
    · have hxlt := hWlt x hx
      obtain ⟨hpid, hax⟩ := userByte_inj host (by omega) (by omega) heq
      exact hW (by rw [hpid, hax]; exact hx)
  have hcont' : s'.pager.content (userByte host pid a).1 (userByte host pid a).2 = some value :=
    (hrun.content_eq trivial hs₁.wf (State.mapped_of_content hcont) hnot).trans hcont
  -- the read
  rw [← System.pager_caller hc'] at hcont'
  have hdata := content_of_readUserMem hg.1 hp (hs'.memInv hc') ha' (State.mapped_of_content hcont') hr
  exact Option.some.inj (hdata.symm.trans hcont')

/-- A process writes a byte, another one takes the last frame for the kernel, the first one reads. -/
theorem swapping_transparent_kmalloc :
    let alloc : Inst := ⟨.alloc, 300, 0, 0, 0⟩
    let kmalloc : Inst := ⟨.kmalloc, 300, 3, 0, 0⟩
    let s₀ := twoProcs 2 1 fun _ => []
    let c₀ : Caller := ⟨freshProc [] 0, s₀.krnl⟩
    let c₁ := ((MemOp.inst alloc).exec generousHost c₀).getD c₀
    let c₂ := (writeUserMem generousHost c₁ 0 5 7).2
    let d₂ : Caller := ⟨freshProc [] 0, c₂.krnl⟩
    let d₃ := ((MemOp.inst kmalloc).exec generousHost d₂).getD d₂
    let c₃ : Caller := ⟨c₂.proc, d₃.krnl⟩
    ∃ data, (readUserMem generousHost c₃ 0 5).1 = some data ∧ data = 7 := by
  intro alloc kmalloc s₀ c₀ c₁ c₂ d₂ d₃ c₃
  have halloc : (MemOp.inst alloc).exec generousHost c₀ = some c₁ := rfl
  have hkmalloc : (MemOp.inst kmalloc).exec generousHost d₂ = some d₃ := rfl
  have hin : (MemOp.inst alloc).InRange ∧ (MemOp.inst kmalloc).InRange :=
    ⟨⟨by decide, by decide⟩, ⟨by decide, by decide⟩⟩
  have h₀ : MemRun generousHost s₀ _ (s₀.put 1 c₁) :=
    .step (.refl s₀) rfl hin.1 halloc (by decide)
  have h : MemRun generousHost ((s₀.put 1 c₁).put 1 c₂) _ (((s₀.put 1 c₁).put 1 c₂).put 2 d₃) :=
    .step (.refl _) rfl hin.2 hkmalloc (by decide)
  have hW : ((1, 5) : ℕ × ℕ) ∉ (∅ : Set (ℕ × ℕ)) ∪ {x | x.1 = 2 ∧
      x.2 ∈ (MemOp.inst kmalloc).written generousHost d₂} := by
    rintro (hx | ⟨hx, -⟩)
    · exact hx
    · exact absurd hx (by decide)
  have ha : c₁.mm.resolve 0 5 = some 5 := by decide +kernel
  have hw : (writeUserMem generousHost c₁ 0 5 7).1 = 0 := by decide +kernel
  have hc₃ : (((s₀.put 1 c₁).put 1 c₂).put 2 d₃).caller 1 = some c₃ := rfl
  have ha₃ : c₃.mm.resolve 0 5 = some 5 := by decide +kernel
  have hr : (readUserMem generousHost c₃ 0 5).1 = some 7 := by decide +kernel
  exact ⟨7, hr, swapping_transparent generousHost_generous
    (twoProcs_booted (by decide) (by decide) _) (twoProcs_framesHeld 2 1 _) h₀
    (System.caller_put_self ..) ha hw h hW hc₃ ha₃ hr⟩

end Ossim
