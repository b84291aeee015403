import Ossim.System.Solo
import Ossim.System.Transparency

set_option autoImplicit false

/-! # A process has a flat memory

Whatever the other processes do, and wherever the pager puts pages meanwhile, a process is what it
would be on its own, with a byte at every address it wrote (`flat_memory`). -/

namespace Ossim

open Pager Components

/-! ## The bytes a program knows -/

/-- The pager has the bytes a program knows, wherever their pages are. -/
def System.Keeps (host : Host) (s : System) (pid : ℕ) (mem : ℕ → Option Byte) : Prop :=
  ∀ a b, mem a = some b →
    a < 2 ^ 31 ∧ s.pager.content (userByte host pid a).1 (userByte host pid a).2 = some b

section Store

variable {host : Host} {c c' : Caller} {ins : Inst} {st : ℤ} {mem : ℕ → Option Byte}

/-- A byte that is known after an instruction is the one it wrote, or it was known before and is not at
    an address the instruction wrote. -/
theorem store_cases (h : execInst host c ins = some (st, c')) {a : ℕ} {b : Byte}
    (ha : c.proc.solo.store st mem ins a = some b) :
    (ins.opcode = .write ∧ st = 0 ∧ c.mm.resolve (uint32 ins.arg1) ins.arg2 = some a ∧
      byteOfAddr ins.arg0 = b) ∨ (mem a = some b ∧ a ∉ c.written host ins) := by
  unfold Solo.store at ha
  cases hop : ins.opcode with
  | write =>
      rw [hop] at ha
      have hres : c.proc.solo.heap.resolve (uint32 ins.arg1) ins.arg2 =
          c.mm.resolve (uint32 ins.arg1) ins.arg2 := rfl
      have hst : (libwrite host c (byteOfAddr ins.arg0) (uint32 ins.arg1) ins.arg2).1 = st := by
        simp only [execInst, hop] at h
        exact congrArg Prod.fst (Option.some.inj h)
      simp only [hres] at ha
      simp only [Caller.written, hop, hst]
      cases hadr : c.mm.resolve (uint32 ins.arg1) ins.arg2 with
      | none =>
          rw [hadr] at ha
          exact Or.inr ⟨ha, fun hmem => absurd hmem.2 (by simp)⟩
      | some a₀ =>
          simp only [hadr] at ha
          -- a WRITE that failed leaves what is known as it was
          by_cases hok : st = 0
          · rw [if_pos hok, Function.update_apply] at ha
            split at ha
            · next heq =>
                exact Or.inl ⟨trivial, hok, by rw [heq], Option.some.inj ha⟩
            · next hne =>
                exact Or.inr ⟨ha, fun hmem => hne (Option.some.inj hmem.2).symm⟩
          · rw [if_neg hok] at ha
            exact Or.inr ⟨ha, fun hmem => hok hmem.1⟩
  | copyFromUser | copyToUser =>
      rw [hop] at ha
      simp only at ha
      split at ha
      · exact absurd ha (by simp)
      · -- what a copy went over is not known any more
        next hnot =>
          refine Or.inr ⟨ha, ?_⟩
          simp only [Caller.written, hop]
          rintro ⟨k, hk, -, hadr⟩
          rw [Nat.zero_add] at hadr
          exact hnot ⟨k, hk, hadr⟩
  | _ =>
      rw [hop] at ha
      refine Or.inr ⟨ha, ?_⟩
      simp only [Caller.written, hop]
      exact Set.notMem_empty a

end Store

section Keeps

variable {host : Host} {R S : Set ℕ} {s s' : System} {pid q : ℕ} {mem : ℕ → Option Byte}

theorem System.Keeps.exec (hg : host.Generous) (hp : PoolsOk R S) (hs : SysInv host True R S s)
    {c c' : Caller} (hc : s.caller pid = some c) (hkeeps : s.Keeps host pid mem) {ins : Inst}
    (htame : ins.Tame) {st : ℤ} (hexec : execInst host c.incPc ins = some (st, c'))
    (hend : ins.OnHeap → c.proc.registered = true → c'.mm.mmap.vmEnd < 2 ^ 31) :
    (s.put pid c').Keeps host pid (c.incPc.proc.solo.store st mem ins) := by
  have hm := hs.memInv hc
  obtain ⟨hm₁, hpager⟩ := hm.congr c.incPc rfl rfl rfl
  have heff := execInst_effect hg hp hm₁ htame hexec hend
  intro a b hab
  rw [System.pager_put]
  rcases store_cases hexec hab with ⟨hop, hst, hres, hbyte⟩ | ⟨hmem, hnot⟩
  · -- the byte it wrote
    refine ⟨resolve_lt_int hm₁ hres, ?_⟩
    have hwrite := (write_spec hg.1 hp hm₁ (uint32 ins.arg1) ins.arg2 (byteOfAddr ins.arg0)).2.2.2
    simp only [execInst, hop, libwrite, Option.some.injEq] at hexec
    rw [hexec] at hwrite
    rw [← hbyte]
    exact hwrite a hst hres trivial
  · -- a byte it did not write is where and what it was
    obtain ⟨hlt, hcont⟩ := hkeeps a b hmem
    refine ⟨hlt, ?_⟩
    have hmapped := State.mapped_of_content hcont
    have hrun := heff.run
    rw [hpager, System.pager_caller hc] at hrun
    rw [← hcont]
    refine hrun.content_eq trivial hs.wf hmapped ?_
    rintro (⟨a', ha', heq⟩ | hk)
    · have hlt' := written_lt hm₁ (show a' ∈ (MemOp.inst ins).written host c.incPc from ha')
      obtain ⟨-, rfl⟩ := userByte_inj host (by omega) (by omega) heq
      exact hnot ha'
    · obtain ⟨p, howner⟩ := Inst.owner_of_mem_kernelBytes hk
      exact Owner.noConfusion (congrArg Prod.fst howner)

theorem System.Keeps.other (heff : StepEffect host True R S s q s') (hs : SysInv host True R S s)
    (hne : q ≠ pid) (hkeeps : s.Keeps host pid mem) : s'.Keeps host pid mem := by
  intro a b hab
  obtain ⟨hlt, hcont⟩ := hkeeps a b hab
  refine ⟨hlt, ?_⟩
  rw [← hcont]
  refine heff.run.content_eq trivial hs.wf (State.mapped_of_content hcont) ?_
  rintro (ho | ⟨p, ho, -⟩)
  · exact hne (Owner.proc.inj ho).symm
  · exact Owner.noConfusion (congrArg Prod.fst ho)

end Keeps

/-! ## Steps -/

/-- A process of a system is a machine on its own. -/
structure System.IsFlat (host : Host) (s : System) (pid : ℕ) (m : Flat) : Prop where
  solo : ∃ proc, s.procs pid = some proc ∧ proc.solo = m.solo
  keeps : s.Keeps host pid m.mem

/-- A tame step, which reports the status of the instruction. -/
def System.TameMove (host : Host) (s : System) (events : List (ℕ × ℤ)) (s' : System) : Prop :=
  ∃ pid st, TameStep host s pid s' ∧ s.run host pid = some (st, s') ∧ events = [(pid, st)]

/-- The machine of a process, as the system starts with it. -/
def System.flat (s : System) (pid : ℕ) : Flat where
  solo := ((s.procs pid).map Pcb.solo).getD ⟨[], fun _ => 0, 0, initMm.heap⟩
  mem := fun _ => none

section Steps

variable {host : Host} {R S : Set ℕ} {s s' : System} {pid : ℕ}

/-- **Step.** -/
theorem System.IsFlat.step (hg : host.Generous) (hp : PoolsOk R S) (hs : SysInv host True R S s)
    (hstep : TameStep host s pid s') {st : ℤ} (hrun : s.run host pid = some (st, s')) {m : Flat}
    (h : s.IsFlat host pid m) : s'.IsFlat host pid (m.step st) := by
  obtain ⟨c, c', hc, hexec, rfl⟩ := System.run_eq_some hrun
  obtain ⟨hproc, -⟩ := System.caller_eq_some hc
  obtain ⟨proc, hproc', hsolo⟩ := h.solo
  obtain rfl : c.proc = proc := Option.some.inj (hproc.symm.trans hproc')
  have hfetch := System.fetch_of_caller hc
  have hfetch' : m.solo.fetch = c.proc.code[c.proc.pc]? := by rw [← hsolo]; rfl
  have hput : (s.put pid c').procs pid = some c'.proc := Function.update_self ..
  rw [Ossim.run] at hexec
  unfold Flat.step Solo.step
  rw [hfetch']
  cases hins : c.proc.code[c.proc.pc]? with
  | none =>
      -- past the end of the code
      rw [hins] at hexec
      obtain rfl : c = c' := congrArg Prod.snd (Option.some.inj hexec)
      refine ⟨⟨c.proc, hput, hsolo⟩, ?_⟩
      intro a b hab
      rw [System.pager_put, System.pager_caller hc]
      exact h.keeps a b hab
  | some ins =>
      rw [hins] at hexec hfetch
      have htame := hstep.tame ins hfetch
      have hfits := hstep.fits c ins hc hfetch
      have hm := hs.memInv hc
      obtain ⟨hm₁, -⟩ := hm.congr c.incPc rfl rfl rfl
      have hreg := hm.devices.registered trivial
      have hend := execInst_vmEnd hm₁ htame ⟨hfits.alloc, hfits.inc⟩ hexec
      have hstart : { m.solo with pc := m.solo.pc + 1 } = c.incPc.proc.solo := by
        rw [← hsolo]
        rfl
      have hstore : m.solo.store st m.mem ins = c.incPc.proc.solo.store st m.mem ins := by
        rw [← hstart]
        rfl
      refine ⟨⟨c'.proc, hput, ?_⟩, ?_⟩
      · simp only [hstart]
        exact execInst_solo (c := c.incPc) hreg (hm.regions.brk hreg).1 htame
          ⟨hfits.alloc, hfits.inc⟩ hexec
      · simp only [hstore]
        exact h.keeps.exec hg hp hs hc htame hexec hend

/-- A step of another process does not show. -/
theorem System.IsFlat.other (hg : host.Generous) (hp : PoolsOk R S) (hs : SysInv host True R S s)
    {q : ℕ} (hstep : TameStep host s q s') (hne : q ≠ pid) {m : Flat} (h : s.IsFlat host pid m) :
    s'.IsFlat host pid m := by
  have heff := hstep.effect hg hp hs
  obtain ⟨proc, hproc, hsolo⟩ := h.solo
  refine ⟨⟨proc, ?_, hsolo⟩, h.keeps.other heff hs hne⟩
  rw [heff.procs pid hne.symm]
  exact hproc

theorem System.IsFlat.start {proc : Pcb} (h : s.procs pid = some proc) :
    s.IsFlat host pid (s.flat pid) where
  solo := ⟨proc, h, by rw [System.flat, h]; rfl⟩
  keeps := fun _ _ hab => absurd hab (by simp [System.flat])

theorem System.IsFlat.read (hg : host.Generous) (hp : PoolsOk R S) (hs : SysInv host True R S s)
    {m : Flat} (h : s.IsFlat host pid m) {c : Caller} (hc : s.caller pid = some c)
    {rgid offset a : ℕ} {b v : Byte} (ha : m.solo.heap.resolve rgid offset = some a)
    (hb : m.mem a = some b) (hr : (readUserMem host c rgid offset).1 = some v) : v = b := by
  obtain ⟨hproc, -⟩ := System.caller_eq_some hc
  obtain ⟨proc, hproc', hsolo⟩ := h.solo
  obtain rfl : c.proc = proc := Option.some.inj (hproc.symm.trans hproc')
  obtain ⟨-, hcont⟩ := h.keeps a b hb
  have hres : c.mm.resolve rgid offset = some a := by
    rw [← hsolo] at ha
    exact ha
  have hread := hs.content_of_read hg hp hc hres (State.mapped_of_content hcont) hr
  exact Option.some.inj (hread.symm.trans hcont)

end Steps

/-! ## Runs -/

section Runs

variable {host : Host} {R S : Set ℕ}

/-- The processes of a system are components that do not see each other. -/
theorem flat_simulation (hg : host.Generous) (hp : PoolsOk R S) (s₀ : System) :
    Simulation (System.TameMove host) (SysInv host True R S) (fun pid s => (s.procs pid).isSome)
      (fun pid s m => s.IsFlat host pid m) Flat.step s₀.flat where
  inv := fun hs ⟨_, _, hstep, _, _⟩ => (hstep.effect hg hp hs).inv
  alive := fun {pid s events s'} hs hpid ⟨q, st, hstep, hrun, _⟩ => by
    obtain ⟨_, c', _, _, rfl⟩ := System.run_eq_some hrun
    by_cases hq : pid = q
    · subst hq
      simp [System.put]
    · rw [System.procs_put_of_ne s c' hq]
      exact hpid
  rel := fun {pid s events s' m} hs _ hm ⟨q, st, hstep, hrun, hev⟩ => by
    subst hev
    by_cases hq : q = pid
    · subst hq
      rw [reports_self]
      exact hm.step hg hp hs hstep hrun
    · rw [reports_of_ne hq]
      exact hm.other hg hp hs hstep hq
  silent := fun {pid s events s'} hs hpid ⟨q, st, hstep, hrun, hev⟩ => by
    subst hev
    obtain ⟨c, _, hc, _, _⟩ := System.run_eq_some hrun
    refine reports_of_ne ?_ st
    rintro rfl
    exact hpid (by rw [(System.caller_eq_some hc).1]; rfl)
  born := fun {pid s events s'} hs hpid ⟨q, st, hstep, hrun, _⟩ hpid' => by
    exfalso
    -- no process comes up: an instruction only puts back the one that ran it
    have hq : pid ≠ q := by
      rintro rfl
      obtain ⟨c, _, hc, _, _⟩ := System.run_eq_some hrun
      exact hpid (by rw [(System.caller_eq_some hc).1]; rfl)
    rw [(hstep.effect hg hp hs).procs pid hq] at hpid'
    exact hpid hpid'

end Runs

/-- **Flat memory.** In every state that any interleaving of tame instructions reaches, a process has
    the registers, the program counter and the regions of the machine without memory management that
    was told the statuses of its instructions, and at every address the program wrote it reads the byte
    it wrote there last. -/
theorem flat_memory {host : Host} (hg : host.Generous) {s₀ s : System} {trace : List (ℕ × ℤ)}
    (hb : Booted s₀) (hf : FramesHeld s₀) (h : Components.Run (System.TameMove host) s₀ trace s)
    {pid : ℕ} {c : Caller} (hc : s.caller pid = some c) :
    let m := (reports pid trace).foldl Flat.step (s₀.flat pid)
    c.proc.solo = m.solo ∧
    ∀ rgid offset a b v, m.solo.heap.resolve rgid offset = some a → m.mem a = some b →
      (readUserMem host c rgid offset).1 = some v → v = b := by
  intro m
  have hs₀ : SysInv host True s₀.ramPool s₀.swapPool s₀ := hb.sysInv host fun _ => hf
  have hstart : ∀ i, (s₀.procs i).isSome → s₀.IsFlat host i (s₀.flat i) := by
    intro i hi
    obtain ⟨proc, hproc⟩ := Option.isSome_iff_exists.1 hi
    exact .start hproc
  obtain ⟨hs, hall⟩ := (flat_simulation hg hb.poolsOk s₀).run h hs₀ hstart
  obtain ⟨hproc, -⟩ := System.caller_eq_some hc
  have hm : s.IsFlat host pid m := (hall pid).1 (by rw [hproc]; rfl)
  refine ⟨?_, fun rgid offset a b v ha hb' hr => hm.read hg hb.poolsOk hs hc ha hb' hr⟩
  obtain ⟨proc, hproc', hsolo⟩ := hm.solo
  obtain rfl : c.proc = proc := Option.some.inj (hproc.symm.trans hproc')
  exact hsolo

theorem System.TameMove.next {host : Host} {s : System} {pid : ℕ} {ins : Inst} {st : ℤ}
    (hfetch : s.fetch pid = some ins) (hst : (s.run host pid).map Prod.fst = some st)
    (htame : ins.Tame) (hfits : ∀ proc, s.procs pid = some proc → proc.mm.heap.Fits ins) :
    System.TameMove host s [(pid, st)] (s.next host pid) := by
  have hrun := System.run_next hst
  refine ⟨pid, st, .of_fetch hfetch hrun htame fun c hc => ?_, hrun, rfl⟩
  have hfit := hfits c.proc (System.caller_eq_some hc).1
  exact ⟨hfit.alloc, hfit.inc⟩

/-- Process 1 writes a byte, and its second write needs the only frame there is for another page: what
    it reads of the first comes from the swap device. Process 2 asks the kernel for memory in between. -/
theorem flat_memory_swapped :
    let s₀ := twoProcs 1 2 fun pid =>
      if pid = 1 then [⟨.alloc, 300, 0, 0, 0⟩, ⟨.write, 7, 0, 5, 0⟩, ⟨.alloc, 5000, 1, 0, 0⟩,
        ⟨.write, 8, 1, 0, 0⟩]
      else [⟨.kmalloc, 300, 3, 0, 0⟩]
    let s₁ := s₀.next generousHost 1
    let s₂ := s₁.next generousHost 1
    let s₃ := s₂.next generousHost 2
    let s₄ := s₃.next generousHost 1
    let s₅ := s₄.next generousHost 1
    ∀ c v, s₅.caller 1 = some c → (readUserMem generousHost c 0 5).1 = some v → v = 7 := by
  intro s₀ s₁ s₂ s₃ s₄ s₅
  have hsmall : ∀ {t : System}, (t.procs 1).map (fun proc => decide (proc.mm.mmap.vmEnd < 2 ^ 20)) =
      some true → ∀ {size rgid : ℕ}, size < 2 ^ 20 → ∀ proc, t.procs 1 = some proc →
      proc.mm.heap.Fits ⟨.alloc, size, rgid, 0, 0⟩ := by
    intro t hend size rgid hsize proc hproc
    rw [hproc, Option.map_some, Option.some.injEq, decide_eq_true_eq] at hend
    have halign := @paging64PageAlignsz_eq size (by omega)
    have hlt : proc.mm.mmap.vmEnd + paging64PageAlignsz size < 2 ^ 31 := by omega
    exact ⟨fun _ => hlt, by simp⟩
  have hf₂ : s₁.fetch 1 = some ⟨.write, 7, 0, 5, 0⟩ := by decide +kernel
  have hf₃ : s₂.fetch 2 = some ⟨.kmalloc, 300, 3, 0, 0⟩ := by decide +kernel
  have hf₄ : s₃.fetch 1 = some ⟨.alloc, 5000, 1, 0, 0⟩ := by decide +kernel
  have hf₅ : s₄.fetch 1 = some ⟨.write, 8, 1, 0, 0⟩ := by decide +kernel
  have h₁ : System.TameMove generousHost s₀ [(1, 0)] s₁ :=
    .next rfl (by decide +kernel) ⟨by simp, by simp⟩ (hsmall (by decide) (by decide))
  have h₂ : System.TameMove generousHost s₁ [(1, 0)] s₂ :=
    .next hf₂ (by decide +kernel) ⟨by simp, by simp⟩ fun _ _ => ⟨by simp, by simp⟩
  have h₃ : System.TameMove generousHost s₂ [(2, -1)] s₃ :=
    .next hf₃ (by decide +kernel) ⟨by simp, by simp⟩ fun _ _ => ⟨by simp, by simp⟩
  have h₄ : System.TameMove generousHost s₃ [(1, 0)] s₄ :=
    .next hf₄ (by decide +kernel) ⟨by simp, by simp⟩ (hsmall (by decide +kernel) (by decide))
  have h₅ : System.TameMove generousHost s₄ [(1, 0)] s₅ :=
    .next hf₅ (by decide +kernel) ⟨by simp, by simp⟩ fun _ _ => ⟨by simp, by simp⟩
  have h := (((Components.Run.refl.step h₁).step h₂).step h₃).step h₄ |>.step h₅
  intro c v hc hv
  exact (flat_memory generousHost_generous (twoProcs_booted (by decide) (by decide) _)
    (twoProcs_framesHeld 1 2 _) h hc).2 0 5 5 7 v (by decide +kernel) (by decide +kernel) hv

end Ossim
