import Ossim.Paging.Queue
import Ossim.System.Transparency

set_option autoImplicit false

/-! # First in, first out

A run of the memory again (`MemRun`), with the history of every process: the pages its operations made
resident, the latest first. In every state the queue of a process is ordered by its history, and every
victim is the page on it that has been resident longest (`fifo_replacement`). -/

namespace Ossim

open Pager

namespace MemOp

/-- The calls of `pg_getpage` an operation makes, in order. -/
def calls (host : Host) (c : Caller) : MemOp → List PageCall
  | inst ins =>
    match ins.opcode with
    | .read => accessCalls c (uint32 ins.arg0) ins.arg1
    | .write => accessCalls c (uint32 ins.arg1) ins.arg2
    | .copyFromUser | .copyToUser =>
      copyCalls host (uint32 ins.arg0) (uint32 ins.arg1) (uint32 ins.arg2) (uint32 ins.arg3) 0 c
    | _ => []
  | readUserMem rgid offset => userMemCalls c rgid offset
  | writeUserMem rgid offset _ => userMemCalls c rgid offset

/-- The pages of its process an operation makes resident, the latest first. -/
def loads (host : Host) (c : Caller) : MemOp → List ℕ
  | inst ins =>
    if ins.opcode = .alloc then allocLoads host c (uint32 ins.arg1) ins.arg0
    else callLoads host ((inst ins).calls host c)
  | op => callLoads host (op.calls host c)

end MemOp

/-- A run of operations, with the history of every process. -/
inductive PagedRun (host : Host) (s₀ : System) : (ℕ → List ℕ) → System → Prop where
  | start : PagedRun host s₀ (fun _ => []) s₀
  | step {loads : ℕ → List ℕ} {s : System} (h : PagedRun host s₀ loads s) {pid : ℕ} {c c' : Caller}
      {op : MemOp} (hc : s.caller pid = some c) (hop : op.InRange) (hexec : op.exec host c = some c')
      (hbrk : c'.mm.mmap.sbrk < 2 ^ 31) :
      PagedRun host s₀ (Function.update loads pid (op.loads host c ++ loads pid)) (s.put pid c')

theorem PagedRun.memRun {host : Host} {s₀ s : System} {loads : ℕ → List ℕ}
    (h : PagedRun host s₀ loads s) : ∃ W, MemRun host s₀ W s := by
  induction h with
  | start => exact ⟨∅, .refl s₀⟩
  | step _ hc hop hexec hbrk ih =>
      obtain ⟨W, hW⟩ := ih
      exact ⟨_, .step hW hc hop hexec hbrk⟩

section Operations

variable {host : Host} {exact : Prop} {R S : Set ℕ} {pid : ℕ} {others : ℕ → PageIx → Residence}
variable {c c' : Caller}

/-- Instructions that do not touch the caller's pages. -/
theorem execInst_samePages (hc : ∀ n, host.calloc n = true) (hp : PoolsOk R S)
    (h : MemInv host exact R S pid others c) {ins : Inst} {st : ℤ}
    (hstep : execInst host c ins = some (st, c'))
    (hop : ins.opcode = .calc ∨ ins.opcode = .free ∨ ins.opcode = .kmalloc ∨
      ins.opcode = .kmemCacheCreate ∨ ins.opcode = .kmemCacheAlloc) :
    SamePages c.mm c'.mm := by
  have hkeep : ∀ {d : Caller}, d.proc = c.proc → SamePages c.mm d.mm := by
    intro d hproc
    rw [Caller.mm, Caller.mm, hproc]
    exact .refl _
  have hres : ∀ {r : ℤ × Caller}, some r = some (st, c') → c' = r.2 :=
    fun heq => (congrArg Prod.snd (Option.some.inj heq)).symm
  rw [execInst] at hstep
  rcases hop with hop | hop | hop | hop | hop <;> simp only [hop] at hstep
  · cases hstep
    exact .refl _
  · obtain ⟨regs, rfl⟩ := libfree_eq_some _ hstep
    change SamePages c.mm (free c (uint32 ins.arg0)).2.mm
    rw [free]
    split
    · exact .refl _
    · simp only
      split
      · exact .refl _
      · simp only [enlistVmFreergList]
        split_ifs <;> exact ⟨rfl, rfl⟩
  · obtain rfl := hres hstep
    rw [libkmemMalloc_snd]
    exact hkeep (kmalloc_spec hc hp h (uint32 ins.arg1) (uint32 ins.arg0)).2.1
  · obtain rfl := hres hstep
    exact hkeep (libkmemCachePoolCreate_spec hc hp h (uint32 ins.arg0) (uint32 ins.arg1)
      (uint32 ins.arg2)).2.1
  · obtain ⟨⟨st', c₁⟩, halloc, heq⟩ := Option.map_eq_some_iff.1 hstep
    obtain ⟨-, rfl⟩ := Prod.mk.inj heq
    exact hkeep (kmemCacheAlloc_spec h halloc).2.1

/-- An operation other than ALLOC is its calls. -/
theorem MemOp.calls_spec (hc : ∀ n, host.calloc n = true) (hp : PoolsOk R S)
    (h : MemInv host exact R S pid others c) {op : MemOp} (hop : op.InRange)
    (hna : ∀ ins, op = .inst ins → ins.opcode ≠ .alloc) (hexec : op.exec host c = some c') :
    Calls host exact R S pid others c (op.calls host c) c' := by
  cases op with
  | inst ins =>
      obtain ⟨⟨st, c₁⟩, hstep, rfl⟩ := Option.map_eq_some_iff.1 hexec
      have hsame := execInst_samePages hc hp h hstep
      have hres : ∀ {r : ℤ × Caller}, some r = some (st, c₁) → c₁ = r.2 :=
        fun heq => (congrArg Prod.snd (Option.some.inj heq)).symm
      rw [execInst] at hstep
      cases hins : ins.opcode with
      | alloc => exact absurd hins (hna ins rfl)
      | syscall => exact absurd hins hop.1
      | read =>
          simp only [hins] at hstep
          obtain rfl := hres hstep
          simp only [MemOp.calls, hins]
          exact read_calls h (uint32 ins.arg0) ins.arg1
      | write =>
          simp only [hins] at hstep
          obtain rfl := hres hstep
          simp only [MemOp.calls, hins]
          exact write_calls h (uint32 ins.arg1) ins.arg2 (byteOfAddr ins.arg0)
      | copyFromUser | copyToUser =>
          simp only [hins] at hstep
          obtain rfl := hres hstep
          simp only [MemOp.calls, hins]
          exact libkmemCopy_calls hc hp h (uint32 ins.arg0) (uint32 ins.arg1) (uint32 ins.arg2)
            (uint32 ins.arg3)
      | _ =>
          simp only [MemOp.calls, hins]
          -- CALC, FREE and the kernel allocations ask for no page of the process
          exact .done (hsame (by simp [hins]))
  | readUserMem rgid off =>
      obtain rfl := Option.some.inj hexec
      exact readUserMem_calls h rgid off
  | writeUserMem rgid off v =>
      obtain rfl := Option.some.inj hexec
      exact writeUserMem_calls h rgid off v

/-- **Step.** An operation keeps the queue ordered by the history. -/
theorem MemOp.exec_queue (hg : host.Generous) (hp : PoolsOk R S)
    (h : MemInv host exact R S pid others c) (hlev : c.mm.mmap.sbrk = c.mm.mmap.vmEnd) {op : MemOp}
    (hop : op.InRange) (hexec : op.exec host c = some c') (hbrk : c'.mm.mmap.sbrk < 2 ^ 31)
    {loads : List ℕ} (hq : QueueOk host loads c.mm) :
    QueueOk host (op.loads host c ++ loads) c'.mm := by
  obtain ⟨h', hlev', -⟩ := op.exec_spec hg hp h hlev hop hexec hbrk
  by_cases halloc : ∃ ins, op = .inst ins ∧ ins.opcode = .alloc
  · obtain ⟨ins, rfl, hins⟩ := halloc
    obtain ⟨⟨st, c₁⟩, hstep, rfl⟩ := Option.map_eq_some_iff.1 hexec
    simp only [execInst, hins] at hstep
    obtain ⟨regs, rfl⟩ := liballoc_eq_some _ _ hstep
    have hfifo := alloc_fifoPgn hg.1 h (uint32 ins.arg1) (hop.2 hins) fun _ => hlev' ▸ hbrk
    refine h'.pages.queueOk ?_
    have hnodup := h'.pages.fifo_nodup
    change (alloc host c (uint32 ins.arg1) ins.arg0).2.2.mm.fifoPgn.Nodup at hnodup
    change Recency.Ordered _ (alloc host c (uint32 ins.arg1) ins.arg0).2.2.mm.fifoPgn
    rw [hfifo] at hnodup ⊢
    rw [MemOp.loads, if_pos hins]
    exact hq.order.append hnodup
  · have hna : ∀ ins, op = .inst ins → ins.opcode ≠ .alloc := fun ins he hins =>
      halloc ⟨ins, he, hins⟩
    have hloads : op.loads host c = callLoads host (op.calls host c) := by
      cases op with
      | inst ins => exact if_neg (hna ins rfl)
      | readUserMem | writeUserMem => rfl
    rw [hloads]
    exact ((op.calls_spec hg.1 hp h hop hna hexec).queue hg.1 hp hq).1

end Operations

/-! ## Runs -/

/-- Every process has its queue ordered by its history. -/
def System.Queued (host : Host) (loads : ℕ → List ℕ) (s : System) : Prop :=
  ∀ pid proc, s.procs pid = some proc → QueueOk host (loads pid) proc.mm

theorem Booted.queued {s : System} (h : Booted s) (host : Host) : s.Queued host fun _ => [] := by
  intro pid proc hproc
  rw [h.proc_mm pid proc hproc]
  exact (initMm_pagesOk host true).queueOk (.nil _)

/-- **Run.** The queues are in order in every state. -/
theorem PagedRun.queued {host : Host} (hg : host.Generous) {s₀ s : System} {loads : ℕ → List ℕ}
    (hb : Booted s₀) (h : PagedRun host s₀ loads s) : s.Queued host loads := by
  induction h with
  | start => exact hb.queued host
  | @step loads s h pid c c' op hc hop hexec hbrk ih =>
      obtain ⟨W, hrun⟩ := h.memRun
      have hs₀ : SysInv host False s₀.ramPool s₀.swapPool s₀ := hb.sysInv host False.elim
      obtain ⟨hs, hlev, -, -⟩ := hrun.inv hg hb.poolsOk hs₀ hb.level
      have hproc := (System.caller_eq_some hc).1
      have hq := op.exec_queue hg hb.poolsOk (hs.memInv hc) (hlev pid _ hproc) hop hexec hbrk
        (ih pid _ hproc)
      refine System.forall_put ?_ fun q hqp proc hproc' => ?_
      · rw [Function.update_self]
        exact hq
      · rw [Function.update_of_ne hqp]
        exact ih q proc hproc'

/-- **First in, first out.** In every state a run reaches, the queue of every process has each page
    once, only pages present in its own page table, and the pages made resident last come first. So
    every victim an operation takes, at any of its calls of `pg_getpage`, is a present page of the
    caller, the one listed that has been resident longest, and not the page it asks for. -/
theorem fifo_replacement {host : Host} (hg : host.Generous) {s₀ s : System} {loads : ℕ → List ℕ}
    (hb : Booted s₀) (h : PagedRun host s₀ loads s) :
    (∀ pid proc, s.procs pid = some proc → QueueOk host (loads pid) proc.mm) ∧
    ∀ (pid : ℕ) (c c' : Caller) (op : MemOp), s.caller pid = some c → op.InRange →
      op.exec host c = some c' → ∀ pre call post, op.calls host c = pre ++ call :: post →
      ∀ vicpgn, pgVictim host call = some vicpgn →
        VictimOk host (callLoads host pre ++ loads pid) call vicpgn := by
  have hqueued := h.queued hg hb
  refine ⟨hqueued, fun pid c c' op hc hop hexec pre call post heq => ?_⟩
  obtain ⟨W, hrun⟩ := h.memRun
  have hs₀ : SysInv host False s₀.ramPool s₀.swapPool s₀ := hb.sysInv host False.elim
  obtain ⟨hs, -, -, -⟩ := hrun.inv hg hb.poolsOk hs₀ hb.level
  have hna : ∀ ins, op = .inst ins → ins.opcode ≠ .alloc := by
    rintro ins rfl hins
    simp only [MemOp.calls, hins] at heq
    exact absurd heq (by simp)
  have hcalls := op.calls_spec hg.1 hb.poolsOk (hs.memInv hc) hop hna hexec
  exact (hcalls.queue hg.1 hb.poolsOk (hqueued pid _ (System.caller_eq_some hc).1)).2 pre call post heq

/-- On one frame of RAM, the second page of a region takes the place of the first. -/
theorem fifo_replacement_twoPages :
    let s₀ := twoProcs 1 2 fun _ => []
    let c₀ : Caller := ⟨freshProc [] 0, s₀.krnl⟩
    let c₁ := ((MemOp.inst ⟨.alloc, 5000, 0, 0, 0⟩).exec generousHost c₀).getD c₀
    let c₂ := (writeUserMem generousHost c₁ 0 5 7).2
    pgVictim generousHost (c₂, 1) = some 0 ∧ VictimOk generousHost [0] (c₂, 1) 0 := by
  intro s₀ c₀ c₁ c₂
  have hb : Booted s₀ := twoProcs_booted (by decide) (by decide) _
  have hrange : (MemOp.inst ⟨.alloc, 5000, 0, 0, 0⟩).InRange := ⟨by decide, by decide⟩
  have hrange₂ : (MemOp.writeUserMem 0 5 7).InRange := trivial
  have hrange₃ : (MemOp.writeUserMem 0 4096 7).InRange := trivial
  have halloc : (MemOp.inst ⟨.alloc, 5000, 0, 0, 0⟩).exec generousHost c₀ = some c₁ := rfl
  have hwrite : (MemOp.writeUserMem 0 5 7).exec generousHost c₁ = some c₂ := by rw [MemOp.exec]
  have hnext : (MemOp.writeUserMem 0 4096 7).exec generousHost c₂ =
      some (writeUserMem generousHost c₂ 0 4096 7).2 := by rw [MemOp.exec]
  have h₁ : PagedRun generousHost s₀ _ (s₀.put 1 c₁) :=
    .step .start rfl hrange halloc (by decide +kernel)
  have h₂ : PagedRun generousHost s₀ _ ((s₀.put 1 c₁).put 1 c₂) :=
    .step h₁ (System.caller_put_self ..) hrange₂ hwrite (by decide +kernel)
  have hvic : pgVictim generousHost (c₂, 1) = some 0 := by decide +kernel
  have hres : c₂.mm.resolve 0 4096 = some 4096 := by decide +kernel
  have hcalls : (MemOp.writeUserMem 0 4096 7).calls generousHost c₂ = [] ++ (c₂, 1) :: [] := by
    rw [MemOp.calls, userMemCalls, hres]
    rfl
  have hloads : (MemOp.writeUserMem 0 5 7).loads generousHost c₁ ++
      ((MemOp.inst ⟨.alloc, 5000, 0, 0, 0⟩).loads generousHost c₀ ++ []) = [0] := by decide +kernel
  have hmain := (fifo_replacement generousHost_generous hb h₂).2 1 c₂ _ _
    (System.caller_put_self ..) hrange₃ hnext [] (c₂, 1) [] hcalls 0 hvic
  rw [Function.update_self, Function.update_self, hloads] at hmain
  exact ⟨hvic, hmain⟩

end Ossim
