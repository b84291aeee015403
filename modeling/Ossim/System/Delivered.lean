import Ossim.Libmem.Delivered
import Ossim.System

set_option autoImplicit false

/-! # Allocations of a running system

Any process may execute any instruction, the raw memory system calls included. What a run must not do is
an ALLOC that cannot be served (`Caller.Serves`): such a request records a region of another size, or one
that the next request may be given too. -/

namespace Ossim

/-- If the next instruction of a process is an ALLOC for one of its registers, it can be served. -/
def System.ServesNext (s : System) (pid : ℕ) : Prop :=
  ∀ c ins, s.caller pid = some c → s.fetch pid = some ins → ins.opcode = .alloc →
    uint32 ins.arg1 < pagingMaxSymtblSz → c.Serves ins.arg0

/-- A run all of whose allocations can be served. -/
inductive ServedRun (host : Host) : System → System → Prop where
  | refl (s : System) : ServedRun host s s
  | step {s s' s'' : System} (h : ServedRun host s s') {pid : ℕ} {st : ℤ} (hserve : s'.ServesNext pid)
      (hrun : s'.run host pid = some (st, s'')) : ServedRun host s s''

section Steps

variable {host : Host}

/-- **Step.** Every instruction keeps the heap of its process in order, an ALLOC if it can be served. -/
theorem execInst_heapOk {c c' : Caller} (h : HeapOk c.mm) {ins : Inst} {st : ℤ}
    (hserve : ins.opcode = .alloc → uint32 ins.arg1 < pagingMaxSymtblSz → c.Serves ins.arg0)
    (hstep : execInst host c ins = some (st, c')) : HeapOk c'.mm := by
  have hpages : ∀ {d : Caller}, SameButPages c d → HeapOk d.mm := fun hd =>
    h.congr hd.mmap hd.symrgtbl
  have hproc : ∀ {d : Caller}, d.proc = c.proc → HeapOk d.mm := by
    intro d hd
    rw [Caller.mm, hd]
    exact h
  have hres : ∀ {r : ℤ × Caller}, some r = some (st, c') → c' = r.2 :=
    fun heq => (congrArg Prod.snd (Option.some.inj heq)).symm
  rw [execInst] at hstep
  split at hstep
  · -- CALC
    rw [hres hstep]
    exact h
  · -- ALLOC
    next hop =>
      obtain ⟨regs, rfl⟩ := liballoc_eq_some _ _ hstep
      show HeapOk (alloc host c (uint32 ins.arg1) ins.arg0).2.2.mm
      by_cases hid : uint32 ins.arg1 < pagingMaxSymtblSz
      · exact (alloc_delivered host h hid (hserve hop hid)).1
      · rw [alloc, if_pos (Nat.le_of_not_lt hid)]
        exact h
  · -- KMALLOC
    rw [hres hstep]
    exact hproc (libkmemMalloc_proc ..)
  · -- KMEM_CACHE_CREATE
    rw [hres hstep]
    exact hproc (libkmemCachePoolCreate_proc ..)
  · -- KMEM_CACHE_ALLOC
    exact hproc (libkmemCacheAlloc_proc c hstep)
  · -- COPY_FROM_USER
    rw [hres hstep]
    exact hpages (libkmemCopy_same ..)
  · -- COPY_TO_USER
    rw [hres hstep]
    exact hpages (libkmemCopy_same ..)
  · -- FREE
    obtain ⟨regs, rfl⟩ := libfree_eq_some _ hstep
    exact free_heapOk h (uint32 ins.arg0)
  · -- READ
    rw [hres hstep]
    exact hpages (read_same ..)
  · -- WRITE
    rw [hres hstep]
    exact hpages (write_same ..)
  · -- SYSCALL
    rw [hres hstep]
    exact syscall_heapOk host h _ _

/-- **Run.** In a run whose allocations can all be served, every heap stays in order. -/
theorem ServedRun.heapOk {s s' : System} (h : ServedRun host s s')
    (hmm : ∀ pid proc, s.procs pid = some proc → proc.mm = initMm) :
    ∀ pid proc, s'.procs pid = some proc → HeapOk proc.mm := by
  induction h with
  | refl =>
      intro pid proc hproc
      rw [hmm pid proc hproc]
      exact initMm_heapOk
  | @step s' s'' _ pid st hserve hrun ih =>
      obtain ⟨c, c', hc, hstep, rfl⟩ := System.run_eq_some hrun
      have hok := ih pid c.proc (System.caller_eq_some hc).1
      have hok' : HeapOk c'.mm := by
        rw [Ossim.run] at hstep
        split at hstep
        · cases hstep
          exact hok
        · next ins hins =>
            have hfetch : s'.fetch pid = some ins := (System.fetch_of_caller hc).trans hins
            refine @execInst_heapOk host c.incPc c' hok ins st (fun hop hid => ?_) hstep
            obtain ⟨hsize, hfit, hbrk⟩ := hserve c ins hc hfetch hop hid
            exact ⟨hsize, hfit, hbrk⟩
      exact System.forall_put hok' fun q _ => ih q

end Steps

/-- **ALLOC delivers the requested size.** In every state a run from fresh processes reaches whose
    allocations can all be served, a request that can be served gets as many bytes as it asked for, none
    of them in a recorded region, and the free list loses these bytes and no others if they were on it. A
    request for which the search finds a region gets its size only then. -/
theorem alloc_delivers {host : Host} {s₀ s : System}
    (hmm : ∀ pid proc, s₀.procs pid = some proc → proc.mm = initMm) (h : ServedRun host s₀ s)
    {pid : ℕ} {c : Caller} (hc : s.caller pid = some c) {rgid size : ℕ}
    (hid : rgid < pagingMaxSymtblSz) (hsize : size < 2 ^ 64) :
    (c.Serves size → Delivers c (alloc host c rgid size).2.2 rgid size) ∧
    ((c.mm.firstFit size).isSome = true →
      (Delivers c (alloc host c rgid size).2.2 rgid size ↔ c.Serves size)) := by
  have hok : HeapOk c.mm := h.heapOk hmm pid c.proc (System.caller_eq_some hc).1
  have hdel : c.Serves size → Delivers c (alloc host c rgid size).2.2 rgid size := fun hserve =>
    (alloc_delivered host hok hid hserve).2
  refine ⟨hdel, fun hsome => ⟨fun h' => ?_, hdel⟩⟩
  obtain ⟨rg, hfit⟩ := Option.isSome_iff_exists.1 hsome
  exact h'.serves host hok hid hsize hfit

/-- A process that has allocated 300 bytes allocates 100 more: they come from the rest of its page. -/
theorem alloc_delivers_rest :
    let ins : Inst := ⟨.alloc, 300, 1, 0, 0⟩
    let s₀ := twoProcs 2 1 fun _ => [ins]
    let c₀ : Caller := ⟨freshProc [ins] 0, s₀.krnl⟩
    let c := ((Ossim.run generousHost c₀).map Prod.snd).getD c₀
    c.mm.firstFit 100 = some ⟨300, 4096⟩ ∧ Delivers c (alloc generousHost c 0 100).2.2 0 100 := by
  intro ins s₀ c₀ c
  have hc₀ : s₀.caller 1 = some c₀ := rfl
  have hserve₀ : s₀.ServesNext 1 := by
    intro d i hd hi _ _
    obtain rfl : c₀ = d := Option.some.inj (hc₀.symm.trans hd)
    obtain rfl : ins = i := Option.some.inj hi
    have hnone : c₀.mm.firstFit 300 = none := by decide
    exact ⟨by decide, fun rg hrg => absurd (hnone.symm.trans hrg) (by simp),
      fun _ => ⟨rfl, by decide, by decide⟩⟩
  have hrun : s₀.run generousHost 1 = some (0, s₀.put 1 c) := rfl
  have h : ServedRun generousHost s₀ (s₀.put 1 c) := .step (.refl s₀) hserve₀ hrun
  have hfit : c.mm.firstFit 100 = some ⟨300, 4096⟩ := by decide +kernel
  have hserve : c.Serves 100 := by
    refine ⟨by decide, fun rg hrg => ?_, fun hno => absurd (hno.symm.trans hfit) (by simp)⟩
    obtain rfl := Option.some.inj (hfit.symm.trans hrg)
    decide
  exact ⟨hfit, (alloc_delivers (fun _ _ hproc => by rw [twoProcs_proc hproc]; rfl) h
    (System.caller_put_self ..) (by decide) (by decide)).1 hserve⟩

/-- 4 GiB are 0 bytes to the search: the first request of a process is served with an empty region. -/
theorem not_alloc_delivers_fourGiB :
    let s₀ := twoProcs 2 1 fun _ => [⟨.alloc, 2 ^ 32, 1, 0, 0⟩]
    let c₀ : Caller := ⟨freshProc [⟨.alloc, 2 ^ 32, 1, 0, 0⟩] 0, s₀.krnl⟩
    Booted s₀ ∧ SysRun generousHost s₀ s₀ ∧ s₀.caller 1 = some c₀ ∧
      (alloc generousHost c₀ 1 (2 ^ 32)).1 = 0 ∧
      ¬ Delivers c₀ (alloc generousHost c₀ 1 (2 ^ 32)).2.2 1 (2 ^ 32) := by
  intro s₀ c₀
  have hst : (alloc generousHost c₀ 1 (2 ^ 32)).1 = 0 := by decide +kernel
  have hrg : (alloc generousHost c₀ 1 (2 ^ 32)).2.2.mm.symrgtbl 1 = ⟨0, 0⟩ := by decide +kernel
  refine ⟨twoProcs_booted (by decide) (by decide) _, .refl s₀, rfl, hst, fun h => ?_⟩
  have hsize := h.size_eq
  rw [hrg] at hsize
  exact absurd hsize (by decide)

end Ossim
