import Mathlib.Algebra.BigOperators.Fin
import Mathlib.Algebra.BigOperators.Intervals
import Ossim.Config
import Ossim.Lib.Sums
import Ossim.Memphy.Carving
import Ossim.Os.Independent
import Ossim.Os.Kept
import Ossim.Os.Mapped
import Ossim.System.Spare

set_option autoImplicit false

/-! # Running with enough memory

How many frames a program takes on its whole way can be told from the program alone (`Program.owes`).
Where RAM has as many frames as all programs together take, the programs run as if each of them had a
flat memory of its own, whatever the schedule. `main` sets up more frames than lie within RAM, but the
programs do not get to those (`enough_memory`). -/

namespace Ossim

open Pager Components

/-! ## The demand of a program -/

/-- The frames a program takes from instruction number `n` on. -/
def Program.owes (prog : Program) (n : ℕ) : ℕ :=
  ∑ i ∈ Finset.Ico n prog.code.length, (prog.after i).cost

/-- The frames all programs take. -/
def Config.demand (cfg : Config) : ℕ := (cfg.programs.map fun prog => prog.owes 0).sum

/-- The frames program number `i` is still to take. -/
def System.owes (cfg : Config) (s : System) (i : ℕ) : ℕ :=
  ((cfg.programs[i]?).map fun prog => prog.owes (((s.procs (i + 1)).map Pcb.pc).getD 0)).getD 0

section Programs

variable {prog : Program} {n : ℕ}

/-- What an instruction takes is not taken again. -/
theorem Program.owes_step (hpc : (prog.after n).pc = n) :
    prog.owes n = (prog.after n).cost + prog.owes (prog.after n).step.pc := by
  cases hfetch : (prog.after n).fetch with
  | none =>
      rw [Solo.cost, hfetch, Solo.step_of_fetch_none hfetch, hpc, Nat.zero_add]
  | some ins =>
      have hlt : n < prog.code.length := by
        rw [Solo.fetch, hpc, Program.after_code] at hfetch
        exact (List.getElem?_eq_some_iff.1 hfetch).1
      rw [Solo.step_pc hfetch, hpc, Program.owes, Finset.sum_eq_sum_Ico_succ_bot hlt]
      rfl

theorem Config.demand_eq (cfg : Config) :
    ∑ i ∈ Finset.range cfg.programs.length, (Os.boot cfg).sys.owes cfg i = cfg.demand := by
  rw [Config.demand, ← Fin.sum_univ_fun_getElem, Finset.sum_range]
  refine Finset.sum_congr rfl fun i _ => ?_
  simp [System.owes, Os.boot]

theorem System.owes_of_proc {cfg : Config} {s : System} {i : ℕ} {proc : Pcb}
    (hprog : cfg.programs[i]? = some prog) (hproc : s.procs (i + 1) = some proc) :
    s.owes cfg i = prog.owes proc.pc := by
  simp [System.owes, hprog, hproc]

end Programs

/-! ## The invariant -/

/-- Every process has its area in RAM, and RAM has free frames for what is still to be taken. -/
structure AmpleInv (host : Host) (cfg : Config) (R S : Set ℕ) (s : Os) : Prop extends
    SoloInv host cfg R S s where
  numbers : s.loaded ≤ cfg.programs.length ∧ s.sys.procs 0 = none
  resident : ∀ p proc, s.sys.procs p = some proc → proc.mm.Resident host
  room : ∑ i ∈ Finset.range cfg.programs.length, s.sys.owes cfg i ≤ s.sys.krnl.mram.freeFpList.length
  swap : s.sys.krnl.activeMswp = cfg.krnl.activeMswp

/-- An instruction with enough memory: the process before and after, and what was taken. -/
structure RanAmple (host : Host) (prog : Program) (c c' : Caller) (st : ℤ) : Prop where
  before : c.proc.solo = prog.after c.proc.pc
  after : c'.proc.solo = c.proc.solo.step
  takes : Takes host c.proc.solo.cost c c'
  served : ∀ mem, Flat.Served ⟨c.proc.solo, mem⟩ [st]

section Steps

variable {host : Host} {cfg : Config} {R S : Set ℕ} {s s' : Os} {events : List (ℕ × ℤ)}

section Caller

variable {pid : ℕ} {others : ℕ → PageIx → Residence} {c c' : Caller} {prog : Program}

/-- One instruction, or none past the end of the code. -/
theorem run_ample (hg : host.Generous) (hp : PoolsOk R S) (h : MemInv host True R S pid others c)
    (hres : c.mm.Resident host) (htame : prog.Tame) (hsolo : c.proc.solo = prog.after c.proc.pc)
    (hroom : c.proc.solo.cost ≤ c.krnl.mram.freeFpList.length) {st : ℤ}
    (hrun : Ossim.run host c = some (st, c')) : RanAmple host prog c c' st := by
  have hreg := h.devices.registered trivial
  have hfetch : c.proc.solo.fetch = c.proc.code[c.proc.pc]? := rfl
  rw [Ossim.run] at hrun
  cases hins : c.proc.code[c.proc.pc]? with
  | none =>
      rw [hins] at hrun hfetch
      obtain rfl : c = c' := congrArg Prod.snd (Option.some.inj hrun)
      refine ⟨hsolo, (Solo.step_of_fetch_none hfetch).symm, .refl c, fun mem => ⟨?_, trivial⟩⟩
      intro ins a hsome
      exact absurd (hfetch.symm.trans hsome) (by simp)
  | some ins =>
      rw [hins] at hrun hfetch
      obtain ⟨hins_tame, hfits⟩ := htame.next hsolo hfetch
      obtain ⟨hm, -⟩ := h.congr c.incPc rfl rfl rfl
      have hexec := execInst_solo (c := c.incPc) hreg (h.regions.brk hreg).1 hins_tame
        ⟨hfits.alloc, hfits.inc⟩ hrun
      have hcost : c.proc.solo.cost = (c'.mm.mmap.vmEnd - c.mm.mmap.vmEnd) / 4096 + ins.kernelPages := by
        rw [Solo.cost, hfetch]
        change c.incPc.proc.solo.frames ins = _
        rw [Solo.frames, ← hexec]
        rfl
      rw [hcost] at hroom
      refine ⟨hsolo, ?_, ?_, fun mem => ⟨fun ins' a hsome hop ha => ?_, trivial⟩⟩
      · rw [Solo.step, hfetch]
        exact hexec
      · rw [hcost]
        have htakes := execInst_takes (c := c.incPc) hg hp hm hreg hres hins_tame ⟨hfits.alloc, hfits.inc⟩
          (Nat.le_trans (Nat.le_add_right ..) hroom) hrun
        exact ⟨htakes.resident, htakes.free, htakes.swap⟩
      · obtain rfl : ins = ins' := Option.some.inj (hfetch.symm.trans hsome)
        exact execInst_write_ok (c := c.incPc) hm hreg hres hop ha hrun

theorem run_spare (hg : host.Generous) (hp : PoolsOk R S) (h : MemInv host True R S pid others c)
    (hres : c.mm.Resident host) (htame : prog.Tame) (hsolo : c.proc.solo = prog.after c.proc.pc)
    (hroom : c.proc.solo.cost ≤ c.krnl.mram.freeFpList.length) (more : List ℕ) (mswp : Memphy) :
    Ossim.run host (c.spare more mswp) = (Ossim.run host c).map (spared more mswp) := by
  have hreg := h.devices.registered trivial
  have hfetch : c.proc.solo.fetch = c.proc.code[c.proc.pc]? := rfl
  rw [Ossim.run, Ossim.run, Caller.spare_proc]
  cases hins : c.proc.code[c.proc.pc]? with
  | none => rfl
  | some ins =>
      rw [hins] at hfetch
      obtain ⟨hins_tame, hfits⟩ := htame.next hsolo hfetch
      obtain ⟨hm, -⟩ := h.congr c.incPc rfl rfl rfl
      rw [Solo.cost, hfetch] at hroom
      exact execInst_spare (c := c.incPc) more mswp hg hp hm hreg hres hins_tame
        ⟨hfits.alloc, hfits.inc⟩ hroom

end Caller

theorem AmpleInv.ready (ht : cfg.Tame) (h : AmpleInv host cfg R S s) {p : ℕ} {c : Caller}
    (hc : s.sys.caller p = some c) :
    ∃ i prog, p = i + 1 ∧ cfg.programs[i]? = some prog ∧ prog.Tame ∧
      c.proc.solo = prog.after c.proc.pc ∧ c.mm.Resident host ∧
      c.proc.solo.cost ≤ c.krnl.mram.freeFpList.length := by
  obtain ⟨hproc, hkrnl⟩ := System.caller_eq_some hc
  cases p with
  | zero => exact absurd (h.numbers.2.symm.trans hproc) (by simp)
  | succ i =>
      obtain ⟨prog, hprog, hsolo⟩ := h.solo (i + 1) c.proc hproc
      rw [Nat.add_sub_cancel] at hprog
      refine ⟨i, prog, rfl, hprog, ht.programs prog (List.mem_of_getElem? hprog), hsolo,
        h.resident _ _ hproc, ?_⟩
      have hpc : (prog.after c.proc.pc).pc = c.proc.pc := by rw [← hsolo]; rfl
      have hi : i ∈ Finset.range cfg.programs.length :=
        Finset.mem_range.2 (List.getElem?_eq_some_iff.1 hprog).1
      have howed := Program.owes_step hpc
      rw [← hkrnl, hsolo]
      calc (prog.after c.proc.pc).cost ≤ prog.owes c.proc.pc := howed ▸ Nat.le_add_right ..
        _ = s.sys.owes cfg i := (System.owes_of_proc hprog hproc).symm
        _ ≤ ∑ j ∈ Finset.range cfg.programs.length, s.sys.owes cfg j :=
          Finset.single_le_sum (fun _ _ => Nat.zero_le _) hi
        _ ≤ _ := h.room

theorem AmpleInv.ran (hg : host.Generous) (hp : PoolsOk R S) (ht : cfg.Tame)
    (h : AmpleInv host cfg R S s) {p : ℕ} {st : ℤ} {sys : System}
    (hrun : s.sys.run host p = some (st, sys)) :
    ∃ i prog c c', p = i + 1 ∧ cfg.programs[i]? = some prog ∧ s.sys.caller p = some c ∧
      sys = s.sys.put p c' ∧ RanAmple host prog c c' st := by
  obtain ⟨c, c', hc, hexec, rfl⟩ := System.run_eq_some hrun
  obtain ⟨i, prog, rfl, hprog, htame, hsolo, hres, hroom⟩ := h.ready ht hc
  exact ⟨i, prog, c, c', rfl, hprog, hc, rfl,
    run_ample hg hp (h.sys.memInv hc) hres htame hsolo hroom hexec⟩

/-- **Step.** -/
theorem AmpleInv.step (hg : host.Generous) (hp : PoolsOk R S) (ht : cfg.Tame)
    (h : AmpleInv host cfg R S s) (hstep : s.Reports host cfg events s') :
    AmpleInv host cfg R S s' := by
  have hsolo := h.toSoloInv.step hg hp ht hstep
  have htouch := hstep.touch
  obtain ⟨a, hstep, -⟩ := hstep
  have hnumbers := Os.numbers_move h.numbers (Os.move_of_step hstep)
  cases htouch with
  | nothing hsys _ => exact ⟨hsolo, hnumbers, hsys ▸ h.resident, hsys ▸ h.room, hsys ▸ h.swap⟩
  | @run p st hrun _ =>
      obtain ⟨i, prog, c, c', rfl, hprog, hc, hsys, hran⟩ := h.ran hg hp ht hrun
      obtain ⟨hproc, hkrnl⟩ := System.caller_eq_some hc
      refine ⟨hsolo, hnumbers, ?_, ?_, ?_⟩
      · rw [hsys]
        exact System.forall_put (hran.takes.resident (h.resident _ _ hproc)) fun q _ => h.resident q
      · -- what the instruction took is not owed any more
        have howed := Program.owes_step (by rw [← hran.before]; rfl)
        rw [← hran.before, ← hran.after] at howed
        have hbefore := System.owes_of_proc hprog hproc
        have hafter : (s.sys.put (i + 1) c').owes cfg i = prog.owes c'.proc.pc :=
          System.owes_of_proc hprog (Function.update_self ..)
        have hi : i ∈ Finset.range cfg.programs.length :=
          Finset.mem_range.2 (List.getElem?_eq_some_iff.1 hprog).1
        have hsum := Sums.sum_add_of_eq_off (f := (s.sys.put (i + 1) c').owes cfg)
          (g := s.sys.owes cfg) hi fun j _ hj => by
            simp only [System.owes, System.procs_put_of_ne s.sys c' (show j + 1 ≠ i + 1 by omega)]
        have hfree := hran.takes.free
        have hroom := h.room
        rw [hkrnl] at hroom
        rw [hsys]
        change _ ≤ c'.krnl.mram.freeFpList.length
        change prog.owes c.proc.pc = c.proc.solo.cost + prog.owes c'.proc.pc at howed
        omega
      · rw [hsys]
        exact hran.takes.swap.trans (hkrnl ▸ h.swap)
  | @add prog hprog hsys _ =>
      have hnew := h.holders.next_none
      -- what a program owes is the same before it is loaded
      have howes : s'.sys.owes cfg = s.sys.owes cfg := by
        funext i
        rw [hsys]
        by_cases hi : i = s.loaded
        · subst hi
          rw [System.owes_of_proc hprog System.procs_add_self, System.owes, hprog, hnew]
          rfl
        · simp only [System.owes, System.procs_add_of_ne (show i + 1 ≠ s.loaded + 1 by omega)]
      refine ⟨hsolo, hnumbers, fun q proc hq => ?_, ?_, ?_⟩
      · rw [hsys] at hq
        by_cases hq' : q = s.loaded + 1
        · -- an area without pages
          subst hq'
          rw [System.procs_add_self, Option.some.injEq] at hq
          subst hq
          exact fun pgn hlt => absurd hlt (Nat.not_lt_zero _)
        · rw [System.procs_add_of_ne hq'] at hq
          exact h.resident q proc hq
      · rw [howes, hsys]
        exact h.room
      · rw [hsys]
        exact h.swap

theorem AmpleInv.boot (ht : cfg.Tame) (hdemand : cfg.demand ≤ cfg.krnl.mram.freeFpList.length) :
    AmpleInv host cfg (Os.boot cfg).sys.ramPool (Os.boot cfg).sys.swapPool (Os.boot cfg) where
  toSoloInv := .boot ht
  numbers := ⟨Nat.zero_le _, rfl⟩
  resident := fun _ _ hp => absurd hp (by simp [Os.boot])
  room := by
    rw [cfg.demand_eq]
    exact hdemand
  swap := rfl

end Steps

/-! ## Runs -/

section Runs

variable {host : Host} {cfg : Config} {trace : List (ℕ × ℤ)} {s : Os}

/-- **Run.** There is enough memory all along, and no WRITE into a region fails. -/
theorem Os.ample_of_run (hg : host.Generous) (ht : cfg.Tame)
    (hdemand : cfg.demand ≤ cfg.krnl.mram.freeFpList.length)
    (h : Components.Run (Os.Reports host cfg) (Os.boot cfg) trace s) :
    AmpleInv host cfg (Os.boot cfg).sys.ramPool (Os.boot cfg).sys.swapPool s ∧
    ∀ i (prog : Program), cfg.programs[i]? = some prog → prog.flat.Served (reports (i + 1) trace) := by
  have hp := ht.booted.poolsOk
  induction h with
  | refl => exact ⟨.boot ht hdemand, fun _ _ _ => trivial⟩
  | @step trace events s s' h hstep ih =>
      obtain ⟨hinv, hserved⟩ := ih
      refine ⟨hinv.step hg hp ht hstep, fun i prog hprog => ?_⟩
      rw [reports_append, Flat.served_append]
      refine ⟨hserved i prog hprog, ?_⟩
      cases hstep.touch with
      | nothing _ hev | add _ _ hev =>
          rw [hev]
          trivial
      | @run p st hrun hev =>
          rw [hev]
          obtain ⟨j, prog', c, c', rfl, hprog', hc, -, hran⟩ := hinv.ran hg hp ht hrun
          by_cases hij : j = i
          · subst hij
            obtain rfl : prog = prog' := Option.some.inj (hprog.symm.trans hprog')
            obtain ⟨-, -, hflat⟩ := Os.flat_of_run hg ht h hprog hc
            obtain ⟨proc, hproc, hsolo⟩ := hflat.solo
            obtain rfl : c.proc = proc :=
              Option.some.inj ((System.caller_eq_some hc).1.symm.trans hproc)
            rw [reports_self]
            generalize (reports (j + 1) trace).foldl Flat.step prog.flat = m at *
            obtain ⟨solo, mem⟩ := m
            obtain rfl : c.proc.solo = solo := hsolo
            exact hran.served mem
          · rw [reports_of_ne (by omega)]
            trivial

end Runs

/-! ## Frames nobody gets to -/

/-- A system with more frames of RAM, and another swap device. -/
def System.spare (s : System) (more : List ℕ) (mswp : Memphy) : System :=
  { s with krnl := s.krnl.spare more mswp }

def Os.spare (s : Os) (more : List ℕ) (mswp : Memphy) : Os := s.mapSys (·.spare more mswp)

section Spare

variable {host : Host} {cfg : Config} {R S : Set ℕ} {s : Os} (more : List ℕ) (mswp : Memphy)

theorem AmpleInv.run_spare (hg : host.Generous) (hp : PoolsOk R S) (ht : cfg.Tame)
    (h : AmpleInv host cfg R S s) (p : ℕ) :
    (s.sys.spare more mswp).run host p =
      (s.sys.run host p).map fun r => (r.1, r.2.spare more mswp) := by
  have hcaller : (s.sys.spare more mswp).caller p = (s.sys.caller p).map (·.spare more mswp) := by
    simp only [System.caller, System.spare, Option.map_map]
    rfl
  rw [System.run, System.run, hcaller]
  cases hc : s.sys.caller p with
  | none => rfl
  | some c =>
      obtain ⟨i, prog, rfl, hprog, htame, hsolo, hres, hroom⟩ := h.ready ht hc
      simp only [Option.map_some, Option.bind_eq_bind, Option.bind_some,
        Ossim.run_spare hg hp (h.sys.memInv hc) hres htame hsolo hroom]
      cases Ossim.run host c <;> rfl

/-- The threads notice neither the frames nor the swap device. -/
theorem AmpleInv.unseen (hg : host.Generous) (hp : PoolsOk R S) (ht : cfg.Tame)
    (h : AmpleInv host cfg R S s) : s.Unseen host (·.spare more mswp) id where
  finished := fun _ => rfl
  prio := fun _ => rfl
  run := h.run_spare more mswp hg hp ht
  load := fun _ _ => rfl
  program := fun _ => ⟨rfl, rfl⟩

end Spare

/-! ## The devices of `main` -/

/-- The same with the first `n` frames of RAM only, and nowhere to swap to. -/
def Krnl.front (krnl : Krnl) (n : ℕ) : Krnl :=
  { krnl with mram := { krnl.mram with freeFpList := List.range n }, activeMswp := zeroMemphy }

def Config.front (cfg : Config) : Config := { cfg with krnl := cfg.krnl.front cfg.demand }

section Main

variable {mram mswp : Memphy} {memramsz memswpsz : ℕ}

/-- The frames that lie within the device are the first on its list; others follow. -/
theorem mainKrnl_spare (hram : memramsz < 2 ^ 31) {n : ℕ} (hn : n * 4096 ≤ memramsz) :
    ∃ more, ((mainKrnl mram mswp memramsz memswpsz).front n).spare more (initMemphy mswp memswpsz true) =
      mainKrnl mram mswp memramsz memswpsz := by
  have hsize : cInt memramsz = memramsz := cInt_of_lt hram
  have hlist : ∃ more, (initMemphy mram memramsz true).freeFpList = List.range n ++ more := by
    by_cases hsmall : memramsz < 256
    · -- too small for a frame: the list is whatever it was
      have hzero : n = 0 := by omega
      exact ⟨_, by rw [hzero]; rfl⟩
    · have hle : n ≤ memramsz / 256 := by omega
      obtain ⟨k, hk⟩ := Nat.exists_eq_add_of_le hle
      rw [initMemphy_freeFpList_of_le _ _ _ (by rw [hsize]; omega), hsize]
      refine ⟨(List.range k).map (n + ·), ?_⟩
      rw [show ((memramsz : ℤ) / 256).toNat = n + k by omega, List.range_add]
  obtain ⟨more, hmore⟩ := hlist
  refine ⟨more, ?_⟩
  simp only [mainKrnl, Krnl.front, Krnl.spare, Memphy.spare, ← hmore]

theorem initMemphy_holds {mp : Memphy} {maxSize f : ℕ} (hf : (f + 1) * 4096 ≤ maxSize) (l : List ℕ) :
    ({ initMemphy mp maxSize true with freeFpList := l } : Memphy).Holds f := by
  refine ⟨rfl, ?_⟩
  simp only [initMemphy, memphyFormat]
  split <;> exact hf

/-- With the frames its programs take, and with these only, a configuration is in order. -/
theorem Config.front_tame {cfg : Config} (hk : cfg.krnl = mainKrnl mram mswp memramsz memswpsz)
    (hprogs : ∀ prog ∈ cfg.programs, prog.Tame) (hdemand : cfg.demand * 4096 ≤ memramsz)
    (hframes : cfg.demand ≤ 2 ^ 13) : cfg.front.Tame where
  booted := by
    refine ⟨?_, fun _ _ hp => absurd hp (by simp [Os.boot]), List.nodup_range, List.nodup_nil, ?_, ?_⟩
    · change cfg.krnl.mm = initMm
      rw [hk]
      rfl
    · exact fun f hf => Nat.lt_of_lt_of_le (List.mem_range.1 hf) hframes
    · exact fun t ht => absurd ht List.not_mem_nil
  framesHeld := by
    refine ⟨fun _ _ hp => absurd hp (by simp [Os.boot]), ?_, fun t ht => absurd ht List.not_mem_nil⟩
    intro f hf
    have hlt : f < cfg.demand := List.mem_range.1 hf
    have hmram : (Os.boot cfg.front).sys.krnl.mram =
        { initMemphy mram memramsz true with freeFpList := List.range cfg.demand } := by
      change ({ cfg.krnl.mram with freeFpList := _ } : Memphy) = _
      rw [hk]
      rfl
    rw [hmram]
    exact initMemphy_holds (Nat.le_trans (Nat.mul_le_mul_right 4096 hlt) hdemand) _
  programs := hprogs

end Main

/-- A run is one with the first frames only. -/
theorem Os.front_of_run {host : Host} (hg : host.Generous) {cfg : Config} (ht : cfg.front.Tame)
    {more : List ℕ} {mswp : Memphy} (hk : cfg.front.krnl.spare more mswp = cfg.krnl)
    {trace : List (ℕ × ℤ)} {s : Os}
    (h : Components.Run (Os.Reports host cfg) (Os.boot cfg) trace s) :
    ∃ s₀, Components.Run (Os.Reports host cfg.front) (Os.boot cfg.front) trace s₀ ∧
      s = s₀.spare more mswp := by
  induction h with
  | refl =>
      refine ⟨_, .refl, ?_⟩
      rw [Os.boot, ← hk]
      rfl
  | @step trace events s s' _ hstep ih =>
      obtain ⟨s₀, hrun, rfl⟩ := ih
      obtain ⟨a, hstep, rfl⟩ := hstep
      obtain ⟨hinv, -⟩ := Os.ample_of_run hg ht (by
        change cfg.demand ≤ (List.range cfg.demand).length
        rw [List.length_range]) hrun
      have hunseen := hinv.unseen more mswp hg ht.booted.poolsOk ht
      have hcfg : cfg.front.mapPrograms id cfg.krnl = cfg := by
        rw [Config.mapPrograms, List.map_id]
        rfl
      have hsame := @Os.step_mapSys host cfg.front _ _ _ hunseen cfg.krnl a
      rw [hcfg] at hsame
      unfold Os.spare at hstep ⊢
      rw [hsame] at hstep
      obtain ⟨s₀', hstep₀, rfl⟩ := Option.map_eq_some_iff.1 hstep
      rw [Os.results_mapSys hunseen a]
      exact ⟨s₀', hrun.step ⟨a, hstep₀, rfl⟩, rfl⟩

/-- With the devices of `main`, and RAM for the pages that the programs take, a process is its program on
    its own, no WRITE of it into a region fails, and it reads what it wrote. -/
theorem Os.ample_process {host : Host} (hg : host.Generous) {cfg : Config} {mram mswp : Memphy}
    {memramsz memswpsz : ℕ} (hk : cfg.krnl = mainKrnl mram mswp memramsz memswpsz)
    (hprogs : ∀ prog ∈ cfg.programs, prog.Tame) (hram : memramsz < 2 ^ 31)
    (hdemand : cfg.demand * 4096 ≤ memramsz) (hframes : cfg.demand ≤ 2 ^ 13)
    {trace : List (ℕ × ℤ)} {s : Os}
    (h : Components.Run (Os.Reports host cfg) (Os.boot cfg) trace s) :
    s.sys.krnl.activeMswp = cfg.krnl.activeMswp ∧
    ∀ i (prog : Program) c, cfg.programs[i]? = some prog → s.sys.caller (i + 1) = some c →
      c.proc.solo = prog.after c.proc.pc ∧ prog.flat.Served (reports (i + 1) trace) ∧
      ∀ rgid offset a, c.mm.resolve rgid offset = some a →
        ∃ v, (readUserMem host c rgid offset).1 = some v ∧
          ∀ b, prog.known c.proc.pc a = some b → v = b := by
  have ht := Config.front_tame hk hprogs hdemand hframes
  obtain ⟨more, hspare⟩ := mainKrnl_spare hram hdemand
  rw [← hk] at hspare
  obtain ⟨s₀, hrun, rfl⟩ := Os.front_of_run hg ht hspare h
  obtain ⟨hinv, hserved⟩ := Os.ample_of_run hg ht (by
    change cfg.demand ≤ (List.range cfg.demand).length
    rw [List.length_range]) hrun
  have hswap : cfg.krnl.activeMswp = initMemphy mswp memswpsz true := by rw [hk, mainKrnl]
  refine ⟨hswap.symm, fun i prog c hprog hc => ?_⟩
  obtain ⟨c₀, hc₀, rfl⟩ : ∃ c₀, s₀.sys.caller (i + 1) = some c₀ ∧
      c₀.spare more (initMemphy mswp memswpsz true) = c := by
    simp only [System.caller] at hc ⊢
    obtain ⟨proc, hproc, rfl⟩ := Option.map_eq_some_iff.1 hc
    change s₀.sys.procs (i + 1) = some proc at hproc
    exact ⟨⟨proc, s₀.sys.krnl⟩, by rw [hproc]; rfl, rfl⟩
  refine ⟨(Os.flat_of_run hg ht hrun hprog hc₀).2.1, hserved i prog hprog, fun rgid offset a ha => ?_⟩
  have hm := hinv.sys.memInv hc₀
  have hreg := hm.devices.registered trivial
  have hres := hinv.resident _ _ (System.caller_eq_some hc₀).1
  obtain ⟨v, hv⟩ := Option.isSome_iff_exists.1 (readUserMem_isSome hm hreg hres ha)
  rw [readUserMem_spare more _ hm hreg hres]
  exact ⟨v, hv, fun b hb => Os.read_of_run hg ht hrun hprog hc₀ (hserved i prog hprog) ha hb hv⟩

end Ossim
