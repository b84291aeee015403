import Ossim.Memphy.Carving
import Ossim.Os.Lost
import Ossim.System.Leaks

set_option autoImplicit false

/-! # Frames of finished processes

A CPU that finds its process finished frees the process and nothing else: the frames its page table
names stay on the used lists. No frame leaks as long as only processes without frames are dropped and
every instruction maps unmapped pages, and the first step that does otherwise leaks one. -/

namespace Ossim

open Pager

/-- The devices and the kernel `main` sets up: no frame is in use, and the frame numbers fit an `int`,
    and on swap an entry. -/
structure Config.Formatted (cfg : Config) : Prop where
  krnl_mm : cfg.krnl.mm = initMm
  ram_used : cfg.krnl.mram.usedFpList = []
  swap_used : cfg.krnl.activeMswp.usedFpList = []
  ram_lt : ∀ f ∈ cfg.krnl.mram.freeFpList, f < 2 ^ 31
  swap_lt : ∀ t ∈ cfg.krnl.activeMswp.freeFpList, t < 2 ^ 21
  swap_nodup : cfg.krnl.activeMswp.freeFpList.Nodup

/-- So `main` sets them up: RAM and swap of at least 256 bytes, and swap of at most 512 MiB. -/
theorem Config.formatted_of_init {cfg : Config} {mp mp' : Memphy} {ramSz swapSz : ℕ}
    (hram : 256 ≤ cInt ramSz) (hswap : 256 ≤ cInt swapSz) (hswap' : cInt swapSz ≤ 2 ^ 29)
    (hkrnl : cfg.krnl = ⟨initMemphy mp ramSz true, initMemphy mp' swapSz true, initMm⟩) :
    cfg.Formatted := by
  have hrange : cInt ramSz < 2 ^ 31 := (cInt_bounds _).2
  have hRam := initMemphy_freeFpList_of_le mp ramSz true hram
  have hSwap := initMemphy_freeFpList_of_le mp' swapSz true hswap
  refine ⟨by rw [hkrnl], ?_, ?_, ?_, ?_, ?_⟩
  · rw [hkrnl]
    exact initMemphy_usedFpList_of_le mp ramSz true hram
  · rw [hkrnl]
    exact initMemphy_usedFpList_of_le mp' swapSz true hswap
  · intro f hf
    rw [hkrnl, hRam, List.mem_range] at hf
    omega
  · intro t ht
    rw [hkrnl, hSwap, List.mem_range] at ht
    omega
  · rw [hkrnl, hSwap]
    exact List.nodup_range

/-- A process that is dropped as finished has no page in a frame, and an instruction is tidy. -/
def Os.Tidy (host : Host) (s : Os) : Actor → Prop
  | .cpu i =>
    ((s.cpus i).loc = .top → ∀ p ∈ (s.cpus i).proc, s.isFinished p = true →
      ∀ ix, s.sys.others p ix = .none) ∧
    ((s.cpus i).loc = .run → ∀ p ∈ (s.cpus i).proc, ∀ c ∈ s.sys.caller p, ∀ ins ∈ s.sys.fetch p,
      c.Tidy host ins)
  | _ => True

section Runs

variable {ok : Os → Actor → Prop} {host : Host} {cfg : Config} {s s' : Os} {dropped : List ℕ}

theorem Config.Formatted.booked (h : cfg.Formatted) : SysBooked host [] (Os.boot cfg).sys where
  books := by
    change Books _ cfg.krnl.mram.usedFpList.length _ cfg.krnl.activeMswp.usedFpList 0
    rw [h.ram_used, h.swap_used]
    refine .empty (fun ⟨o, p⟩ => ?_) h.swap_nodup
    cases o with
    | krnl =>
        change residence (cfg.krnl.mm.entry p) = .none
        rw [h.krnl_mm, initMm_entry, residence_zero]
    | proc pid => rfl
  krnl := by
    refine ⟨h.ram_lt, h.swap_lt, fun t ht => ?_, fun p => ?_⟩
    · change t ∈ cfg.krnl.activeMswp.usedFpList at ht
      rw [h.swap_used] at ht
      exact absurd ht List.not_mem_nil
    · change Unambiguous (cfg.krnl.mm.entry p)
      rw [h.krnl_mm, initMm_entry]
      exact unambiguous_zero
  procs := fun _ _ hp => absurd hp (by simp [Os.boot])

theorem SysBooked.add {s : System} (h : SysBooked host dropped s) {pid : ℕ} (hnew : s.procs pid = none)
    (prog : Program) :
    SysBooked host dropped { s with procs := Function.update s.procs pid (some (load prog)) } where
  books := by
    have hres : System.liveRes dropped { s with
        procs := Function.update s.procs pid (some (load prog)) } = s.liveRes dropped := by
      funext ⟨o, p⟩
      cases o with
      | krnl => rfl
      | proc q =>
          simp only [System.liveRes, System.liveOthers, System.others]
          by_cases hq : q = pid
          · subst hq
            have hnone : residence ((load prog).mm.entry p) = .none := by
              rw [load, initMm_entry, residence_zero]
            simp only [Function.update_self, hnew, hnone]
          · simp only [Function.update_of_ne hq]
    rw [hres]
    exact h.books
  krnl := h.krnl
  procs := fun q proc hq => by
    change Function.update s.procs pid (some (load prog)) q = some proc at hq
    by_cases hqp : q = pid
    · subst hqp
      obtain rfl : load prog = proc := by simpa using hq
      refine ⟨fun p => ?_, List.nodup_nil, fun _ hmem => absurd hmem List.not_mem_nil⟩
      rw [load, initMm_entry]
      exact unambiguous_zero
    · rw [Function.update_of_ne hqp] at hq
      exact h.procs q proc hq

theorem SysBooked.drop {s : System} (h : SysBooked host dropped s) {pid : ℕ}
    (hnone : ∀ p, s.others pid p = .none) : SysBooked host (pid :: dropped) s := by
  refine ⟨?_, h.krnl, h.procs⟩
  have hres : s.liveRes (pid :: dropped) = s.liveRes dropped := by
    funext ⟨o, p⟩
    cases o with
    | krnl => rfl
    | proc q =>
        simp only [System.liveRes, System.liveOthers, List.mem_cons]
        by_cases hq : q = pid
        · simp [hq, hnone]
        · simp [hq]
  rw [hres]
  exact h.books

theorem SysBooked.run {s s' : System} (hc : ∀ n, host.calloc n = true)
    (h : SysBooked host dropped s) {pid : ℕ} (hlive : pid ∉ dropped)
    (htidy : ∀ c ∈ s.caller pid, ∀ ins ∈ s.fetch pid, c.Tidy host ins) {st : ℤ}
    (hrun : s.run host pid = some (st, s')) : SysBooked host dropped s' := by
  obtain ⟨c, c', hcaller, hstep, rfl⟩ := System.run_eq_some hrun
  have hbooked := h.caller hcaller hlive
  refine h.put hlive ?_
  rw [Ossim.run] at hstep
  split at hstep
  · cases hstep
    exact hbooked
  · next ins hins =>
      have hfetch : ins ∈ s.fetch pid := by
        rw [System.fetch_of_caller hcaller]
        exact hins
      have htidy' : c.incPc.Tidy host ins := htidy c hcaller ins hfetch
      have hsame : SameBooks c c.incPc := ⟨rfl, .refl _, rfl, rfl, fun _ h => h, rfl, rfl⟩
      exact execInst_booked hc (hbooked.congr hsame) htidy' hstep

/-- **Step.** A tidy step keeps the books. -/
theorem SysBooked.move (hc : ∀ n, host.calloc n = true) (h : SysBooked host dropped s.sys)
    (hh : HoldersInv s) (hd : DropInv dropped s) {a : Actor} (hok : s.Tidy host a)
    (hmove : s.Move host cfg a s') : SysBooked host (s.drops a ++ dropped) s'.sys := by
  cases hmove with
  | first hi hloc hproc =>
      simp only [Os.drops, hloc, hproc]
      exact h
  | finish hi hloc hproc hfin =>
      rw [Os.drops_of_finished hloc hproc hfin]
      exact h.drop (hok.1 hloc _ hproc hfin)
  | put hi hloc hproc hfin htime =>
      rw [Os.drops_of_not_finished hproc hfin]
      exact h
  | keep hi hloc hproc hfin htime =>
      rw [Os.drops_of_not_finished hproc hfin]
      exact h
  | run hi hloc hproc hrun =>
      rw [Os.drops_of_ne (by simp [hloc])]
      exact h.run hc (fun hmem => hd.hand _ hmem _ hproc) (hok.2 hloc _ hproc) hrun
  | refetch hi hloc | stop hi hloc | idle hi hloc | dispatch hi hloc | enter hi hloc | leave hi hloc
  | detach hi hloc =>
      rw [Os.drops_of_ne (by simp [hloc])]
      exact h
  | ldAdd hloc hprog =>
      refine h.add ?_ _
      by_contra hne
      obtain ⟨proc, hproc⟩ := Option.ne_none_iff_exists'.1 hne
      exact hh.procs_next hproc
  | ldNext | ldDone | ldWait | ldReady | ldEnter | ldLeave | ldDetach | timer => exact h

/-- **Run.** -/
theorem LifeRun.booked (hc : ∀ n, host.calloc n = true) (hcfg : cfg.Formatted)
    (h : LifeRun (Os.Tidy host) host cfg dropped s) : SysBooked host dropped s.sys := by
  induction h with
  | boot => exact hcfg.booked
  | step h a hok hstep ih =>
      obtain ⟨trace, hrun⟩ := h.runIf.osRun
      exact ih.move hc hrun.holdersInv h.dropInv hok (Os.move_of_step hstep)

/-- **Step.** A step that is not tidy leaks. -/
theorem Os.leaks_of_step (hc : ∀ n, host.calloc n = true) (h : SysBooked host dropped s.sys)
    (hd : DropInv dropped s) {a : Actor} (hstep : s.step host cfg a = some s') (hnot : ¬ s.Tidy host a) :
    ¬ NoLeak (s.drops a ++ dropped) s'.sys := by
  have hmove := Os.move_of_step hstep
  clear hstep
  cases hmove with
  | first hi hloc hproc => exact absurd ⟨by simp [hproc], by simp [hloc]⟩ hnot
  | finish hi hloc hproc hfin =>
      rw [Os.drops_of_finished hloc hproc hfin]
      refine h.leaks_of_drop (fun hnone => hnot ⟨fun _ q hq _ => ?_, by simp [hloc]⟩)
        fun hmem => hd.hand _ hmem _ hproc
      obtain rfl := Option.some.inj (hproc.symm.trans hq)
      exact hnone
  | put hi hloc hproc hfin | keep hi hloc hproc hfin =>
      refine absurd ⟨fun _ q hq hq' => ?_, by simp [hloc]⟩ hnot
      obtain rfl := Option.some.inj (hproc.symm.trans hq)
      exact absurd (hfin.symm.trans hq') (by simp)
  | @run i p st sys hi hloc hproc hrun =>
      rw [Os.drops_of_ne (by simp [hloc])]
      have hlive : p ∉ dropped := fun hmem => hd.hand p hmem i hproc
      obtain ⟨c, c', hcaller, hexec, rfl⟩ := System.run_eq_some hrun
      simp only [Os.Tidy, hloc, hproc, Option.mem_some_iff, forall_eq'] at hnot
      have hins : ∃ ins ∈ s.sys.fetch p, ¬ c.Tidy host ins := by
        by_contra hall
        refine hnot ⟨by simp, fun _ d hd ins hins => ?_⟩
        obtain rfl := Option.some.inj (hcaller.symm.trans hd)
        by_contra hbad
        exact hall ⟨ins, hins, hbad⟩
      obtain ⟨ins, hins, hbad⟩ := hins
      rw [System.fetch_of_caller hcaller] at hins
      rw [Ossim.run] at hexec
      split at hexec
      · next hnone => exact absurd (hnone.symm.trans hins) (by simp)
      · next ins' hins' =>
          obtain rfl : ins' = ins := Option.some.inj (hins'.symm.trans hins)
          exact execInst_leaks hc h hcaller hlive hbad hexec
  | refetch hi hloc | stop hi hloc | idle hi hloc | dispatch hi hloc | enter hi hloc | leave hi hloc
  | detach hi hloc => exact absurd ⟨by simp [hloc], by simp [hloc]⟩ hnot
  | ldNext | ldDone | ldWait | ldReady | ldAdd | ldEnter | ldLeave | ldDetach | timer =>
      exact absurd trivial hnot

/-- **When no frame leaks.** For any number of processes and CPUs: as long as the processes dropped as
    finished have no pages and every instruction is tidy, the frames in use are as many as the entries
    of the unfinished processes and of the kernel that name one; the first step that is otherwise
    leaks. So no run leaks if and only if all steps of all runs are tidy. -/
theorem no_leak_iff (hc : ∀ n, host.calloc n = true) (hcfg : cfg.Formatted) :
    (∀ dropped s, LifeRun (Os.Tidy host) host cfg dropped s → NoLeak dropped s.sys ∧
      ∀ a s', s.step host cfg a = some s' →
        (NoLeak (s.drops a ++ dropped) s'.sys ↔ s.Tidy host a)) ∧
    ((∀ dropped s, LifeRun (fun _ _ => True) host cfg dropped s → NoLeak dropped s.sys) ↔
      ∀ trace s a s', OsRun host cfg trace s → s.step host cfg a = some s' → s.Tidy host a) := by
  refine LifeRun.holds_iff (fun dropped s h => (h.booked hc hcfg).noLeak)
    fun dropped s a s' h hstep hnot => ?_
  exact Os.leaks_of_step hc (h.booked hc hcfg) h.dropInv hstep hnot

end Runs

/-! ## Small runs -/

/-- No process is dropped, and no instruction but CALC is run. -/
def Os.Calm (s : Os) : Actor → Prop
  | .cpu i =>
    ((s.cpus i).loc = .top → ∀ p ∈ (s.cpus i).proc, s.isFinished p = false) ∧
    ((s.cpus i).loc = .run → ∀ p ∈ (s.cpus i).proc, ∀ ins ∈ s.sys.fetch p, ins.opcode = .calc)
  | _ => True

instance Os.Calm.decidable (s : Os) (a : Actor) : Decidable (s.Calm a) :=
  match a with
  | .cpu _ => inferInstanceAs (Decidable (_ ∧ _))
  | .ld | .timer => isTrue trivial

/-- Where the threads get from a state with calm steps in the order given. -/
def Os.calmly (host : Host) (cfg : Config) (s : Os) (actors : List Actor) : Option Os :=
  actors.foldlM (fun s a => if s.Calm a then s.step host cfg a else none) s

section Calm

variable {ok : Os → Actor → Prop} {host : Host} {cfg : Config} {s s' : Os} {dropped : List ℕ}

theorem Os.Calm.tidy {a : Actor} (h : s.Calm a) : s.Tidy host a := by
  cases a with
  | cpu i =>
      refine ⟨fun hloc p hp hfin => ?_, fun hloc p hp c hc ins hins => ?_⟩
      · exact absurd ((h.1 hloc p hp).symm.trans hfin) (by simp)
      · rw [Caller.Tidy, h.2 hloc p hp ins hins]
        trivial
  | _ => trivial

theorem Os.Calm.drops {a : Actor} (h : s.Calm a) : s.drops a = [] := by
  cases a with
  | cpu i =>
      by_cases hloc : (s.cpus i).loc = .top
      · cases hproc : (s.cpus i).proc with
        | none => simp [Os.drops, hloc, hproc]
        | some p => exact Os.drops_of_not_finished hproc (h.1 hloc p hproc)
      · exact Os.drops_of_ne hloc
  | _ => rfl

theorem LifeRun.calmly (h : LifeRun (Os.Tidy host) host cfg dropped s) {actors : List Actor}
    (hsome : (s.calmly host cfg actors).isSome = true) :
    LifeRun (Os.Tidy host) host cfg dropped ((s.calmly host cfg actors).getD s) := by
  obtain ⟨s', hs'⟩ := Option.isSome_iff_exists.1 hsome
  rw [hs', Option.getD_some]
  refine foldlM_invariant (fun t a t' ht ht' => ?_) h hs'
  split at ht'
  · next hq =>
      have hnext := ht.step a hq.tidy ht'
      rwa [hq.drops] at hnext
  · exact absurd ht' (by simp)

theorem LifeRun.next (h : LifeRun ok host cfg dropped s) (a : Actor) (hok : ok s a)
    (hsome : (s.step host cfg a).isSome = true) :
    LifeRun ok host cfg (s.drops a ++ dropped) ((s.step host cfg a).getD s) := by
  obtain ⟨s', hs'⟩ := Option.isSome_iff_exists.1 hsome
  rw [hs', Option.getD_some]
  exact h.step a hok hs'

/-- While no frame is in use, no page is anywhere. -/
theorem SysBooked.others_of_unused {s : System} (h : SysBooked host dropped s)
    (hram : s.krnl.mram.usedFpList = []) (hswap : s.krnl.activeMswp.usedFpList = []) (pid : ℕ)
    (hlive : pid ∉ dropped) (p : PageIx) : s.others pid p = .none := by
  obtain ⟨hR, hS⟩ := h.books.counts
  rw [hram, List.length_nil, Nat.cast_zero, eq_comm, Set.encard_eq_zero] at hR
  rw [hswap, List.length_nil, Nat.cast_zero, eq_comm, Set.encard_eq_zero] at hS
  have hres : s.liveRes dropped (.proc pid, p) = s.others pid p := if_neg hlive
  rw [← hres]
  cases heq : s.liveRes dropped (.proc pid, p) with
  | none => rfl
  | ram f => exact absurd (show _ ∈ inRam _ from ⟨f, heq⟩) (by simp [hR])
  | swap t => exact absurd (show _ ∈ inSwap _ from ⟨t, heq⟩) (by simp [hS])

end Calm

theorem oneCpu_formatted (code : List Inst) : (oneCpu code).Formatted where
  krnl_mm := rfl
  ram_used := rfl
  swap_used := rfl
  ram_lt := show ∀ f ∈ (pagesDevice 1).freeFpList, f < 2 ^ 31 by decide
  swap_lt := show ∀ t ∈ (pagesDevice 1).freeFpList, t < 2 ^ 21 by decide
  swap_nodup := show (pagesDevice 1).freeFpList.Nodup by decide

/-- A process without memory runs and is dropped: nothing leaks. -/
theorem no_leak_iff_calc :
    let cfg := oneCpu [⟨.calc, 0, 0, 0, 0⟩]
    ∃ s, LifeRun (Os.Tidy generousHost) generousHost cfg [1] s ∧ NoLeak [1] s.sys := by
  intro cfg
  let s₁ := ((Os.boot cfg).calmly generousHost cfg (firstSlot ++ nextSlot)).getD (Os.boot cfg)
  have h₁ : LifeRun (Os.Tidy generousHost) generousHost cfg [] s₁ :=
    LifeRun.boot.calmly (by decide +kernel)
  have hcalloc := generousHost_generous.1
  have hnone := (h₁.booked hcalloc (oneCpu_formatted _)).others_of_unused (by decide +kernel)
    (by decide +kernel) 1 (by decide)
  have htidy : s₁.Tidy generousHost (.cpu 0) := by
    refine ⟨fun _ p hp _ => ?_, fun hloc => absurd hloc (by decide +kernel)⟩
    have hproc : (s₁.cpus 0).proc = some 1 := by decide +kernel
    obtain rfl := Option.some.inj (hproc.symm.trans hp)
    exact hnone
  have h₂ := h₁.next (.cpu 0) htidy (by decide +kernel)
  have hdrops : s₁.drops (.cpu 0) ++ [] = [1] := by decide +kernel
  rw [hdrops] at h₂
  exact ⟨_, h₂, ((no_leak_iff hcalloc (oneCpu_formatted _)).1 _ _ h₂).1⟩

/-- **Frames leak.** A process allocates a page, which takes the only frame of RAM, and runs to its
    end: the frame is in use, for nobody. -/
theorem not_no_leak_alloc :
    let cfg := oneCpu [⟨.alloc, 300, 0, 0, 0⟩]
    cfg.Formatted ∧ ∃ s, LifeRun (fun _ _ => True) generousHost cfg [1] s ∧
      s.sys.krnl.mram.usedFpList = [0] ∧ ¬ NoLeak [1] s.sys := by
  intro cfg
  have hcalloc := generousHost_generous.1
  have hcfg : cfg.Formatted := oneCpu_formatted _
  -- the CPU gets to the instruction
  let s₁ := ((Os.boot cfg).calmly generousHost cfg [.ld, .ld, .ld, .ld, .cpu 0, .cpu 0]).getD
    (Os.boot cfg)
  have h₁ : LifeRun (Os.Tidy generousHost) generousHost cfg [] s₁ :=
    LifeRun.boot.calmly (by decide +kernel)
  have hnone := (h₁.booked hcalloc hcfg).others_of_unused (by decide +kernel) (by decide +kernel)
    1 (by decide)
  have htidy : s₁.Tidy generousHost (.cpu 0) := by
    refine ⟨fun hloc => absurd hloc (by decide +kernel), fun _ p hp c hc ins hins => ?_⟩
    have hproc : (s₁.cpus 0).proc = some 1 := by decide +kernel
    obtain rfl := Option.some.inj (hproc.symm.trans hp)
    have hfetch : s₁.sys.fetch 1 = some ⟨.alloc, 300, 0, 0, 0⟩ := by decide +kernel
    obtain rfl := Option.some.inj (hfetch.symm.trans hins)
    have hend : (s₁.sys.caller 1).map (fun c => c.mm.mmap.vmEnd) = some 0 := by decide +kernel
    rw [hc, Option.map_some, Option.some.injEq] at hend
    intro _ _ _ _ _ _ _ _
    rw [hend]
    refine ⟨by decide, fun q _ => ?_⟩
    have hq := hnone q
    rw [System.others, (System.caller_eq_some hc).1] at hq
    exact hq
  have h₂ := h₁.next (.cpu 0) htidy (by decide +kernel)
  have hdrops : s₁.drops (.cpu 0) ++ [] = [] := by decide +kernel
  rw [hdrops] at h₂
  -- the time advances
  let s₂ := (s₁.step generousHost cfg (.cpu 0)).getD s₁
  let s₃ := (s₂.calmly generousHost cfg nextSlot).getD s₂
  have h₃ : LifeRun (Os.Tidy generousHost) generousHost cfg [] s₃ := h₂.calmly (by decide +kernel)
  -- the CPU drops the process
  let s₄ := (s₃.step generousHost cfg (.cpu 0)).getD s₃
  have hnot : ¬ s₃.Tidy generousHost (.cpu 0) := fun htidy => by
    have hpage := htidy.1 (by decide +kernel) 1 (by decide +kernel) (by decide +kernel)
      (pageIx generousHost 0)
    exact absurd hpage (by decide +kernel)
  have hdrops₃ : s₃.drops (.cpu 0) ++ [] = [1] := by decide +kernel
  have hstep : s₃.step generousHost cfg (.cpu 0) = some s₄ := by
    have hsome : (s₃.step generousHost cfg (.cpu 0)).isSome = true := by decide +kernel
    obtain ⟨t, ht⟩ := Option.isSome_iff_exists.1 hsome
    simp only [s₄, ht, Option.getD_some]
  have h₃' : LifeRun (fun _ _ => True) generousHost cfg [] s₃ :=
    h₃.of_steps fun _ _ _ _ _ _ => trivial
  have h₄ := h₃'.step (.cpu 0) trivial hstep
  have hleak := Os.leaks_of_step hcalloc (h₃.booked hcalloc hcfg) h₃.dropInv hstep hnot
  rw [hdrops₃] at h₄ hleak
  exact ⟨hcfg, s₄, h₄, by decide +kernel, hleak⟩

end Ossim
