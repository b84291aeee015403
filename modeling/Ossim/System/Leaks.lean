import Ossim.Paging.Overwritten
import Ossim.System.Ledger

set_option autoImplicit false

/-! # Steps that leak

From books in order, an instruction that maps a page that is mapped, or writes the pattern of the map
operation over an entry, leaves more or fewer frames in use than entries that name one; and so does
dropping a process that has pages. -/

namespace Ossim

open Pager

section Leaks

variable {host : Host} {dropped : List ℕ} {s s' : System} {pid : ℕ} {c c' : Caller} {ps : List PageIx}

theorem System.slot_put_self (s : System) (pid : ℕ) (c : Caller) (p : PageIx) :
    (s.put pid c).slot (.proc pid, p) = c.mm.entry p := by
  simp only [System.slot, System.put, Function.update_self]
  rfl

theorem System.put_marks (h : ∀ k, Unambiguous (s.slot k)) (hu : ∀ p, Unambiguous (c'.mm.entry p))
    (hk : ∀ p, Unambiguous (c'.krnl.mm.entry p)) (k : PageKey) :
    Unambiguous ((s.put pid c').slot k) := by
  obtain ⟨o, p⟩ := k
  cases o with
  | krnl => exact hk p
  | proc q =>
      by_cases hq : q = pid
      · subst hq
        rw [System.slot_put_self]
        exact hu p
      · have hold := h (.proc q, p)
        simp only [System.slot, System.procs_put_of_ne s c' hq] at hold ⊢
        exact hold

theorem NoLeak.counts (h : NoLeak dropped s) (hmarks : ∀ k, Unambiguous (s.slot k)) :
    (s.krnl.mram.usedFpList.length : ℕ∞) = (inRam (s.liveRes dropped)).encard ∧
    (s.krnl.activeMswp.usedFpList.length : ℕ∞) = (inSwap (s.liveRes dropped)).encard := by
  rw [System.inRam_liveRes, System.inSwap_liveRes hmarks]
  exact ⟨h.ram, h.swap⟩

/-- Without a leak, pages that were given frames were different ones and had none. -/
theorem SysBooked.nodup_of_overwritten (h : SysBooked host dropped s) (hc : s.caller pid = some c)
    (hlive : pid ∉ dropped) {xs : List PageKey}
    (ho : Overwritten (c.pager pid (s.liveOthers dropped)).res
      (c'.pager pid (s.liveOthers dropped)).res xs)
    (hu : ∀ p, Unambiguous (c'.mm.entry p)) (hk : ∀ p, Unambiguous (c'.krnl.mm.entry p))
    (hram : c'.krnl.mram.usedFpList.length = c.krnl.mram.usedFpList.length + xs.length)
    (hswap : c'.krnl.activeMswp.usedFpList = c.krnl.activeMswp.usedFpList)
    (hno : NoLeak dropped (s.put pid c')) :
    xs.Nodup ∧ ∀ x ∈ xs, (c.pager pid (s.liveOthers dropped)).res x = .none := by
  obtain ⟨hR, hS⟩ := hno.counts (System.put_marks h.unambiguous hu hk)
  rw [System.liveRes_put s c' hlive] at hR hS
  refine (h.caller hc hlive).books.nodup_of_overwritten ho ?_ ?_
  · rw [← hram]
    exact hR
  · rw [← hswap]
    exact hS

/-- A page of the process that was mapped has been mapped again. -/
theorem SysBooked.leaks_of_setsPages (h : SysBooked host dropped s) (hc : s.caller pid = some c)
    (hlive : pid ∉ dropped) (hset : SetsPages c c' ps) (hnot : ¬ Unmapped c.mm ps) :
    ¬ NoLeak dropped (s.put pid c') := by
  intro hno
  have hb := h.caller hc hlive
  obtain ⟨hnodup, hnone⟩ := h.nodup_of_overwritten hc hlive hset.overwritten
    (hset.set.marks hb.pages.marks) (hset.krnl_entry ▸ hb.krnl.marks)
    (by rw [List.length_map, hset.ram_used]) hset.swap_used hno
  refine hnot ⟨hnodup.of_map _, fun p hp => ?_⟩
  simpa using hnone _ (List.mem_map_of_mem hp)

/-- A page of the kernel that was mapped has been mapped again. -/
theorem SysBooked.leaks_of_setsKrnlPages (h : SysBooked host dropped s) (hc : s.caller pid = some c)
    (hlive : pid ∉ dropped) (hset : SetsKrnlPages c c' ps) (hnot : ¬ Unmapped c.krnl.mm ps) :
    ¬ NoLeak dropped (s.put pid c') := by
  intro hno
  have hb := h.caller hc hlive
  obtain ⟨hnodup, hnone⟩ := h.nodup_of_overwritten hc hlive hset.overwritten
    (hset.entry ▸ hb.pages.marks) (hset.set.marks hb.krnl.marks)
    (by rw [List.length_map, hset.ram_used]) hset.swap_used hno
  refine hnot ⟨hnodup.of_map _, fun p hp => ?_⟩
  simpa using hnone _ (List.mem_map_of_mem hp)

/-- After an operation that writes the pattern into some slots of its process, every slot is as it was
    or has both marks. -/
theorem System.pte_put_pattern (hc : s.caller pid = some c) (hkrnl : c'.krnl = c.krnl) {K : Set PageIx}
    (hon : ∀ p ∈ K, c'.mm.entry p = 0xdeadbeef) (hoff : ∀ p ∉ K, c'.mm.entry p = c.mm.entry p)
    (k : PageKey) :
    (s.put pid c').pte k = s.pte k ∨
      pagingPagePresent ((s.put pid c').pte k) = true ∧
      pagingPageSwapped ((s.put pid c').pte k) = true := by
  obtain ⟨hproc, hk⟩ := System.caller_eq_some hc
  obtain ⟨o, q⟩ := k
  cases o with
  | krnl =>
      left
      simp only [System.pte, System.slot, System.put, hk, hkrnl]
  | proc r =>
      by_cases hr : r = pid
      · subst hr
        rw [System.pte, System.slot_put_self]
        by_cases hq : q ∈ K
        · right
          rw [hon q hq]
          decide
        · left
          rw [hoff q hq, System.pte, System.slot]
          simp only [hproc]
          rfl
      · left
        simp only [System.pte, System.slot, System.procs_put_of_ne s _ hr]

/-- While no mark is taken away and as many slots have it as before, the same ones have it. -/
theorem System.marked_of_encard_eq {t : System} {mark : BitVec 32 → Bool}
    (hkeep : ∀ k, t.pte k = s.pte k ∨ mark (t.pte k) = true) {n : ℕ}
    (hn : (n : ℕ∞) = {k : PageKey | k.1.Live dropped ∧ mark (s.pte k) = true}.encard)
    (hn' : (n : ℕ∞) = {k : PageKey | k.1.Live dropped ∧ mark (t.pte k) = true}.encard)
    {k : PageKey} (hlive : k.1.Live dropped) (hk : mark (t.pte k) = true) : mark (s.pte k) = true := by
  have hsub : {k : PageKey | k.1.Live dropped ∧ mark (s.pte k) = true} ⊆
      {k | k.1.Live dropped ∧ mark (t.pte k) = true} := fun k hkm =>
    ⟨hkm.1, (hkeep k).elim (fun heq => heq ▸ hkm.2) id⟩
  have heq := (Set.finite_of_encard_eq_coe hn.symm).eq_of_subset_of_encard_le hsub
    (le_of_eq (hn'.symm.trans hn))
  have hmem : k ∈ {k : PageKey | k.1.Live dropped ∧ mark (s.pte k) = true} := by
    rw [heq]
    exact ⟨hlive, hk⟩
  exact hmem.2

/-- Entries of the process now carry both marks, and no frame has been taken. -/
theorem SysBooked.leaks_of_pattern (h : SysBooked host dropped s) (hc : s.caller pid = some c)
    (hlive : pid ∉ dropped) (hkrnl : c'.krnl = c.krnl) {K : Set PageIx} (hK : K.Nonempty)
    (hon : ∀ p ∈ K, c'.mm.entry p = 0xdeadbeef) (hoff : ∀ p ∉ K, c'.mm.entry p = c.mm.entry p) :
    ¬ NoLeak dropped (s.put pid c') := by
  intro hno
  obtain ⟨p, hp⟩ := hK
  have hkeep := System.pte_put_pattern hc hkrnl hon hoff
  obtain ⟨hram, hswap⟩ := h.noLeak
  obtain ⟨hram', hswap'⟩ := hno
  have hsame : (s.put pid c').krnl = s.krnl := hkrnl.trans (System.caller_eq_some hc).2.symm
  rw [hsame] at hram' hswap'
  have hpattern : (s.put pid c').pte (.proc pid, p) = BitVec.setWidth 32 (0xdeadbeef : BitVec 64) := by
    rw [System.pte, System.slot_put_self, hon p hp]
  -- the first slot written had both marks before
  have hpres : pagingPagePresent (s.pte (.proc pid, p)) = true :=
    System.marked_of_encard_eq (fun k => (hkeep k).imp_right And.left) hram hram' hlive
      (by rw [hpattern]; decide)
  have hswapped : pagingPageSwapped (s.pte (.proc pid, p)) = true :=
    System.marked_of_encard_eq (fun k => (hkeep k).imp_right And.right) hswap hswap' hlive
      (by rw [hpattern]; decide)
  have hone := h.unambiguous (.proc pid, p) hswapped
  exact absurd (hpres.symm.trans hone) (by simp)

/-- **Step.** An instruction that is not tidy leaks. -/
theorem execInst_leaks (hcalloc : ∀ n, host.calloc n = true) (h : SysBooked host dropped s)
    (hc : s.caller pid = some c) (hlive : pid ∉ dropped) {ins : Inst} (hnot : ¬ c.Tidy host ins)
    {st : ℤ} (hstep : execInst host c.incPc ins = some (st, c')) :
    ¬ NoLeak dropped (s.put pid c') := by
  have hlt := (h.caller hc hlive).krnl.ram_lt
  have hinc : SameBooks c c.incPc := ⟨rfl, .refl _, rfl, rfl, fun _ h => h, rfl, rfl⟩
  have hres : ∀ {r : ℤ × Caller}, some r = some (st, c') → c' = r.2 :=
    fun heq => (congrArg Prod.snd (Option.some.inj heq)).symm
  rw [execInst] at hstep
  rw [Caller.Tidy] at hnot
  -- a page mapped twice takes two frames for one entry, and a pattern is an entry without a frame
  cases hins : ins.opcode with
  | alloc =>
      simp only [hins] at hstep hnot
      obtain ⟨regs, rfl⟩ := liballoc_eq_some _ _ hstep
      obtain ⟨ps, hset, hnone⟩ := @alloc_set host c.incPc hcalloc hlt _ _ hnot
      exact h.leaks_of_setsPages hc hlive (hset.congr hinc (.setRegs _ regs)) hnone
  | kmalloc =>
      simp only [hins, Inst.request, Option.mem_some_iff, forall_eq'] at hstep hnot
      obtain rfl := hres hstep
      rw [libkmemMalloc_snd]
      have hset := kmalloc_set hcalloc c.incPc (uint32 ins.arg1) (uint32 ins.arg0)
      exact h.leaks_of_setsKrnlPages hc hlive (hset.congr hinc (.refl _)) hnot
  | kmemCacheCreate =>
      simp only [hins, Inst.request] at hstep hnot
      obtain rfl := hres hstep
      split_ifs at hnot with hargs hid
      · simp at hnot
      · simp at hnot
      · simp only [Option.mem_some_iff, forall_eq'] at hnot
        have hset := libkmemCachePoolCreate_set hcalloc c.incPc hargs (Nat.lt_of_not_le hid)
        exact h.leaks_of_setsKrnlPages hc hlive (hset.congr hinc (.refl _)) hnot
  | syscall =>
      simp only [hins, libsyscall] at hstep hnot
      obtain rfl := hres hstep
      simp only [not_forall, not_and_or] at hnot
      obtain ⟨hnr, hreg, hnot⟩ := hnot
      have hreg' : c.incPc.proc.registered = true := hreg
      rw [hnr, syscall, if_pos rfl, sysMemmap, hreg']
      rcases hnot with ⟨hop, hpos⟩ | ⟨hop, hnot⟩
      · simp only [Bool.not_true, Bool.false_eq_true, if_false, if_pos hop]
        obtain ⟨K, hK, hon, hoff⟩ :=
          vmapPgdMemsetLoop_entry hcalloc (cInt ins.arg3).toNat (uint32 ins.arg2) c.mm
        exact h.leaks_of_pattern hc hlive rfl (hK (by omega)) hon hoff
      · have hne : ¬ sysmemIncOp = sysmemMapOp := by decide
        simp only [Bool.not_true, Bool.false_eq_true, if_false, hop, if_neg hne, if_true]
        obtain ⟨ps, hset, hnone⟩ := @incVmaLimit_set host c.incPc hcalloc hlt _ _ hnot
        exact h.leaks_of_setsPages hc hlive (hset.congr hinc (.refl _)) hnone
  | _ =>
      simp only [hins] at hnot
      exact absurd trivial hnot

theorem SysBooked.leaks_of_drop (h : SysBooked host dropped s)
    (hnot : ¬ ∀ p, s.others pid p = .none) (hlive : pid ∉ dropped) : ¬ NoLeak (pid :: dropped) s := by
  intro hno
  obtain ⟨hR, hS⟩ := hno.counts h.unambiguous
  refine hnot fun p => ?_
  have hsub : ∀ k, s.liveRes (pid :: dropped) k = s.liveRes dropped k ∨
      s.liveRes (pid :: dropped) k = .none := by
    rintro ⟨o, q⟩
    cases o with
    | krnl => exact Or.inl rfl
    | proc r =>
        simp only [System.liveRes, System.liveOthers, List.mem_cons]
        by_cases hr : r = pid
        · simp [hr]
        · simp [hr]
  have heq := congrFun (h.books.eq_of_forgotten hsub hR hS) (.proc pid, p)
  simp only [System.liveRes, System.liveOthers, List.mem_cons, true_or, if_true, if_neg hlive] at heq
  exact heq.symm

end Leaks

end Ossim
