import Ossim.Config.Startup
import Ossim.Loader.Accepted
import Ossim.Os.Scheduling
import Ossim.Os.Independent
import Ossim.System.CachePools

set_option autoImplicit false

/-! # What a simulator started from files never does

No file brings one of the four long names through the buffer of `load`: a file that has one goes beyond
defined behaviour when the simulator comes to it. Up to there, whatever the files are, a simulator
started from them executes seven of the eleven opcodes only, and the kernel never gets a pool table. -/

namespace Ossim

open Scanf Loader

/-- All programs are free of the opcodes with a long name. -/
def Config.Short (cfg : Config) : Prop :=
  ∀ prog ∈ cfg.programs, ∀ ins ∈ prog.code, ¬ LongName ins.opcode

theorem loadPrograms_short {mem : StartMem} (hmem : ∀ i, (mem.load i).Ok) {files : Files} {i : ℕ}
    {ps : List LdProcess} :
    ∀ prog ∈ (loadPrograms mem files i ps).1, ∀ ins ∈ prog.code, ¬ LongName ins.opcode := by
  induction ps generalizing i with
  | nil => exact fun _ hp => absurd hp List.not_mem_nil
  | cons p ps ih =>
      rw [loadPrograms]
      cases hload : Loader.load (mem.load i) (files p.path) with
      | error e => exact fun _ hp => absurd hp List.not_mem_nil
      | ok r =>
          obtain ⟨-, -, hall⟩ := load_ok (hmem i) hload
          exact List.forall_mem_cons.2 ⟨fun ins hins => (hall ins hins).1, ih⟩

theorem startup_short {mem : StartMem} (hmem : ∀ i, (mem.load i).Ok) {files : Files} {argv : List Text}
    {st : Startup} (h : startup mem files argv = .ok st) : st.cfg.Short ∧ st.cfg.krnl.mm = initMm := by
  unfold startup at h
  split at h
  · dsimp only at h
    split at h
    · obtain ⟨conf, -, h⟩ := bind_eq_ok_iff.1 h
      obtain rfl := Except.ok.inj h
      exact ⟨loadPrograms_short hmem, rfl⟩
    · exact absurd h (by simp)
  · exact absurd h (by simp)

section Runs

variable {host : Host} {cfg : Config} {s s' : Os} {trace : List (ℕ × ℕ)}

/-- An instruction that is fetched is one of its program. -/
theorem Os.FromConfig.fetches (h : s.FromConfig cfg) {a : Actor} {e : ℕ × ℕ} (he : e ∈ s.fetches a) :
    ∃ prog ins, cfg.programs[e.1 - 1]? = some prog ∧ prog.code[e.2]? = some ins := by
  unfold Os.fetches at he
  split at he
  · split at he
    · next p _ _ =>
        split at he
        · next proc hproc =>
            split at he
            · next hlt =>
                obtain rfl := List.mem_singleton.1 he
                obtain ⟨prog, hprog, hcode, -⟩ := h p proc hproc
                exact ⟨prog, _, hprog, by rw [← hcode]; exact List.getElem?_eq_getElem hlt⟩
            · exact absurd he List.not_mem_nil
        · exact absurd he List.not_mem_nil
    · exact absurd he List.not_mem_nil
  · exact absurd he List.not_mem_nil

theorem run_no_pools {c c' : Caller} {st : ℤ} (h : Ossim.run host c = some (st, c'))
    (hshort : ∀ ins ∈ c.proc.code, ¬ LongName ins.opcode) (hnone : c.krnl.mm.kcpooltbl = none) :
    c'.krnl.mm.kcpooltbl = none := by
  unfold Ossim.run at h
  split at h
  · obtain rfl : c = c' := congrArg Prod.snd (Option.some.inj h)
    exact hnone
  · next ins hins =>
      have htable := execInst_table h
      have hno : ¬ ins.CreatesPoolTable := fun hc =>
        hshort ins (List.mem_of_getElem? hins) (Or.inl hc.1)
      have hbefore : c.incPc.krnl.mm.kcpooltbl = none := hnone
      rw [hbefore] at htable
      simpa [hno] using htable

/-- **Step.** The pool table stays away. -/
theorem Config.Short.step (hc : cfg.Short) (hs : s.FromConfig cfg) (hnone : s.sys.krnl.mm.kcpooltbl = none)
    {a : Actor} (h : s.step host cfg a = some s') : s'.sys.krnl.mm.kcpooltbl = none := by
  cases (Os.move_of_step h).touch with
  | nothing hsys _ | add _ hsys _ =>
      rw [hsys]
      exact hnone
  | run hrun _ =>
      obtain ⟨c, c', hcaller, hexec, hsys⟩ := System.run_eq_some hrun
      obtain ⟨hproc, hkrnl⟩ := System.caller_eq_some hcaller
      obtain ⟨prog, hprog, hcode, -⟩ := hs _ _ hproc
      rw [hsys]
      refine run_no_pools hexec (fun ins hins => ?_) (hkrnl ▸ hnone)
      rw [hcode] at hins
      exact hc prog (List.mem_of_getElem? hprog) ins hins

theorem Config.Short.run (hc : cfg.Short) (hboot : cfg.krnl.mm.kcpooltbl = none)
    (h : OsRun host cfg trace s) : s.sys.krnl.mm.kcpooltbl = none := by
  induction h with
  | boot => exact hboot
  | step h a hstep ih => exact hc.step h.fromConfig ih hstep

end Runs

/-- **What is left out.** Whatever the files are, a simulator started from them never gets a pool table in
    its kernel, and every instruction it fetches has one of the seven opcodes with a short name: it
    makes no pool, allocates from none, and copies nothing between a kernel region and a user region. This
    holds up to the first file that does not load. -/
theorem files_make_no_pools {mem : StartMem} (hmem : ∀ i, (mem.load i).Ok) {files : Files}
    {argv : List Text} {st : Startup} (h : startup mem files argv = .ok st) {host : Host}
    {trace : List (ℕ × ℕ)} {s : Os} (hrun : st.Run host trace s) :
    s.sys.krnl.mm.kcpooltbl = none ∧
    ∀ e ∈ trace, ∃ prog ins, st.cfg.programs[e.1 - 1]? = some prog ∧ prog.code[e.2]? = some ins ∧
      ¬ LongName ins.opcode := by
  obtain ⟨hshort, hmm⟩ := startup_short hmem h
  refine ⟨hshort.run (by rw [hmm]; rfl) hrun.osRun, ?_⟩
  induction hrun with
  | boot => exact fun _ he => absurd he List.not_mem_nil
  | step hrun a _ ih =>
      intro e he
      rcases List.mem_append.1 he with he | he
      · exact ih e he
      · obtain ⟨prog, ins, hprog, hins⟩ := hrun.osRun.fromConfig.fetches he
        exact ⟨prog, ins, hprog, hins, hshort prog (List.mem_of_getElem? hprog) ins
          (List.mem_of_getElem? hins)⟩

/-- Two processes: the first asks for kernel memory without a pool, and its instruction is executed. Then
    the simulator comes to the second, which would make a pool, and the name of that opcode goes beyond
    the buffer. -/
theorem files_make_no_pools_longName :
    let files : Files := fun path =>
      if path = inputDir ++ ['c'] then some "1 1 2\n0 p 0\n0 q 0\n".toList
      else if path = procDir ++ ['p'] then some "1 1\nkmalloc 300 2\n".toList
      else some "1 1\nkmem_cache_create 300 100 0\n".toList
    let mem : StartMem := ⟨fun _ => 0, zeroMemphy, zeroMemphy, fun _ => zeroMem, fun _ _ => 0⟩
    ∃ st r, startup mem files [[], ['c']] = .ok st ∧
      st.schedule generousHost (List.replicate 4 .ld ++ List.replicate 4 (.cpu 0) ++
        List.replicate 5 .timer ++ [.ld]) = some r ∧
      st.step generousHost r.2 .ld = .error .undefined ∧ r.1 = [(1, 0)] ∧
      r.2.sys.krnl.mm.kcpooltbl = none := by
  intro files mem
  have hrun : ((startup mem files [[], ['c']]).toOption.bind fun st =>
      (st.schedule generousHost (List.replicate 4 .ld ++ List.replicate 4 (.cpu 0) ++
        List.replicate 5 .timer ++ [.ld])).bind fun r =>
          match st.step generousHost r.2 .ld with
          | .error .undefined => some r.1
          | _ => none) = some [(1, 0)] := by decide +kernel
  have hmem : ∀ i, (mem.load i).Ok := fun _ => zeroMem_ok
  obtain ⟨st, hst, hsched⟩ := Option.bind_eq_some_iff.1 hrun
  obtain ⟨r, hr, hfetched⟩ := Option.bind_eq_some_iff.1 hsched
  cases hend : st.step generousHost r.2 .ld with
  | ok _ => rw [hend] at hfetched; exact absurd hfetched (by simp)
  | error e =>
      rw [hend] at hfetched
      cases e with
      | exit => exact absurd hfetched (by simp)
      | undefined =>
          cases hstart : startup mem files [[], ['c']] with
          | error e =>
              rw [hstart] at hst
              exact absurd hst (by simp [Except.toOption])
          | ok st' =>
              rw [hstart] at hst
              obtain rfl : st' = st := Option.some.inj hst
              exact ⟨st', r, rfl, hr, hend, Option.some.inj hfetched,
                (files_make_no_pools hmem hstart (.of_schedule hr)).1⟩

end Ossim
