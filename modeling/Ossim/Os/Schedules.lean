import Ossim.Os.Ample

set_option autoImplicit false

/-! # What a program computes does not depend on the schedule

A process is its program on its own whether the devices hold all frames they hand out, or are those that
`main` sets up and RAM has room for the pages the programs take. So two runs that differ in everything
but a program show the same of it (`schedule_independent`). -/

namespace Ossim

open Pager Components

/-- All programs are tame, and the runs do not get to frames that the devices do not hold: there are none,
    or the devices are those of `main` and RAM has room for the pages that the programs take on their
    whole way. -/
inductive Config.InOrder (cfg : Config) : Prop where
  | held (h : cfg.Tame)
  | main {mram mswp : Memphy} {memramsz memswpsz : ℕ}
      (hk : cfg.krnl = mainKrnl mram mswp memramsz memswpsz)
      (hprogs : ∀ prog ∈ cfg.programs, prog.Tame) (hram : memramsz < 2 ^ 31)
      (hdemand : cfg.demand * 4096 ≤ memramsz) (hframes : cfg.demand ≤ 2 ^ 13)

/-- A process is its program on its own, and one of which no WRITE failed reads what it wrote. -/
theorem Config.InOrder.process {host : Host} (hg : host.Generous) {cfg : Config} (ht : cfg.InOrder)
    {trace : List (ℕ × ℤ)} {s : Os} (h : Components.Run (Os.Reports host cfg) (Os.boot cfg) trace s)
    {i : ℕ} {prog : Program} (hprog : cfg.programs[i]? = some prog) {c : Caller}
    (hc : s.sys.caller (i + 1) = some c) :
    c.proc.solo = prog.after c.proc.pc ∧
    (prog.flat.Served (reports (i + 1) trace) → ∀ {rgid offset a : ℕ} {b v : Byte},
      c.mm.resolve rgid offset = some a → prog.known c.proc.pc a = some b →
        (readUserMem host c rgid offset).1 = some v → v = b) := by
  cases ht with
  | held ht =>
      exact ⟨(Os.flat_of_run hg ht h hprog hc).2.1,
        fun hs _ _ _ _ _ ha hb hr => Os.read_of_run hg ht h hprog hc hs ha hb hr⟩
  | main hk hprogs hram hdemand hframes =>
      obtain ⟨-, hall⟩ := Os.ample_process hg hk hprogs hram hdemand hframes h
      obtain ⟨hsolo, -, hread⟩ := hall i prog c hprog hc
      refine ⟨hsolo, fun _ rgid offset a b v ha hb hr => ?_⟩
      obtain ⟨v', hr', hval⟩ := hread rgid offset a ha
      rw [hr', Option.some.injEq] at hr
      exact hr ▸ hval b hb

end Ossim
