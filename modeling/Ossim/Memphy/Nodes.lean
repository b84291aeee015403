import Ossim.Lib.Chains
import Ossim.Memphy.Proofs

set_option autoImplicit false

/-! # The nodes of the frame lists (`mm-memphy.c`)

`free_fp_list` and `used_fp_list` are chains of nodes through one memory, and a frame changes lists by
relinking its node. `Memphy` has the frame numbers of the two lists. Here the operations are the ones
on the nodes, and `FrameNodes.Represents` relates them to those on the lists of numbers; what sequences
of calls do to the frames is shown there. -/

namespace Ossim

open Chains

variable {Node : Type}

/-- The frame lists of `struct memphy_struct`, and the memory with their nodes, `struct framephy_struct`
    each. -/
structure FrameNodes (Node : Type) where
  fpn : Node → ℕ
  fpNext : Node → Option Node
  freeFpList : Option Node
  usedFpList : Option Node

namespace FrameNodes

section Operations

variable [DecidableEq Node]

/-- `MEMPHY_get_freefp` -/
def getFreefp (m : FrameNodes Node) : Option (ℕ × FrameNodes Node) :=
  match m.freeFpList with
  | none => none
  | some fp =>
    some (m.fpn fp, { m with
      freeFpList := m.fpNext fp
      fpNext := Function.update m.fpNext fp m.usedFpList
      usedFpList := some fp })

/-- `MEMPHY_put_freefp`; `none` if its loop does not end. -/
def putFreefp [Fintype Node] (m : FrameNodes Node) (fpn : ℕ) : Option (ℤ × FrameNodes Node) :=
  match search (fun curr => m.fpn curr == addrOfInt fpn) m.fpNext (Fintype.card Node + 1) none
      m.usedFpList with
  | none => none
  | some (_, none) => some (-1, m)
  | some (prev, some curr) =>
    let r := unlink m.fpNext m.usedFpList prev curr
    some (0, { m with
      fpNext := Function.update r.1 curr m.freeFpList
      freeFpList := some curr
      usedFpList := r.2 })

/-- The loop of `MEMPHY_format` from `iter` on, `n` frames left. What `malloc` returns in an iteration
    is given. -/
def formatLoop (malloc : ℕ → Node) : (n iter : ℕ) → (fst : Node) → FrameNodes Node → FrameNodes Node
  | 0, _, _, m => m
  | n + 1, iter, fst, m =>
    let newfst := malloc iter
    formatLoop malloc n (iter + 1) newfst { m with
      fpn := Function.update m.fpn newfst iter
      fpNext := Function.update (Function.update m.fpNext newfst none) fst (some newfst) }

/-- `MEMPHY_format`, for a device of `numfp` frames -/
def format (malloc : ℕ → Node) (numfp : ℤ) (m : FrameNodes Node) : ℤ × FrameNodes Node :=
  if numfp ≤ 0 then (-1, m)
  else
    let fst := malloc 0
    let m := { m with
      fpn := Function.update m.fpn fst 0
      fpNext := Function.update m.fpNext fst none
      freeFpList := some fst }
    (0, { formatLoop malloc (numfp.toNat - 1) 1 fst m with usedFpList := none })

end Operations

/-! ## The lists of numbers -/

/-- The nodes of the two lists: those of `free` and `used`, with the frame numbers of the device. -/
structure Represents (m : FrameNodes Node) (free used : List Node) (mp : Memphy) : Prop where
  freeChain : Chain m.fpNext m.freeFpList free
  usedChain : Chain m.fpNext m.usedFpList used
  nodup : (free ++ used).Nodup
  freeFpn : mp.freeFpList = free.map m.fpn
  usedFpn : mp.usedFpList = used.map m.fpn

variable [DecidableEq Node] {m : FrameNodes Node} {free used : List Node} {mp : Memphy}

theorem Represents.get_none (h : m.Represents free used mp) (hnone : memphyGetFreefp mp = none) :
    m.getFreefp = none := by
  have hfree := h.freeChain
  rw [List.map_eq_nil_iff.1 (h.freeFpn.symm.trans (memphyGetFreefp_eq_none.1 hnone)), chain_nil]
    at hfree
  rw [getFreefp, hfree]

/-- The first free node goes to the head of the used list. -/
theorem Represents.get_some (h : m.Represents free used mp) {f : ℕ} {mp' : Memphy}
    (hget : memphyGetFreefp mp = some (f, mp')) :
    ∃ m' free' used', m.getFreefp = some (f, m') ∧ m'.Represents free' used' mp' := by
  obtain ⟨rest, hcons, rfl⟩ := memphyGetFreefp_eq_some hget
  obtain ⟨fp, free, rfl, rfl, rfl⟩ := List.map_eq_cons_iff.1 (h.freeFpn.symm.trans hcons)
  obtain ⟨hhead, hrest⟩ := h.freeChain
  have hnd := h.nodup
  rw [List.cons_append, List.nodup_cons, List.mem_append, not_or] at hnd
  obtain ⟨⟨hfree, hused⟩, hnd⟩ := hnd
  refine ⟨_, free, fp :: used, by rw [getFreefp, hhead], ?_⟩
  refine ⟨hrest.update hfree _, h.usedChain.push hused, ?_, rfl, ?_⟩
  · exact (List.perm_middle.nodup_iff).2 (List.nodup_cons.2 ⟨by simp [hfree, hused], hnd⟩)
  · rw [List.map_cons, ← h.usedFpn]

/-- A number without a used node is refused. -/
theorem Represents.put_of_not_mem [Fintype Node] (h : m.Represents free used mp) {fpn : ℕ}
    (hmem : addrOfInt fpn ∉ mp.usedFpList) : m.putFreefp fpn = some (-1, m) := by
  rw [h.usedFpn] at hmem
  have hnone : ∀ n ∈ used, (m.fpn n == addrOfInt fpn) = false := fun n hn =>
    beq_false_of_ne fun heq => hmem (heq ▸ List.mem_map_of_mem hn)
  rw [putFreefp, search_not_found h.usedChain hnone h.usedChain.length_lt_card]

/-- The first used node with the number goes to the head of the free list. -/
theorem Represents.put_of_mem [Fintype Node] (h : m.Represents free used mp) {fpn : ℕ}
    (hmem : addrOfInt fpn ∈ mp.usedFpList) :
    ∃ m' free' used', m.putFreefp fpn = some (0, m') ∧ m'.Represents free' used' { mp with
      freeFpList := addrOfInt fpn :: mp.freeFpList
      usedFpList := mp.usedFpList.erase (addrOfInt fpn) } := by
  rw [h.usedFpn] at hmem
  obtain ⟨as, bs, hsplit, hfirst⟩ := List.eq_append_cons_of_mem hmem
  obtain ⟨l₁, l, rfl, rfl, hl⟩ := List.map_eq_append_iff.1 hsplit
  obtain ⟨curr, l₂, rfl, hcurr, rfl⟩ := List.map_eq_cons_iff.1 hl
  have hbefore : ∀ n ∈ l₁, (m.fpn n == addrOfInt fpn) = false := fun n hn =>
    beq_false_of_ne fun heq => hfirst (heq ▸ List.mem_map_of_mem hn)
  have hfuel : l₁.length < Fintype.card Node + 1 := by
    have hlen := h.usedChain.length_lt_card
    rw [List.length_append] at hlen
    omega
  have hsearch := search_found h.usedChain hbefore (beq_iff_eq.2 hcurr) hfuel none
  rw [Option.or_none] at hsearch
  -- the node is in neither list while it is being moved
  have hperm : (free ++ (l₁ ++ curr :: l₂)).Perm (curr :: (free ++ (l₁ ++ l₂))) := by
    rw [← List.append_assoc, ← List.append_assoc]
    exact List.perm_middle
  have hnd := hperm.nodup_iff.1 h.nodup
  obtain ⟨hcurrMem, -⟩ := List.nodup_cons.1 hnd
  rw [List.mem_append, not_or] at hcurrMem
  have hfree : Chain (unlink m.fpNext m.usedFpList l₁.getLast? curr).1 m.freeFpList free :=
    h.freeChain.unlink_other fun n hn hfree =>
      (List.disjoint_of_nodup_append h.nodup) hfree (List.mem_append_left _ hn)
  refine ⟨_, curr :: free, l₁ ++ l₂, by rw [putFreefp, hsearch], ?_⟩
  refine ⟨hfree.push hcurrMem.1, h.usedChain.unlink.update hcurrMem.2 _, hnd, ?_, ?_⟩
  · rw [List.map_cons, hcurr, ← h.freeFpn]
  · rw [h.usedFpn, hsplit, List.erase_append_right _ hfirst, List.erase_cons_head, List.map_append]

theorem Represents.put [Fintype Node] (h : m.Represents free used mp) (fpn : ℕ) :
    ∃ m' free' used', m.putFreefp fpn = some ((memphyPutFreefp mp fpn).1, m') ∧
      m'.Represents free' used' (memphyPutFreefp mp fpn).2 := by
  by_cases hmem : addrOfInt fpn ∈ mp.usedFpList
  · rw [memphyPutFreefp, if_pos hmem]
    exact h.put_of_mem hmem
  · rw [memphyPutFreefp, if_neg hmem]
    exact ⟨m, free, used, h.put_of_not_mem hmem, h⟩

/-! ## Formatting -/

/-- The free list has the first `k` nodes allocated, numbered in their order. -/
structure Formatted (malloc : ℕ → Node) (k : ℕ) (m : FrameNodes Node) : Prop where
  chain : Chain m.fpNext m.freeFpList ((List.range k).map malloc)
  fpn : ∀ i < k, m.fpn (malloc i) = i

/-- An iteration appends a node. -/
theorem Formatted.step {malloc : ℕ → Node} {k : ℕ} (h : Formatted malloc (k + 1) m)
    (hnew : ∀ i < k + 1, malloc i ≠ malloc (k + 1)) :
    Formatted malloc (k + 2) { m with
      fpn := Function.update m.fpn (malloc (k + 1)) (k + 1)
      fpNext := Function.update (Function.update m.fpNext (malloc (k + 1)) none) (malloc k)
        (some (malloc (k + 1))) } := by
  have hchain := h.chain
  rw [List.range_succ, List.map_append, List.map_singleton] at hchain
  refine ⟨?_, fun i hi => ?_⟩
  · rw [List.range_succ, List.range_succ, List.append_assoc, List.map_append]
    refine hchain.snoc fun hmem => ?_
    rw [← List.map_singleton, ← List.map_append, ← List.range_succ] at hmem
    obtain ⟨i, hi, heq⟩ := List.mem_map.1 hmem
    exact hnew i (List.mem_range.1 hi) heq
  · rcases Nat.lt_succ_iff_lt_or_eq.1 hi with hi | rfl
    · exact (Function.update_of_ne (hnew i hi) ..).trans (h.fpn i hi)
    · exact Function.update_self ..

theorem Formatted.loop {malloc : ℕ → Node} {n k : ℕ} (h : Formatted malloc (k + 1) m)
    (hinj : Set.InjOn malloc (Set.Iio (k + 1 + n))) :
    Formatted malloc (k + 1 + n) (formatLoop malloc n (k + 1) (malloc k) m) := by
  induction n generalizing k m with
  | zero => exact h
  | succ n ih =>
      have hnew : ∀ i < k + 1, malloc i ≠ malloc (k + 1) := fun i hi heq =>
        absurd (hinj (Set.mem_Iio.2 (by omega)) (Set.mem_Iio.2 (by omega)) heq) (by omega)
      have hsize : k + 1 + (n + 1) = k + 1 + 1 + n := by omega
      rw [hsize] at hinj ⊢
      exact ih (h.step hnew) hinj

/-- A formatted device has the lists of `memphyFormat`, provided the nodes allocated are distinct. -/
theorem format_represents {malloc : ℕ → Node} {pagesz : ℕ} (hpos : 0 < mp.maxsz.tdiv pagesz)
    (hinj : Set.InjOn malloc (Set.Iio (mp.maxsz.tdiv pagesz).toNat)) :
    ((format malloc (mp.maxsz.tdiv pagesz) m).2).Represents
      ((List.range (mp.maxsz.tdiv pagesz).toNat).map malloc) [] (memphyFormat mp pagesz).2 := by
  obtain ⟨k, hk⟩ : ∃ k, (mp.maxsz.tdiv pagesz).toNat = k + 1 :=
    Nat.exists_eq_succ_of_ne_zero (by omega)
  rw [memphyFormat, format, if_neg (Int.not_le.2 hpos)]
  simp only [if_neg (Int.not_le.2 hpos)]
  rw [hk] at hinj ⊢
  rw [Nat.add_sub_cancel]
  have hfst : Formatted malloc 1 { m with
      fpn := Function.update m.fpn (malloc 0) 0
      fpNext := Function.update m.fpNext (malloc 0) none
      freeFpList := some (malloc 0) } := by
    refine ⟨⟨rfl, Function.update_self ..⟩, fun i hi => ?_⟩
    rw [Nat.lt_one_iff.1 hi]
    exact Function.update_self ..
  rw [← Nat.add_comm 1 k] at hinj
  have hloop := hfst.loop hinj
  rw [Nat.zero_add, Nat.add_comm 1 k] at hloop
  refine ⟨hloop.chain, rfl, ?_, ?_, rfl⟩
  · rw [List.append_nil]
    exact hloop.chain.nodup
  · have hnumbers : (List.range (k + 1)).map (_ ∘ malloc) = List.range (k + 1) :=
      (List.map_congr_left fun i hi => hloop.fpn i (List.mem_range.1 hi)).trans (List.map_id _)
    rw [List.map_map, hnumbers, List.range_eq_range', List.range'_succ]

/-! ## Sequences of calls -/

inductive FrameCall where
  | get
  | put (fpn : ℕ)

/-- A call, with the frames in use as the callers know them: those obtained and not taken back. -/
def call [Fintype Node] (s : FrameNodes Node × List ℕ) :
    FrameCall → Option (FrameNodes Node × List ℕ)
  | .get =>
    match s.1.getFreefp with
    | none => some s
    | some (fpn, m) => some (m, fpn :: s.2)
  | .put fpn => (s.1.putFreefp fpn).map fun r => (r.2, if r.1 = 0 then s.2.erase fpn else s.2)

def calls [Fintype Node] : List FrameCall → FrameNodes Node × List ℕ →
    Option (FrameNodes Node × List ℕ)
  | [], s => some s
  | c :: cs, s => (call s c).bind (calls cs)

/-- The lists have the frames `fs`, and those in use are the used ones. -/
structure Holds (fs : List ℕ) (s : FrameNodes Node × List ℕ) (free used : List Node) (mp : Memphy) :
    Prop where
  represents : s.1.Represents free used mp
  perm : (mp.freeFpList ++ mp.usedFpList).Perm fs
  inUse : mp.usedFpList = s.2

variable {fs : List ℕ} {s : FrameNodes Node × List ℕ}

theorem Holds.get [Fintype Node] (h : Holds fs s free used mp) :
    ∃ s' free' used' mp', call s .get = some s' ∧ Holds fs s' free' used' mp' := by
  obtain ⟨hrep, hperm, huse⟩ := h
  cases hget : memphyGetFreefp mp with
  | none => exact ⟨s, free, used, mp, by rw [call, hrep.get_none hget], hrep, hperm, huse⟩
  | some r =>
      obtain ⟨f, mp'⟩ := r
      obtain ⟨m', free', used', hnodes, hrep'⟩ := hrep.get_some hget
      refine ⟨(m', f :: s.2), free', used', mp', by rw [call, hnodes], hrep', ?_, ?_⟩
      · obtain ⟨rest, hcons, rfl⟩ := memphyGetFreefp_eq_some hget
        rw [hcons] at hperm
        exact List.perm_middle.trans hperm
      · obtain ⟨rest, -, rfl⟩ := memphyGetFreefp_eq_some hget
        rw [← huse]

theorem Holds.put [Fintype Node] (h : Holds fs s free used mp) {f : ℕ} (hf : f < 2 ^ 31) :
    ∃ s' free' used' mp', call s (.put f) = some s' ∧ Holds fs s' free' used' mp' := by
  obtain ⟨hrep, hperm, huse⟩ := h
  obtain ⟨m', free', used', hput, hrep'⟩ := hrep.put f
  have hlists : ((memphyPutFreefp mp f).2.freeFpList ++ (memphyPutFreefp mp f).2.usedFpList).Perm fs ∧
      (memphyPutFreefp mp f).2.usedFpList =
        if (memphyPutFreefp mp f).1 = 0 then s.2.erase f else s.2 := by
    by_cases hmem : f ∈ mp.usedFpList
    · have hstatus : (memphyPutFreefp mp f).1 = 0 := by
        rw [memphyPutFreefp, addrOfInt_of_lt hf, if_pos hmem]
      rw [hstatus, memphyPutFreefp_of_mem hf hmem, if_pos rfl, ← huse]
      refine ⟨List.Perm.trans ?_ hperm, rfl⟩
      exact List.perm_middle.symm.trans ((List.perm_cons_erase hmem).symm.append_left _)
    · have hsame : memphyPutFreefp mp f = (-1, mp) := by
        rw [memphyPutFreefp, addrOfInt_of_lt hf, if_neg hmem]
      rw [hsame]
      exact ⟨hperm, huse⟩
  exact ⟨_, free', used', _, by rw [call, hput, Option.map_some], hrep', hlists.1, hlists.2⟩

theorem Holds.calls [Fintype Node] (h : Holds fs s free used mp) {cs : List FrameCall}
    (hcs : ∀ f, .put f ∈ cs → f < 2 ^ 31) :
    ∃ s' free' used' mp', calls cs s = some s' ∧ Holds fs s' free' used' mp' := by
  induction cs generalizing s free used mp with
  | nil => exact ⟨s, free, used, mp, rfl, h⟩
  | cons c cs ih =>
      have hstep : ∃ s' free' used' mp', call s c = some s' ∧ Holds fs s' free' used' mp' := by
        cases c with
        | get => exact h.get
        | put f => exact h.put (hcs f List.mem_cons_self)
      obtain ⟨s', free', used', mp', hcall, h'⟩ := hstep
      rw [FrameNodes.calls, hcall, Option.bind_some]
      exact ih h' fun f hmem => hcs f (List.mem_cons_of_mem _ hmem)

/-- The lists of a device whose frames are `fs`, and what the next call does to them. -/
structure Conserves [Fintype Node] (fs : List ℕ) (s : FrameNodes Node × List ℕ)
    (free used : List Node) : Prop where
  freeChain : Chain s.1.fpNext s.1.freeFpList free
  usedChain : Chain s.1.fpNext s.1.usedFpList used
  perm : ((free ++ used).map s.1.fpn).Perm fs
  nodup : ((free ++ used).map s.1.fpn).Nodup
  inUse : used.map s.1.fpn = s.2
  get_fails : s.1.getFreefp = none ↔ free = []
  get_not_inUse : ∀ r, s.1.getFreefp = some r → r.1 ∉ s.2
  put_refused : ∀ f < 2 ^ 31, f ∉ s.2 → s.1.putFreefp f = some (-1, s.1)
  put_accepted : ∀ f < 2 ^ 31, f ∈ s.2 → ∃ m', s.1.putFreefp f = some (0, m')

theorem Holds.conserves [Fintype Node] (h : Holds fs s free used mp) (hnd : fs.Nodup) :
    Conserves fs s free used := by
  obtain ⟨hrep, hperm, huse⟩ := h
  have hfpns : (free ++ used).map s.1.fpn = mp.freeFpList ++ mp.usedFpList := by
    rw [List.map_append, hrep.freeFpn, hrep.usedFpn]
  have hmpnd : (mp.freeFpList ++ mp.usedFpList).Nodup := hperm.nodup_iff.2 hnd
  -- the nodes do what the lists of frame numbers do
  have hget : (s.1.getFreefp = none ↔ free = []) ∧ ∀ r, s.1.getFreefp = some r → r.1 ∉ s.2 := by
    cases hget : memphyGetFreefp mp with
    | none =>
        have hnone := hrep.get_none hget
        have hnil := hrep.freeFpn.symm.trans (memphyGetFreefp_eq_none.1 hget)
        exact ⟨iff_of_true hnone (List.map_eq_nil_iff.1 hnil), fun r hr =>
          absurd (hnone.symm.trans hr) (by simp)⟩
    | some r =>
        obtain ⟨f, mp'⟩ := r
        obtain ⟨m', free', used', hnodes, -⟩ := hrep.get_some hget
        obtain ⟨rest, hcons, -⟩ := memphyGetFreefp_eq_some hget
        rw [hnodes, ← huse]
        refine ⟨iff_of_false (by simp) ?_, ?_⟩
        · rintro rfl
          exact absurd (hrep.freeFpn.symm.trans hcons) (by simp)
        · rintro _ ⟨⟩ hmem
          rw [hcons] at hmpnd
          exact (List.nodup_cons.1 hmpnd).1 (List.mem_append_right _ hmem)
  refine ⟨hrep.freeChain, hrep.usedChain, ?_, ?_, ?_, hget.1, hget.2, ?_, ?_⟩
  · rw [hfpns]
    exact hperm
  · rw [hfpns]
    exact hmpnd
  · rw [← hrep.usedFpn, huse]
  · intro f hf hmem
    rw [← huse, ← addrOfInt_of_lt hf] at hmem
    exact hrep.put_of_not_mem hmem
  · intro f hf hmem
    rw [← huse, ← addrOfInt_of_lt hf] at hmem
    obtain ⟨m', -, -, hput, -⟩ := hrep.put_of_mem hmem
    exact ⟨m', hput⟩

/-- **Calls of `MEMPHY_get_freefp` and `MEMPHY_put_freefp` conserve the frames.** -/
theorem calls_conserve [Fintype Node] {m : FrameNodes Node} {free used : List Node}
    (hfree : Chain m.fpNext m.freeFpList free) (hused : Chain m.fpNext m.usedFpList used)
    (hnd : ((free ++ used).map m.fpn).Nodup) {cs : List FrameCall}
    (hcs : ∀ f, .put f ∈ cs → f < 2 ^ 31) :
    ∃ s free' used', calls cs (m, used.map m.fpn) = some s ∧
      Conserves ((free ++ used).map m.fpn) s free' used' := by
  have hstart : Holds ((free ++ used).map m.fpn) (m, used.map m.fpn) free used { zeroMemphy with
      freeFpList := free.map m.fpn
      usedFpList := used.map m.fpn } := by
    refine ⟨⟨hfree, hused, hnd.of_map, rfl, rfl⟩, ?_, rfl⟩
    rw [List.map_append]
  obtain ⟨s, free', used', mp, hcalls, h⟩ := hstart.calls hcs
  exact ⟨s, free', used', hcalls, h.conserves hnd⟩

/-- Frames 5 and 6 are free and frame 7 is in use. -/
def threeFrames : FrameNodes (Fin 3) where
  fpn := fun n => n + 5
  fpNext := fun n => if n = 0 then some 1 else none
  freeFpList := some 0
  usedFpList := some 2

/-- Frame 7 put twice. -/
theorem calls_put_put_get : ∃ s free' used',
    calls [.put 7, .put 7, .get] (threeFrames, [2].map threeFrames.fpn) = some s ∧
      Conserves (([0, 1] ++ [2] : List (Fin 3)).map threeFrames.fpn) s free' used' := by
  have hfree : Chain threeFrames.fpNext threeFrames.freeFpList [0, 1] := ⟨rfl, rfl, rfl⟩
  have hused : Chain threeFrames.fpNext threeFrames.usedFpList [2] := ⟨rfl, rfl⟩
  refine calls_conserve hfree hused (by decide) fun f hmem => ?_
  simp only [List.mem_cons, FrameCall.put.injEq, reduceCtorEq, List.not_mem_nil, or_false] at hmem
  omega

end FrameNodes

end Ossim
