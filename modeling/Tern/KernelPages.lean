import Tern.Extents

/-! Runs of `alloc_page`: which pages of a region are returned before the next
region is opened. -/

namespace Tern

open Lib

/-- What a call of `alloc_page` did to the regions. -/
inductive PageEvent
  | claims (region : Nat)
  | yields (region : Nat) (page : Word)
  | exhausted
  deriving DecidableEq, Repr

namespace PageEvent

/-- A region is claimed, or there is none left. -/
def Opens : PageEvent → Prop
  | yields _ _ => False
  | _ => True

/-- The page, if the event is that region `i` yields it. -/
def pageOf (i : Nat) : PageEvent → Option Word
  | yields j p => if j = i then some p else none
  | _ => none

end PageEvent

/-- The pages that region `i` has yielded, in the order of the calls. -/
def yieldsOf (i : Nat) (log : List PageEvent) : List Word := log.filterMap (PageEvent.pageOf i)

namespace PowerOfTwoRegion

variable (r : PowerOfTwoRegion)

/-- The first `n` pages of the region, in increasing order. -/
def firstPages (n : Nat) : List Word :=
  (List.range n).map fun k => r.addr + BitVec.ofNat 64 (4096 * k)

def pages : List Word := r.firstPages (2 ^ r.sizeBits.toNat)

/-- A region of two pages or more of which one is left. -/
def OnePageLeft : Prop := 1 ≤ r.sizeBits.toNat ∧ r.watermark.toNat + 4096 = r.size

end PowerOfTwoRegion

/-- The region table, and what the calls so far did. -/
structure PageRun where
  map : PageMap
  log : List PageEvent

/-- Whenever a region was claimed, or none was left, every region `i` claimed before
had yielded the pages `all i`, in their order. -/
def UsesUp (all : Nat → List Word) (log : List PageEvent) : Prop :=
  ∀ before e after, log = before ++ e :: after → e.Opens →
    ∀ i, .claims i ∈ before → yieldsOf i before = all i

namespace PageRun

variable (s : PageRun)

/-- Every claimed region yields its pages in increasing order before the next one
is claimed, and before none is left. -/
def UsesUp : Prop := Tern.UsesUp (fun i => (s.map.region i).pages) s.log

/-- No region that was claimed has its last page left. -/
def Spares : Prop := ∀ i, .claims i ∈ s.log → ¬(s.map.region i).OnePageLeft

end PageRun

/-- Consecutive calls of `alloc_page` on any table of regions whose sizes do not
overflow. -/
def pageRuns : Transition PageRun Unit where
  start s := s.log = [] ∧ s.map.regionCount ≤ 64 ∧
    ∀ i < s.map.regionCount, (s.map.region i).sizeBits.toNat < 52
  step s _ t :=
    (∃ p i, allocPage s.map = .ok (p, t.map) ∧ t.map.region i ≠ s.map.region i ∧
      t.log = s.log ++ ((if (s.map.region i).inKernelUse then [] else [.claims i]) ++
        [.yields i p])) ∨
    allocPage s.map = .error .panic ∧ t.map = s.map ∧ t.log = s.log ++ [.exhausted]

theorem yieldsOf_append (i : Nat) (l l' : List PageEvent) :
    yieldsOf i (l ++ l') = yieldsOf i l ++ yieldsOf i l' :=
  List.filterMap_append

theorem yieldsOf_yields (i j : Nat) (p : Word) :
    yieldsOf i [.yields j p] = if j = i then [p] else [] := by
  by_cases h : j = i <;> simp [yieldsOf, PageEvent.pageOf, h]

theorem yieldsOf_claims (i j : Nat) : yieldsOf i [.claims j] = [] := rfl

theorem yieldsOf_exhausted (i : Nat) : yieldsOf i [.exhausted] = [] := rfl

/-- One more event: if it opens a region, all others have to be used up. -/
theorem usesUp_concat {all : Nat → List Word} {log : List PageEvent} {e : PageEvent} :
    UsesUp all (log ++ [e]) ↔
      UsesUp all log ∧ (e.Opens → ∀ i, .claims i ∈ log → yieldsOf i log = all i) := by
  constructor
  · intro h
    refine ⟨fun before e' after heq => ?_, h log e [] rfl⟩
    exact h before e' (after ++ [e]) (by rw [heq, List.append_assoc, List.cons_append])
  · rintro ⟨hlog, hlast⟩ before e' after heq hopens
    rcases List.eq_nil_or_concat after with rfl | ⟨after, last, rfl⟩
    · obtain ⟨rfl, he⟩ := List.append_inj' heq rfl
      cases he
      exact hlast hopens
    · rw [List.concat_eq_append, ← List.cons_append, ← List.append_assoc] at heq
      exact hlog before e' after (List.append_inj' heq rfl).1 hopens

namespace PowerOfTwoRegion

variable {r : PowerOfTwoRegion} {n : Nat}

theorem firstPages_succ : r.firstPages (n + 1) =
    r.firstPages n ++ [r.addr + BitVec.ofNat 64 (4096 * n)] := by
  rw [firstPages, List.range_succ, List.map_append]
  rfl

theorem firstPages_congr {r' : PowerOfTwoRegion} (h : r'.addr = r.addr) (n : Nat) :
    r'.firstPages n = r.firstPages n := by
  rw [firstPages, firstPages, h]

theorem pages_congr {r' : PowerOfTwoRegion} (haddr : r'.addr = r.addr)
    (hbits : r'.sizeBits = r.sizeBits) : r'.pages = r.pages := by
  rw [pages, pages, hbits, firstPages_congr haddr]

theorem length_firstPages : (r.firstPages n).length = n := by
  rw [firstPages, List.length_map, List.length_range]

theorem size_eq : r.size = 4096 * 2 ^ r.sizeBits.toNat := by
  rw [size, Nat.pow_add, Nat.mul_comm]

end PowerOfTwoRegion

/-! ## What every run keeps -/

/-- A claimed region has yielded the pages below its watermark. -/
structure Yielded (r : PowerOfTwoRegion) (pages : List Word) (n : Nat) : Prop where
  kernel : r.inKernelUse = true
  forPages : r.forPages = true
  pos : 1 ≤ n
  le : n ≤ 2 ^ r.sizeBits.toNat
  watermark : r.watermark.toNat = 4096 * n
  pages : pages = r.firstPages n

/-- The bookkeeping of a run. -/
structure RunInv (s : PageRun) : Prop where
  count : s.map.regionCount ≤ 64
  small : ∀ i < s.map.regionCount, (s.map.region i).sizeBits.toNat < 52
  claimed : ∀ i, .claims i ∈ s.log →
    i < s.map.regionCount ∧ ∃ n, Yielded (s.map.region i) (yieldsOf i s.log) n
  untouched : ∀ i, (s.map.region i).inKernelUse = false → yieldsOf i s.log = []

/-- All pages of the region were yielded. -/
def PowerOfTwoRegion.UsedUp (r : PowerOfTwoRegion) : Prop := r.watermark.toNat = r.size

/-- A region with a page is neither used up nor at its last page. -/
theorem PowerOfTwoRegion.not_hasPage {r : PowerOfTwoRegion} (hsmall : r.sizeBits.toNat < 52)
    (h : r.UsedUp ∨ r.OnePageLeft) : r.hasPage = false := by
  rw [Bool.eq_false_iff, ne_eq, PowerOfTwoRegion.hasPage_iff hsmall]
  rintro ⟨-, -, hlt⟩
  rcases h with hused | ⟨-, hleft⟩
  · rw [PowerOfTwoRegion.UsedUp] at hused
    omega
  · omega

theorem PowerOfTwoRegion.OnePageLeft.not_usedUp {r : PowerOfTwoRegion} (h : r.OnePageLeft) :
    ¬r.UsedUp := by
  have hleft := h.2
  rw [PowerOfTwoRegion.UsedUp]
  omega

/-- A claimed region is used up, or the only one that may have a page. -/
def OneOpen (s : PageRun) : Prop :=
  ∀ i, .claims i ∈ s.log → (s.map.region i).UsedUp ∨
    ∀ j < s.map.regionCount, j ≠ i → (s.map.region j).hasPage = false

namespace Yielded

variable {r : PowerOfTwoRegion} {pages : List Word} {n : Nat}

theorem usedUp_iff (h : Yielded r pages n) : r.UsedUp ↔ pages = r.pages := by
  rw [PowerOfTwoRegion.UsedUp, h.watermark, PowerOfTwoRegion.size_eq, h.pages,
    PowerOfTwoRegion.pages]
  constructor
  · intro heq
    rw [Nat.eq_of_mul_eq_mul_left (by decide) heq]
  · intro heq
    have hlength := congrArg List.length heq
    rw [PowerOfTwoRegion.length_firstPages, PowerOfTwoRegion.length_firstPages] at hlength
    rw [hlength]

/-- A claimed region that `alloc_page` passes over is used up, unless its last page
is left. -/
theorem usedUp_of_passed (h : Yielded r pages n) (hsmall : r.sizeBits.toNat < 52)
    (hpassed : r.hasPage = false) (hleft : ¬r.OnePageLeft) : r.UsedUp := by
  have hnot : ¬r.watermark.toNat < r.size - 4096 := by
    intro hlt
    rw [(PowerOfTwoRegion.hasPage_iff hsmall).mpr ⟨h.kernel, h.forPages, hlt⟩] at hpassed
    cases hpassed
  have hsize := r.size_eq
  have hmark := h.watermark
  have hle := h.le
  have hpos := h.pos
  rw [PowerOfTwoRegion.UsedUp]
  by_contra hne
  refine hleft ⟨?_, by omega⟩
  by_contra hzero
  have hone : 2 ^ r.sizeBits.toNat = 1 := by
    rw [show r.sizeBits.toNat = 0 by omega]
    rfl
  omega

/-- The next page of a region that has one. -/
theorem succ (h : Yielded r pages n) (hsmall : r.sizeBits.toNat < 52) (hhas : r.hasPage = true) :
    Yielded { r with watermark := r.watermark + pageSize } (pages ++ [r.addr + r.watermark])
      (n + 1) := by
  obtain ⟨hkernel, hfor, hpos, hle, hmark, hpages⟩ := h
  obtain ⟨-, -, hroom⟩ := (PowerOfTwoRegion.hasPage_iff hsmall).mp hhas
  have hsize := r.size_eq
  have hbound : r.size < 2 ^ 64 := Nat.pow_lt_pow_right (by decide) (by omega)
  have hoff : r.watermark = BitVec.ofNat 64 (4096 * n) := by
    rw [← hmark, BitVec.ofNat_toNat, BitVec.setWidth_eq]
  refine ⟨hkernel, hfor, by omega, ?_, ?_, ?_⟩
  · show n + 1 ≤ 2 ^ r.sizeBits.toNat
    omega
  · have hpage : pageSize.toNat = 4096 := rfl
    rw [BitVec.toNat_add, hmark, hpage, Nat.mod_eq_of_lt (by omega)]
    omega
  · have hsame : ({ r with watermark := r.watermark + pageSize } : PowerOfTwoRegion).firstPages
        (n + 1) = r.firstPages (n + 1) := by
      refine PowerOfTwoRegion.firstPages_congr ?_ _
      rfl
    rw [hsame, PowerOfTwoRegion.firstPages_succ, hpages, ← hoff]

end Yielded

/-- The first page of a region that was not in use. -/
theorem yielded_one (r : PowerOfTwoRegion) :
    Yielded { r with inKernelUse := true, forPages := true, watermark := pageSize } [r.addr] 1 := by
  refine ⟨rfl, rfl, le_rfl, Nat.one_le_two_pow, rfl, ?_⟩
  simp [PowerOfTwoRegion.firstPages]

section Step

variable {s t : PageRun}

/-- A call finds a page in an open region, claims a region, or reports that no
page is left. -/
theorem RunInv.step_cases (h : RunInv s) (hstep : pageRuns.step s () t) :
    (∃ i p, i < s.map.regionCount ∧ (s.map.region i).hasPage = true ∧
        p = (s.map.region i).addr + (s.map.region i).watermark ∧
        t.map.regionCount = s.map.regionCount ∧ (∀ j, j ≠ i → t.map.region j = s.map.region j) ∧
        t.map.region i = { s.map.region i with
          watermark := (s.map.region i).watermark + pageSize } ∧
        t.log = s.log ++ [.yields i p]) ∨
    (∀ j < s.map.regionCount, (s.map.region j).hasPage = false) ∧
      ((∃ i, i < s.map.regionCount ∧ (s.map.region i).inKernelUse = false ∧
          t.map.regionCount = s.map.regionCount ∧
          (∀ j, j ≠ i → t.map.region j = s.map.region j) ∧
          t.map.region i = { s.map.region i with
            inKernelUse := true, forPages := true, watermark := pageSize } ∧
          t.log = s.log ++ [.claims i] ++ [.yields i (s.map.region i).addr]) ∨
        t.map = s.map ∧ t.log = s.log ++ [.exhausted]) := by
  rcases hstep with ⟨p, i, hok, hchanged, hlog⟩ | ⟨hpanic, hmap, hlog⟩
  · obtain ⟨i', hi, hcount, hold, hcases⟩ := allocPage_cases hok
    obtain rfl : i = i' := by
      by_contra hne
      exact hchanged (hold i hne)
    rcases hcases with ⟨hhas, rfl, hnew⟩ | ⟨hnone, huse, -, rfl, hnew⟩
    · have huse := ((PowerOfTwoRegion.hasPage_iff (h.small i hi)).mp hhas).1
      rw [if_pos huse, List.nil_append] at hlog
      exact .inl ⟨i, _, hi, hhas, rfl, hcount, hold, hnew, hlog⟩
    · rw [huse, if_neg Bool.false_ne_true, ← List.append_assoc] at hlog
      exact .inr ⟨hnone, .inl ⟨i, hi, huse, hcount, hold, hnew, hlog⟩⟩
  · exact .inr ⟨allocPage_panics hpanic, .inr ⟨hmap, hlog⟩⟩

theorem RunInv.start (h : pageRuns.start s) : RunInv s := by
  obtain ⟨hlog, hcount, hsmall⟩ := h
  refine ⟨hcount, hsmall, fun i hi => ?_, fun i _ => ?_⟩
  · rw [hlog] at hi
    exact absurd hi List.not_mem_nil
  · rw [hlog]
    rfl

/-- A call that touches one region only has to keep what holds of this region. -/
theorem RunInv.of_region {i : Nat} (h : RunInv s)
    (hcount : t.map.regionCount = s.map.regionCount)
    (hold : ∀ j, j ≠ i → t.map.region j = s.map.region j)
    (hsize : (t.map.region i).sizeBits = (s.map.region i).sizeBits)
    (hyields : ∀ j, j ≠ i → yieldsOf j t.log = yieldsOf j s.log)
    (hclaims : ∀ j, j ≠ i → .claims j ∈ t.log → .claims j ∈ s.log)
    (hnew : .claims i ∈ t.log →
      i < s.map.regionCount ∧ ∃ n, Yielded (t.map.region i) (yieldsOf i t.log) n)
    (huse : (t.map.region i).inKernelUse = true) : RunInv t := by
  refine ⟨hcount ▸ h.count, fun j hj => ?_, fun j hj => ?_, fun j hj => ?_⟩ <;>
    rcases eq_or_ne j i with rfl | hne
  · rw [hsize]
    exact h.small j (hcount ▸ hj)
  · rw [hold j hne]
    exact h.small j (hcount ▸ hj)
  · rw [hcount]
    exact hnew hj
  · rw [hcount, hold j hne, hyields j hne]
    exact h.claimed j (hclaims j hne hj)
  · rw [huse] at hj
    cases hj
  · rw [hyields j hne]
    exact h.untouched j (hold j hne ▸ hj)

theorem RunInv.step (h : RunInv s) (hstep : pageRuns.step s () t) : RunInv t := by
  rcases h.step_cases hstep with ⟨i, p, hi, hhas, rfl, hcount, hold, hnew, hlog⟩ |
    ⟨-, ⟨i, hi, huse, hcount, hold, hnew, hlog⟩ | ⟨hmap, hlog⟩⟩
  · have hyields : ∀ j, yieldsOf j t.log = yieldsOf j s.log ++
        if i = j then [(s.map.region i).addr + (s.map.region i).watermark] else [] := by
      intro j
      rw [hlog, yieldsOf_append, yieldsOf_yields]
    have hclaims : ∀ j, .claims j ∈ t.log → .claims j ∈ s.log := by
      intro j hj
      rw [hlog] at hj
      simpa using hj
    refine h.of_region hcount hold (by rw [hnew]) (fun j hne => ?_) (fun j _ => hclaims j)
      (fun hclaim => ?_) ?_
    · rw [hyields, if_neg (Ne.symm hne), List.append_nil]
    · obtain ⟨-, n, hn⟩ := h.claimed i (hclaims i hclaim)
      refine ⟨hi, n + 1, ?_⟩
      rw [hnew, hyields, if_pos rfl]
      exact hn.succ (h.small i hi) hhas
    · rw [hnew]
      exact ((PowerOfTwoRegion.hasPage_iff (h.small i hi)).mp hhas).1
  · have hyields : ∀ j, yieldsOf j t.log = yieldsOf j s.log ++
        if i = j then [(s.map.region i).addr] else [] := by
      intro j
      rw [hlog, yieldsOf_append, yieldsOf_append, yieldsOf_yields, yieldsOf_claims,
        List.append_nil]
    refine h.of_region hcount hold (by rw [hnew]) (fun j hne => ?_) (fun j hne hj => ?_)
      (fun _ => ?_) (by rw [hnew])
    · rw [hyields, if_neg (Ne.symm hne), List.append_nil]
    · rw [hlog] at hj
      simpa [hne] using hj
    · refine ⟨hi, 1, ?_⟩
      rw [hnew, hyields, if_pos rfl, h.untouched i huse, List.nil_append]
      exact yielded_one _
  · have hyields : ∀ j, yieldsOf j t.log = yieldsOf j s.log := by
      intro j
      rw [hlog, yieldsOf_append, yieldsOf_exhausted, List.append_nil]
    refine ⟨hmap ▸ h.count, hmap ▸ h.small, fun j hj => ?_, fun j hj => ?_⟩
    · have hclaim : .claims j ∈ s.log := by
        rw [hlog] at hj
        simpa using hj
      rw [hmap, hyields]
      exact h.claimed j hclaim
    · rw [hyields]
      exact h.untouched j (hmap ▸ hj)

/-- Address and size of the regions stay. -/
theorem RunInv.pages_eq (h : RunInv s) (hstep : pageRuns.step s () t) (i : Nat) :
    (t.map.region i).pages = (s.map.region i).pages := by
  rcases h.step_cases hstep with ⟨k, p, -, -, -, -, hold, hnew, -⟩ |
    ⟨-, ⟨k, -, -, -, hold, hnew, -⟩ | ⟨hmap, -⟩⟩
  · rcases eq_or_ne i k with rfl | hne
    · rw [hnew]
      exact PowerOfTwoRegion.pages_congr rfl rfl
    · rw [hold i hne]
  · rcases eq_or_ne i k with rfl | hne
    · rw [hnew]
      exact PowerOfTwoRegion.pages_congr rfl rfl
    · rw [hold i hne]
  · rw [hmap]

/-- When no open region has a page, the claimed ones are all used up if and only if
none of them has its last page left. -/
theorem RunInv.all_used_iff (h : RunInv s)
    (hnone : ∀ j < s.map.regionCount, (s.map.region j).hasPage = false) :
    (∀ i, .claims i ∈ s.log → yieldsOf i s.log = (s.map.region i).pages) ↔ s.Spares := by
  constructor
  · intro hall i hi hleft
    obtain ⟨-, n, hn⟩ := h.claimed i hi
    exact hleft.not_usedUp (hn.usedUp_iff.mpr (hall i hi))
  · intro hspares i hi
    obtain ⟨hlt, n, hn⟩ := h.claimed i hi
    exact hn.usedUp_iff.mp (hn.usedUp_of_passed (h.small i hlt) (hnone i hlt) (hspares i hi))

/-- As long as an open region has a page, no claimed one has its last page left. -/
theorem OneOpen.spares (hone : OneOpen s) (h : RunInv s) {i : Nat} (hi : i < s.map.regionCount)
    (hhas : (s.map.region i).hasPage = true) : s.Spares := by
  intro j hj hleft
  obtain ⟨hlt, -⟩ := h.claimed j hj
  rcases hone j hj with hused | hothers
  · exact hleft.not_usedUp hused
  · rcases eq_or_ne i j with rfl | hne
    · rw [PowerOfTwoRegion.not_hasPage (h.small i hi) (.inr hleft)] at hhas
      cases hhas
    · rw [hothers i hi hne] at hhas
      cases hhas

theorem OneOpen.step (hone : OneOpen s) (h : RunInv s) (hspares : s.Spares)
    (hstep : pageRuns.step s () t) : OneOpen t := by
  intro j hj
  rcases h.step_cases hstep with ⟨i, p, hi, hhas, -, hcount, hold, -, hlog⟩ |
    ⟨hnone, ⟨i, -, huse, hcount, hold, -, hlog⟩ | ⟨hmap, hlog⟩⟩
  · have hclaim : .claims j ∈ s.log := by
      rw [hlog] at hj
      simpa using hj
    rcases hone j hclaim with hused | hothers
    · have hne : j ≠ i := by
        rintro rfl
        rw [PowerOfTwoRegion.not_hasPage (h.small j hi) (.inl hused)] at hhas
        cases hhas
      exact .inl (by rwa [hold j hne])
    · obtain rfl : i = j := by
        by_contra hne
        rw [hothers i hi hne] at hhas
        cases hhas
      refine .inr fun k hk hne => ?_
      rw [hold k hne]
      exact hothers k (hcount ▸ hk) hne
  · rcases eq_or_ne j i with rfl | hne
    · refine .inr fun k hk hne => ?_
      rw [hold k hne]
      exact hnone k (hcount ▸ hk)
    · have hclaim : .claims j ∈ s.log := by
        rw [hlog] at hj
        simpa [hne] using hj
      obtain ⟨hlt, n, hn⟩ := h.claimed j hclaim
      rw [hold j hne]
      exact .inl (hn.usedUp_of_passed (h.small j hlt) (hnone j hlt) (hspares j hclaim))
  · have hclaim : .claims j ∈ s.log := by
      rw [hlog] at hj
      simpa using hj
    rw [hmap]
    exact hone j hclaim

/-- A call keeps the order if and only if it does not pass over a last page. -/
theorem RunInv.usesUp_iff (h : RunInv s) (hone : OneOpen s) (huses : s.UsesUp)
    (hstep : pageRuns.step s () t) : t.UsesUp ↔ s.Spares := by
  have hall : (fun i => (t.map.region i).pages) = fun i => (s.map.region i).pages :=
    funext (h.pages_eq hstep)
  rw [PageRun.UsesUp, hall]
  rcases h.step_cases hstep with ⟨i, p, hi, hhas, -, -, -, -, hlog⟩ |
    ⟨hnone, ⟨i, -, -, -, -, -, hlog⟩ | ⟨-, hlog⟩⟩
  · rw [hlog, usesUp_concat]
    exact iff_of_true ⟨huses, nofun⟩ (hone.spares h hi hhas)
  · rw [hlog, usesUp_concat, usesUp_concat, ← h.all_used_iff hnone]
    exact ⟨fun hnew => hnew.1.2 trivial, fun hused => ⟨⟨huses, fun _ => hused⟩, nofun⟩⟩
  · rw [hlog, usesUp_concat, ← h.all_used_iff hnone]
    exact ⟨fun hnew => hnew.2 trivial, fun hused => ⟨huses, fun _ => hused⟩⟩

end Step

/-- As long as no call finds a claimed region with only its last page left, every
region is used up before the next one is opened; and the first call that finds one
opens another region, or reports that there is none. -/
theorem alloc_page_uses_up {s : PageRun} (h : pageRuns.ReachedBy (fun s _ => s.Spares) s) :
    s.UsesUp ∧ ∀ t, pageRuns.step s () t → (t.UsesUp ↔ s.Spares) := by
  have hinv : RunInv s ∧ OneOpen s ∧ s.UsesUp := by
    refine h.invariant (I := fun s => RunInv s ∧ OneOpen s ∧ s.UsesUp) ?_ ?_
    · intro s hs
      refine ⟨.start hs, fun i hi => ?_, fun before e after heq => ?_⟩
      · rw [hs.1] at hi
        exact absurd hi List.not_mem_nil
      · rw [hs.1] at heq
        exact absurd heq.symm (by simp)
    · rintro s l t ⟨hinv, hone, huses⟩ hspares hstep
      exact ⟨hinv.step hstep, hone.step hinv hspares hstep,
        (hinv.usesUp_iff hone huses hstep).mpr hspares⟩
  obtain ⟨hinv, hone, huses⟩ := hinv
  exact ⟨huses, fun t hstep => hinv.usesUp_iff hone huses hstep⟩

/-- The first two calls on a table whose regions are not in use. -/
theorem two_claims {m m₁ m₂ : PageMap} {p q : Word} (ok : PageRun → Unit → Prop)
    (hstart : pageRuns.start ⟨m, []⟩) (hp : allocPage m = .ok (p, m₁))
    (hq : allocPage m₁ = .ok (q, m₂))
    (hfree : (m.region 0).inKernelUse = false ∧ (m₁.region 1).inKernelUse = false)
    (hused : (m₁.region 0).inKernelUse = true ∧ (m₂.region 1).inKernelUse = true)
    (hok : ok ⟨m, []⟩ () ∧ ok ⟨m₁, [.claims 0, .yields 0 p]⟩ ()) :
    pageRuns.ReachedBy ok ⟨m₂, [.claims 0, .yields 0 p, .claims 1, .yields 1 q]⟩ := by
  have hfirst : pageRuns.ReachedBy ok ⟨m₁, [.claims 0, .yields 0 p]⟩ := by
    refine .step (.start hstart) hok.1 (.inl ⟨p, 0, hp, fun heq => ?_, ?_⟩)
    · have heq : m₁.region 0 = m.region 0 := heq
      rw [heq, hfree.1] at hused
      cases hused.1
    · show _ = [] ++ ((if (m.region 0).inKernelUse then [] else [PageEvent.claims 0]) ++ _)
      rw [hfree.1]
      rfl
  refine .step hfirst hok.2 (.inl ⟨q, 1, hq, fun heq => ?_, ?_⟩)
  · have heq : m₂.region 1 = m₁.region 1 := heq
    rw [heq, hfree.2] at hused
    cases hused.2
  · show _ = _ ++ ((if (m₁.region 1).inKernelUse then [] else [PageEvent.claims 1]) ++ _)
    rw [hfree.2]
    rfl

/-- A further page of a region that is in use. -/
theorem next_page {s : PageRun} {m : PageMap} {i : Nat} {p : Word} {ok : PageRun → Unit → Prop}
    (h : pageRuns.ReachedBy ok s) (hok : ok s ()) (hp : allocPage s.map = .ok (p, m))
    (hused : (s.map.region i).inKernelUse = true)
    (hmoved : (m.region i).watermark ≠ (s.map.region i).watermark) :
    pageRuns.ReachedBy ok ⟨m, s.log ++ [.yields i p]⟩ := by
  refine .step h hok (.inl ⟨p, i, hp, fun heq => hmoved (congrArg _ heq), ?_⟩)
  rw [hused]
  rfl

/-- A region of one page is used up by the call that opens it; the region of four
pages behind it yields one page after the other. -/
theorem alloc_page_uses_up_regions :
    ∃ s, pageRuns.ReachedBy (fun s _ => s.Spares) s ∧
      s.log = [.claims 0, .yields 0 0x1000#64, .claims 1, .yields 1 0x4000#64,
        .yields 1 0x5000#64, .yields 1 0x6000#64] ∧
      s.UsesUp ∧ ∀ t, pageRuns.step s () t → (t.UsesUp ↔ s.Spares) := by
  have hrun : (do
      let m ← initPageMmap [⟨0x1000#64, 0x1000#64⟩, ⟨0x4000#64, 0x4000#64⟩]
      let (p, m₁) ← allocPage m
      let (q, m₂) ← allocPage m₁
      let (r, m₃) ← allocPage m₂
      let (u, m₄) ← allocPage m₃
      return decide ((m.regionCount ≤ 64 ∧
        (∀ i < m.regionCount, (m.region i).sizeBits.toNat < 52) ∧
        ((m.region 0).inKernelUse = false ∧ (m₁.region 1).inKernelUse = false) ∧
        ((m₁.region 0).inKernelUse = true ∧ (m₂.region 1).inKernelUse = true)) ∧
        ((m₁.region 0).sizeBits.toNat = 0 ∧ (m₂.region 0).sizeBits.toNat = 0 ∧
          (m₃.region 0).sizeBits.toNat = 0) ∧
        ((m₂.region 1).watermark.toNat + 4096 ≠ (m₂.region 1).size ∧
          (m₃.region 1).watermark.toNat + 4096 ≠ (m₃.region 1).size) ∧
        ((m₃.region 1).inKernelUse = true ∧ (m₃.region 1).watermark ≠ (m₂.region 1).watermark ∧
          (m₄.region 1).watermark ≠ (m₃.region 1).watermark) ∧
        p = 0x1000#64 ∧ q = 0x4000#64 ∧ r = 0x5000#64 ∧ u = 0x6000#64)) = .ok true := by
    decide +kernel
  simp only [bind_eq_ok, pure_eq_ok, decide_eq_true_eq] at hrun
  obtain ⟨m, -, ⟨p, m₁⟩, hp, ⟨q, m₂⟩, hq, ⟨r, m₃⟩, hr, ⟨u, m₄⟩, hu, ⟨hcount, hsmall, hfree, hused⟩,
    ⟨hbits₁, hbits₂, hbits₃⟩, ⟨hleft₂, hleft₃⟩, ⟨hused₃, hmoved₃, hmoved₄⟩, rfl, rfl, rfl, rfl⟩ := hrun
  -- no region that is open has one page left
  have hspares : ∀ {m : PageMap} {log : List PageEvent}, (m.region 0).sizeBits.toNat = 0 →
      (m.region 1).watermark.toNat + 4096 ≠ (m.region 1).size →
      (∀ i, .claims i ∈ log → i = 0 ∨ i = 1) → PageRun.Spares ⟨m, log⟩ := by
    intro m log hbits hleft hlog i hi hone
    rcases hlog i hi with rfl | rfl
    · have hpos : 1 ≤ (m.region 0).sizeBits.toNat := hone.1
      omega
    · exact hleft hone.2
  have hreached₂ := two_claims (fun s _ => s.Spares) ⟨rfl, hcount, hsmall⟩ hp hq hfree hused
    ⟨fun i hi => absurd hi List.not_mem_nil, fun i hi hleft => by
      obtain rfl : i = 0 := by simpa using hi
      have hpos : 1 ≤ (m₁.region 0).sizeBits.toNat := hleft.1
      have hzero : (m₁.region 0).sizeBits.toNat = 0 := hbits₁
      omega⟩
  have hreached₃ := next_page hreached₂ (hspares hbits₂ hleft₂ fun i hi => by simpa using hi) hr
    hused.2 hmoved₃
  have hreached₄ := next_page hreached₃ (hspares hbits₃ hleft₃ fun i hi => by simpa using hi) hu
    hused₃ hmoved₄
  exact ⟨_, hreached₄, rfl, alloc_page_uses_up hreached₄⟩

/-- Of a region of two pages the second one is never returned: the second call opens
the next region. -/
theorem alloc_page_leaves_last :
    ∃ s, pageRuns.Reached s ∧
      s.log = [.claims 0, .yields 0 0x2000#64, .claims 1, .yields 1 0x8000#64] ∧
      (s.map.region 0).pages = [0x2000#64, 0x3000#64] ∧ ¬s.UsesUp := by
  have hrun : (do
      let m ← initPageMmap [⟨0x2000#64, 0x2000#64⟩, ⟨0x8000#64, 0x1000#64⟩]
      let (p, m₁) ← allocPage m
      let (q, m₂) ← allocPage m₁
      return decide (m.regionCount ≤ 64 ∧
        (∀ i < m.regionCount, (m.region i).sizeBits.toNat < 52) ∧
        ((m.region 0).inKernelUse = false ∧ (m₁.region 1).inKernelUse = false) ∧
        ((m₁.region 0).inKernelUse = true ∧ (m₂.region 1).inKernelUse = true) ∧
        (m₂.region 0).pages = [0x2000#64, 0x3000#64] ∧
        p = 0x2000#64 ∧ q = 0x8000#64)) = .ok true := by
    decide +kernel
  simp only [bind_eq_ok, pure_eq_ok, decide_eq_true_eq] at hrun
  obtain ⟨m, -, ⟨p, m₁⟩, hp, ⟨q, m₂⟩, hq, hcount, hsmall, hfree, hused, hpages, rfl, rfl⟩ := hrun
  have hreached := two_claims (fun _ _ => True) ⟨rfl, hcount, hsmall⟩ hp hq hfree hused
    ⟨trivial, trivial⟩
  refine ⟨_, hreached, rfl, hpages, fun huses => ?_⟩
  have hall : [0x2000#64] = (m₂.region 0).pages :=
    huses [.claims 0, .yields 0 0x2000#64] (.claims 1) [.yields 1 0x8000#64] rfl trivial 0
      (by simp)
  rw [show (m₂.region 0).pages = [0x2000#64, 0x3000#64] from hpages] at hall
  cases hall

end Tern
