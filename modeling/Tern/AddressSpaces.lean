import Tern.Devices
import Tern.Regions
import Tern.Lib.Tables
import Tern.Lib.Transition

/-! Which translations a mapped page changes. The map methods look at the entry
they write, not at whether a table is mapped elsewhere already; so a table may
be shared, and a page mapped through one walk appears at the end of all others.
Runs in which no table is mapped a second time keep the tables of all vspaces a
forest. The kernel half of a PML4 is shared by design: a page mapped there is
mapped in every vspace. -/

namespace Tern

open Lib Lib.Tables

/-! ## Frames and entries -/

/-- The 9 bits of an address that select an entry. -/
def index (addr : Word) (shift : Nat) : Word := (addr >>> shift) &&& 0x1FF#64

def entryAt (t i : Word) : Word := t + 8#64 * i

/-- A page frame, by its direct-map address. -/
def IsFrame (dm : DirectMap) (t : Word) : Prop :=
  ∃ p, pteAddr p = p ∧ p.toNat + 4096 ≤ 2 ^ dm.bits ∧ t = dm.directMapOf p

section

variable {dm : DirectMap} {t t' i i' : Word}

theorem index_lt (addr : Word) (shift : Nat) : (index addr shift).toNat < 512 := by
  have hle : ((addr >>> shift) &&& 0x1FF#64).toNat ≤ 0x1FF := by
    rw [BitVec.toNat_and]
    exact Nat.and_le_right
  exact Nat.lt_succ_of_le hle

theorem index_maskLow (addr : Word) {n shift : Nat} (h : n ≤ shift) :
    index (maskLow addr n) shift = index addr shift := by
  have hshift : (addr >>> n) <<< n >>> shift = addr >>> shift := by
    apply BitVec.eq_of_getLsbD_eq
    intro j hj
    simp only [BitVec.getLsbD_ushiftRight, BitVec.getLsbD_shiftLeft]
    by_cases hlt : shift + j < 64
    · rw [show n + (shift + j - n) = shift + j by omega]
      simp [hlt, show ¬ shift + j < n by omega]
    · have hbit : addr.getLsbD (shift + j) = false := BitVec.getLsbD_of_ge _ _ (by omega)
      simp [hlt, hbit]
  rw [index, maskLow, hshift, index]

/-- The flags of an entry do not disturb its address. -/
theorem pteAddr_flags (p : Word) :
    pteAddr (p ||| ptePresent ||| pteWrite ||| pteUser) = pteAddr p := by
  simp only [pteAddr, ptePresent, pteWrite, pteUser, BitVec.and_or_distrib_right]
  simp

theorem pteAddr_aligned {p : Word} (h : pteAddr p = p) : p.toNat % 4096 = 0 := by
  have hnat := congrArg BitVec.toNat h
  rw [pteAddr, BitVec.toNat_and] at hnat
  rw [← hnat, show 4096 = 2 ^ 12 by rfl, Nat.and_mod_two_pow]
  simp

theorem IsFrame.directMapOf_pteAddr (h : IsFrame dm t) : dm.directMapOf (pteAddr t) = t := by
  obtain ⟨p, hp, -, rfl⟩ := h
  simp only [DirectMap.directMapOf, pteAddr, BitVec.and_or_distrib_right, BitVec.or_assoc] at hp ⊢
  rw [hp]
  congr 1
  apply BitVec.eq_of_getLsbD_eq
  intro j hj
  simp only [BitVec.getLsbD_or, BitVec.getLsbD_and]
  cases dm.offset.getLsbD j <;> simp

theorem physicalOf_directMapOf {p : Word} (h : p.toNat < 2 ^ dm.bits) :
    dm.physicalOf (dm.directMapOf p) = p := by
  have hlow := dm.directMapOf_low h
  have hzero := dm.directMapOf_low (a := 0#64) (Nat.two_pow_pos dm.bits)
  have hbelow := dm.below
  apply BitVec.eq_of_toNat_eq
  rw [DirectMap.physicalOf, BitVec.toNat_sub, hlow, hzero]
  simp only [BitVec.toNat_ofNat]
  omega

/-- Every address that an entry can hold is a table's. -/
theorem directMapOf_pteAddr_aligned (hbits : 12 ≤ dm.bits) (entry : Word) :
    (dm.directMapOf (pteAddr entry)).toNat % 4096 = 0 := by
  have hoffset : 2 ^ 12 ∣ dm.offset.toNat := (Nat.pow_dvd_pow 2 hbits).trans dm.aligned
  have haddr : (pteAddr entry).toNat % 2 ^ 12 = 0 := by
    rw [pteAddr, BitVec.toNat_and, Nat.and_mod_two_pow]
    simp
  rw [DirectMap.directMapOf, BitVec.toNat_or, show 4096 = 2 ^ 12 by rfl, Nat.or_mod_two_pow, haddr,
    Nat.mod_eq_zero_of_dvd hoffset]
  rfl

/-- The entry that the map methods write for a table leads to the table. -/
theorem IsFrame.of_entry (h : IsFrame dm t) :
    dm.directMapOf (pteAddr (dm.physicalOf t ||| ptePresent ||| pteWrite ||| pteUser)) = t := by
  obtain ⟨p, hp, hbits, rfl⟩ := h
  rw [pteAddr_flags, physicalOf_directMapOf (by omega), hp]

theorem IsFrame.bits_le (h : IsFrame dm t) : 12 ≤ dm.bits := by
  obtain ⟨p, -, hb, -⟩ := h
  by_contra hlt
  have hpow : 2 ^ dm.bits < 2 ^ 12 := Nat.pow_lt_pow_right (by decide) (by omega)
  omega

theorem IsFrame.toNat (h : IsFrame dm t) : t.toNat % 4096 = 0 ∧ t.toNat + 4096 ≤ 2 ^ 64 := by
  have hbits := h.bits_le
  obtain ⟨p, hp, hb, rfl⟩ := h
  have hlow := dm.directMapOf_low (a := p) (by omega)
  have hoffset : 4096 ∣ dm.offset.toNat := (Nat.pow_dvd_pow 2 hbits).trans dm.aligned
  have haligned := pteAddr_aligned hp
  have hbelow := dm.below
  omega

/-- Aligned tables are the same or have no entry in common. -/
theorem entryAt_inj_of_aligned (ht : t.toNat % 4096 = 0) (ht' : t'.toNat % 4096 = 0)
    (hi : i.toNat < 512) (hi' : i'.toNat < 512) (he : entryAt t i = entryAt t' i') :
    t = t' ∧ i = i' := by
  have hbound := t.isLt
  have hbound' := t'.isLt
  have hnat := congrArg BitVec.toNat he
  simp only [entryAt, BitVec.toNat_add, BitVec.toNat_mul, BitVec.toNat_ofNat] at hnat
  constructor <;> (apply BitVec.eq_of_toNat_eq; omega)

/-- Entries of frames are apart. -/
theorem IsFrame.entryAt_inj (h : IsFrame dm t) (h' : IsFrame dm t') (hi : i.toNat < 512)
    (hi' : i'.toNat < 512) (he : entryAt t i = entryAt t' i') : t = t' ∧ i = i' :=
  entryAt_inj_of_aligned h.toNat.1 h'.toNat.1 hi hi' he

end

/-! ## Tables -/

/-- How many levels below a table are tables again. -/
def tableLevel : CapType → Option Nat
  | .x86Pt => some 0
  | .x86Pd => some 1
  | .x86Pdpt => some 2
  | .x86Pml4 => some 3
  | _ => none

/-- Some capability is for the table `t` of level `n`. -/
def IsTable (s : Slots) (n : Nat) (t : Word) : Prop :=
  ∃ a, tableLevel (s a).cap.type = some n ∧ capPtr (s a).cap = t

/-- The tables are frames, and no frame is used at two levels. -/
structure TablesApart (dm : DirectMap) (s : Slots) : Prop where
  frame : ∀ n t, IsTable s n t → IsFrame dm t
  level : ∀ n m t, IsTable s n t → IsTable s m t → n = m

/-- The entries through which user addresses are looked up: those of the upper
three levels, without the kernel half of a PML4. -/
def UserEntry (s : Slots) (t i : Word) : Prop :=
  ∃ n, IsTable s (n + 1) t ∧ i.toNat < 512 ∧ (n = 2 → i.toNat < 256)

def child (dm : DirectMap) (memory : Word → Word) (t i : Word) : Word :=
  dm.directMapOf (pteAddr (memory (entryAt t i)))

def LeadsTo (dm : DirectMap) (s : Slots) (memory : Word → Word) (t i u : Word) : Prop :=
  UserEntry s t i ∧ present memory (entryAt t i) = true ∧ child dm memory t i = u

/-- The table that a lookup ends at. -/
def lookup (dm : DirectMap) (memory : Word → Word) : Word → List Word → Option Word
  | t, [] => some t
  | t, i :: path =>
    if present memory (entryAt t i) then lookup dm memory (child dm memory t i) path else none

/-- The indices of an address in the upper three levels. -/
def path (addr : Word) : List Word := [index addr 39, index addr 30, index addr 21]

/-- Not the kernel half. -/
def InUserHalf (addr : Word) : Prop := (index addr 39).toNat < 256

def SamePage (a b : Word) : Prop := path a = path b ∧ index a 12 = index b 12

/-- An address is looked up in entry `i` of the table `t`, at some level. -/
def LooksIn (dm : DirectMap) (memory : Word → Word) (root virt t i : Word) : Prop :=
  ∃ before after, path virt ++ [index virt 12] = before ++ i :: after ∧
    lookup dm memory root before = some t

/-- What `resolve_vm_mapping` makes of the entry it ends at. -/
def leafOf (memory : Word → Word) (pte virt : Word) : Word :=
  if !present memory pte then 0#64 else pteAddr (memory pte) ||| (virt &&& 0xFFF#64)

section

variable {dm : DirectMap} {s : Slots} {memory memory' : Word → Word} {root virt : Word}

theorem IsTable.level_le {n : Nat} {t : Word} (h : IsTable s n t) : n ≤ 3 := by
  obtain ⟨a, ha, -⟩ := h
  unfold tableLevel at ha
  split at ha <;> cases ha <;> decide

theorem getPml4e_eq (h : IsFrame dm root) (virt : Word) :
    getPml4e dm root virt = entryAt root (index virt 39) := by
  show entryAt (dm.directMapOf (pteAddr root)) (index virt 39) = _
  rw [h.directMapOf_pteAddr]

theorem getPdpte_eq (h : IsFrame dm root) (virt : Word) :
    getPdpte dm memory root virt =
      entryAt (child dm memory root (index virt 39)) (index virt 30) := by
  rw [getPdpte, getPml4e_eq h]
  rfl

theorem getPde_eq (h : IsFrame dm root) (virt : Word) :
    getPde dm memory root virt =
      entryAt (child dm memory (child dm memory root (index virt 39)) (index virt 30))
        (index virt 21) := by
  rw [getPde, getPdpte_eq h]
  rfl

theorem getPte_eq (h : IsFrame dm root) (virt : Word) :
    getPte dm memory root virt =
      entryAt (child dm memory (child dm memory (child dm memory root (index virt 39))
        (index virt 30)) (index virt 21)) (index virt 12) := by
  rw [getPte, getPde_eq h]
  rfl

theorem resolveVmMapping_eq (h : IsFrame dm root) (virt : Word) :
    resolveVmMapping dm memory root virt =
      match lookup dm memory root (path virt) with
      | none => 0#64
      | some pt => leafOf memory (entryAt pt (index virt 12)) virt := by
  let pdpt := child dm memory root (index virt 39)
  let pd := child dm memory pdpt (index virt 30)
  let pt := child dm memory pd (index virt 21)
  have hpdpte : entryIn dm (memory (entryAt root (index virt 39))) virt 30 =
      entryAt pdpt (index virt 30) := rfl
  have hpde : entryIn dm (memory (entryAt pdpt (index virt 30))) virt 21 =
      entryAt pd (index virt 21) := rfl
  have hpte : entryIn dm (memory (entryAt pd (index virt 21))) virt 12 =
      entryAt pt (index virt 12) := rfl
  have hlookup : lookup dm memory root (path virt) =
      if present memory (entryAt root (index virt 39)) then
        if present memory (entryAt pdpt (index virt 30)) then
          if present memory (entryAt pd (index virt 21)) then some pt else none
        else none
      else none := rfl
  simp only [resolveVmMapping, getPml4e_eq h, hpdpte, hpde, hpte, hlookup]
  cases present memory (entryAt root (index virt 39)) <;>
    cases present memory (entryAt pdpt (index virt 30)) <;>
    cases present memory (entryAt pd (index virt 21)) <;> rfl

/-- The lookup of a user address is a walk. -/
theorem lookup_eq_some_iff (hlevelled : Levelled (LeadsTo dm s memory) (IsTable s))
    {path : List Word} {u : Word} : ∀ {n : Nat} {t : Word}, IsTable s n t → path.length ≤ n →
      (∀ i ∈ path, i.toNat < 512) → (n = 3 → ∀ i ∈ path.head?, i.toNat < 256) →
      (lookup dm memory t path = some u ↔ Walk (LeadsTo dm s memory) t path u) := by
  induction path with
  | nil =>
    intro n t _ _ _ _
    constructor
    · rintro ⟨⟩
      exact .nil _
    · rintro ⟨⟩
      rfl
  | cons i path ih =>
    intro n t ht hlen hlt huser
    obtain ⟨m, rfl⟩ : ∃ m, n = m + 1 := ⟨n - 1, by simp at hlen; omega⟩
    have hm := ht.level_le
    have hentry : UserEntry s t i :=
      ⟨m, ht, hlt i (by simp), fun hm => huser (by omega) i (by simp)⟩
    have hrest : ∀ w, LeadsTo dm s memory t i w →
        (lookup dm memory w path = some u ↔ Walk (LeadsTo dm s memory) w path u) := fun w hw =>
      ih (hlevelled m t i w ht hw) (by simpa using hlen) (fun j hj => hlt j (by simp [hj]))
        fun h => by omega
    rw [lookup]
    constructor
    · intro h
      split at h
      · rename_i hpresent
        have hleads : LeadsTo dm s memory t i (child dm memory t i) := ⟨hentry, hpresent, rfl⟩
        exact .cons hleads ((hrest _ hleads).mp h)
      · cases h
    · rintro (_ | ⟨hleads, hwalk⟩)
      have h := (hrest _ hleads).mpr hwalk
      obtain ⟨-, hpresent, rfl⟩ := hleads
      rw [if_pos hpresent]
      exact h

theorem lookup_path_iff (hlevelled : Levelled (LeadsTo dm s memory) (IsTable s))
    (hroot : IsTable s 3 root) (huser : InUserHalf virt) {u : Word} :
    lookup dm memory root (path virt) = some u ↔ Walk (LeadsTo dm s memory) root (path virt) u :=
  lookup_eq_some_iff hlevelled hroot le_rfl (by simp [path, index_lt]) fun _ => by
    simpa [path, InUserHalf] using huser

theorem leafOf_congr {pte : Word} (h : memory' pte = memory pte) :
    leafOf memory' pte virt = leafOf memory pte virt := by
  have hpresent : present memory' pte = present memory pte :=
    congrArg (fun entry => entry &&& ptePresent != 0#64) h
  rw [leafOf, leafOf, hpresent, h]

theorem lookup_update_of_ne {e value : Word} (path : List Word) : ∀ {t : Word},
    (∀ before i after u, path = before ++ i :: after →
      lookup dm memory t before = some u → entryAt u i ≠ e) →
    lookup dm (Function.update memory e value) t path = lookup dm memory t path := by
  induction path with
  | nil => exact fun _ => rfl
  | cons i path ih =>
    intro t h
    have hentry : Function.update memory e value (entryAt t i) = memory (entryAt t i) :=
      Function.update_of_ne (h [] i path t rfl rfl) _ _
    have hpresent : present (Function.update memory e value) (entryAt t i) =
        present memory (entryAt t i) := by rw [present, present, hentry]
    have hchild : child dm (Function.update memory e value) t i = child dm memory t i := by
      rw [child, child, hentry]
    rw [lookup, lookup, hpresent, hchild]
    by_cases hp : present memory (entryAt t i) = true
    · rw [if_pos hp, if_pos hp]
      refine ih fun before j after u hsplit hu => h (i :: before) j after u (by rw [hsplit]; rfl) ?_
      rw [lookup, if_pos hp]
      exact hu
    · rw [if_neg hp, if_neg hp]

/-- A write to an entry changes the translation of what is looked up in it, of
either half. -/
theorem resolve_update_of_not_read (h : IsFrame dm root) {e value : Word}
    (he : ∀ t i, LooksIn dm memory root virt t i → entryAt t i ≠ e) :
    resolveVmMapping dm (Function.update memory e value) root virt =
      resolveVmMapping dm memory root virt := by
  have hlookup : lookup dm (Function.update memory e value) root (path virt) =
      lookup dm memory root (path virt) := by
    refine lookup_update_of_ne _ fun before i after u hsplit hu => he u i ?_
    exact ⟨before, after ++ [index virt 12], by rw [hsplit]; simp, hu⟩
  rw [resolveVmMapping_eq h, resolveVmMapping_eq h, hlookup]
  cases hpt : lookup dm memory root (path virt) with
  | none => rfl
  | some pt =>
    have hleaf : entryAt pt (index virt 12) ≠ e := he _ _ ⟨path virt, [], rfl, hpt⟩
    exact leafOf_congr (Function.update_of_ne hleaf _ _)

theorem lookup_aligned (hbits : 12 ≤ dm.bits) {path : List Word} {u : Word} : ∀ {t : Word},
    t.toNat % 4096 = 0 → lookup dm memory t path = some u → u.toNat % 4096 = 0 := by
  induction path with
  | nil =>
    rintro t ht ⟨⟩
    exact ht
  | cons i path ih =>
    intro t _ h
    rw [lookup] at h
    split at h
    · exact ih (directMapOf_pteAddr_aligned hbits _) h
    · cases h

theorem LooksIn.bounds (h : IsFrame dm root) {t i : Word}
    (hlooks : LooksIn dm memory root virt t i) : t.toNat % 4096 = 0 ∧ i.toNat < 512 := by
  obtain ⟨before, after, hsplit, ht⟩ := hlooks
  refine ⟨lookup_aligned h.bits_le h.toNat.1 ht, ?_⟩
  have hmem : i ∈ path virt ++ [index virt 12] := by simp [hsplit]
  simp only [path, List.cons_append, List.nil_append, List.mem_cons, List.not_mem_nil,
    or_false] at hmem
  rcases hmem with rfl | rfl | rfl | rfl <;> exact index_lt _ _

/-- Writes outside of the user entries do not matter. -/
theorem leadsTo_congr (h : ∀ t i, UserEntry s t i → memory' (entryAt t i) = memory (entryAt t i)) :
    LeadsTo dm s memory' = LeadsTo dm s memory := by
  funext t i u
  by_cases ht : UserEntry s t i
  · simp only [LeadsTo, child, present, h t i ht]
  · simp [LeadsTo, ht]

theorem update_entry (hapart : TablesApart dm s) {n : Nat} {t₀ i₀ t i : Word} (value : Word)
    (ht₀ : IsTable s n t₀) (hi₀ : i₀.toNat < 512) (ht : UserEntry s t i)
    (hne : ¬ (t = t₀ ∧ i = i₀)) :
    Function.update memory (entryAt t₀ i₀) value (entryAt t i) = memory (entryAt t i) := by
  obtain ⟨m, hm, hi, -⟩ := ht
  refine Function.update_of_ne (fun e => hne ?_) _ _
  exact (hapart.frame _ _ hm).entryAt_inj (hapart.frame _ _ ht₀) hi hi₀ e

/-- Mapping a table makes one entry more. -/
theorem leadsTo_insert (hapart : TablesApart dm s) {t₀ i₀ u₀ value : Word} (hentry : UserEntry s t₀ i₀)
    (habsent : present memory (entryAt t₀ i₀) = false)
    (hvalue : value &&& ptePresent ≠ 0#64) (hu₀ : dm.directMapOf (pteAddr value) = u₀) :
    LeadsTo dm s (Function.update memory (entryAt t₀ i₀) value) =
      With (LeadsTo dm s memory) t₀ i₀ u₀ := by
  funext t i u
  apply propext
  by_cases h : t = t₀ ∧ i = i₀
  · obtain ⟨rfl, rfl⟩ := h
    constructor
    · rintro ⟨-, -, hu⟩
      exact .inr ⟨rfl, rfl, by rw [← hu, child, Function.update_self, hu₀]⟩
    · rintro (⟨-, hpresent, -⟩ | ⟨-, -, rfl⟩)
      · rw [habsent] at hpresent
        cases hpresent
      · refine ⟨hentry, ?_, by rw [child, Function.update_self, hu₀]⟩
        simpa [present] using hvalue
  · by_cases ht : UserEntry s t i
    · obtain ⟨n, hn, hi₀, -⟩ := hentry
      have hsame : Function.update memory (entryAt t₀ i₀) value (entryAt t i) =
          memory (entryAt t i) := update_entry hapart value hn hi₀ ht h
      simp only [LeadsTo, With, child, present, hsame]
      tauto
    · simp only [LeadsTo, With, ht, false_and, false_or, false_iff]
      rintro ⟨rfl, rfl, -⟩
      exact h ⟨rfl, rfl⟩

end

/-! ## Runs of the map methods -/

inductive MapMethod
  | pdptMap | pdMap | ptMap | pageMap

structure MapCall where
  method : MapMethod
  cte : Word
  vspace : Word
  vaddr : Word
  attr : Word

def MapMethod.type : MapMethod → CapType
  | .pdptMap => .x86Pdpt
  | .pdMap => .x86Pd
  | .ptMap => .x86Pt
  | .pageMap => .x86Page

def MapCall.run (dm : DirectMap) (k : Kernel) (c : MapCall) : Reply × Kernel :=
  match c.method with
  | .pdptMap => pdptMap dm k c.cte c.vspace c.vaddr
  | .pdMap => pdMap dm k c.cte c.vspace c.vaddr
  | .ptMap => ptMap dm k c.cte c.vspace c.vaddr
  | .pageMap => pageMap dm k c.cte c.vspace c.vaddr c.attr

/-- The method is invoked on a capability of its type, with a vspace. -/
def MapCall.Typed (s : Slots) (c : MapCall) : Prop :=
  (s c.cte).cap.type = c.method.type ∧ (s c.vspace).cap.type = .x86Pml4

/-- All tables are freshly retyped. -/
structure FreshTables (dm : DirectMap) (k : Kernel) : Prop where
  apart : TablesApart dm k.slots
  zero : ∀ n t i, IsTable k.slots n t → i.toNat < 512 → k.memory (entryAt t i) = 0#64

def mapSystem (dm : DirectMap) : Transition Kernel MapCall where
  start := FreshTables dm
  step k c k' := c.Typed k.slots ∧ ∃ r, c.run dm k = (r, k')

def rootOf (s : Slots) (vspace : Word) : Word := capPtr (s vspace).cap

/-- The copy of the kernel half, which starts at the entry of `vaddr`, does not
run on into another table. -/
def CopyContained (dm : DirectMap) (k : Kernel) (vspace vaddr : Word) : Prop :=
  ∀ i < 256, ∀ n t j, IsTable k.slots n t → j.toNat < 512 →
    getPml4e dm (rootOf k.slots vspace) (maskLow vaddr 39) + kernelEntry i = entryAt t j →
      t = rootOf k.slots vspace

/-- The call stays out of the kernel half and of tables it was not given. -/
def Contained (dm : DirectMap) (k : Kernel) (c : MapCall) : Prop :=
  match c.method with
  | .pdptMap => CopyContained dm k c.vspace c.vaddr
  | _ => InUserHalf c.vaddr

/-- Nor does it map a table that is mapped already. -/
def Unshared (dm : DirectMap) (k : Kernel) (c : MapCall) : Prop :=
  Contained dm k c ∧ (c.method ≠ .pageMap → (c.run dm k).1.isOk = true →
    ∀ t i, ¬ LeadsTo dm k.slots k.memory t i (capPtr (k.slots c.cte).cap))

structure TablesInv (dm : DirectMap) (k : Kernel) : Prop where
  apart : TablesApart dm k.slots
  levelled : Levelled (LeadsTo dm k.slots k.memory) (IsTable k.slots)

theorem FreshTables.leadsTo_none {dm : DirectMap} {k : Kernel} (h : FreshTables dm k) (t i u : Word) :
    ¬ LeadsTo dm k.slots k.memory t i u := by
  rintro ⟨⟨n, ht, hi, -⟩, hpresent, -⟩
  simp [present, h.zero _ t i ht hi] at hpresent

theorem FreshTables.inv {dm : DirectMap} {k : Kernel} (h : FreshTables dm k) : TablesInv dm k :=
  ⟨h.apart, fun _ _ _ _ _ hleads => absurd hleads (h.leadsTo_none _ _ _)⟩

section

variable {dm : DirectMap} {k k' : Kernel} {r : Reply} {c : MapCall}

theorem MapCall.Typed.vspace_table (h : c.Typed k.slots) :
    IsTable k.slots 3 (rootOf k.slots c.vspace) :=
  ⟨c.vspace, by rw [h.2]; rfl, rfl⟩

/-- A present entry on the way of a user address. -/
theorem TablesInv.leadsTo (hk : TablesInv dm k) {n shift : Nat} {t virt : Word}
    (ht : IsTable k.slots (n + 1) t) (huser : n = 2 → (index virt shift).toNat < 256)
    (hpresent : present k.memory (entryAt t (index virt shift)) = true) :
    LeadsTo dm k.slots k.memory t (index virt shift) (child dm k.memory t (index virt shift)) ∧
      IsTable k.slots n (child dm k.memory t (index virt shift)) := by
  have hleads : LeadsTo dm k.slots k.memory t (index virt shift)
      (child dm k.memory t (index virt shift)) := ⟨⟨n, ht, index_lt _ _, huser⟩, hpresent, rfl⟩
  exact ⟨hleads, hk.levelled n _ _ _ ht hleads⟩

/-- What a map method that goes through does to the tables: it maps the table
that it is invoked on, or a page. -/
def Extends (dm : DirectMap) (k k' : Kernel) (u : Word) : Prop :=
  ∃ n t i, IsTable k.slots (n + 1) t ∧ IsTable k.slots n u ∧
    LeadsTo dm k.slots k'.memory = With (LeadsTo dm k.slots k.memory) t i u

theorem Extends.of_update (hk : TablesInv dm k) {n : Nat} {t i u value : Word}
    (ht : IsTable k.slots (n + 1) t) (hu : IsTable k.slots n u) (hi : i.toNat < 512)
    (huser : n = 2 → i.toNat < 256) (habsent : present k.memory (entryAt t i) = false)
    (hvalue : value = dm.physicalOf u ||| ptePresent ||| pteWrite ||| pteUser) :
    Extends dm k { k with memory := Function.update k.memory (entryAt t i) value } u := by
  subst hvalue
  refine ⟨n, t, i, ht, hu, leadsTo_insert hk.apart ⟨n, ht, hi, huser⟩ habsent ?_ ?_⟩
  · intro h
    have hbit := congrArg (BitVec.getLsbD · 0) h
    simp [ptePresent, pteWrite, pteUser] at hbit
  · exact (hk.apart.frame n u hu).of_entry

/-- What a map method does: nothing to the tables, or it maps the one it is
invoked on. -/
structure MapSpec (dm : DirectMap) (k : Kernel) (c : MapCall) (r : Reply) (k' : Kernel) : Prop where
  slots : k'.slots = k.slots
  leads : LeadsTo dm k.slots k'.memory = LeadsTo dm k.slots k.memory ∨
    (r.isOk = true ∧ c.method ≠ .pageMap ∧ Extends dm k k' (capPtr (k.slots c.cte).cap))

theorem pdMap_spec (hk : TablesInv dm k) {cte vspace vaddr attr : Word}
    (htyped : (MapCall.mk .pdMap cte vspace vaddr attr).Typed k.slots) (huser : InUserHalf vaddr)
    (h : pdMap dm k cte vspace vaddr = (r, k')) :
    MapSpec dm k ⟨.pdMap, cte, vspace, vaddr, attr⟩ r k' := by
  have hroot := htyped.vspace_table
  have hframe := hk.apart.frame _ _ hroot
  have hpd : IsTable k.slots 1 (capPtr (k.slots cte).cap) := ⟨cte, by rw [htyped.1]; rfl, rfl⟩
  rw [rootOf] at hroot hframe
  simp only [pdMap, getPml4e_eq hframe, getPdpte_eq hframe,
    index_maskLow vaddr (show 30 ≤ 39 by decide), index_maskLow vaddr (show 30 ≤ 30 by decide)] at h
  rcases mapEntry_cases h with rfl | ⟨hr, habove, habsent, rfl⟩
  · exact ⟨rfl, .inl rfl⟩
  · obtain ⟨hpml4e, -⟩ := List.forall_mem_cons.mp habove
    obtain ⟨-, hpdpt⟩ := hk.leadsTo hroot (fun _ => huser) hpml4e
    exact ⟨rfl, .inr ⟨hr, by simp, .of_update hk hpdpt hpd (index_lt _ _) (by simp) habsent rfl⟩⟩

theorem ptMap_spec (hk : TablesInv dm k) {cte vspace vaddr attr : Word}
    (htyped : (MapCall.mk .ptMap cte vspace vaddr attr).Typed k.slots) (huser : InUserHalf vaddr)
    (h : ptMap dm k cte vspace vaddr = (r, k')) :
    MapSpec dm k ⟨.ptMap, cte, vspace, vaddr, attr⟩ r k' := by
  have hroot := htyped.vspace_table
  have hframe := hk.apart.frame _ _ hroot
  have hpt : IsTable k.slots 0 (capPtr (k.slots cte).cap) := ⟨cte, by rw [htyped.1]; rfl, rfl⟩
  rw [rootOf] at hroot hframe
  simp only [ptMap, getPml4e_eq hframe, getPdpte_eq hframe, getPde_eq hframe,
    index_maskLow vaddr (show 21 ≤ 39 by decide), index_maskLow vaddr (show 21 ≤ 30 by decide),
    index_maskLow vaddr (show 21 ≤ 21 by decide)] at h
  rcases mapEntry_cases h with rfl | ⟨hr, habove, habsent, rfl⟩
  · exact ⟨rfl, .inl rfl⟩
  · simp only [List.forall_mem_cons] at habove
    obtain ⟨hpml4e, hpdpte, -⟩ := habove
    obtain ⟨-, hpdpt⟩ := hk.leadsTo hroot (fun _ => huser) hpml4e
    obtain ⟨-, hpd⟩ := hk.leadsTo hpdpt (by simp) hpdpte
    exact ⟨rfl, .inr ⟨hr, by simp, .of_update hk hpd hpt (index_lt _ _) (by simp) habsent rfl⟩⟩

/-- The copy of the kernel half writes no user entry. -/
theorem CopyContained.kept (hk : TablesInv dm k) {vspace vaddr current : Word}
    (hroot : IsTable k.slots 3 (rootOf k.slots vspace)) (hcopy : CopyContained dm k vspace vaddr)
    {t i : Word} (ht : UserEntry k.slots t i) :
    copyKernelHalf k.memory (getPml4e dm (rootOf k.slots vspace) (maskLow vaddr 39)) current
      (entryAt t i) = k.memory (entryAt t i) := by
  rw [copyKernelHalf_eq]
  refine copyWords_of_ne (fun j hj he => ?_) k.memory
  obtain ⟨n, hn, hi, huser⟩ := ht
  have hj := List.mem_range.mp hj
  obtain rfl := hcopy j hj _ t i hn hi he
  obtain rfl : n = 2 := by have := hk.apart.level _ _ _ hn hroot; omega
  have hi := huser rfl
  rw [getPml4e_eq (hk.apart.frame _ _ hroot), entryAt, entryAt, BitVec.add_assoc] at he
  have hnat := congrArg BitVec.toNat (add_left_cancel he)
  have hlt := index_lt (maskLow vaddr 39) 39
  simp only [kernelEntry, BitVec.toNat_add, BitVec.toNat_mul, BitVec.toNat_ofNat] at hnat
  omega

theorem pdptMap_spec (hk : TablesInv dm k) {cte vspace vaddr attr : Word}
    (htyped : (MapCall.mk .pdptMap cte vspace vaddr attr).Typed k.slots)
    (hcopy : CopyContained dm k vspace vaddr) (h : pdptMap dm k cte vspace vaddr = (r, k')) :
    MapSpec dm k ⟨.pdptMap, cte, vspace, vaddr, attr⟩ r k' := by
  have hroot : IsTable k.slots 3 (rootOf k.slots vspace) := htyped.vspace_table
  have hframe := hk.apart.frame _ _ hroot
  have hpdpt : IsTable k.slots 2 (capPtr (k.slots cte).cap) := ⟨cte, by rw [htyped.1]; rfl, rfl⟩
  have hentry : getPml4e dm (rootOf k.slots vspace) (maskLow vaddr 39) =
      entryAt (rootOf k.slots vspace) (index vaddr 39) := by
    rw [getPml4e_eq hframe, index_maskLow vaddr le_rfl]
  obtain ⟨copied, hcopied⟩ : ∃ copied, copied = copyKernelHalf k.memory
      (getPml4e dm (rootOf k.slots vspace) (maskLow vaddr 39)) (getPml4e dm k.vmRoot 0#64) :=
    ⟨_, rfl⟩
  have hleads : LeadsTo dm k.slots copied = LeadsTo dm k.slots k.memory :=
    leadsTo_congr fun t i ht => hcopied ▸ hcopy.kept hk hroot ht
  have hmap : mapEntry { k with memory := copied } []
      (getPml4e dm (rootOf k.slots vspace) (maskLow vaddr 39))
      (dm.physicalOf (capPtr (k.slots cte).cap) ||| ptePresent ||| pteWrite ||| pteUser) =
      (r, k') := by
    rw [hcopied]
    exact h
  rw [hentry] at hmap
  rcases mapEntry_cases hmap with rfl | ⟨hr, -, habsent, rfl⟩
  · exact ⟨rfl, .inl hleads⟩
  · refine ⟨rfl, ?_⟩
    have hinv : TablesInv dm { k with memory := copied } :=
      ⟨hk.apart, show Levelled (LeadsTo dm k.slots copied) _ from hleads ▸ hk.levelled⟩
    by_cases huser : InUserHalf vaddr
    · obtain ⟨n, t, i, ht, hu, hwith⟩ := Extends.of_update hinv hroot hpdpt (index_lt vaddr 39)
        (fun _ => huser) habsent rfl
      refine .inr ⟨hr, by simp, n, t, i, ht, hu, hwith.trans ?_⟩
      exact congrArg (With · t i _) hleads
    · -- an entry of the kernel half
      refine .inl ((leadsTo_congr fun t i ht => ?_).trans hleads)
      refine update_entry hk.apart _ hroot (index_lt vaddr 39) ht ?_
      rintro ⟨rfl, rfl⟩
      obtain ⟨n, hn, -, hlow⟩ := ht
      exact huser (hlow (by have := hk.apart.level _ _ _ hn hroot; omega))

/-- A page that is mapped is entered in the page table that the lookup ends at. -/
theorem pageMap_cases (hk : TablesInv dm k) {cte vspace vaddr attr : Word}
    (hroot : IsTable k.slots 3 (rootOf k.slots vspace)) (huser : InUserHalf vaddr)
    (h : pageMap dm k cte vspace vaddr attr = (r, k')) :
    k' = k ∨ ∃ pt value, lookup dm k.memory (rootOf k.slots vspace) (path vaddr) = some pt ∧
      IsTable k.slots 0 pt ∧
      k' = { k with memory := Function.update k.memory (entryAt pt (index vaddr 12)) value } := by
  have hframe := hk.apart.frame _ _ hroot
  rw [rootOf] at hroot hframe
  simp only [pageMap, getPml4e_eq hframe, getPdpte_eq hframe, getPde_eq hframe,
    getPte_eq hframe] at h
  rcases mapEntry_cases h with rfl | ⟨-, habove, -, rfl⟩
  · exact .inl rfl
  · simp only [List.forall_mem_cons] at habove
    obtain ⟨hpml4e, hpdpte, hpde, -⟩ := habove
    obtain ⟨-, hpdpt⟩ := hk.leadsTo hroot (fun _ => huser) hpml4e
    obtain ⟨-, hpd⟩ := hk.leadsTo hpdpt (by simp) hpdpte
    obtain ⟨-, hpt⟩ := hk.leadsTo hpd (by simp) hpde
    refine .inr ⟨_, _, ?_, hpt, rfl⟩
    simp only [path, lookup, rootOf, hpml4e, hpdpte, hpde, if_true]

/-- From the first entry on, the copy stays in its PML4. -/
theorem CopyContained.of_first (hk : TablesInv dm k) {vspace vaddr : Word}
    (hroot : IsTable k.slots 3 (rootOf k.slots vspace)) (hfirst : index vaddr 39 = 0#64) :
    CopyContained dm k vspace vaddr := by
  intro i hi n t j ht hj he
  have hframe := hk.apart.frame _ _ hroot
  rw [getPml4e_eq hframe, index_maskLow vaddr le_rfl, hfirst, entryAt] at he
  have hi' : (BitVec.ofNat 64 (256 + i)).toNat < 512 := by
    rw [BitVec.toNat_ofNat]
    omega
  have he' : entryAt (rootOf k.slots vspace) (BitVec.ofNat 64 (256 + i)) = entryAt t j := by
    simpa [entryAt, kernelEntry] using he
  exact (hframe.entryAt_inj (hk.apart.frame _ _ ht) hi' hj he').1.symm

/-- A call maps no table but the one it is invoked on. -/
theorem MapSpec.unmapped (h : MapSpec dm k c r k') {u : Word}
    (hne : u ≠ capPtr (k.slots c.cte).cap) (hu : ∀ t i, ¬ LeadsTo dm k.slots k.memory t i u) (t i : Word) :
    ¬ LeadsTo dm k'.slots k'.memory t i u := by
  rw [h.slots]
  rcases h.leads with hsame | ⟨-, -, n, t₀, i₀, -, -, hwith⟩
  · rw [hsame]
    exact hu t i
  · rw [hwith]
    rintro (hleads | ⟨-, -, he⟩)
    · exact hu t i hleads
    · exact hne he

/-- The entries of page tables lead to no table. -/
theorem leadsTo_page (hapart : TablesApart dm k.slots) {pt i : Word} (hpt : IsTable k.slots 0 pt)
    (hi : i.toNat < 512) (value : Word) :
    LeadsTo dm k.slots (Function.update k.memory (entryAt pt i) value) =
      LeadsTo dm k.slots k.memory := by
  refine leadsTo_congr fun t j ht => update_entry hapart value hpt hi ht ?_
  rintro ⟨rfl, -⟩
  obtain ⟨n, hn, -⟩ := ht
  have hlevel := hapart.level _ _ _ hn hpt
  omega

theorem MapCall.spec (hk : TablesInv dm k) (htyped : c.Typed k.slots) (hcont : Contained dm k c)
    (h : c.run dm k = (r, k')) : MapSpec dm k c r k' := by
  obtain ⟨method, cte, vspace, vaddr, attr⟩ := c
  cases method with
  | pdptMap => exact pdptMap_spec hk htyped hcont h
  | pdMap => exact pdMap_spec hk htyped hcont h
  | ptMap => exact ptMap_spec hk htyped hcont h
  | pageMap =>
    rcases pageMap_cases hk htyped.vspace_table hcont h with rfl | ⟨pt, value, -, hpt, rfl⟩
    · exact ⟨rfl, .inl rfl⟩
    · exact ⟨rfl, .inl (leadsTo_page hk.apart hpt (index_lt _ _) value)⟩

theorem TablesInv.step (hk : TablesInv dm k) (h : MapSpec dm k c r k') : TablesInv dm k' := by
  obtain ⟨hslots, hleads⟩ := h
  constructor <;> rw [hslots]
  · exact hk.apart
  · rcases hleads with hsame | ⟨-, -, n, t, i, ht, hu, hwith⟩
    · rw [hsame]
      exact hk.levelled
    · rw [hwith]
      refine hk.levelled.insert fun m hm => ?_
      obtain rfl : m = n := Nat.succ.inj (hk.apart.level _ _ _ hm ht)
      exact hu

/-- In runs that share no table, the tables form a forest. -/
theorem forest_step (hforest : Forest (LeadsTo dm k.slots k.memory)) (h : MapSpec dm k c r k')
    (hunshared : c.method ≠ .pageMap → r.isOk = true →
      ∀ t i, ¬ LeadsTo dm k.slots k.memory t i (capPtr (k.slots c.cte).cap)) :
    Forest (LeadsTo dm k'.slots k'.memory) := by
  rw [h.slots]
  rcases h.leads with hsame | ⟨hr, hmethod, n, t, i, -, -, hwith⟩
  · rw [hsame]
    exact hforest
  · rw [hwith]
    exact hforest.insert (hunshared hmethod hr)

theorem contained_inv (h : (mapSystem dm).ReachedBy (Contained dm) k) : TablesInv dm k :=
  h.invariant (fun _ => FreshTables.inv) fun _ _ _ hk hcont ⟨htyped, _, hrun⟩ =>
    hk.step (MapCall.spec hk htyped hcont hrun)

theorem unshared_forest (h : (mapSystem dm).ReachedBy (Unshared dm) k) :
    Forest (LeadsTo dm k.slots k.memory) := by
  refine (h.invariant (I := fun k => TablesInv dm k ∧ Forest (LeadsTo dm k.slots k.memory)) ?_ ?_).2
  · exact fun k hk => ⟨hk.inv, fun _ _ _ _ _ hleads => absurd hleads (hk.leadsTo_none _ _ _)⟩
  · rintro k c k' ⟨hk, hforest⟩ ⟨hcont, hunshared⟩ ⟨htyped, r, hrun⟩
    have hspec := MapCall.spec hk htyped hcont hrun
    refine ⟨hk.step hspec, forest_step hforest hspec ?_⟩
    rwa [hrun] at hunshared

/-! ## Isolation -/

/-- A write to an entry of a page table changes no lookup that ends elsewhere. -/
theorem resolve_update (hk : TablesInv dm k) {pt i value root virt : Word}
    (hpt : IsTable k.slots 0 pt) (hi : i.toNat < 512) (hroot : IsTable k.slots 3 root)
    (huser : InUserHalf virt)
    (hne : ∀ pt', lookup dm k.memory root (path virt) = some pt' →
      ¬ (pt' = pt ∧ index virt 12 = i)) :
    resolveVmMapping dm (Function.update k.memory (entryAt pt i) value) root virt =
      resolveVmMapping dm k.memory root virt := by
  have hleads := leadsTo_page hk.apart hpt hi value
  have hframe := hk.apart.frame _ _ hroot
  have hlookup : lookup dm (Function.update k.memory (entryAt pt i) value) root (path virt) =
      lookup dm k.memory root (path virt) := by
    apply Option.ext
    intro u
    rw [lookup_path_iff (hleads ▸ hk.levelled) hroot huser, hleads,
      lookup_path_iff hk.levelled hroot huser]
  rw [resolveVmMapping_eq hframe, resolveVmMapping_eq hframe, hlookup]
  cases hpt' : lookup dm k.memory root (path virt) with
  | none => rfl
  | some pt' =>
    have hwalk := (lookup_path_iff hk.levelled hroot huser).mp hpt'
    have htable : IsTable k.slots 0 pt' := hwalk.end_level hk.levelled 0 hroot
    have hentry : entryAt pt' (index virt 12) ≠ entryAt pt i := fun he =>
      hne pt' hpt' ((hk.apart.frame _ _ htable).entryAt_inj (hk.apart.frame _ _ hpt)
        (index_lt _ _) hi he)
    exact leafOf_congr (Function.update_of_ne hentry _ _)

/-- Below its PML4, the address is looked up in no table that was retyped. -/
def InKernelTables (dm : DirectMap) (k : Kernel) (root virt : Word) : Prop :=
  ∀ t i, LooksIn dm k.memory root virt t i → t = root ∨ ∀ n, ¬ IsTable k.slots n t

theorem InKernelTables.ne (hapart : TablesApart dm k.slots) {root virt pt i : Word}
    (hroot : IsTable k.slots 3 root) (hkernel : InKernelTables dm k root virt)
    (hpt : IsTable k.slots 0 pt) (hi : i.toNat < 512) {t j : Word}
    (hlooks : LooksIn dm k.memory root virt t j) : entryAt t j ≠ entryAt pt i := by
  intro he
  have hframe := hapart.frame _ _ hroot
  obtain ⟨haligned, hj⟩ := hlooks.bounds hframe
  obtain ⟨rfl, -⟩ :=
    entryAt_inj_of_aligned haligned (hapart.frame _ _ hpt).toNat.1 hj hi he
  rcases hkernel t j hlooks with rfl | hnone
  · have hlevel := hapart.level _ _ _ hpt hroot
    omega
  · exact hnone 0 hpt

/-- The map methods leave the capabilities. -/
theorem mapSystem_apart (h : (mapSystem dm).Reached k) : TablesApart dm k.slots := by
  refine h.invariant (I := fun k => TablesApart dm k.slots)
    (fun _ (hk : FreshTables dm _) => hk.apart) ?_
  rintro k ⟨method, cte, vspace, vaddr, attr⟩ k' hk - ⟨-, r, hrun⟩
  have hslots : k'.slots = k.slots := by
    rw [← show _ = k' from congrArg Prod.snd hrun]
    cases method <;> exact mapEntry_slots
  rw [hslots]
  exact hk

/-- A page that is mapped changes only the translation of what is looked up in
the very entry it is entered in. In every run from fresh tables whose calls are
contained, that is for a user address an entry of a page table, which no kernel
address is looked up in as long as the kernel half has its own tables. If no
table was mapped that was mapped already, that is the page itself. -/
theorem page_map_isolated (h : (mapSystem dm).Reached k) {cte vspace vaddr attr : Word}
    (htyped : (MapCall.mk .pageMap cte vspace vaddr attr).Typed k.slots)
    (hmap : pageMap dm k cte vspace vaddr attr = (r, k')) {vspace' vaddr' : Word}
    (hvspace' : (k.slots vspace').cap.type = .x86Pml4) :
    ((∀ t i, LooksIn dm k.memory (rootOf k.slots vspace') vaddr' t i →
        entryAt t i ≠ getPte dm k.memory (rootOf k.slots vspace) vaddr) →
      resolveVmMapping dm k'.memory (rootOf k.slots vspace') vaddr' =
        resolveVmMapping dm k.memory (rootOf k.slots vspace') vaddr') ∧
    ((mapSystem dm).ReachedBy (Contained dm) k → InUserHalf vaddr →
      (InUserHalf vaddr' →
        ¬ (∃ pt, lookup dm k.memory (rootOf k.slots vspace) (path vaddr) = some pt ∧
          lookup dm k.memory (rootOf k.slots vspace') (path vaddr') = some pt ∧
          index vaddr' 12 = index vaddr 12) →
        resolveVmMapping dm k'.memory (rootOf k.slots vspace') vaddr' =
          resolveVmMapping dm k.memory (rootOf k.slots vspace') vaddr') ∧
      (InKernelTables dm k (rootOf k.slots vspace') vaddr' →
        resolveVmMapping dm k'.memory (rootOf k.slots vspace') vaddr' =
          resolveVmMapping dm k.memory (rootOf k.slots vspace') vaddr')) ∧
    ((mapSystem dm).ReachedBy (Unshared dm) k → InUserHalf vaddr → InUserHalf vaddr' →
      ¬ (rootOf k.slots vspace' = rootOf k.slots vspace ∧ SamePage vaddr' vaddr) →
      resolveVmMapping dm k'.memory (rootOf k.slots vspace') vaddr' =
        resolveVmMapping dm k.memory (rootOf k.slots vspace') vaddr') := by
  have hapart := mapSystem_apart h
  have hroot := htyped.vspace_table
  have hroot' : IsTable k.slots 3 (rootOf k.slots vspace') := ⟨vspace', by rw [hvspace']; rfl, rfl⟩
  have hframe' := hapart.frame _ _ hroot'
  refine ⟨fun hread => ?_, fun hrun huser => ?_, fun hrun huser huser' hother => ?_⟩
  · rcases mapEntry_cases (show mapEntry k _ _ _ = _ from hmap) with rfl | ⟨-, -, -, rfl⟩
    · rfl
    · exact resolve_update_of_not_read hframe' hread
  · have hk := contained_inv hrun
    rcases pageMap_cases hk hroot huser hmap with rfl | ⟨pt, value, hlookup, hpt, rfl⟩
    · exact ⟨fun _ _ => rfl, fun _ => rfl⟩
    · constructor
      · intro huser' hapart'
        refine resolve_update hk hpt (index_lt _ _) hroot' huser' ?_
        rintro pt' hpt' ⟨rfl, hindex⟩
        exact hapart' ⟨pt', hlookup, hpt', hindex⟩
      · intro hkernel
        exact resolve_update_of_not_read hframe' fun t i hlooks =>
          hkernel.ne hapart hroot' hpt (index_lt _ _) hlooks
  · have hk := contained_inv (hrun.mono fun _ _ h => h.1)
    rcases pageMap_cases hk hroot huser hmap with rfl | ⟨pt, value, hlookup, hpt, rfl⟩
    · rfl
    · refine resolve_update hk hpt (index_lt _ _) hroot' huser' ?_
      rintro pt' hpt' ⟨rfl, hindex⟩
      have hwalk := (lookup_path_iff hk.levelled hroot huser).mp hlookup
      have hwalk' := (lookup_path_iff hk.levelled hroot' huser').mp hpt'
      obtain ⟨hsame, hpath⟩ := (unshared_forest hrun).walk_unique hwalk' hwalk rfl
      exact hother ⟨hsame, hpath, hindex⟩

end

/-! ## One vspace with one table of each level -/

/-- The frames from 64 KiB on. -/
def exampleFrame (j : Nat) : Word := lowMap.directMapOf (BitVec.ofNat 64 (0x10000 + 0x1000 * j))

/-- In slots 1 to 4 a PML4 and one table of each lower level, in slot 5 a page. -/
def tableSlots : Slots := fun a =>
  { cap :=
      if a = initSlot 1 then Cap.withPtr { type := .x86Pml4 } (exampleFrame 0)
      else if a = initSlot 2 then Cap.withPtr { type := .x86Pdpt } (exampleFrame 1)
      else if a = initSlot 3 then Cap.withPtr { type := .x86Pd } (exampleFrame 2)
      else if a = initSlot 4 then Cap.withPtr { type := .x86Pt } (exampleFrame 3)
      else if a = initSlot 5 then Cap.withPtr { type := .x86Page } (exampleFrame 4)
      else {} }

theorem tableSlots_tables {n : Nat} {t : Word} (h : IsTable tableSlots n t) :
    (n = 3 ∧ t = exampleFrame 0) ∨ (n = 2 ∧ t = exampleFrame 1) ∨
      (n = 1 ∧ t = exampleFrame 2) ∨ (n = 0 ∧ t = exampleFrame 3) := by
  obtain ⟨a, ha, rfl⟩ := h
  unfold tableSlots at ha ⊢
  dsimp only at ha ⊢
  split_ifs at ha ⊢ <;> cases ha <;> decide +kernel

theorem tableSlots_apart : TablesApart lowMap tableSlots where
  frame n t h := by
    rcases tableSlots_tables h with ⟨-, rfl⟩ | ⟨-, rfl⟩ | ⟨-, rfl⟩ | ⟨-, rfl⟩ <;>
      exact ⟨_, by decide, by decide, rfl⟩
  level n m t h h' := by
    rcases tableSlots_tables h with ⟨rfl, rfl⟩ | ⟨rfl, rfl⟩ | ⟨rfl, rfl⟩ | ⟨rfl, rfl⟩ <;>
      rcases tableSlots_tables h' with ⟨rfl, h⟩ | ⟨rfl, h⟩ | ⟨rfl, h⟩ | ⟨rfl, h⟩ <;>
      first
        | rfl
        | exact absurd h (by decide)

def tableKernel : Kernel := { Kernel.blank with slots := tableSlots }

theorem tableKernel_fresh : FreshTables lowMap tableKernel := ⟨tableSlots_apart, fun _ _ _ _ _ => rfl⟩

/-- Slot `j` is mapped at `vaddr` in the vspace of slot 1. -/
def mapAt (method : MapMethod) (j : Nat) (vaddr : Word) : MapCall :=
  ⟨method, initSlot j, initSlot 1, vaddr, pteWrite⟩

/-- The kernel after one call. -/
def mapped (k : Kernel) (c : MapCall) : Kernel := (c.run lowMap k).2

/-- One page table, mapped at address 0. -/
def tablesMapped : Kernel :=
  mapped (mapped (mapped tableKernel (mapAt .pdptMap 2 0#64)) (mapAt .pdMap 3 0#64))
    (mapAt .ptMap 4 0#64)

theorem mapped_slots (k : Kernel) (c : MapCall) : (mapped k c).slots = k.slots := by
  obtain ⟨method, cte, vspace, vaddr, attr⟩ := c
  cases method <;> exact mapEntry_slots

theorem mapped_step {k : Kernel} {method : MapMethod} {j : Nat} {vaddr : Word}
    (hk : k.slots = tableSlots) (hj : (tableSlots (initSlot j)).cap.type = method.type) :
    (mapSystem lowMap).step k (mapAt method j vaddr) (mapped k (mapAt method j vaddr)) :=
  ⟨⟨by rw [hk]; exact hj, by rw [hk]; rfl⟩, _, rfl⟩

theorem tablesMapped_slots : tablesMapped.slots = tableSlots := by
  simp only [tablesMapped, mapped_slots]
  rfl

/-- Each table was mapped once. -/
theorem tablesMapped_unshared : (mapSystem lowMap).ReachedBy (Unshared lowMap) tablesMapped := by
  let c₁ := mapAt .pdptMap 2 0#64
  let c₂ := mapAt .pdMap 3 0#64
  let c₃ := mapAt .ptMap 4 0#64
  let k₁ := mapped tableKernel c₁
  let k₂ := mapped k₁ c₂
  have hslots₁ : k₁.slots = tableSlots := mapped_slots _ _
  have hslots₂ : k₂.slots = tableSlots := (mapped_slots _ _).trans hslots₁
  have hinv := tableKernel_fresh.inv
  have hstep₁ : (mapSystem lowMap).step tableKernel c₁ k₁ := mapped_step rfl rfl
  have hcont₁ : Contained lowMap tableKernel c₁ :=
    .of_first hinv ⟨initSlot 1, rfl, rfl⟩ (by decide)
  have hspec₁ : MapSpec lowMap tableKernel c₁ _ k₁ := MapCall.spec hinv hstep₁.1 hcont₁ rfl
  have hstep₂ : (mapSystem lowMap).step k₁ c₂ k₂ := mapped_step hslots₁ rfl
  have hcont₂ : Contained lowMap k₁ c₂ := show InUserHalf 0#64 by unfold InUserHalf; decide
  have hspec₂ : MapSpec lowMap k₁ c₂ _ k₂ :=
    MapCall.spec (hinv.step hspec₁) hstep₂.1 hcont₂ rfl
  have hpd : ∀ t i, ¬ LeadsTo lowMap k₁.slots k₁.memory t i (exampleFrame 2) :=
    hspec₁.unmapped (by decide) fun t i => tableKernel_fresh.leadsTo_none t i _
  have hpt₁ : ∀ t i, ¬ LeadsTo lowMap k₁.slots k₁.memory t i (exampleFrame 3) :=
    hspec₁.unmapped (by decide) fun t i => tableKernel_fresh.leadsTo_none t i _
  have hpt : ∀ t i, ¬ LeadsTo lowMap k₂.slots k₂.memory t i (exampleFrame 3) :=
    hspec₂.unmapped (by rw [hslots₁]; decide) hpt₁
  refine .step (.step (.step (.start tableKernel_fresh) ⟨hcont₁, fun _ _ t i => ?_⟩ hstep₁)
    ⟨hcont₂, fun _ _ => ?_⟩ hstep₂) ⟨?_, fun _ _ => ?_⟩ (mapped_step hslots₂ rfl)
  · exact tableKernel_fresh.leadsTo_none t i _
  · rw [show capPtr (k₁.slots c₂.cte).cap = exampleFrame 2 by rw [hslots₁]; decide]
    exact hpd
  · show InUserHalf 0#64
    unfold InUserHalf
    decide
  · rw [show capPtr (k₂.slots c₃.cte).cap = exampleFrame 3 by rw [hslots₂]; decide]
    exact hpt

/-- Then a page is mapped at address 0. -/
def pageMapped : Kernel := mapped tablesMapped (mapAt .pageMap 5 0#64)

/-- Mapping a second page leaves the translation of the first. -/
theorem page_map_isolated_first :
    resolveVmMapping lowMap
        (pageMap lowMap pageMapped (initSlot 5) (initSlot 1) 0x1000#64 pteWrite).2.memory
        (rootOf pageMapped.slots (initSlot 1)) 0#64 =
      resolveVmMapping lowMap pageMapped.memory (rootOf pageMapped.slots (initSlot 1)) 0#64 := by
  have hslots : pageMapped.slots = tableSlots := (mapped_slots _ _).trans tablesMapped_slots
  have huser : InUserHalf 0#64 := by
    unfold InUserHalf
    decide
  have hcont : Contained lowMap tablesMapped (mapAt .pageMap 5 0#64) := huser
  have hrun : (mapSystem lowMap).ReachedBy (Unshared lowMap) pageMapped :=
    .step tablesMapped_unshared ⟨hcont, fun h => absurd rfl h⟩ (mapped_step tablesMapped_slots rfl)
  have htyped : (mapAt .pageMap 5 0x1000#64).Typed pageMapped.slots :=
    ⟨by rw [hslots]; rfl, by rw [hslots]; rfl⟩
  exact (page_map_isolated hrun.reached htyped Prod.mk.eta.symm
    (show (pageMapped.slots (initSlot 1)).cap.type = .x86Pml4 by rw [hslots]; rfl)).2.2 hrun
    huser huser fun h => absurd h.2.2 (by decide)

/-! ## Shared tables and the shared kernel half -/

/-- In slots 7 and 8 a second PML4 and a PDPT for it. -/
def sharedSlots : Slots := fun a =>
  if a = initSlot 7 then { cap := Cap.withPtr { type := .x86Pml4 } (exampleFrame 5) }
  else if a = initSlot 8 then { cap := Cap.withPtr { type := .x86Pdpt } (exampleFrame 6) }
  else tableSlots a

def sharedTables : List (Nat × Word) :=
  [(3, exampleFrame 0), (2, exampleFrame 1), (1, exampleFrame 2), (0, exampleFrame 3),
    (3, exampleFrame 5), (2, exampleFrame 6)]

theorem sharedSlots_tables {n : Nat} {t : Word} (h : IsTable sharedSlots n t) :
    (n, t) ∈ sharedTables := by
  obtain ⟨a, ha, rfl⟩ := h
  unfold sharedSlots at ha ⊢
  split_ifs at ha ⊢
  · cases ha
    decide +kernel
  · cases ha
    decide +kernel
  · rcases tableSlots_tables ⟨a, ha, rfl⟩ with ⟨rfl, ht⟩ | ⟨rfl, ht⟩ | ⟨rfl, ht⟩ | ⟨rfl, ht⟩ <;>
      rw [ht] <;> decide +kernel

/-- The current root, above the retyped tables, has the first entry of its kernel
half for a table of the kernel. -/
def kernelRoot : Word := 0x40000#64

def sharedKernel : Kernel := { Kernel.blank with
  slots := sharedSlots
  vmRoot := kernelRoot
  memory := fun a =>
    if a = entryAt (lowMap.directMapOf kernelRoot) 256#64 then 0x41007#64
    else 0#64 }

theorem sharedSlots_apart : TablesApart lowMap sharedSlots where
  frame n t h := by
    have hframes : ∀ table ∈ sharedTables, IsFrame lowMap table.2 := by
      simp only [sharedTables, List.forall_mem_cons]
      refine ⟨?_, ?_, ?_, ?_, ?_, ?_, by simp⟩ <;> exact ⟨_, by decide, by decide, rfl⟩
    exact hframes _ (sharedSlots_tables h)
  level n m t h h' := by
    have hlevels : ∀ table ∈ sharedTables, ∀ table' ∈ sharedTables,
        table.2 = table'.2 → table.1 = table'.1 := by decide +kernel
    exact hlevels _ (sharedSlots_tables h) _ (sharedSlots_tables h') rfl

theorem sharedKernel_fresh : FreshTables lowMap sharedKernel where
  apart := sharedSlots_apart
  zero n t i h hi := by
    have hroot : ∀ table ∈ sharedTables,
        table.2 ≠ lowMap.directMapOf kernelRoot := by decide +kernel
    exact if_neg fun he => hroot _ (sharedSlots_tables h)
      (entryAt_inj_of_aligned (sharedSlots_apart.frame n t h).toNat.1 (by decide) hi (by decide)
        he).1

/-- Slot `j` is mapped at `vaddr` in the vspace of slot `v`. -/
def mapIn (v : Nat) (method : MapMethod) (j : Nat) (vaddr : Word) : MapCall :=
  ⟨method, initSlot j, initSlot v, vaddr, pteWrite⟩

/-- The first address of the kernel half. -/
def kernelBase : Word := 0xFFFF800000000000#64

/-- The vspace of slot `v` has the first entry of the kernel half. -/
def withKernelEntry (k : Kernel) (v : Nat) : Kernel :=
  { k with
    memory := Function.update k.memory
      (getPml4e lowMap (rootOf k.slots (initSlot v)) 0#64 + kernelEntry 0)
      (k.memory (getPml4e lowMap k.vmRoot 0#64 + kernelEntry 0)) }

/-- Where the rest of the kernel half is the same, only its first entry is copied. -/
theorem mapped_pdptMap {k : Kernel} {v j : Nat}
    (hrest : ∀ i < 256, (withKernelEntry k v).memory
        (getPml4e lowMap (rootOf k.slots (initSlot v)) 0#64 + kernelEntry i) =
      (withKernelEntry k v).memory (getPml4e lowMap k.vmRoot 0#64 + kernelEntry i)) :
    mapped k (mapIn v .pdptMap j 0#64) =
      (mapEntry (withKernelEntry k v) [] (getPml4e lowMap (rootOf k.slots (initSlot v)) 0#64)
        (lowMap.physicalOf (capPtr (k.slots (initSlot j)).cap) ||| ptePresent ||| pteWrite |||
          pteUser)).2 := by
  have hcopy : copyKernelHalf k.memory (getPml4e lowMap (rootOf k.slots (initSlot v)) 0#64)
      (getPml4e lowMap k.vmRoot 0#64) = (withKernelEntry k v).memory := copyKernelHalf_of_rest rfl hrest
  have hbase : maskLow 0#64 39 = 0#64 := by decide
  simp only [mapped, MapCall.run, mapIn, pdptMap, hbase]
  rw [rootOf] at hcopy
  rw [hcopy]
  rfl

/-- The two vspaces with their PDPTs and the kernel half. -/
def kernelHalfShared : Kernel :=
  let entry j := lowMap.physicalOf (capPtr (sharedSlots (initSlot j)).cap) ||| ptePresent |||
    pteWrite ||| pteUser
  let k := (mapEntry (withKernelEntry sharedKernel 1) []
    (getPml4e lowMap (rootOf sharedSlots (initSlot 1)) 0#64) (entry 2)).2
  (mapEntry (withKernelEntry k 7) [] (getPml4e lowMap (rootOf sharedSlots (initSlot 7)) 0#64)
    (entry 8)).2

theorem kernelHalfShared_eq :
    mapped (mapped sharedKernel (mapIn 1 .pdptMap 2 0#64)) (mapIn 7 .pdptMap 8 0#64) =
      kernelHalfShared := by
  have hfirst := mapped_pdptMap (k := sharedKernel) (v := 1) (j := 2) (by decide +kernel)
  rw [hfirst, mapped_pdptMap (by decide +kernel)]
  rfl

/-- Then a page table is mapped in the kernel half of the first. -/
def kernelHalfMapped : Kernel :=
  mapped (mapped kernelHalfShared (mapIn 1 .pdMap 3 kernelBase)) (mapIn 1 .ptMap 4 kernelBase)

theorem mapped_slots_of {k : Kernel} {c : MapCall} {s : Slots} (hk : k.slots = s) :
    (mapped k c).slots = s := (mapped_slots k c).trans hk

theorem mapped_reached {k : Kernel} {v j : Nat} {method : MapMethod} {vaddr : Word}
    (h : (mapSystem lowMap).Reached k) (hk : k.slots = sharedSlots)
    (hv : (sharedSlots (initSlot v)).cap.type = .x86Pml4)
    (hj : (sharedSlots (initSlot j)).cap.type = method.type) :
    (mapSystem lowMap).Reached (mapped k (mapIn v method j vaddr)) :=
  .step h trivial ⟨⟨by rw [hk]; exact hj, by rw [hk]; exact hv⟩, _, rfl⟩

theorem kernelHalfShared_slots : kernelHalfShared.slots = sharedSlots := by
  rw [← kernelHalfShared_eq]
  exact mapped_slots_of (mapped_slots_of rfl)

theorem kernelHalfMapped_slots : kernelHalfMapped.slots = sharedSlots :=
  mapped_slots_of (mapped_slots_of kernelHalfShared_slots)

theorem kernelHalfMapped_reached : (mapSystem lowMap).Reached kernelHalfMapped := by
  have hshared : (mapSystem lowMap).Reached kernelHalfShared := by
    rw [← kernelHalfShared_eq]
    exact mapped_reached (mapped_reached (.start sharedKernel_fresh) rfl (by decide) (by decide))
      (mapped_slots_of rfl) (by decide) (by decide)
  exact mapped_reached (mapped_reached hshared kernelHalfShared_slots (by decide) (by decide))
    (mapped_slots_of kernelHalfShared_slots) (by decide) (by decide)

/-- A page that is mapped at `v` changes the translation of no other `v'` with
`V v v'`, in its vspace or another. -/
def Isolates (V : Word → Word → Prop) : Prop :=
  ∀ k, (mapSystem lowMap).Reached k → ∀ cte vspace vaddr attr r k',
    (MapCall.mk .pageMap cte vspace vaddr attr).Typed k.slots →
    pageMap lowMap k cte vspace vaddr attr = (r, k') → r.isOk = true →
    ∀ vspace' vaddr', (k.slots vspace').cap.type = .x86Pml4 → V vaddr vaddr' →
    ¬ (rootOf k.slots vspace' = rootOf k.slots vspace ∧ SamePage vaddr' vaddr) →
    resolveVmMapping lowMap k'.memory (rootOf k.slots vspace') vaddr' =
      resolveVmMapping lowMap k.memory (rootOf k.slots vspace') vaddr'

/-- A page table is mapped at 0 and at 2 MiB: a page mapped at 0 is mapped at
2 MiB too. -/
theorem not_isolates_user :
    ¬ Isolates (fun vaddr vaddr' => InUserHalf vaddr ∧ InUserHalf vaddr') := by
  intro h
  let k := mapped tablesMapped (mapAt .ptMap 4 0x200000#64)
  have hslots : k.slots = tableSlots := mapped_slots_of tablesMapped_slots
  have hrun : (mapSystem lowMap).Reached k :=
    .step tablesMapped_unshared.reached trivial (mapped_step tablesMapped_slots rfl)
  have hsame := h k hrun (initSlot 5) (initSlot 1) 0#64 pteWrite _ _
    ⟨by rw [hslots]; rfl, by rw [hslots]; rfl⟩ rfl (by decide +kernel) (initSlot 1) 0x200000#64
    (by rw [hslots]; rfl) (by unfold InUserHalf; decide) fun hpage => absurd hpage.2.1 (by decide)
  exact absurd hsame (by decide +kernel)

/-- No table is mapped twice, but the page appears in the other vspace as well. -/
theorem not_isolates_kernel : ¬ Isolates (fun vaddr _ => ¬ InUserHalf vaddr) := by
  intro h
  have hslots := kernelHalfMapped_slots
  have hsame := h kernelHalfMapped kernelHalfMapped_reached (initSlot 5) (initSlot 1) kernelBase
    pteWrite _ _ ⟨by rw [hslots]; rfl, by rw [hslots]; rfl⟩ Prod.mk.eta.symm (by decide +kernel)
    (initSlot 7)
    kernelBase (by rw [hslots]; decide) (by unfold InUserHalf; decide)
    fun hpage => absurd hpage.1 (by rw [hslots]; decide)
  exact absurd hsame (by decide +kernel)

/-- A page directory of the kernel half is mapped at 0 too. -/
theorem not_isolates_from_kernel :
    ¬ Isolates (fun vaddr vaddr' => InUserHalf vaddr ∧ ¬ InUserHalf vaddr') := by
  intro h
  obtain ⟨k, hk⟩ : ∃ k, k = mapped kernelHalfMapped (mapIn 1 .pdMap 3 0#64) := ⟨_, rfl⟩
  have hslots : k.slots = sharedSlots := hk ▸ mapped_slots_of kernelHalfMapped_slots
  have hrun : (mapSystem lowMap).Reached k :=
    hk ▸ mapped_reached kernelHalfMapped_reached kernelHalfMapped_slots (by decide) (by decide)
  have hsame := h k hrun (initSlot 5) (initSlot 1) 0#64 pteWrite _ _
    ⟨by rw [hslots]; rfl, by rw [hslots]; rfl⟩ Prod.mk.eta.symm (by rw [hk]; decide +kernel)
    (initSlot 1) kernelBase (by rw [hslots]; rfl) (by unfold InUserHalf; decide)
    fun hpage => absurd hpage.2.1 (by decide)
  rw [hk] at hsame
  exact absurd hsame (by decide +kernel)

/-- Tables are shared where they are mapped twice, in the kernel half of all
vspaces, and between the two halves. -/
theorem shared_table_maps_twice :
    ¬ Isolates (fun _ _ => True) ∧
    ¬ Isolates (fun vaddr vaddr' => InUserHalf vaddr ∧ InUserHalf vaddr') ∧
    ¬ Isolates (fun vaddr _ => ¬ InUserHalf vaddr) ∧
    ¬ Isolates (fun vaddr vaddr' => InUserHalf vaddr ∧ ¬ InUserHalf vaddr') := by
  refine ⟨fun h => not_isolates_user ?_, not_isolates_user, not_isolates_kernel,
    not_isolates_from_kernel⟩
  intro k hk cte vspace vaddr attr r k' htyped hmap hr vspace' vaddr' hvspace' _
  exact h k hk cte vspace vaddr attr r k' htyped hmap hr vspace' vaddr' hvspace' trivial

end Tern
