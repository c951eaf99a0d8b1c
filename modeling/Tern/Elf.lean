import Mathlib.Data.Finset.Union
import Tern.Mappings
import Tern.Lib.Bytes

/-! `load_elf`. Every PT_LOAD segment gets fresh pages at its addresses, then its bytes of
the file, then zeros. The image is read through the direct map; the segments are written
through the current address space. -/

namespace Tern

open Lib Lib.Trees

/-- `ALIGN_DOWN (x, a)`. -/
def alignDown (x a : Word) : Word := x &&& ~~~(a - 1#64)

/-- The first address of the page. -/
def pageOf (a : Word) : Word := alignDown a pageSize

/-! ## The headers -/

/-- The fields of `struct elf_phdr` that are read. -/
structure ElfPhdr where
  type : BitVec 32
  offset : Word
  vaddr : Word
  filesz : Word
  memsz : Word
  deriving DecidableEq, Repr

def ptLoad : BitVec 32 := 1#32

section

variable (memory : Word → Word)

/-- `*p`. -/
def elfPhdrAt (p : Word) : ElfPhdr where
  type := (numberAt memory p 4).setWidth 32
  offset := numberAt memory (p + 8#64) 8
  vaddr := numberAt memory (p + 16#64) 8
  filesz := numberAt memory (p + 32#64) 8
  memsz := numberAt memory (p + 40#64) 8

/-- `e->phnum`. -/
def phnum (e : Word) : Word := numberAt memory (e + 56#64) 2

/-- `phdr (e, i)`, with `e->phoff` and `e->phentsize`. -/
def phdr (e i : Word) : Word :=
  e + numberAt memory (e + 32#64) 8 + i * numberAt memory (e + 54#64) 2

end

/-! ## User memory -/

section

variable (dm : DirectMap)

/-- What is at a user address. -/
def userByte (memory : Word → Word) (root a : Word) : Option (BitVec 8) :=
  (translate dm memory root a).map fun phys => byteAt memory (dm.directMapOf phys)

/-- A byte is stored at a user address. The handler of a page fault halts. -/
def storeUser (s : VmState) (root a : Word) (b : BitVec 8) : Result VmState :=
  match translate dm s.memory root a with
  | none => .error .halted
  | some phys => .ok { s with memory := storeByte s.memory (dm.directMapOf phys) b }

/-- The loops of `memcpy` and `memset`, which differ in the byte that is stored. -/
def storeLoop (root : Word) (value : (Word → Word) → Word → BitVec 8) :
    Nat → Word → Word → VmState → Result VmState
  | 0, _, _, s => .ok s
  | n + 1, dest, src, s => do
    let s ← storeUser dm s root dest (value s.memory src)
    storeLoop root value n (dest + 1#64) (src + 1#64) s

/-- `memcpy` from kernel to user memory. -/
def memcpy (s : VmState) (root dest src n : Word) : Result VmState :=
  storeLoop dm root byteAt n.toNat dest src s

/-- `memset` in user memory. -/
def memset (s : VmState) (root dest : Word) (c : BitVec 8) (n : Word) : Result VmState :=
  storeLoop dm root (fun _ _ => c) n.toNat dest dest s

/-! ## Loading -/

/-- The loop of `map_elf_phdr` from `pg` on. -/
def mapElfPhdrFrom (root p : Word) : Nat → Word → VmState → Result VmState
  | 0, _, _ => .error .outOfFuel
  | fuel + 1, pg, s =>
    if pg < (elfPhdrAt s.memory p).vaddr + (elfPhdrAt s.memory p).memsz then do
      let (page, pages) ← allocPage s.pages
      let s ← addVmMapping dm { s with pages } root pg page (ptePresent ||| pteUser ||| pteWrite)
      mapElfPhdrFrom root p fuel (pg + pageSize) s
    else return s

def mapElfPhdr (fuel : Nat) (s : VmState) (root p : Word) : Result VmState :=
  mapElfPhdrFrom dm root p fuel (alignDown (elfPhdrAt s.memory p).vaddr pageSize) s

/-- What `load_elf` does with a PT_LOAD segment. -/
def loadSegment (fuel : Nat) (s : VmState) (root e p : Word) : Result VmState := do
  let s ← mapElfPhdr dm fuel s root p
  let s ← memcpy dm s root (elfPhdrAt s.memory p).vaddr (e + (elfPhdrAt s.memory p).offset)
    (elfPhdrAt s.memory p).filesz
  memset dm s root ((elfPhdrAt s.memory p).vaddr + (elfPhdrAt s.memory p).filesz) 0#8
    ((elfPhdrAt s.memory p).memsz - (elfPhdrAt s.memory p).filesz)

/-- The loop of `load_elf` from header `i` on. -/
def loadElfFrom (rounds : Nat) (root e : Word) : Nat → Word → VmState → Result VmState
  | 0, _, _ => .error .outOfFuel
  | fuel + 1, i, s =>
    if i < phnum s.memory e then
      if (elfPhdrAt s.memory (phdr s.memory e i)).type ≠ ptLoad then
        loadElfFrom rounds root e fuel (i + 1#64) s
      else do
        let s ← loadSegment dm rounds s root e (phdr s.memory e i)
        loadElfFrom rounds root e fuel (i + 1#64) s
    else return s

/-- `load_elf` with `root` in CR3. -/
def loadElf (fuel : Nat) (s : VmState) (root e : Word) : Result VmState :=
  loadElfFrom dm fuel root e fuel 0#64 s

end

/-! ## Segments -/

namespace ElfPhdr

variable (p : ElfPhdr)

/-- The address is one of the segment's bytes. -/
def Holds (a : Word) : Prop := p.vaddr.toNat ≤ a.toNat ∧ a.toNat < p.vaddr.toNat + p.memsz.toNat

/-- The address is in a page that `map_elf_phdr` maps for the segment. -/
def Maps (a : Word) : Prop :=
  p.vaddr.toNat / 4096 ≤ a.toNat / 4096 ∧ a.toNat / 4096 * 4096 < p.vaddr.toNat + p.memsz.toNat

instance (a : Word) : Decidable (p.Holds a) := inferInstanceAs (Decidable (_ ∧ _))

instance (a : Word) : Decidable (p.Maps a) := inferInstanceAs (Decidable (_ ∧ _))

/-- The byte of the file, or zero behind the file's bytes. -/
def contents (memory : Word → Word) (e a : Word) : BitVec 8 :=
  if a.toNat < p.vaddr.toNat + p.filesz.toNat then byteAt memory (e + p.offset + (a - p.vaddr)) else 0#8

/-- How many pages `map_elf_phdr` maps. -/
def pageTotal : Nat := (p.vaddr.toNat + p.memsz.toNat + 4095) / 4096 - p.vaddr.toNat / 4096

/-- The page that `map_elf_phdr` maps in round `k`. -/
def pageAt (k : Nat) : Word := BitVec.ofNat 64 ((p.vaddr.toNat / 4096 + k) * 4096)

/-- The pages that `map_elf_phdr` maps, in their order. -/
def mapped : List Word := (List.range p.pageTotal).map p.pageAt

end ElfPhdr

/-- The PT_LOAD segments of the image, in the order of their headers. -/
def segments (memory : Word → Word) (e : Word) : List ElfPhdr :=
  ((List.range (phnum memory e).toNat).map fun i =>
    elfPhdrAt memory (phdr memory e (BitVec.ofNat 64 i))).filter fun p => p.type = ptLoad

/-- An ELF image of `size` bytes has its headers and the file's bytes of its segments inside. -/
structure IsElfImage (memory : Word → Word) (e : Word) (size : Nat) : Prop where
  bound : e.toNat + size ≤ 2 ^ 64
  header : 64 ≤ size
  headers : ∀ i < (phnum memory e).toNat, e.toNat ≤ (phdr memory e (BitVec.ofNat 64 i)).toNat ∧
    (phdr memory e (BitVec.ofNat 64 i)).toNat + 56 ≤ e.toNat + size
  file : ∀ p ∈ segments memory e, p.offset.toNat + p.filesz.toNat ≤ size

/-- The pages that the image is in. -/
def IsImagePage (e : Word) (size : Nat) (f : Word) : Prop :=
  ∃ k < size, f = pageOf (e + BitVec.ofNat 64 k)

/-- The paths to the tables of these pages. -/
def tablePaths (pages : List Word) : Finset (List Word) :=
  pages.toFinset.biUnion fun a => {[index a 39], [index a 39, index a 30], path a}

/-- The pages that `load_elf` asks `alloc_page` for: one for every page of a segment, and
one for every table that is missing on the way to one. -/
def pagesNeeded (dm : DirectMap) (memory : Word → Word) (root e : Word) : Nat :=
  ((segments memory e).flatMap ElfPhdr.mapped).length +
    ((tablePaths ((segments memory e).flatMap ElfPhdr.mapped)).filter fun q =>
      descend (tableAt dm memory root 256) root q = none).card

end Tern
